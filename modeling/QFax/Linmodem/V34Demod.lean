import QFax.Lib.SharedState
import QFax.Linmodem.FrameStream
import QFax.Linmodem.Scrambler
import QFax.Linmodem.TrellisDecoder

/-!
# The V.34 demodulator

`V34_demod` turns samples into baseband symbols, goes through the phases of the start-up, and hands
the symbols behind it to `baseband_decode`, which decodes the trellis and the mapping frames.  All
this works on the `V34DSPState` of the call, but for two counters that are static variables of the
functions: `ptr` skips symbols after the training, and `delay` skips the decoder's first decisions.
The filters, which compute with floating point, are parameters.
-/

namespace QFax.Linmodem

open SharedState

/-! ## From samples to symbols -/

/-- The filters of an instance, with all their buffers and coefficients in one state. -/
structure V34Filters (φ : Type) where
  /-- The state that `V34_init_low` leaves. -/
  init : V34Params → φ
  /-- `agc_estimate`, and the sample goes into the ring buffer. -/
  insert : φ → Int → φ
  /-- The matched filter at a phase, for samples that are `baud_num` apart. -/
  matched : φ → Int → Int → Int
  /-- The filters of `v34_symbol_sync`, and their correlation. -/
  symbol_sync : φ → Int → φ × Int
  /-- A sample of the PP sequence goes into `eq_buf`. -/
  store : φ → Nat → Int → φ
  /-- `V34_fast_equalize`, which clears `eq_buf`. -/
  fast_equalize : φ → φ
  /-- The amplitude of the training signal. -/
  amplitude : Int → Int
  /-- A sample goes into the ring buffer of `v34_equalize`. -/
  eq_insert : φ → Int → φ
  /-- The rest of `v34_equalize`: the symbol, and the adapted equalizer. -/
  equalize : φ → (Int × Int) × φ

/-- `V34_STARTUP3_WAIT_S1` and the phases behind it. -/
inductive RxState
  | waitS1
  | s1
  | sinv1
  | s2
  | sinv2
  | pp
  | trn
  deriving DecidableEq

def EQ_FRAC : Nat := 3

/-- Symbol rate and sample rate: a1 and c1. -/
def baud_tab : Fin 6 → Nat × Nat :=
  ![(3, 10), (12, 35), (7, 20), (3, 8), (2, 5), (3, 7)]

/-- The part of the receiver that finds the symbols. -/
structure RxFront (φ : Type) where
  filters : φ
  baud_num : Int
  baud_denom : Int
  baud_phase : Int
  baud3_phase : Nat
  state : RxState
  sym_count : Nat
  deriving DecidableEq

namespace RxFront

variable {φ : Type} (k : V34Filters φ)

/-- Fast symbol timing recovery. -/
def v34_symbol_sync (f : RxFront φ) (spl : Int) : RxFront φ :=
  let (filters, v) := k.symbol_sync f.filters spl
  { f with
    filters := filters
    baud_phase := if f.baud3_phase = 0 then f.baud_phase - v <<< (3 : Nat) else f.baud_phase }

/-- Count a symbol; after `n` of them comes the next state. -/
def untilCount (f : RxFront φ) (n : Nat) (next : RxState) : RxFront φ :=
  if n * EQ_FRAC ≤ f.sym_count + 1 then { f with state := next, sym_count := 0 }
  else { f with sym_count := f.sym_count + 1 }

/-- Store the middle of the PP sequence, train the equalizer with it, and wait for its end. -/
def trainPP (f : RxFront φ) (si : Int) : RxFront φ :=
  let f :=
    if 120 * EQ_FRAC ≤ f.sym_count ∧ f.sym_count < 168 * EQ_FRAC then
      { f with filters := k.store f.filters (f.sym_count - 120 * EQ_FRAC) si }
    else f
  let f :=
    if f.sym_count = 168 * EQ_FRAC then { f with filters := k.fast_equalize f.filters } else f
  if f.sym_count + 1 = 288 * EQ_FRAC then
    { f with sym_count := f.sym_count + 1, state := .trn }
  else { f with sym_count := f.sym_count + 1 }

/-- Equalize; one sample of `EQ_FRAC` makes a symbol. -/
def v34_equalize (f : RxFront φ) (spl : Int) : RxFront φ × Option (Int × Int) :=
  let filters := k.eq_insert f.filters spl
  if f.baud3_phase ≠ 0 then ({ f with filters := filters }, none)
  else
    let (symbol, filters) := k.equalize filters
    ({ f with filters := filters }, some symbol)

/-- One baseband sample. -/
def receive (f : RxFront φ) (si : Int) : RxFront φ × Option (Int × Int) :=
  match f.state with
  -- wait for the S signal
  | .waitS1 => (if 13000 < si.natAbs then { f with state := .s1, sym_count := 0 } else f, none)
  -- S signals are mainly used to recover the symbol clock
  | .s1 => ((f.v34_symbol_sync k si).untilCount 128 .sinv1, none)
  | .sinv1 => ((f.v34_symbol_sync k si).untilCount 16 .s2, none)
  | .s2 => ((f.v34_symbol_sync k si).untilCount 128 .sinv2, none)
  | .sinv2 => ((f.v34_symbol_sync k si).untilCount 100 .pp, none)
  | .pp => (f.trainPP k si, none)
  | .trn => f.v34_equalize k (k.amplitude si)

/-- The loop over the baseband samples of a sample: the symbols.  It ends within the given number of
turns, or has no result. -/
def basebandLoop : Nat → RxFront φ → Option (RxFront φ × List (Int × Int))
  | turns, f =>
    if f.baud_phase < f.baud_denom then some (f, [])
    else
      match turns with
      | 0 => none
      | turns + 1 => do
        let f := { f with baud_phase := f.baud_phase - f.baud_denom }
        let (f, symbol) := f.receive k (k.matched f.filters f.baud_phase f.baud_num)
        let f := { f with baud3_phase := if f.baud3_phase + 1 = EQ_FRAC then 0 else f.baud3_phase + 1 }
        let (f, symbols) ← basebandLoop turns f
        some (f, symbol.toList ++ symbols)

/-- The symbols of some samples. -/
def symbols (turns : Nat) : RxFront φ → List Int → Option (RxFront φ × List (Int × Int))
  | f, [] => some (f, [])
  | f, spl :: samples => do
    let f := { f with filters := k.insert f.filters spl, baud_phase := f.baud_phase + f.baud_num }
    let (f, first) ← basebandLoop k turns f
    let (f, later) ← symbols turns f samples
    some (f, first ++ later)

variable {k} in
theorem symbols_append {turns : Nat} {f f' : RxFront φ} {xs : List Int} {out : List (Int × Int)}
    (run : f.symbols k turns xs = some (f', out)) (ys : List Int) :
    f.symbols k turns (xs ++ ys) = (f'.symbols k turns ys).map fun (f, later) => (f, out ++ later) := by
  induction xs generalizing f out with
  | nil =>
    cases run
    simp
  | cons x xs ih =>
    simp only [symbols, Option.bind_eq_bind, Option.bind_eq_some_iff] at run
    obtain ⟨⟨f₁, first⟩, loop, ⟨f₂, later⟩, rest, same⟩ := run
    cases same
    simp only [List.cons_append, symbols, loop, Option.bind_eq_bind, Option.bind_some, ih rest]
    cases symbols k turns f₂ ys <;> simp

end RxFront

/-! ## From symbols to bits -/

/-- The part of the receiver that decodes symbols, with its parameters. -/
structure RxBack where
  p : V34Params
  trellis : TrellisDecoder
  /-- Index of the current symbol in the 4D symbol. -/
  phase_4d : Nat
  /-- Current 4D symbol. -/
  yy : Points
  /-- The points of a mapping frame, by the index of the first one of each pair. -/
  rx_mapping_frame : Nat → Points
  rx_mapping_frame_count : Nat
  decoder : Decoder
  scrambler_reg : BitVec 23

/-- The static variables: of `V34_demod`, and of `baseband_decode`. -/
structure V34Statics where
  ptr : Int
  delay : Int
  deriving DecidableEq

/-- Both are zero when the program starts. -/
def V34Statics.start : V34Statics := ⟨0, 0⟩

/-- `++ptr > 28 * 2` -/
def V34Statics.skipped (st : V34Statics) : Bool := 28 * 2 < int32 (st.ptr + 1)

/-- `delay > TRELLIS_LENGTH` after `delay++`. -/
def V34Statics.filled (st : V34Statics) : Bool := (TRELLIS_LENGTH : Int) < int32 (st.delay + 1)

namespace RxBack

/-- Unscramble the bits of a frame for the callback. -/
def putBits (p : V34Params) : BitVec 23 → List Bool → BitVec 23 × List Bool
  | reg, [] => (reg, [])
  | reg, b :: bits =>
    let (out, reg) := put_bit p reg b
    let (reg, outs) := putBits p reg bits
    (reg, out :: outs)

/-- A 4D symbol for the mapping frame; a complete frame is decoded. -/
def frameSymbol (s : RxBack) : Option (RxBack × List Bool) :=
  if s.rx_mapping_frame_count + 2 = 8 then do
    let frame := [0, 2, 4, 6].map s.rx_mapping_frame
    let (decoder, bits) ← decode_mapping_frame s.p s.decoder frame
    let (reg, out) := putBits s.p s.scrambler_reg bits
    some ({ s with decoder := decoder, scrambler_reg := reg, rx_mapping_frame_count := 0 }, out)
  else some ({ s with rx_mapping_frame_count := s.rx_mapping_frame_count + 2 }, [])

/-- A symbol goes into the current 4D symbol. -/
def store (s : RxBack) (symbol : Int × Int) : RxBack :=
  let point := (s16 symbol.1, s16 symbol.2)
  { s with yy := if s.phase_4d = 0 then (point, s.yy.2) else (s.yy.1, point) }

/-- Decode a complete 4D symbol; the decision is used when the decoder is filled. -/
def decode4d (s : RxBack) (filled : Bool) : Option (RxBack × List Bool) :=
  let (y, _, trellis) := trellis_decoder s.p.conv_nb_states s.trellis s.yy
  let s := { s with
    trellis := trellis
    phase_4d := 0
    rx_mapping_frame := Function.update s.rx_mapping_frame s.rx_mapping_frame_count y }
  if filled then s.frameSymbol else some (s, [])

def baseband_decode (st : V34Statics) (s : RxBack) (symbol : Int × Int) :
    Option (V34Statics × RxBack × List Bool) :=
  let s := s.store symbol
  if s.phase_4d + 1 = 2 then
    (s.decode4d st.filled).map fun (s, out) => ({ st with delay := int32 (st.delay + 1) }, s, out)
  else some (st, { s with phase_4d := s.phase_4d + 1 }, [])

/-- What `V34_demod` does with a symbol of the equalizer. -/
def symbol (st : V34Statics) (s : RxBack) (symbol : Int × Int) :
    Option (V34Statics × RxBack × List Bool) :=
  let st' := { st with ptr := int32 (st.ptr + 1) }
  if st.skipped then s.baseband_decode st' symbol else some (st', s, [])

end RxBack

/-- The receiver of one instance. -/
structure V34Rx (φ : Type) where
  front : RxFront φ
  back : RxBack

section Demod

variable {φ : Type} (k : V34Filters φ) (turns : Nat)

/-- The instance after `memset` and `V34_init_low`. -/
def V34_demod_init (v : V34State) : V34Rx φ where
  front :=
    { filters := k.init (V34_init_low v)
      baud_num := (baud_tab v.S).1 * 3 <<< (16 : Nat)
      baud_denom := (baud_tab v.S).2 <<< (16 : Nat)
      -- temporary hack to synchronize
      baud_phase := (if v.S = 5 then 1 else 2) <<< (16 : Nat)
      baud3_phase := 0
      state := .waitS1
      sym_count := 0 }
  back :=
    { p := V34_init_low v
      trellis := .init
      phase_4d := 0
      yy := ((0, 0), (0, 0))
      rx_mapping_frame := fun _ => ((0, 0), (0, 0))
      rx_mapping_frame_count := 0
      decoder := ⟨⟨0, 0, 0⟩, 0⟩
      scrambler_reg := 0 }

/-- Demodulate some samples: the bits given to the callback. -/
def V34_demod (st : V34Statics) (s : V34Rx φ) (samples : List Int) :
    Option (V34Statics × V34Rx φ × List Bool) := do
  let (front, symbols) ← s.front.symbols k turns samples
  let (st, back, bits) ← alone RxBack.symbol st s.back symbols
  some (st, ⟨front, back⟩, bits)

variable {k turns} in
theorem V34_demod_eq {st st' : V34Statics} {s : V34Rx φ} {samples : List Int} {f : RxFront φ}
    {back : RxBack} {symbols : List (Int × Int)} {bits : List Bool}
    (front : s.front.symbols k turns samples = some (f, symbols))
    (decoded : alone RxBack.symbol st s.back symbols = some (st', back, bits)) :
    V34_demod k turns st s samples = some (st', ⟨f, back⟩, bits) := by
  simp only [V34_demod, front, decoded, Option.bind_eq_bind, Option.bind_some]

end Demod

end QFax.Linmodem

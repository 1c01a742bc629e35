import QFax.Linmodem.V34Demod

/-!
# Receivers side by side

`V34_demod` is called for several receivers in any order.  The static counters `ptr` and `delay` count
the symbols of all of them, so that a receiver skips fewer symbols after its training when another
one has been running.  As long as every test of a counter comes out as with a counter of the
receiver's own, each receiver delivers what it delivers alone.
-/

namespace QFax.Linmodem

open SharedState

/-- The static counters answer as the receiver's own would: whether to skip the symbol, and whether
the decision for a complete 4D symbol is used. -/
def SameTests (shared own : V34Statics) (s : RxBack) (_ : Int × Int) : Prop :=
  shared.skipped = own.skipped ∧
    (own.skipped = true → s.phase_4d = 1 → shared.filled = own.filled)

variable {φ : Type} (k : V34Filters φ) (turns : Nat)

/-- All symbols of a call of `V34_demod` meet the same tests with shared and own counters. -/
def Unnoticed (shared own : V34Statics) (s : V34Rx φ) (samples : List Int) : Prop :=
  ∀ r ∈ s.front.symbols k turns samples, MeetsAlone RxBack.symbol SameTests shared own s.back r.2

/-- Each receiver puts out, over any calls of all of them, what it puts out alone. -/
def Reentrant {ι : Type} [DecidableEq ι] (v : ι → V34State) (calls : List (ι × List Int)) : Prop :=
  ∀ st s bits, together (V34_demod k turns) .start (fun j => V34_demod_init k (v j)) calls =
      some (st, s, bits) →
    ∀ j, ∃ own s', alone (V34_demod k turns) .start (V34_demod_init k (v j)) (only j calls) =
      some (own, s', only j bits)

/-! ## Tests that agree -/

theorem baseband_decode_congr {shared own : V34Statics} {s : RxBack} (symbol : Int × Int)
    (filled : s.phase_4d = 1 → shared.filled = own.filled) :
    (s.baseband_decode shared symbol).map (·.2) = (s.baseband_decode own symbol).map (·.2) := by
  simp only [RxBack.baseband_decode]
  split
  case isTrue complete =>
    rw [filled (Nat.add_right_cancel complete), Option.map_map, Option.map_map]
    rfl
  case isFalse => rfl

theorem hides_symbol : Hides RxBack.symbol SameTests := by
  rintro shared own s symbol ⟨skipped, filled⟩
  unfold RxBack.symbol
  rw [skipped]
  split
  case isTrue passed => exact baseband_decode_congr symbol (filled passed)
  case isFalse => rfl

theorem hides_demod : Hides (V34_demod k turns) (Unnoticed k turns) := by
  intro shared own s samples unnoticed
  unfold V34_demod
  cases run : s.front.symbols k turns samples with
  | none => rfl
  | some r =>
    have same := alone_eq hides_symbol (unnoticed r run)
    simp only [Option.bind_eq_bind, Option.bind_some]
    cases first : alone RxBack.symbol shared s.back r.2 <;>
      cases second : alone RxBack.symbol own s.back r.2 <;> simp_all

/-- Receivers are independent in every run in which no test of a counter tells the shared counters
from those of the receiver alone. -/
theorem reentrant_of_unnoticed {ι : Type} [DecidableEq ι] (v : ι → V34State)
    (calls : List (ι × List Int))
    (unnoticed : Meets (V34_demod k turns) (Unnoticed k turns) .start (fun _ => .start)
      (fun j => V34_demod_init k (v j)) calls) : Reentrant k turns v calls := by
  intro st s bits run j
  obtain ⟨own, alone⟩ := together_eq_alone (hides_demod k turns) unnoticed run j
  exact ⟨own, s j, alone⟩

/-! ## A receiver that starts later -/

/-- What decides when the next mapping frame is complete. -/
structure FrameProgress where
  st : V34Statics
  phase_4d : Nat
  count : Nat
  deriving DecidableEq

/-- One more symbol; none if it completes a mapping frame. -/
def FrameProgress.next (c : FrameProgress) : Option FrameProgress :=
  let ptr := int32 (c.st.ptr + 1)
  if c.st.skipped then
    if c.phase_4d + 1 = 2 then
      if c.st.filled then
        if c.count + 2 = 8 then none
        else some ⟨⟨ptr, int32 (c.st.delay + 1)⟩, 0, c.count + 2⟩
      else some ⟨⟨ptr, int32 (c.st.delay + 1)⟩, 0, c.count⟩
    else some ⟨⟨ptr, c.st.delay⟩, c.phase_4d + 1, c.count⟩
  else some { c with st := ⟨ptr, c.st.delay⟩ }

def FrameProgress.after : Nat → FrameProgress → Option FrameProgress
  | 0, c => some c
  | n + 1, c => c.next.bind (FrameProgress.after n)

/-- The decoder is where the counters say. -/
def RxBack.At (s : RxBack) (c : FrameProgress) : Prop :=
  s.phase_4d = c.phase_4d ∧ s.rx_mapping_frame_count = c.count

/-- A decision that is not used, or that completes no frame. -/
theorem decode4d_quiet (s : RxBack) {filled : Bool}
    (open' : filled = true → s.rx_mapping_frame_count + 2 ≠ 8) :
    ∃ s', s.decode4d filled = some (s', []) ∧ s'.phase_4d = 0 ∧
      s'.rx_mapping_frame_count = s.rx_mapping_frame_count + (if filled then 2 else 0) ∧
      s'.p = s.p ∧ s'.decoder = s.decoder := by
  cases filled with
  | false => exact ⟨_, rfl, rfl, rfl, rfl, rfl⟩
  | true =>
    simp only [RxBack.decode4d, RxBack.frameSymbol, if_neg (open' rfl), if_true]
    exact ⟨_, rfl, rfl, rfl, rfl, rfl⟩

theorem symbol_of_skipped {st : V34Statics} (s : RxBack) (symbol : Int × Int)
    (skipped : st.skipped = true) (complete : s.phase_4d + 1 = 2) :
    s.symbol st symbol = ((s.store symbol).decode4d st.filled).map
      fun (s, out) => (⟨int32 (st.ptr + 1), int32 (st.delay + 1)⟩, s, out) := by
  simp only [RxBack.symbol, if_pos skipped, RxBack.baseband_decode]
  exact if_pos complete

/-- A symbol that completes no frame puts nothing out. -/
theorem symbol_quiet {s : RxBack} {c c' : FrameProgress} (here : s.At c) (next : c.next = some c')
    (symbol : Int × Int) : ∃ s', s.symbol c.st symbol = some (c'.st, s', []) ∧ s'.At c' ∧
      s'.p = s.p ∧ s'.decoder = s.decoder := by
  obtain ⟨phase, count⟩ := here
  unfold FrameProgress.next at next
  split_ifs at next with skipped complete filled full <;> cases next
  · obtain ⟨s', decoded, phase', count', same⟩ :=
      decode4d_quiet (s.store symbol) fun _ => show s.rx_mapping_frame_count + 2 ≠ 8 from count ▸ full
    rw [symbol_of_skipped s symbol skipped (phase ▸ complete), filled, decoded]
    exact ⟨s', rfl, ⟨phase', count'.trans (congrArg (· + 2) count)⟩, same⟩
  · obtain ⟨s', decoded, phase', count', same⟩ :=
      decode4d_quiet (s.store symbol) fun set => absurd set filled
    rw [symbol_of_skipped s symbol skipped (phase ▸ complete), decoded]
    rw [if_neg filled] at count'
    exact ⟨s', rfl, ⟨phase', count'.trans count⟩, same⟩
  · simp only [RxBack.symbol, if_pos skipped, RxBack.baseband_decode]
    rw [if_neg (show ¬ (s.store symbol).phase_4d + 1 = 2 from phase ▸ complete)]
    exact ⟨_, rfl, ⟨congrArg (· + 1) phase, count⟩, rfl, rfl⟩
  · rw [RxBack.symbol, if_neg skipped]
    exact ⟨s, rfl, ⟨phase, count⟩, rfl, rfl⟩

/-- Symbols that complete no frame put nothing out. -/
theorem symbols_quiet {s : RxBack} {c c' : FrameProgress} (here : s.At c) (symbols : List (Int × Int))
    (after : c.after symbols.length = some c') :
    ∃ s', alone RxBack.symbol c.st s symbols = some (c'.st, s', []) ∧ s'.At c' ∧
      s'.p = s.p ∧ s'.decoder = s.decoder := by
  induction symbols generalizing s c with
  | nil =>
    cases after
    exact ⟨s, rfl, here, rfl, rfl⟩
  | cons symbol symbols ih =>
    rw [List.length_cons, FrameProgress.after, Option.bind_eq_some_iff] at after
    obtain ⟨c₁, next, after⟩ := after
    obtain ⟨s₁, first, here₁, p₁, decoder₁⟩ := symbol_quiet here next symbol
    obtain ⟨s', rest, here', p', decoder'⟩ := ih here₁ after
    refine ⟨s', ?_, here', p'.trans p₁, decoder'.trans decoder₁⟩
    simp only [alone, first, rest, Option.bind_eq_bind, Option.bind_some, List.append_nil]

/-- Parameters with short frames and without an auxiliary channel. -/
structure Plain (p : V34Params) : Prop where
  short : p.b ≤ 12
  aux : p.W = 0
  frames : 0 < p.P

/-- The first frame puts bits out. -/
theorem first_frame {p : V34Params} (plain : Plain p) (frame : List (Point × Point)) :
    ∃ d' b bits, decode_mapping_frame p ⟨⟨0, 0, 0⟩, 0⟩ frame = some (d', b :: bits) := by
  obtain ⟨short, aux, frames⟩ := plain
  have fits : ¬ MAX_MAPPING_FRAME_SIZE < (Counters.next p ⟨0, 0, 0⟩).1 := by
    simp only [Counters.next]
    split <;> simp only [MAX_MAPPING_FRAME_SIZE] <;> omega
  have noAux : (Counters.next p ⟨0, 0, 0⟩).2.1 = false := by
    simp [Counters.next, aux, frames]
  obtain ⟨data, written⟩ : ∃ data, writeFrame p (Counters.next p ⟨0, 0, 0⟩).1
      (decodeSymbols p.q 0 frame).1 = some data := by
    rw [writeFrame, if_pos short]
    exact ⟨_, rfl⟩
  refine ⟨⟨(Counters.next p ⟨0, 0, 0⟩).2.2, (decodeSymbols p.q 0 frame).2⟩, data.getD 0 false,
    (data.take (Counters.next p ⟨0, 0, 0⟩).1).drop 1, ?_⟩
  simp only [decode_mapping_frame, if_neg fits, written, noAux, Option.bind_eq_bind,
    Option.bind_some, Bool.false_eq_true, if_false, List.singleton_append]

theorem frameSymbol_first {s : RxBack} (full : s.rx_mapping_frame_count + 2 = 8) (plain : Plain s.p)
    (start : s.decoder = ⟨⟨0, 0, 0⟩, 0⟩) : ∃ s' b bits, s.frameSymbol = some (s', b :: bits) := by
  obtain ⟨d', b, bits, decoded⟩ := first_frame plain ([0, 2, 4, 6].map s.rx_mapping_frame)
  simp only [RxBack.frameSymbol, if_pos full, start, decoded, Option.bind_eq_bind,
    Option.bind_some, RxBack.putBits]
  exact ⟨_, _, _, rfl⟩

/-- The symbol that completes the first frame puts bits out. -/
theorem symbol_frame {s : RxBack} {c : FrameProgress} (here : s.At c) (last : c.next = none)
    (plain : Plain s.p) (start : s.decoder = ⟨⟨0, 0, 0⟩, 0⟩) (symbol : Int × Int) :
    ∃ st s' b bits, s.symbol c.st symbol = some (st, s', b :: bits) := by
  obtain ⟨phase, count⟩ := here
  unfold FrameProgress.next at last
  split_ifs at last with skipped complete filled full
  have decoded : ∃ s' b bits, (s.store symbol).decode4d true = some (s', b :: bits) :=
    frameSymbol_first (show s.rx_mapping_frame_count + 2 = 8 from count ▸ full) plain start
  obtain ⟨s', b, bits, decoded⟩ := decoded
  rw [symbol_of_skipped s symbol skipped (phase ▸ complete), filled, decoded]
  exact ⟨_, s', b, bits, rfl⟩

/-- A receiver that gets eight symbols puts nothing out alone, but decodes a mapping frame at once
when another one has got 120 symbols before, whatever the filters are. -/
theorem not_reentrant_of_counts {v : V34State} (plain : Plain (V34_init_low v)) {xs ys : List Int}
    {f f' : RxFront φ} {first second : List (Int × Int)}
    (symbols : (V34_demod_init k v).front.symbols k turns xs = some (f, first))
    (symbols' : (V34_demod_init k v).front.symbols k turns ys = some (f', second))
    (length : first.length = 120) (length' : second.length = 8) :
    ¬ Reentrant k turns (fun _ : Bool => v) [(false, xs), (true, ys)] := by
  intro reentrant
  have here : ∀ st, (V34_demod_init k v).back.At ⟨st, 0, 0⟩ := fun _ => ⟨rfl, rfl⟩
  -- the first receiver moves the counters, but completes no frame
  have after₁ : FrameProgress.after first.length ⟨.start, 0, 0⟩ = some ⟨⟨120, 32⟩, 0, 4⟩ := by
    rw [length]
    decide +kernel
  obtain ⟨back, counted, -⟩ := symbols_quiet (here .start) first after₁
  have ran := V34_demod_eq (s := V34_demod_init k v) symbols counted
  rcases List.eq_nil_or_concat' second with rfl | ⟨seven, last, rfl⟩
  · cases length'
  rw [List.length_append, List.length_singleton] at length'
  have length'' : seven.length = 7 := Nat.succ.inj length'
  -- the second one completes its first frame with its eighth symbol
  have after₂ : FrameProgress.after seven.length ⟨⟨120, 32⟩, 0, 0⟩ = some ⟨⟨127, 35⟩, 1, 6⟩ := by
    rw [length'']
    decide +kernel
  obtain ⟨back₁, filled, here₁, p₁, decoder₁⟩ := symbols_quiet (here ⟨120, 32⟩) seven after₂
  obtain ⟨st, back₂, b, bits, frame⟩ :=
    symbol_frame here₁ (by decide +kernel) (p₁ ▸ plain) (decoder₁.trans rfl) last
  have early := V34_demod_eq (s := V34_demod_init k v) symbols' (alone_snoc filled frame)
  -- alone it skips all of them
  have after₃ : FrameProgress.after (seven ++ [last]).length ⟨.start, 0, 0⟩ =
      some ⟨⟨8, 0⟩, 0, 0⟩ := by
    rw [List.length_append, List.length_singleton, length'']
    decide +kernel
  obtain ⟨back₃, skipped, -⟩ := symbols_quiet (here .start) (seven ++ [last]) after₃
  have quiet := V34_demod_eq (s := V34_demod_init k v) symbols' skipped
  have run := together_pair (s := fun _ : Bool => V34_demod_init k v) (show true ≠ false by decide) ran early
  obtain ⟨own, s', delivered⟩ := reentrant _ _ _ run true
  have same := (alone_one quiet).symm.trans delivered
  simp [only] at same

/-- Filters that pass the samples through, at the phases that the receiver counts off. -/
def passThrough : V34Filters Int where
  init := fun _ => 0
  insert := fun _ spl => spl
  matched := fun spl _ _ => spl
  symbol_sync := fun spl _ => (spl, 0)
  store := fun spl _ _ => spl
  fast_equalize := id
  amplitude := id
  eq_insert := fun spl _ => spl
  equalize := fun spl => ((spl, spl), spl)

/-- A strong signal for some samples. -/
def strong (n : Nat) : List Int := List.replicate n 14000

theorem strong_add (m n : Nat) : strong (m + n) = strong m ++ strong n :=
  List.replicate_add m n 14000

/-- A receiver at 3429 symbols and 2400 bits per second. -/
def slow : V34State := minimumShape ⟨5, by decide⟩ 2400

/-- Its front end while it gets the strong signal, once for each 350 samples. -/
def strongFront (state : RxState) (sym_count : Nat) : RxFront Int :=
  ⟨14000, 9 * 2 ^ 16, 7 * 2 ^ 16, 2 ^ 16, 0, state, sym_count⟩

theorem symbols_s2 : (V34_demod_init passThrough slow).front.symbols passThrough 2 (strong 350) =
    some (strongFront .s2 17, []) := by decide +kernel

/-- After 1400 samples the equalizer is about to be trained. -/
theorem symbols_training : (V34_demod_init passThrough slow).front.symbols passThrough 2
    (strong 1400) = some (strongFront .pp 683, []) := by
  have sinv2 : (strongFront .s2 17).symbols passThrough 2 (strong 350) =
      some (strongFront .sinv2 83, []) := by decide +kernel
  have pp : (strongFront .sinv2 83).symbols passThrough 2 (strong 350) =
      some (strongFront .pp 233, []) := by decide +kernel
  have pp' : (strongFront .pp 233).symbols passThrough 2 (strong 350) =
      some (strongFront .pp 683, []) := by decide +kernel
  rw [show 1400 = 350 + (350 + (350 + 350)) from rfl, strong_add, strong_add, strong_add,
    RxFront.symbols_append symbols_s2, RxFront.symbols_append sinv2, RxFront.symbols_append pp, pp']
  rfl

/-- The symbols of a longer signal are those behind the training. -/
theorem symbols_strong {n m : Nat}
    (count : ((strongFront .pp 683).symbols passThrough 2 (strong n)).map (·.2.length) = some m) :
    ∃ f out, (V34_demod_init passThrough slow).front.symbols passThrough 2 (strong (1400 + n)) =
      some (f, out) ∧ out.length = m := by
  obtain ⟨⟨f, out⟩, run, length⟩ := Option.map_eq_some_iff.mp count
  refine ⟨f, out, ?_, length⟩
  rw [strong_add]
  exact (RxFront.symbols_append symbols_training (strong n)).trans (by rw [run]; rfl)

/-- What a receiver does with a strong signal: a number of symbols. -/
theorem symbols_hundred_twenty : ∃ f out,
    (V34_demod_init passThrough slow).front.symbols passThrough 2 (strong 1821) = some (f, out) ∧
      out.length = 120 :=
  symbols_strong (n := 421) (by decide +kernel)

theorem symbols_eight : ∃ f out,
    (V34_demod_init passThrough slow).front.symbols passThrough 2 (strong 1560) = some (f, out) ∧
      out.length = 8 :=
  symbols_strong (n := 160) (by decide +kernel)

/-- A receiver that is still waiting for its training does not disturb one that decodes. -/
theorem unnoticed_training : Meets (V34_demod passThrough 2) (Unnoticed passThrough 2) .start
    (fun _ => .start) (fun _ : Bool => V34_demod_init passThrough slow)
    [(true, strong 350), (false, strong 1821)] := by
  have quiet : V34_demod passThrough 2 .start (V34_demod_init passThrough slow) (strong 350) =
      some (.start, ⟨strongFront .s2 17, (V34_demod_init passThrough slow).back⟩, []) :=
    V34_demod_eq symbols_s2 rfl
  refine ⟨?_, ?_⟩
  · intro r run
    cases symbols_s2.symm.trans run
    trivial
  · simp only [quiet]
    refine meets_one fun r _ => meetsAlone_self (fun h s a => ⟨rfl, fun _ _ => rfl⟩) _ _ _

theorem reentrant_training : Reentrant passThrough 2 (fun _ : Bool => slow)
    [(true, strong 350), (false, strong 1821)] :=
  reentrant_of_unnoticed passThrough 2 _ _ unnoticed_training

/-- The 120 symbols of one receiver make the other one decode its eighth symbol. -/
theorem second_receiver_early : ¬ Reentrant passThrough 2 (fun _ : Bool => slow)
    [(false, strong 1821), (true, strong 1560)] := by
  obtain ⟨f, first, symbols, length⟩ := symbols_hundred_twenty
  obtain ⟨f', second, symbols', length'⟩ := symbols_eight
  exact not_reentrant_of_counts passThrough 2 ⟨by decide, by decide, by decide⟩ symbols symbols'
    length length'

end QFax.Linmodem

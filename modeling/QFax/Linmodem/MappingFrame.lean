import QFax.Lib.LowBits
import QFax.Linmodem.Constellation
import QFax.Linmodem.Shell
import QFax.Linmodem.Trellis

/-!
# V.34: mapping frames

`encode_mapping_frame` fetches the scrambled bits of one frame and turns them into eight points;
`decode_mapping_frame` turns eight received points into the bits of a frame.  Both keep the same
fractional counters, which tell the size of a frame and whether its first bit belongs to the
auxiliary channel.  The loops `r |= *ptr++ << i` and `*ptr++ = (r >> i) & 1` of the source are `word`
and `lowBits`.  A step that writes beyond an array, reads a table entry that was never filled
or fails an assertion has no result.
-/

namespace QFax.Linmodem

open Bits

/-! ## Frame counters -/

/-- Number of the mapping frame and fractional counters, the same on both sides. -/
structure Counters where
  mapping_frame : Nat
  rcnt : Int
  acnt : Int
  deriving DecidableEq

/-- Size of the next frame, whether it carries an auxiliary bit, and the counters after it. -/
def Counters.next (p : V34Params) (c : Counters) : Nat × Bool × Counters :=
  let rcnt := c.rcnt + p.r
  let (mp_size, rcnt) := if rcnt < p.P then (p.b - 1, rcnt) else (p.b, rcnt - p.P)
  let acnt := c.acnt + p.W
  let (aux, acnt) := if acnt < p.P then (false, acnt) else (true, acnt - p.P)
  -- a new data frame starts with cleared counters
  (mp_size, aux, if p.P ≤ c.mapping_frame + 1 then ⟨0, 0, 0⟩ else ⟨c.mapping_frame + 1, rcnt, acnt⟩)

/-! ## The scrambler -/

def V34_GPC : BitVec 23 := 1 ||| 1 <<< (23 - 18 : Nat)
def V34_GPA : BitVec 23 := 1 ||| 1 <<< (23 - 5 : Nat)

/-- Divide the bit sequence by `poly`. -/
def scramble_bit (reg : BitVec 23) (b : Bool) (poly : BitVec 23) : Bool × BitVec 23 :=
  let b1 := reg.msb ^^ b
  (b1, if b1 then reg <<< (1 : Nat) ^^^ poly else reg <<< (1 : Nat))

/-- Where the bits come from: the caller's callback, which gives no bit while it has none, and the
scrambler in front of it. -/
structure BitSource (σ : Type) where
  scrambler_reg : BitVec 23
  input : σ

section Fetch

variable {σ : Type} (p : V34Params) (callback : σ → Option Bool × σ)

def get_bit (s : BitSource σ) : Bool × BitSource σ :=
  let (b, input) := callback s.input
  let poly := if p.calling then V34_GPC else V34_GPA
  let (b1, reg) := scramble_bit s.scrambler_reg (b.getD true) poly
  (b1, ⟨reg, input⟩)

def get_bits : Nat → BitSource σ → List Bool × BitSource σ
  | 0, s => ([], s)
  | n + 1, s =>
    let (b, s) := get_bit p callback s
    let (bs, s) := get_bits n s
    (b :: bs, s)

/-- The array `data` of a frame: the first bit is a zero from the auxiliary channel in its turn. -/
def fetchFrame (mp_size : Nat) (aux : Bool) (s : BitSource σ) : List Bool × BitSource σ :=
  let (first, s) := if aux then (false, s) else get_bit p callback s
  let (rest, s) := get_bits p callback (mp_size - 1) s
  (first :: rest, s)

end Fetch

/-! ## The fields of a frame -/

/-- The coded bits `I[0][j]`, `I[1][j]`, `I[2][j]` and uncoded bits `Q[j]` of a 4D symbol. -/
structure Symbol4D where
  I0 : Nat
  I1 : Nat
  I2 : Nat
  Q : Nat × Nat
  deriving DecidableEq

/-- The fields of one 4D symbol at `ptr`, and the rest. -/
def readSymbol (q : Nat) (ptr : List Bool) : Symbol4D × List Bool :=
  let uncoded := ptr.drop 3
  ({ I0 := (ptr.getD 0 false).toNat
     I1 := (ptr.getD 1 false).toNat
     I2 := (ptr.getD 2 false).toNat
     Q := (word (uncoded.take q), word ((uncoded.drop q).take q)) },
   (uncoded.drop q).drop q)

def readSymbols (q : Nat) : Nat → List Bool → List Symbol4D
  | 0, _ => []
  | n + 1, ptr => (readSymbol q ptr).1 :: readSymbols q n (readSymbol q ptr).2

/-- Without shell mapping the bits fill the three rows of `I`; where `data` was not written it
holds what was there before. -/
def shortSymbols (b : Nat) (data : List Bool) (stale : Nat → Nat) : List Symbol4D :=
  let I := fun i => if i < b then (data[i]?.map Bool.toNat).getD (stale i) else 0
  (List.range 4).map fun j => { I0 := I j, I1 := I (4 + j), I2 := I (8 + j), Q := (0, 0) }

/-- How many bits are shell-mapped: one less in a short frame. -/
def shellBits (p : V34Params) (mp_size : Nat) : Nat := if mp_size < p.b then p.K - 1 else p.K

/-! ## Encoder -/

/-- Most bits of a frame. -/
def MAX_MAPPING_FRAME_SIZE : Nat := 79

/-- What a 16-bit integer holds of a value. -/
def int16 (x : Int) : Int := x.bmod (2 ^ 16)

/-- Shift by `n` and round toward zero. -/
def shr_round0 (val : Int) (n : Nat) : Int :=
  let offset : Int := 2 ^ (n - 1) - 1
  if 0 ≤ val then (val + offset) >>> n else -((-val + offset) >>> n)

/-- Clamp `a` between `-v` and `v`. -/
def clamp (a v : Int) : Int := if a > v then v else if a < -v then -v else a

/-- A 2D symbol: the point of the trellis coder and the precoded one for the modulator. -/
structure Emitted where
  Y : Point
  sent : Point

/-- Map, rotate and precode one 2D symbol; the sum `c_re + c_im` and the new precoder memory come
with it. -/
def encodePoint (p : V34Params) (t Z : Int) (x : Fin 3 → Point) :
    Option (Emitted × Int × (Fin 3 → Point)) :=
  let w : Nat := if p.b < 56 then 1 else 2
  -- `assert(t >= 0 && t < L_MAX/4)`
  if ¬ (0 ≤ t ∧ t < (L_MAX / 4 : Nat)) then none else
    let u := rotate_clockwise (constellation.getD t.toNat (0, 0)) Z.toNat
    let taps := List.finRange 3
    let re := (taps.map fun k => (x k).1 * (p.h k).1 - (x k).2 * (p.h k).2).sum
    let im := (taps.map fun k => (x k).2 * (p.h k).1 + (x k).1 * (p.h k).2).sum
    let p_re := shr_round0 re 14
    let p_im := shr_round0 im 14
    let c_re := shr_round0 p_re (7 + w) <<< w
    let c_im := shr_round0 p_im (7 + w) <<< w
    let Y := (clamp (u.1 + c_re) 255, clamp (u.2 + c_im) 255)
    let sent := (Y.1 <<< (7 : Nat) - p_re, Y.2 <<< (7 : Nat) - p_im)
    some (⟨Y, sent⟩, c_re + c_im, ![(int16 sent.1, int16 sent.2), x 0, x 1])

/-- The mapping state of the transmitter. -/
structure MapperState where
  Z_1 : Int
  U0 : Nat
  bit : U0 < 2
  x : Fin 3 → Point
  coder : TrellisCoder

theorem parity_lt (C0 : Int) : ((C0 >>> (1 : Nat)) % 2).toNat < 2 := by omega

/-- One 4D symbol: differential coding, mapping of two points, trellis coder. -/
def encodeSymbol (p : V34Params) (s : MapperState) (symbol : Symbol4D) (m : Int × Int) :
    Option (MapperState × (Emitted × Emitted)) := do
  let Z0 := (symbol.I1 + 2 * symbol.I2 + s.Z_1) % 4
  let Z1 := (Z0 + 2 * symbol.I0 + s.U0) % 4
  let (first, c, x) ← encodePoint p (symbol.Q.1 + m.1 * 2 ^ p.q) Z0 s.x
  let (second, c', x) ← encodePoint p (symbol.Q.2 + m.2 * 2 ^ p.q) Z1 x
  let C0 := c + c'
  let coded := trellis_encoder p.conv_nb_states s.coder ((C0 >>> (1 : Nat)) % 2).toNat (first.Y, second.Y)
  let coder : TrellisCoder :=
    if s.coder.sync_count + 1 = 2 * p.P then
      ⟨coded.1, 0,
        if s.coder.half_data_frame_count + 1 = 2 * p.J then 0
        else s.coder.half_data_frame_count + 1⟩
    else ⟨coded.1, s.coder.sync_count + 1, s.coder.half_data_frame_count⟩
  some (⟨Z0, coded.2, trellis_encoder_bit _ _ (parity_lt C0) _, x, coder⟩, (first, second))

def encodeSymbols (p : V34Params) :
    MapperState → List (Symbol4D × (Int × Int)) → Option (MapperState × List (Emitted × Emitted))
  | s, [] => some (s, [])
  | s, (symbol, m) :: rest => do
    let (s, point) ← encodeSymbol p s symbol m
    let (s, points) ← encodeSymbols p s rest
    some (s, point :: points)

/-- The transmitter between frames. -/
structure Encoder (σ : Type) where
  counters : Counters
  mapper : MapperState
  bits : BitSource σ

/-- What a frame leaves: the next state, the scrambled bits it fetched, its eight points. -/
structure EncodedFrame (σ : Type) where
  next : Encoder σ
  fetched : List Bool
  points : List (Emitted × Emitted)

/-- The rings and the other fields of a frame. -/
def readFrame (p : V34Params) (mp_size : Nat) (data : List Bool) (stale : Nat → Nat) :
    Option (List (Symbol4D × (Int × Int))) :=
  if p.b ≤ 12 then
    some ((shortSymbols p.b data stale).map fun symbol => (symbol, (0, 0)))
  else do
    let n := shellBits p mp_size
    let ring ← index_to_rings (build_rings p.M) (word (data.take n))
    some ((readSymbols p.q 4 (data.drop n)).zip (List.ofFn ring))

def encode_mapping_frame {σ : Type} (p : V34Params) (callback : σ → Option Bool × σ)
    (stale : Nat → Nat) (e : Encoder σ) : Option (EncodedFrame σ) := do
  let (mp_size, aux, counters) := e.counters.next p
  let (data, bits) := fetchFrame p callback mp_size aux e.bits
  if MAX_MAPPING_FRAME_SIZE < mp_size then none else
    let symbols ← readFrame p mp_size data stale
    let (mapper, points) ← encodeSymbols p e.mapper symbols
    some ⟨⟨counters, mapper, bits⟩, if aux then data.tail else data, points⟩

/-! ## Decoder -/

/-- The receiver between frames. -/
structure Decoder where
  counters : Counters
  Z_1 : Int

/-- Decision for one received point: quarter turns and index. -/
def decodePoint (rx : Point) : Nat × Nat :=
  let x := clamp ((rx.1 >>> (8 : Nat)) * 2 + 1) C_RADIUS
  let y := clamp ((rx.2 >>> (8 : Nat)) * 2 + 1) C_RADIUS
  let t := constellation_to_code (cell (x, y))
  (t >>> 14, t &&& 0xff)

/-- The fields and rings of one received 4D symbol, and the new `Z_1`. -/
def decodeSymbol (q : Nat) (Z_1 : Int) (rx : Point × Point) : Symbol4D × (Int × Int) × Int :=
  let (Z0, t0) := decodePoint rx.1
  let (Z1, t1) := decodePoint rx.2
  let t := (((Z0 : Int) - Z_1) % 4).toNat
  let t' := (((Z1 : Int) - Z0) % 4).toNat
  ({ I0 := t' >>> 1, I1 := t % 2, I2 := t >>> 1, Q := (t0 % 2 ^ q, t1 % 2 ^ q) },
   ((t0 >>> q : Nat), (t1 >>> q : Nat)), Z0)

def decodeSymbols (q : Nat) : Int → List (Point × Point) → List (Symbol4D × (Int × Int)) × Int
  | Z_1, [] => ([], Z_1)
  | Z_1, rx :: rest =>
    let (symbol, m, Z_1) := decodeSymbol q Z_1 rx
    let (symbols, Z_1) := decodeSymbols q Z_1 rest
    ((symbol, m) :: symbols, Z_1)

/-- The bits of one 4D symbol behind the shell-mapped ones. -/
def writeSymbol (q : Nat) (symbol : Symbol4D) : List Bool :=
  [symbol.I0 == 1, symbol.I1 == 1, symbol.I2 == 1] ++ lowBits q symbol.Q.1 ++
    lowBits q symbol.Q.2

/-- The array `data` of a received frame. -/
def writeFrame (p : V34Params) (mp_size : Nat) (symbols : List (Symbol4D × (Int × Int))) :
    Option (List Bool) :=
  if p.b ≤ 12 then
    let I := symbols.map (·.1.I0) ++ symbols.map (·.1.I1) ++ symbols.map (·.1.I2)
    some ((I.take p.b).map (· == 1))
  else do
    let r0 ← rings_to_index (build_rings p.M) fun j => (symbols.map (·.2)).getD j (0, 0)
    some (lowBits (shellBits p mp_size) r0 ++ (symbols.map (·.1)).flatMap (writeSymbol p.q))

/-- The new state, and the bits handed to `put_bit`. -/
def decode_mapping_frame (p : V34Params) (d : Decoder) (rx_mapping_frame : List (Point × Point)) :
    Option (Decoder × List Bool) := do
  let (symbols, Z_1) := decodeSymbols p.q d.Z_1 rx_mapping_frame
  let (mp_size, aux, counters) := d.counters.next p
  if MAX_MAPPING_FRAME_SIZE < mp_size then none else
    let data ← writeFrame p mp_size symbols
    let first := if aux then [] else [data.getD 0 false]
    some (⟨counters, Z_1⟩, first ++ (data.take mp_size).drop 1)

end QFax.Linmodem

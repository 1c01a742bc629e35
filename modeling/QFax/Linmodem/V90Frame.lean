import QFax.Lib.LowBits
import QFax.Lib.MixedRadix
import QFax.Linmodem.V90Init

/-!
# V.90: mapping frames

`v90_encode_mapping_frame` turns `S + K` bits into six samples: the `K` bits select the ucodes by
repeated division, the `S` bits their signs, through the look-ahead trellis of the spectral shaping
where signs are redundant.  `v90_decode_mapping_frame` finds the ucodes by binary search and undoes
the choices of the trellis.  An operation that the language leaves undefined has no result; `int`
arithmetic of the shaping filter wraps at 32 bits.
-/

namespace QFax.Linmodem

open Bits

/-- Ring buffer size of the previous ucodes. -/
def UCODE_BUF_SIZE : Nat := 32

/-- `buf[i & (UCODE_BUF_SIZE - 1)] = x` -/
def store {α : Type} (buf : Nat → α) (i : Nat) (x : α) : Nat → α :=
  Function.update buf (i % UCODE_BUF_SIZE) x

/-- `(ptr - back) & (UCODE_BUF_SIZE - 1)` -/
def ringIndex (ptr : Nat) (back : Nat) : Nat := (((ptr : Int) - back) % UCODE_BUF_SIZE).toNat

/-- An 8-bit word from its low bits. -/
def byteOf (bits : List Bool) : BitVec 8 := BitVec.ofNat 8 (word bits)

structure V90EncodeState where
  /-- Index of the first pam value of the current mapping frame. -/
  ucode_ptr : Nat
  ucode : Nat → Nat
  /-- Signs before shaping, grouped by frame. -/
  pp : Nat → BitVec 8
  last_sign : Bool
  /-- Signs of the last shaped frame, and the memory of the shaping filter. -/
  t : BitVec 8
  x : Int
  y : Int
  v : Int
  /-- Current state of the shaping trellis. -/
  Q : Bool

/-- The encoder before the first frame. -/
def startEncode : V90EncodeState :=
  ⟨0, fun _ => 0, fun _ => 0, false, 0, 0, 0, 0, false⟩

/-! ## Spectral shaping -/

/-- The bit inversion of a transition from `lstate` to `state`. -/
def sign_op (state lstate : Bool) : BitVec 8 :=
  match state, lstate with
  | false, false => 0
  | false, true => 0x55
  | true, false => 0xff
  | true, true => 0xaa

/-- What a path of the shaping trellis carries: signs, filter memory, weight. -/
structure ShapeNode where
  t : BitVec 8
  x : Int
  y : Int
  v : Int
  w : Int

/-- `int` and `s16` results. -/
def wrap32 (x : Int) : Int := x.bmod (2 ^ 32)
def wrap16 (x : Int) : Int := x.bmod (2 ^ 16)

/-- The spectral shaping filter over one sample of the frame with signs `sg`. -/
def shapeSample (p : V90Params) (s : V90EncodeState) (ucode_ptr : Nat) (sg : BitVec 8)
    (node : ShapeNode) (i : Nat) : ShapeNode :=
  let level := ucode_to_linear p.alaw (s.ucode ((ucode_ptr + i) % UCODE_BUF_SIZE))
  let x := if sg.getLsbD i then level else -level
  let y := wrap32 (x - (wrap32 (p.b1 * node.x + p.a1 * node.y) >>> (6 : Nat)))
  let v := wrap32 (y - (wrap32 (p.b2 * node.y + p.a2 * node.v) >>> (6 : Nat)))
  let w := wrap32 ((wrap32 (v * v) >>> (4 : Nat)) + node.w)
  ⟨node.t, x, y, v, w⟩

/-- The end of the transition from node `last` of state `lstate` to `state`. -/
def transition (p : V90Params) (s : V90EncodeState) (sp_frame_size ucode_ptr : Nat) (state : Bool)
    (lstate : Bool) (last : ShapeNode) : ShapeNode :=
  let sg := last.t ^^^ s.pp ucode_ptr ^^^ sign_op state lstate
  let filtered := (List.range sp_frame_size).foldl (shapeSample p s ucode_ptr sg) last
  { filtered with t := sg }

/-- The best transition to `state`, among those that weigh less than `0x7fffffff`, and where it
comes from. -/
def bestTransition (p : V90Params) (s : V90EncodeState) (sp_frame_size ucode_ptr : Nat)
    (from_states : List (Bool × ShapeNode)) (state : Bool) : ShapeNode × Bool :=
  from_states.foldl (fun best last =>
      let next := transition p s sp_frame_size ucode_ptr state last.1 last.2
      if next.w < best.1.w then (next, last.1) else best)
    (⟨0, 0, 0, 0, 0x7fffffff⟩, false)

/-- The memory of the trellis holds 16-bit values, the weights included. -/
def remember (node : ShapeNode) : ShapeNode :=
  ⟨node.t, wrap16 node.x, wrap16 node.y, wrap16 node.v, wrap16 node.w⟩

/-- The nodes of both states at a depth of the trellis. -/
abbrev TrellisLevel := Bool → ShapeNode × Bool

/-- One level of the trellis from the nodes before it. -/
def trellisLevel (p : V90Params) (s : V90EncodeState) (sp_frame_size ucode_ptr : Nat)
    (from_states : List (Bool × ShapeNode)) : TrellisLevel := fun state =>
  let best := bestTransition p s sp_frame_size ucode_ptr from_states state
  (remember best.1, best.2)

/-- The levels after the first, one for each further frame of look-ahead. -/
def trellisLevels (p : V90Params) (s : V90EncodeState) (sp_frame_size : Nat) :
    Nat → Nat → TrellisLevel → List TrellisLevel
  | 0, _, _ => []
  | n + 1, ucode_ptr, last =>
    let ptr := (ucode_ptr + sp_frame_size) % UCODE_BUF_SIZE
    let level := trellisLevel p s sp_frame_size ptr
      [(false, (last false).1), (true, (last true).1)]
    level :: trellisLevels p s sp_frame_size n ptr level

/-- Select the best method for the current shaping frame: the signs of the frame `ld` frames ago
are chosen. -/
def select_best_signs (p : V90Params) (sp_frame_size : Nat) (pp : BitVec 8)
    (s : V90EncodeState) : V90EncodeState :=
  -- save new pp signs
  let s := { s with pp := store s.pp s.ucode_ptr pp }
  let ucode_ptr := ringIndex s.ucode_ptr (sp_frame_size * p.ld)
  let first := trellisLevel p s sp_frame_size ucode_ptr [(s.Q, ⟨s.t, s.x, s.y, s.v, 0⟩)]
  let levels := first :: trellisLevels p s sp_frame_size p.ld ucode_ptr first
  let last := levels.getLastD first
  -- `for (depth = ld; depth > 0; depth--) state = mem_l[state][depth]`
  let state := (levels.dropLast.reverse).foldl (fun state level => (level state).2)
    (decide ((last true).1.w < (last false).1.w))
  let node := (first state).1
  { s with
    Q := state
    t := node.t
    x := node.x
    y := node.y
    v := node.v
    ucode_ptr := (s.ucode_ptr + sp_frame_size) % UCODE_BUF_SIZE }

/-- The shaping frames of a mapping frame; the sign words and states after each come with it. -/
def selectAll (p : V90Params) (sp_frame_size : Nat) :
    List (BitVec 8) → V90EncodeState → List (BitVec 8 × Bool) × V90EncodeState
  | [], s => ([], s)
  | pp :: rest, s =>
    let s := select_best_signs p sp_frame_size pp s
    let (trace, s') := selectAll p sp_frame_size rest s
    ((s.t, s.Q) :: trace, s')

/-! ## Encoder -/

/-- Samples in a shaping frame. -/
def shapingFrameSize (S : Nat) : Nat :=
  match S with
  | 5 => 6
  | 4 => 3
  | 3 => 2
  | _ => 6

/-- `data << i` in `int`: defined while the result is representable. -/
def shiftInt (data : Bool) (i : Nat) : Option Nat :=
  if i < 32 ∧ data.toNat * 2 ^ i < 2 ^ 31 then some (data.toNat * 2 ^ i) else none

/-- `for (i = 0; i < K; i++) v |= (data[i+S] << i)` -/
def packBits (p : V90Params) (data : Nat → Bool) : Option Nat :=
  (List.range p.K).foldlM (fun v i => (shiftInt (data (i + p.S)) i).map (v ||| ·)) 0

/-- Modulo mapping to ucodes. -/
def mapRings : List Constellation → Nat → Option (List Nat)
  | [], _ => some []
  | c :: cs, v =>
    if c.M = 0 then none else do
      let rest ← mapRings cs (v / c.M)
      some (c.ucodes.getD (v % c.M) 0 :: rest)

/-- The sign words of the shaping frames and the new `last_sign`. -/
def signWords (S : Nat) (last_sign : Bool) (data : Nat → Bool) : List (BitVec 8) × Bool :=
  match S with
  | 5 =>
    let pp1 := data 0 ^^ last_sign
    let pp3 := data 2 ^^ pp1
    let pp5 := data 4 ^^ pp3
    ([byteOf [false, pp1, data 1, pp3, data 3, pp5]], pp5)
  | 4 =>
    let pp1 := data 0 ^^ last_sign
    let pp4 := data 2 ^^ pp1
    ([byteOf [false, pp1, data 1], byteOf [false, pp4, data 3]], pp4)
  | 3 =>
    let pp1 := data 0 ^^ last_sign
    let pp3 := data 1 ^^ pp1
    let pp5 := data 2 ^^ pp3
    ([byteOf [false, pp1], byteOf [false, pp3], byteOf [false, pp5]], pp5)
  | _ => ([], last_sign)

/-- `for (i = 0; i < 6; i++) { l = data[i] ^ l; signs |= l << i; }` -/
def plainSigns (data : Nat → Bool) : Nat → Bool → List Bool
  | 0, _ => []
  | n + 1, l => (data 0 ^^ l) :: plainSigns (fun i => data (i + 1)) n (data 0 ^^ l)

/-- `signs |= l << j` for the low bits of each shaped frame. -/
def gatherSigns (frame_size : Nat) : List (BitVec 8 × Bool) → Nat → BitVec 8
  | [], _ => 0
  | (t, _) :: rest, j =>
    ((t &&& byteOf (List.replicate frame_size true)) <<< j) |||
      gatherSigns frame_size rest (j + frame_size)

/-- Computation of the sign of the ucodes: one bit for each sample, the new state, and the sign
words and states after each shaping frame. -/
def chooseSigns (p : V90Params) (data : Nat → Bool) (s : V90EncodeState) :
    BitVec 8 × V90EncodeState × List (BitVec 8 × Bool) :=
  if p.S = 3 ∨ p.S = 4 ∨ p.S = 5 then
    let (pv, last_sign) := signWords p.S s.last_sign data
    let (trace, s) := selectAll p (shapingFrameSize p.S) pv { s with last_sign := last_sign }
    (gatherSigns (shapingFrameSize p.S) trace 0, s, trace)
  else
    -- no redundancy and spectral shaping
    let signs := plainSigns data 6 s.last_sign
    (byteOf signs,
      { s with
        last_sign := signs.getLastD s.last_sign
        ucode_ptr := (s.ucode_ptr + 6) % UCODE_BUF_SIZE }, [])

/-- The sign part of a frame, once its ucodes are known: the samples, the new state, and the trace
of the shaping. -/
def signFrame (p : V90Params) (ucodes : List Nat) (data : Nat → Bool) (s : V90EncodeState) :
    List Int × V90EncodeState × List (BitVec 8 × Bool) :=
  let s := { s with
    ucode := (List.range 6).foldl (fun buf i => store buf (s.ucode_ptr + i) (ucodes.getD i 0))
      s.ucode }
  let (signs, s, trace) := chooseSigns p data s
  let first := ringIndex s.ucode_ptr (6 + shapingFrameSize p.S * p.ld)
  let samples := (List.range 6).map fun i =>
    let x := ucode_to_linear p.alaw (s.ucode ((first + i) % UCODE_BUF_SIZE))
    if signs.getLsbD i then x else -x
  (samples, s, trace)

def v90_encode_mapping_frame (p : V90Params) (data : Nat → Bool) (s : V90EncodeState) :
    Option (List Int × V90EncodeState) := do
  let v ← packBits p data
  let ucodes ← mapRings (List.ofFn p.rings) v
  let (samples, s, _) := signFrame p ucodes data s
  some (samples, s)

/-! ## Decoder -/

structure V90DecodeState where
  last_sign : Bool
  t : BitVec 8
  Q : Bool
  deriving DecidableEq

/-- The decoder before the first frame. -/
def startDecode : V90DecodeState := ⟨false, 0, false⟩

/-- Entry `i` of a table, when it was filled. -/
def filled (tab : List Int) (i : Int) : Option Int := if i < 0 then none else tab[i.toNat]?

/-- Binary search in a decreasing table, between `m_min` and `m_max`. -/
def searchLevel (tab : List Int) (val : Int) : Nat → Int → Int → Option Int
  | 0, _, _ => none
  | fuel + 1, m_min, m_max =>
    if m_min ≤ m_max then do
      let m := (m_min + m_max) / 2
      let v ← filled tab m
      if v = val then some m
      else if val > v then searchLevel tab val fuel m_min (m - 1)
      else searchLevel tab val fuel (m + 1) m_max
    else do
      let d1 := (← filled tab m_max) - val
      let d2 := val - (← filled tab m_min)
      some (if d1 < d2 then m_max else m_min)

/-- The ring of a sample: the value closest to its magnitude. -/
def ringOf (alaw : Bool) (c : Constellation) (sample : Int) : Option Nat := do
  let tab := c.m_to_linear alaw
  let val := if sample < 0 then -sample else sample
  let m ← searchLevel tab val (tab.length + 1) 0 (c.M - 1)
  some m.toNat

/-- `bitbuf = bitbuf * M[j] + m` for `j` from 5 down to 0. -/
def bitbuf (alaw : Bool) : List (Constellation × Int) → Option Nat
  | [] => some 0
  | (c, sample) :: rest => do
    let above ← bitbuf alaw rest
    let m ← ringOf alaw c sample
    some (above * c.M + m)

/-- `pv ^= sign_op[Q | (Q1 << 1)]` with `Q1 = (pv & 1) ^ Q`, where `pv` is the change of the signs:
the sign word of one shaping frame and the new state. -/
def undoShaping (mask : BitVec 8) (Q : Bool) (last t : BitVec 8) : BitVec 8 × Bool :=
  let pv := last ^^^ t
  let Q1 := pv.getLsbD 0 ^^ Q
  (pv ^^^ (sign_op Q1 Q &&& mask), Q1)

/-- The sign bits of a frame from the signs of its samples. -/
def decodeSigns (S : Nat) (d : V90DecodeState) (signs : Nat → Bool) :
    List Bool × V90DecodeState :=
  match S with
  | 5 =>
    let t0 := byteOf [signs 0, signs 1, signs 2, signs 3, signs 4, signs 5]
    let (pv0, Q1) := undoShaping 0x3f d.Q d.t t0
    let pp1 := pv0.getLsbD 1
    let pp3 := pv0.getLsbD 3
    let pp5 := pv0.getLsbD 5
    ([pp1 ^^ d.last_sign, pv0.getLsbD 2, pp1 ^^ pp3, pv0.getLsbD 4, pp3 ^^ pp5], ⟨pp5, t0, Q1⟩)
  | 4 =>
    let t0 := byteOf [signs 0, signs 1, signs 2]
    let t1 := byteOf [signs 3, signs 4, signs 5]
    let (pv0, Q1) := undoShaping 7 d.Q d.t t0
    let (pv1, Q2) := undoShaping 7 Q1 t0 t1
    let pp1 := pv0.getLsbD 1
    let pp4 := pv1.getLsbD 1
    ([pp1 ^^ d.last_sign, pv0.getLsbD 2, pp4 ^^ pp1, pv1.getLsbD 2], ⟨pp4, t1, Q2⟩)
  | 3 =>
    let t0 := byteOf [signs 0, signs 1]
    let t1 := byteOf [signs 2, signs 3]
    let t2 := byteOf [signs 4, signs 5]
    let (pv0, Q1) := undoShaping 3 d.Q d.t t0
    let (pv1, Q2) := undoShaping 3 Q1 t0 t1
    let (pv2, Q3) := undoShaping 3 Q2 t1 t2
    let pp1 := pv0.getLsbD 1
    let pp3 := pv1.getLsbD 1
    let pp5 := pv2.getLsbD 1
    ([pp1 ^^ d.last_sign, pp3 ^^ pp1, pp5 ^^ pp3], ⟨pp5, t2, Q3⟩)
  | _ =>
    let bits := (List.range 6).map fun i =>
      (if i = 0 then d.last_sign else signs (i - 1)) ^^ signs i
    (bits, { d with last_sign := signs 5 })

/-- `signs[j]`: whether a sample is not negative. -/
def signOf (samples : List Int) (j : Nat) : Bool := decide (0 ≤ samples.getD j 0)

/-- The `S` sign bits, the `K` data bits and the new state. -/
def v90_decode_mapping_frame (p : V90Params) (d : V90DecodeState) (samples : List Int) :
    Option (List Bool × List Bool × V90DecodeState) := do
  let bits ← bitbuf p.alaw ((List.ofFn p.rings).zip samples)
  let (signBits, d) := decodeSigns p.S d (signOf samples)
  some (signBits, lowBits p.K bits, d)

end QFax.Linmodem

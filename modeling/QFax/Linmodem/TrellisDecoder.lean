import QFax.Lib.Viterbi
import QFax.Linmodem.Shell
import QFax.Linmodem.Trellis

/-!
# V.34: the trellis decoder

Each call of `trellis_decoder` takes one 4D symbol, writes the decision that is `TRELLIS_LENGTH` symbols
old, and extends the survivor of every state by one branch.  The labels of the branches are in the
tables that `gen_table` prints.
-/

namespace QFax.Linmodem

/-! ## The labels of the branches -/

/-- The 4x4 subsets of two points, one for each coordinate. -/
abbrev Label : Type := (Nat × Nat) × (Nat × Nat)

/-- Two points, the coordinates in units of 1/128 of half their distance. -/
abbrev Points : Type := (Int × Int) × (Int × Int)

/-- Find the data and the rotation of a point. -/
def find_data_rot (x0 y0 : Int) : Option (Nat × Nat) :=
  let turns := (List.range 4).flatMap fun data => (List.range 4).map fun rot => (data, rot)
  turns.find? fun (data, rot) =>
    -- rotate by 90
    (fun p : Int × Int => (p.2, -p.1))^[rot]
      (-3 + (data % 2 : Nat) * 4, -3 + (data / 2 : Nat) * 4) = (x0, y0)

/-- 0: rotation by 180, 1: rotation by 90. -/
def classify (xx : Label) : Nat :=
  let rot (p : Nat × Nat) : Nat := ((find_data_rot (2 * p.1 - 3) (2 * p.2 - 3)).getD (0, 0)).2
  if (rot xx.1 + rot xx.2) % 2 = 0 then 0 else 1

/-- Two labels of a point as the bits `ss[i][0]`, `ss[i][1]`, `ss[i][2]`. -/
def labelBits (p : Nat × Nat) : Nat × Nat × Nat :=
  let x0 := bit p.1 0
  let x1 := bit p.1 1
  let y0 := bit p.2 0
  let y1 := bit p.2 1
  (y0 ^^^ x0, y0, x1 ^^^ y1 ^^^ y0 ^^^ x0)

/-- The transition that the labels of two points make, as far as `nb_trans` tells transitions apart. -/
def makesTrans (nb_trans trans : Nat) (xx : Label) : Bool :=
  let (s00, s01, s02) := labelBits xx.1
  let (s10, s11, s12) := labelBits xx.2
  let Y4 := s02 ^^^ s12
  let Y3 := s01
  let Y2 := s00
  let Y1 := (s00 &&& (1 - s10)) ^^^ s01 ^^^ s11
  match nb_trans with
  | 4 => bit trans 0 = Y1 ∧ bit trans 1 = Y2
  | 8 => bit trans 0 = Y1 ∧ bit trans 1 = Y2 ∧ bit trans 2 = Y4
  | 16 => bit trans 0 = Y1 ∧ bit trans 1 = Y2 ∧ bit trans 3 = Y3 ∧ bit trans 2 = Y4
  | _ => false

/-- The labels in the order of the four loops over coordinates. -/
def labels : List Label :=
  (List.range 256).map fun i => ((i / 64, i / 16 % 4), i / 4 % 4, i % 4)

/-- The table `trellis_trans_4`, `trellis_trans_8` or `trellis_trans_16`. -/
def gen_table (nb_trans : Nat) : List Label :=
  (List.range 2).flatMap fun y0 => (List.range nb_trans).flatMap fun trans =>
    labels.filter fun xx => makesTrans nb_trans trans xx && classify xx == y0

/-! ## One call -/

def TRELLIS_LENGTH : Nat := 6 * 5

/-- What the code takes for infinity. -/
def INFINITY : Int := 0x7fffffff

/-- Bits used in the transitions from each state. -/
def nbbt : Nat → Nat
  | 16 => 2
  | 32 => 3
  | _ => 4

/-- Transitions from each state. -/
def nb_trans (conv_nb_states : Nat) : Nat := 1 <<< nbbt conv_nb_states

/-- What a 16-bit `s16` holds of a value. -/
def s16 (x : Int) : Int := x.bmod (2 ^ 16)

def tcm_decision (level : Nat) (sample : Int) : Int :=
  -- find the 4x4 subset
  let x := (sample + 7 * 128 - level * 2 ^ 8) >>> (10 : Nat)
  -- convert back to sample
  (x * 4 + level - 2) * 2 ^ 8 + 128

def tcm_dist (level : Nat) (sample : Int) : Int :=
  let e := sample - tcm_decision level sample
  (e * e) >>> (8 : Nat)

/-- The squared distance of a symbol from the subsets of a label. -/
def labelDist (p : Label) (yy : Points) : Int :=
  tcm_dist p.1.1 yy.1.1 + tcm_dist p.1.2 yy.1.2 + tcm_dist p.2.1 yy.2.1 + tcm_dist p.2.2 yy.2.2

section Tables

variable (conv_nb_states : Nat) (yy : Points)

/-- Entry `i` of the label table of a trellis. -/
def trellis_trans (i : Nat) : Label := (gen_table (nb_trans conv_nb_states)).getD i ((0, 0), (0, 0))

/-- The `n` labels of one transition. -/
def nbLabels : Nat := 128 >>> nbbt conv_nb_states

/-- The least distance from the labels of transition `i`, and the label that has it. -/
def scanLabels (i jmin : Nat) : Int × Nat :=
  (List.range (nbLabels conv_nb_states)).foldl (fun best j =>
    let e := labelDist (trellis_trans conv_nb_states (i * nbLabels conv_nb_states + j)) yy
    if e < best.1 then (e, j) else best) (INFINITY, jmin)

/-- The variable `jmin`, which the scan of a transition finds as the one before it left it. -/
def jminBefore : Nat → Nat
  | 0 => 0
  | i + 1 => (scanLabels conv_nb_states yy i (jminBefore i)).2

def error_table (i : Nat) : Int := (scanLabels conv_nb_states yy i (jminBefore conv_nb_states yy i)).1

def decision_table (i : Nat) : Nat :=
  i * nbLabels conv_nb_states + (scanLabels conv_nb_states yy i (jminBefore conv_nb_states yy i)).2

/-- The bit `u0`, needed for synchronization: whether the nearest transition leaves an odd state. -/
def nearest_u0 : Nat :=
  let best := (List.range (nb_trans conv_nb_states * 2)).foldl (fun (best : Nat × Int) i =>
    if error_table conv_nb_states yy i < best.2 then (i, error_table conv_nb_states yy i) else best)
    (0, INFINITY)
  if nb_trans conv_nb_states ≤ best.1 then 1 else 0

end Tables

structure TrellisDecoder where
  /-- The label of the branch that a state kept, for each slot. -/
  state_decision : Nat → Nat → Nat
  /-- The state that branch comes from, for each slot. -/
  state_path : Nat → Nat → Nat
  state_memory : Nat → Points
  u0_memory : Nat → Nat
  state_error : Nat → Int
  state_error1 : Nat → Int
  trellis_ptr : Nat

namespace TrellisDecoder

/-- The decoder as `memset` leaves it. -/
def init : TrellisDecoder where
  state_decision := fun _ _ => 0
  state_path := fun _ _ => 0
  state_memory := fun _ => ((0, 0), (0, 0))
  u0_memory := fun _ => 0
  state_error := fun _ => 0
  state_error1 := fun _ => 0
  trellis_ptr := 0

/-- The slot before a slot, in the circle. -/
def slotBefore (k : Nat) : Nat := if k = 0 then TRELLIS_LENGTH - 1 else k - 1

/-- State and slot after some turns of the traceback. -/
def traceback (s : TrellisDecoder) : Nat → Nat × Nat
  | 0 => (0, slotBefore s.trellis_ptr)
  | i + 1 =>
    let (j, k) := s.traceback i
    (s.state_path j k, slotBefore k)

/-- The decision at the end of the traceback. -/
def oldDecision (s : TrellisDecoder) : Nat :=
  let (j, k) := s.traceback (TRELLIS_LENGTH - 1)
  s.state_decision j k

end TrellisDecoder

/-- The points of a label that are nearest to a symbol, in 16 bits. -/
def nearestPoints (q : Label) (m : Points) : Points :=
  ((s16 (tcm_decision q.1.1 m.1.1), s16 (tcm_decision q.1.2 m.1.2)),
    (s16 (tcm_decision q.2.1 m.2.1), s16 (tcm_decision q.2.2 m.2.2)))

/-- Undo the rotation of the second point, and rotate only if `u0` is set. -/
def rotatePoints (u0 decision : Nat) (y : Points) : Points :=
  let y1 := if decision >>> 7 ≠ 0 then (y.2.2, s16 (-y.2.1)) else y.2
  (y.1, if u0 ^^^ decision >>> 7 ≠ 0 then (s16 (-y1.2), y1.1) else y1)

/-- The mean square error, normalized to 2^7. -/
def meanSquare (y m : Points) : Int :=
  int32 ((y.1.1 - m.1.1) ^ 2 + (y.1.2 - m.1.2) ^ 2 + (y.2.1 - m.2.1) ^ 2 + (y.2.2 - m.2.2) ^ 2) >>>
    (7 : Nat)

namespace TrellisDecoder

/-- The points written by a call. -/
def yout (conv_nb_states : Nat) (s : TrellisDecoder) : Points :=
  rotatePoints (s.u0_memory s.trellis_ptr) s.oldDecision
    (nearestPoints (trellis_trans conv_nb_states s.oldDecision) (s.state_memory s.trellis_ptr))

/-- Which half of the tables the transitions from a state are in: the value of `y0`. -/
def offset (conv_nb_states state : Nat) : Nat :=
  if state % 2 = 1 then nb_trans conv_nb_states else 0

/-- Update the next state of a transition, where it makes the path there shorter. -/
def relax (conv_nb_states : Nat) (yy : Points) (s : TrellisDecoder) (branch : Nat × Nat) :
    TrellisDecoder :=
  let (state, j) := branch
  let n := offset conv_nb_states state
  let next_state := trellis_next_state conv_nb_states state j
  let error := int32 (s.state_error state + error_table conv_nb_states yy (j + n))
  if error < s.state_error1 next_state then
    { s with
      state_error1 := Function.update s.state_error1 next_state error
      state_decision := Function.update s.state_decision next_state
        (Function.update (s.state_decision next_state) s.trellis_ptr
          (decision_table conv_nb_states yy (j + n)))
      state_path := Function.update s.state_path next_state
        (Function.update (s.state_path next_state) s.trellis_ptr state) }
  else s

/-- The branches in the order of the two loops. -/
def branches (conv_nb_states : Nat) : List (Nat × Nat) :=
  (List.range conv_nb_states).flatMap fun state =>
    (List.range (nb_trans conv_nb_states)).map fun j => (state, j)

/-- The symbol is stored, and the errors of the next states are set to infinity. -/
def store (conv_nb_states : Nat) (s : TrellisDecoder) (yy : Points) : TrellisDecoder :=
  { s with
    state_memory := Function.update s.state_memory s.trellis_ptr yy
    u0_memory := Function.update s.u0_memory s.trellis_ptr (nearest_u0 conv_nb_states yy)
    state_error1 := fun state => if state < conv_nb_states then INFINITY else s.state_error1 state }

/-- The copy of the errors, and the next slot. -/
def advance (s : TrellisDecoder) : TrellisDecoder :=
  { s with
    state_error := s.state_error1
    trellis_ptr := (s.trellis_ptr + 1) % TRELLIS_LENGTH }

end TrellisDecoder

/-- The points written, the mean square error, and the decoder after one symbol. -/
def trellis_decoder (conv_nb_states : Nat) (s : TrellisDecoder) (yy : Points) :
    Points × Int × TrellisDecoder :=
  let yout := s.yout conv_nb_states
  let mse := meanSquare yout (s.state_memory s.trellis_ptr)
  let stored := s.store conv_nb_states yy
  let relaxed := (TrellisDecoder.branches conv_nb_states).foldl
    (TrellisDecoder.relax conv_nb_states yy) stored
  (yout, mse, relaxed.advance)

end QFax.Linmodem

import QFax.Linmodem.SurvivorPath

/-!
# V.34: the traceback of the trellis decoder

From its 31st call on, the decoder walks back along a shortest path into state 0, takes the decision
of the branch 30 steps back, and writes the points of that label nearest to the symbol of that step;
the second point it turns by the stored bit `u0`.
-/

namespace QFax.Linmodem

open Viterbi

namespace TrellisDecoder

variable {conv_nb_states : Nat} {y : Nat → Points}

/-- The survivor that a state kept in call `n` is a branch. -/
def Kept (conv_nb_states : Nat) (y : Nat → Points) (n s t j : Nat) : Prop :=
  (trellis conv_nb_states).branch t j s ∧
    (decoded conv_nb_states y (n + 1)).state_path s (n % TRELLIS_LENGTH) = t ∧
    (decoded conv_nb_states y (n + 1)).state_decision s (n % TRELLIS_LENGTH) =
      decision_table conv_nb_states (y n) (j + offset conv_nb_states t)

/-- The survivors lead back along a shortest path from every state that has a finite error. -/
theorem survivor_path (states : conv_nb_states ∈ [16, 32, 64]) {n : Nat}
    (fit : AdditionsFit conv_nb_states y n) {s : Nat} (inside : s < conv_nb_states)
    (finite : (decoded conv_nb_states y n).state_error s < INFINITY) :
    ∃ path, path.length = n ∧ (trellis conv_nb_states).Leads path s ∧
      metric (branchCost conv_nb_states y) path = (decoded conv_nb_states y n).state_error s ∧
      Survives (Kept conv_nb_states y) path s := by
  refine kept_path (d := fun n => (decoded conv_nb_states y n).state_error)
    (fun n t j => (branchCost_bounds n t j).1) (fun _ _ => rfl) ?_ le_rfl inside finite
  intro m lt s inside finite
  have nonneg : ∀ t < conv_nb_states, 0 ≤ (decoded conv_nb_states y m).state_error t := by
    intro t state
    have le := (shortest_state_error states (fit.mono lt.le) state).nsmul_le fun n t j =>
      (branchCost_bounds n t j).1
    rwa [nsmul_zero] at le
  obtain ⟨-, -, attained⟩ := next_state_error nonneg (fit m lt) inside
  obtain ⟨t, j, branch, path, decision, sum⟩ := attained finite
  rw [decoded_trellis_ptr] at path decision
  exact ⟨t, j, branch, ⟨branch, path, decision⟩, sum⟩

theorem slotBefore_mod (n : Nat) :
    slotBefore ((n + 1) % TRELLIS_LENGTH) = n % TRELLIS_LENGTH := by
  unfold slotBefore
  split
  all_goals
    simp only [TRELLIS_LENGTH] at *
    omega

theorem traceback_succ (s : TrellisDecoder) (i : Nat) :
    s.traceback (i + 1) = (s.state_path (s.traceback i).1 (s.traceback i).2,
      slotBefore (s.traceback i).2) :=
  rfl

theorem oldDecision_apply (s : TrellisDecoder) :
    s.oldDecision = s.state_decision (s.traceback (TRELLIS_LENGTH - 1)).1
      (s.traceback (TRELLIS_LENGTH - 1)).2 := by
  unfold oldDecision
  generalize s.traceback (TRELLIS_LENGTH - 1) = jk
  rfl

/-- The traceback walks along the survivors: after `i` turns it is at the end of the path without its
last `i` branches. -/
theorem traceback_survives {n : Nat} {path : List (Nat × Nat)}
    (survives : Survives (Kept conv_nb_states y) path 0) (steps : path.length = n)
    {i : Nat} (short : i < TRELLIS_LENGTH) (old : i < n) :
    Survives (Kept conv_nb_states y) (path.drop i)
        ((decoded conv_nb_states y n).traceback i).1 ∧
      ((decoded conv_nb_states y n).traceback i).2 = (n - 1 - i) % TRELLIS_LENGTH := by
  induction i with
  | zero =>
    obtain ⟨m, rfl⟩ := Nat.exists_eq_succ_of_ne_zero old.ne'
    refine ⟨survives, ?_⟩
    rw [traceback, decoded_trellis_ptr]
    exact slotBefore_mod m
  | succ i ih =>
    obtain ⟨here, slot⟩ := ih (Nat.lt_of_succ_lt short) (Nat.lt_of_succ_lt old)
    obtain ⟨m, rfl⟩ : ∃ m, n = m + 1 + i := ⟨n - (i + 1), by omega⟩
    have split : path.drop i = path[i] :: path.drop (i + 1) := List.drop_eq_getElem_cons (by omega)
    have rest : (path.drop (i + 1)).length = m := by rw [List.length_drop]; omega
    rw [split] at here
    obtain ⟨⟨-, kept, -⟩, later⟩ := here
    have slot_eq : m + 1 + i - 1 - i = m := by omega
    rw [slot_eq] at slot
    rw [rest, ← (decoded_slots conv_nb_states y m _ (Nat.lt_of_succ_lt short)).2] at kept
    rw [traceback_succ, slot, kept]
    refine ⟨later, ?_⟩
    obtain ⟨l, rfl⟩ : ∃ l, m = l + 1 := ⟨m - 1, by omega⟩
    have next_eq : l + 1 + 1 + i - 1 - (i + 1) = l := by omega
    rw [next_eq]
    exact slotBefore_mod l

/-- The decision at the end of the traceback is that of the branch 30 steps back. -/
theorem oldDecision_eq {n : Nat} {path : List (Nat × Nat)}
    (survives : Survives (Kept conv_nb_states y) path 0)
    (steps : path.length = n + TRELLIS_LENGTH) :
    ∃ t j, path[TRELLIS_LENGTH - 1]? = some (t, j) ∧ j < nb_trans conv_nb_states ∧
      (decoded conv_nb_states y (n + TRELLIS_LENGTH)).oldDecision =
        decision_table conv_nb_states (y n) (j + offset conv_nb_states t) := by
  have inside : TRELLIS_LENGTH - 1 < path.length := by
    rw [steps]
    exact Nat.lt_add_left n (by decide)
  obtain ⟨here, slot⟩ := traceback_survives survives steps (i := TRELLIS_LENGTH - 1) (by decide)
    (Nat.lt_add_left n (by decide))
  rw [List.drop_eq_getElem_cons inside] at here
  obtain ⟨⟨branch, -, decision⟩, -⟩ := here
  have rest : (path.drop (TRELLIS_LENGTH - 1 + 1)).length = n := by
    rw [List.length_drop, steps]
    exact Nat.add_sub_cancel n TRELLIS_LENGTH
  refine ⟨_, _, List.getElem?_eq_getElem inside, branch.2.1, ?_⟩
  have slot_eq : n + TRELLIS_LENGTH - 1 - (TRELLIS_LENGTH - 1) = n := by
    simp only [TRELLIS_LENGTH]
    omega
  have stays := (decoded_slots conv_nb_states y n
    ((decoded conv_nb_states y (n + TRELLIS_LENGTH)).traceback (TRELLIS_LENGTH - 1)).1
    (i := TRELLIS_LENGTH - 1) (by decide)).1
  rw [rest] at decision
  rw [oldDecision_apply, slot, slot_eq, ← decision]
  exact stays

variable (conv_nb_states y) in
/-- The call reads the symbol of 30 calls earlier, with its bit `u0`. -/
theorem yout_decoded (n : Nat) :
    (decoded conv_nb_states y (n + TRELLIS_LENGTH)).yout conv_nb_states =
      rotatePoints (nearest_u0 conv_nb_states (y n))
        (decoded conv_nb_states y (n + TRELLIS_LENGTH)).oldDecision
        (nearestPoints (trellis_trans conv_nb_states
          (decoded conv_nb_states y (n + TRELLIS_LENGTH)).oldDecision) (y n)) := by
  obtain ⟨memory, u0⟩ :=
    decoded_memory conv_nb_states y n (i := TRELLIS_LENGTH - 1) (by decide)
  rw [yout, decoded_trellis_ptr, Nat.add_mod_right]
  exact congrArg₂ (fun u m => rotatePoints u _ (nearestPoints _ m)) u0 memory

/-- The errors are lengths of shortest paths, and the points written are those of the decision on a
shortest path into state 0, turned by the bit `u0` of their symbol. -/
theorem decoder_optimal (states : conv_nb_states ∈ [16, 32, 64]) (y : Nat → Points) (N : Nat)
    (fit : MetricsFit conv_nb_states (branchCost conv_nb_states y) N) :
    (∀ s < conv_nb_states, Shortest (trellis conv_nb_states) (branchCost conv_nb_states y) N s
      ((decoded conv_nb_states y N).state_error s)) ∧
    ∀ n, N = n + TRELLIS_LENGTH → (decoded conv_nb_states y N).state_error 0 < INFINITY →
      ∃ path t j, path.length = N ∧ (trellis conv_nb_states).Leads path 0 ∧
        metric (branchCost conv_nb_states y) path = (decoded conv_nb_states y N).state_error 0 ∧
        path[TRELLIS_LENGTH - 1]? = some (t, j) ∧
        let d := decision_table conv_nb_states (y n) (j + offset conv_nb_states t)
        (trellis_decoder conv_nb_states (decoded conv_nb_states y N) (y N)).1 =
          rotatePoints (nearest_u0 conv_nb_states (y n)) d
            (nearestPoints (trellis_trans conv_nb_states d) (y n)) := by
  have sums : AdditionsFit conv_nb_states y N := (additionsFit_iff states).2 fit
  refine ⟨fun s inside => shortest_state_error states sums inside, ?_⟩
  rintro n rfl finite
  have zero : 0 < conv_nb_states := by
    revert states
    simp only [List.mem_cons, List.not_mem_nil, or_false]
    omega
  obtain ⟨path, steps, leads, total, survives⟩ := survivor_path states sums zero finite
  obtain ⟨t, j, found, -, decision⟩ := oldDecision_eq survives steps
  refine ⟨path, t, j, steps, leads, total, found, ?_⟩
  exact (yout_decoded conv_nb_states y n).trans (by rw [decision])

/-- A symbol whose nearest transition leaves an odd state. -/
def oddSymbol : Points := ((128, 128), (8320, 8576))

/-- A hundred equal symbols are decoded along a shortest path. -/
theorem decoder_optimal_short :
    (∀ s < 64, Shortest (trellis 64) (branchCost 64 fun _ => oddSymbol) 100 s
      ((decoded 64 (fun _ => oddSymbol) 100).state_error s)) ∧
    ∀ n, 100 = n + TRELLIS_LENGTH →
      (decoded 64 (fun _ => oddSymbol) 100).state_error 0 < INFINITY →
      ∃ path t j, path.length = 100 ∧ (trellis 64).Leads path 0 ∧
        metric (branchCost 64 fun _ => oddSymbol) path =
          (decoded 64 (fun _ => oddSymbol) 100).state_error 0 ∧
        path[TRELLIS_LENGTH - 1]? = some (t, j) ∧
        let d := decision_table 64 oddSymbol (j + offset 64 t)
        (trellis_decoder 64 (decoded 64 (fun _ => oddSymbol) 100) oddSymbol).1 =
          rotatePoints (nearest_u0 64 oddSymbol) d (nearestPoints (trellis_trans 64 d) oddSymbol) :=
  decoder_optimal (by decide) (fun _ => oddSymbol) 100 (metricsFit_of_lt (by decide) (by decide))

/-! ## The rotation -/

theorem nearest_u0_oddSymbol : nearest_u0 16 oddSymbol = 1 := by decide +kernel

/-- A sample away from the ends of the 16 bits keeps its sign. -/
theorem s16_tcm_decision (level : Nat) (sample : Int) (low : 1000 ≤ sample) (high : sample ≤ 30000) :
    0 < s16 (tcm_decision level sample) ∧ s16 (-(s16 (tcm_decision level sample))) < 0 := by
  obtain ⟨below, above⟩ := sub_tcm_decision level sample
  have same : s16 (tcm_decision level sample) = tcm_decision level sample :=
    Int.bmod_eq_of_le (by omega) (by omega)
  have negated : s16 (-(tcm_decision level sample)) = -(tcm_decision level sample) :=
    Int.bmod_eq_of_le (by omega) (by omega)
  rw [same, negated]
  omega

theorem rotatePoints_one {d : Nat} (lt : d < 256) (y : Points) :
    rotatePoints 1 d y = (y.1, s16 (-y.2.2), y.2.1) ∨
      rotatePoints 1 d y = (y.1, y.2.2, s16 (-y.2.1)) := by
  have high : d >>> 7 = 0 ∨ d >>> 7 = 1 := by
    rw [Nat.shiftRight_eq_div_pow]
    omega
  obtain clear | set := high
  · exact .inl (by rw [rotatePoints, clear]; rfl)
  · exact .inr (by rw [rotatePoints, set]; rfl)

/-- A set `u0` turns the second point by a quarter, one way or the other. -/
theorem rotatePoints_ne {d : Nat} (lt : d < 256) (q q' : Label) :
    rotatePoints 1 d (nearestPoints q oddSymbol) ≠ nearestPoints q' oddSymbol := by
  intro same
  obtain ⟨x_pos, x_neg⟩ := s16_tcm_decision q.2.1 8320 (by decide) (by decide)
  obtain ⟨-, y_neg⟩ := s16_tcm_decision q.2.2 8576 (by decide) (by decide)
  obtain ⟨x_pos', -⟩ := s16_tcm_decision q'.2.1 8320 (by decide) (by decide)
  obtain ⟨y_pos', -⟩ := s16_tcm_decision q'.2.2 8576 (by decide) (by decide)
  obtain left | right := rotatePoints_one lt (nearestPoints q oddSymbol)
  · have x : s16 (-(s16 (tcm_decision q.2.2 8576))) = s16 (tcm_decision q'.2.1 8320) :=
      congrArg (fun y : Points => y.2.1) (left.symm.trans same)
    omega
  · have y : s16 (-(s16 (tcm_decision q.2.1 8320))) = s16 (tcm_decision q'.2.2 8576) :=
      congrArg (fun y : Points => y.2.2) (right.symm.trans same)
    omega

/-- The points written are not those of any label: the second one is turned. -/
theorem second_point_turned :
    MetricsFit 16 (branchCost 16 fun _ => oddSymbol) TRELLIS_LENGTH ∧
    (decoded 16 (fun _ => oddSymbol) TRELLIS_LENGTH).state_error 0 < INFINITY ∧
    ¬ ∃ path t j, path.length = TRELLIS_LENGTH ∧ (trellis 16).Leads path 0 ∧
      metric (branchCost 16 fun _ => oddSymbol) path =
        (decoded 16 (fun _ => oddSymbol) TRELLIS_LENGTH).state_error 0 ∧
      path[TRELLIS_LENGTH - 1]? = some (t, j) ∧
      (trellis_decoder 16 (decoded 16 (fun _ => oddSymbol) TRELLIS_LENGTH) oddSymbol).1 =
        nearestPoints (trellis_trans 16 (decision_table 16 oddSymbol (j + offset 16 t)))
          oddSymbol := by
  have fit : MetricsFit 16 (branchCost 16 fun _ => oddSymbol) TRELLIS_LENGTH :=
    metricsFit_of_lt (by decide) (by decide)
  have sums : AdditionsFit 16 (fun _ => oddSymbol) TRELLIS_LENGTH :=
    (additionsFit_iff (by decide)).2 fit
  have finite : (decoded 16 (fun _ => oddSymbol) TRELLIS_LENGTH).state_error 0 < INFINITY := by
    have le := (shortest_state_error (by decide) sums (by decide)).le_nsmul
      (fun n t j => (branchCost_bounds n t j).2) (fun s => exists_branch (by decide))
      (show 0 < 16 by decide)
    exact le.trans_lt (by decide)
  refine ⟨fit, finite, ?_⟩
  rintro ⟨_, _, _, -, -, -, -, written⟩
  obtain ⟨path, steps, leads, -, survives⟩ := survivor_path (by decide) sums (by decide) finite
  obtain ⟨t, j, -, trans, decision⟩ := oldDecision_eq (n := 0) survives steps
  have small : j + offset 16 t < nb_trans 16 * 2 := by
    unfold offset
    split <;> omega
  have below := decision_table_lt 16 oddSymbol small
  rw [← decision] at below
  have turned := yout_decoded 16 (fun _ => oddSymbol) 0
  rw [Nat.zero_add, nearest_u0_oddSymbol] at turned
  rw [Nat.zero_add] at below
  exact rotatePoints_ne below _ _ (turned.symm.trans written)

end TrellisDecoder

end QFax.Linmodem

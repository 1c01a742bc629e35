import QFax.Linmodem.TrellisMetric
import QFax.Linmodem.ShellMapping

/-!
# V.34: the survivors of the trellis decoder

The errors of the states are the lengths of shortest paths through the trellis, as long as no sum
reaches past 31 bits.  Nothing ever brings the errors down again, so a long noisy connection gets
there.
-/

namespace QFax.Linmodem

open Viterbi

namespace TrellisDecoder

variable {conv_nb_states : Nat}

/-- The decoder after one symbol. -/
def next (conv_nb_states : Nat) (s : TrellisDecoder) (yy : Points) : TrellisDecoder :=
  (trellis_decoder conv_nb_states s yy).2.2

section Next

variable (s : TrellisDecoder) (yy : Points)

theorem store_frame :
    Frame (s.store conv_nb_states yy) ((branches conv_nb_states).foldl (relax conv_nb_states yy)
      (s.store conv_nb_states yy)) :=
  foldl_relax_frame _ _

theorem next_trellis_ptr :
    (next conv_nb_states s yy).trellis_ptr = (s.trellis_ptr + 1) % TRELLIS_LENGTH :=
  congrArg (fun k => (k + 1) % TRELLIS_LENGTH) (store_frame s yy).trellis_ptr

theorem next_state_memory : (next conv_nb_states s yy).state_memory =
    Function.update s.state_memory s.trellis_ptr yy :=
  (store_frame s yy).state_memory

theorem next_u0_memory : (next conv_nb_states s yy).u0_memory =
    Function.update s.u0_memory s.trellis_ptr (nearest_u0 conv_nb_states yy) :=
  (store_frame s yy).u0_memory

theorem next_slots (k : Nat) {slot : Nat} (other : slot ≠ s.trellis_ptr) :
    (next conv_nb_states s yy).state_decision k slot = s.state_decision k slot ∧
      (next conv_nb_states s yy).state_path k slot = s.state_path k slot :=
  (store_frame s yy).slots k slot other

variable (conv_nb_states) in
/-- The new error of a state with its survivor. -/
theorem next_entry (k : Nat) :
    ((next conv_nb_states s yy).state_error k,
      (next conv_nb_states s yy).state_decision k s.trellis_ptr,
      (next conv_nb_states s yy).state_path k s.trellis_ptr) =
    ((branches conv_nb_states).map (candidate conv_nb_states yy s)).foldl improve
      (s.store conv_nb_states yy).view k := by
  have filled := congrFun (view_foldl_relax conv_nb_states yy (branches conv_nb_states)
    (s.store conv_nb_states yy)) k
  rw [view, (store_frame s yy).trellis_ptr] at filled
  exact filled

end Next

/-- One call, when no sum overflows: the new errors are the least sums over the branches into each
state, and an error below infinity comes with a branch that has it. -/
theorem next_state_error {s : TrellisDecoder} {yy : Points}
    (nonneg : ∀ t < conv_nb_states, 0 ≤ s.state_error t)
    (fit : ∀ b ∈ branches conv_nb_states, s.state_error b.1 +
      error_table conv_nb_states yy (b.2 + offset conv_nb_states b.1) ≤ INFINITY)
    {k : Nat} (inside : k < conv_nb_states) :
    (next conv_nb_states s yy).state_error k ≤ INFINITY ∧
    (∀ t j, (trellis conv_nb_states).branch t j k → (next conv_nb_states s yy).state_error k ≤
      s.state_error t + error_table conv_nb_states yy (j + offset conv_nb_states t)) ∧
    ((next conv_nb_states s yy).state_error k < INFINITY → ∃ t j,
      (trellis conv_nb_states).branch t j k ∧
      (next conv_nb_states s yy).state_path k s.trellis_ptr = t ∧
      (next conv_nb_states s yy).state_decision k s.trellis_ptr =
        decision_table conv_nb_states yy (j + offset conv_nb_states t) ∧
      s.state_error t + error_table conv_nb_states yy (j + offset conv_nb_states t) =
        (next conv_nb_states s yy).state_error k) := by
  have entry := next_entry conv_nb_states s yy k
  have start : ((s.store conv_nb_states yy).view k).1 = INFINITY := if_pos inside
  have exact_sum : ∀ b ∈ branches conv_nb_states, (candidate conv_nb_states yy s b).2.1 =
      s.state_error b.1 +
        error_table conv_nb_states yy (b.2 + offset conv_nb_states b.1) := by
    intro b mem
    have top := fit b mem
    have low := nonneg b.1 (mem_branches.1 mem).1
    have cost := error_table_bounds conv_nb_states yy (b.2 + offset conv_nb_states b.1)
    simp only [INFINITY] at top
    exact int32_eq (by omega) (by omega)
  refine ⟨?_, ?_, ?_⟩
  · have le := foldl_improve_le ((branches conv_nb_states).map (candidate conv_nb_states yy s))
      (s.store conv_nb_states yy).view k
    rwa [← entry, start] at le
  · rintro t j ⟨state, trans, rfl⟩
    have mem : (t, j) ∈ branches conv_nb_states := mem_branches.2 ⟨state, trans⟩
    have le := foldl_improve_le_mem (List.mem_map_of_mem (f := candidate conv_nb_states yy s) mem)
      (s.store conv_nb_states yy).view
    rw [exact_sum _ mem] at le
    exact (congrArg Prod.fst entry).trans_le le
  · intro below
    obtain unchanged | ⟨c, mem, key, eq⟩ := foldl_improve_eq
      ((branches conv_nb_states).map (candidate conv_nb_states yy s))
      (s.store conv_nb_states yy).view k
    · rw [← entry] at unchanged
      have top := (congrArg Prod.fst unchanged).trans start
      exact absurd below top.not_lt
    · obtain ⟨b, branch, rfl⟩ := List.mem_map.1 mem
      rw [← entry] at eq
      obtain ⟨state, trans⟩ := mem_branches.1 branch
      refine ⟨b.1, b.2, ⟨state, trans, key.symm⟩, congrArg (·.2.2) eq, congrArg (·.2.1) eq, ?_⟩
      rw [← exact_sum b branch]
      exact (congrArg Prod.fst eq).symm

/-! ## Runs -/

/-- The decoder after `n` symbols. -/
def decoded (conv_nb_states : Nat) (y : Nat → Points) : Nat → TrellisDecoder
  | 0 => init
  | n + 1 => next conv_nb_states (decoded conv_nb_states y n) (y n)

section Runs

variable (conv_nb_states : Nat) (y : Nat → Points)

theorem decoded_trellis_ptr (n : Nat) :
    (decoded conv_nb_states y n).trellis_ptr = n % TRELLIS_LENGTH := by
  induction n with
  | zero => rfl
  | succ n ih => rw [decoded, next_trellis_ptr, ih, Nat.mod_add_mod]

/-- The slot of a call is not the slot of the next `TRELLIS_LENGTH - 1` calls. -/
theorem slot_ne {n i : Nat} (lt : i + 1 < TRELLIS_LENGTH) :
    n % TRELLIS_LENGTH ≠ (n + 1 + i) % TRELLIS_LENGTH := by
  simp only [TRELLIS_LENGTH] at lt ⊢
  omega

/-- What the slot of call `n` has for the survivors stays there for the next calls. -/
theorem decoded_slots (n k : Nat) {i : Nat} (lt : i < TRELLIS_LENGTH) :
    (decoded conv_nb_states y (n + 1 + i)).state_decision k (n % TRELLIS_LENGTH) =
        (decoded conv_nb_states y (n + 1)).state_decision k (n % TRELLIS_LENGTH) ∧
      (decoded conv_nb_states y (n + 1 + i)).state_path k (n % TRELLIS_LENGTH) =
        (decoded conv_nb_states y (n + 1)).state_path k (n % TRELLIS_LENGTH) := by
  induction i with
  | zero => exact ⟨rfl, rfl⟩
  | succ i ih =>
    obtain ⟨decision, path⟩ := ih (Nat.lt_of_succ_lt lt)
    have other : n % TRELLIS_LENGTH ≠ (decoded conv_nb_states y (n + 1 + i)).trellis_ptr := by
      rw [decoded_trellis_ptr]
      exact slot_ne lt
    obtain ⟨decision', path'⟩ :=
      next_slots (decoded conv_nb_states y (n + 1 + i)) (y (n + 1 + i)) k other
    exact ⟨decision'.trans decision, path'.trans path⟩

/-- The symbol of call `n` and its bit `u0` stay in their slot for the next calls. -/
theorem decoded_memory (n : Nat) {i : Nat} (lt : i < TRELLIS_LENGTH) :
    (decoded conv_nb_states y (n + 1 + i)).state_memory (n % TRELLIS_LENGTH) = y n ∧
      (decoded conv_nb_states y (n + 1 + i)).u0_memory (n % TRELLIS_LENGTH) =
        nearest_u0 conv_nb_states (y n) := by
  induction i with
  | zero =>
    rw [Nat.add_zero, decoded, next_state_memory, next_u0_memory, ← decoded_trellis_ptr _ y]
    exact ⟨Function.update_self .., Function.update_self ..⟩
  | succ i ih =>
    obtain ⟨memory, u0⟩ := ih (Nat.lt_of_succ_lt lt)
    have other : n % TRELLIS_LENGTH ≠ (decoded conv_nb_states y (n + 1 + i)).trellis_ptr := by
      rw [decoded_trellis_ptr]
      exact slot_ne lt
    rw [← Nat.add_assoc, decoded, next_state_memory, next_u0_memory, Function.update_of_ne other,
      Function.update_of_ne other]
    exact ⟨memory, u0⟩

/-! ## The errors -/

/-- No sum that is formed in the first `N` calls reaches past 31 bits. -/
def AdditionsFit (N : Nat) : Prop :=
  ∀ n < N, ∀ b ∈ branches conv_nb_states, (decoded conv_nb_states y n).state_error b.1 +
    error_table conv_nb_states (y n) (b.2 + offset conv_nb_states b.1) ≤ 2 ^ 31 - 1

/-- No shortest path of less than `N` steps, extended by a branch, costs more than 31 bits hold. -/
def MetricsFit (conv_nb_states : Nat) (cost : Nat → Nat → Nat → Int) (N : Nat) : Prop :=
  ∀ n < N, ∀ b ∈ branches conv_nb_states, ∀ m,
    Shortest (trellis conv_nb_states) cost n b.1 m → m + cost n b.1 b.2 ≤ 2 ^ 31 - 1

variable {conv_nb_states y}

theorem AdditionsFit.mono {N n : Nat} (fit : AdditionsFit conv_nb_states y N) (le : n ≤ N) :
    AdditionsFit conv_nb_states y n :=
  fun i lt => fit i (lt.trans_le le)

theorem branchCost_bounds (n t j : Nat) :
    0 ≤ branchCost conv_nb_states y n t j ∧ branchCost conv_nb_states y n t j ≤ 4096 :=
  error_table_bounds _ _ _

/-- The errors are the lengths of the shortest paths. -/
theorem shortest_state_error (states : conv_nb_states ∈ [16, 32, 64]) {n : Nat}
    (fit : AdditionsFit conv_nb_states y n) {s : Nat} (inside : s < conv_nb_states) :
    Shortest (trellis conv_nb_states) (branchCost conv_nb_states y) n s
      ((decoded conv_nb_states y n).state_error s) := by
  induction n generalizing s with
  | zero => exact Shortest.zero inside
  | succ n ih =>
    have before : ∀ t < conv_nb_states, Shortest (trellis conv_nb_states)
        (branchCost conv_nb_states y) n t ((decoded conv_nb_states y n).state_error t) :=
      fun t => ih (fit.mono n.le_succ)
    have nonneg : ∀ t < conv_nb_states, 0 ≤ (decoded conv_nb_states y n).state_error t := by
      intro t state
      have le := (before t state).nsmul_le fun n t j => (branchCost_bounds n t j).1
      rwa [nsmul_zero] at le
    obtain ⟨top, below, attained⟩ := next_state_error nonneg (fit n n.lt_succ_self) inside
    refine Shortest.step before ?_ below
    obtain less | eq := top.lt_or_eq
    · obtain ⟨t, j, branch, -, -, sum⟩ := attained less
      exact ⟨t, j, branch, sum⟩
    · -- every branch into the state then has just this sum
      obtain ⟨t, j, branch⟩ := exists_branch states inside
      refine ⟨t, j, branch, le_antisymm ?_ (below t j branch)⟩
      have sum := fit n n.lt_succ_self (t, j) (mem_branches.2 ⟨branch.1, branch.2.1⟩)
      exact sum.trans eq.ge

/-- The sums that are formed fit when those over the shortest paths do. -/
theorem additionsFit_iff (states : conv_nb_states ∈ [16, 32, 64]) {N : Nat} :
    AdditionsFit conv_nb_states y N ↔
      MetricsFit conv_nb_states (branchCost conv_nb_states y) N := by
  constructor
  · intro fit n lt b mem m shortest
    have same : m = (decoded conv_nb_states y n).state_error b.1 :=
      shortest.unique (shortest_state_error states (fit.mono lt.le) (mem_branches.1 mem).1)
    rw [same]
    exact fit n lt b mem
  · intro fit
    induction N with
    | zero => exact fun n none => absurd none n.not_lt_zero
    | succ N ih =>
      have earlier := ih fun n lt => fit n (lt.trans N.lt_succ_self)
      intro n lt b mem
      have upto : AdditionsFit conv_nb_states y n := earlier.mono (Nat.le_of_lt_succ lt)
      exact fit n lt b mem _ (shortest_state_error states upto (mem_branches.1 mem).1)

/-- Less than 2^19 symbols cannot make the metrics overflow. -/
theorem metricsFit_of_lt (states : conv_nb_states ∈ [16, 32, 64]) {N : Nat} (few : N < 2 ^ 19) :
    MetricsFit conv_nb_states (branchCost conv_nb_states y) N := by
  intro n lt b mem m shortest
  have le := shortest.le_nsmul (fun n t j => (branchCost_bounds n t j).2)
    (fun s => exists_branch states) (mem_branches.1 mem).1
  have cost : branchCost conv_nb_states y n b.1 b.2 ≤ 4096 := (branchCost_bounds n b.1 b.2).2
  rw [nsmul_eq_mul] at le
  omega

/-! ## Overflow -/

/-- The cost of a branch in terms of the symbols: the distance from its nearest label. -/
def labelCost (conv_nb_states : Nat) (y : Nat → Points) (n t j : Nat) : Int :=
  (Finset.range (nbLabels conv_nb_states)).inf' ⟨0, Finset.mem_range.2 (nbLabels_pos _)⟩
    (transDist conv_nb_states (y n) (j + offset conv_nb_states t))

theorem branchCost_eq_labelCost :
    branchCost conv_nb_states y = labelCost conv_nb_states y := by
  funext n t j
  obtain ⟨⟨i, lt, eq⟩, least⟩ :=
    error_table_least conv_nb_states (y n) (j + offset conv_nb_states t)
  apply le_antisymm
  · exact Finset.le_inf' _ _ fun i mem => least ⟨i, Finset.mem_range.1 mem, rfl⟩
  · exact (Finset.inf'_le _ (Finset.mem_range.2 lt)).trans eq.le

/-- The additions fit in 31 bits just when the lengths of the shortest paths do, as they always do
for less than 2^19 symbols. -/
theorem additions_fit (states : conv_nb_states ∈ [16, 32, 64]) (y : Nat → Points) (N : Nat) :
    (AdditionsFit conv_nb_states y N ↔
      MetricsFit conv_nb_states (labelCost conv_nb_states y) N) ∧
    (N < 2 ^ 19 → AdditionsFit conv_nb_states y N) :=
  ⟨by rw [additionsFit_iff states, branchCost_eq_labelCost],
    fun few => (additionsFit_iff states).2 (metricsFit_of_lt states few)⟩

/-- A few seconds of any signal. -/
theorem additions_fit_short :
    AdditionsFit 64 (fun n => ((n % 512, -(n % 300)), (7, n % 1000))) 5000 :=
  (additions_fit (by decide) _ _).2 (by decide)

/-- Every label is away from the origin. -/
theorem le_labelDist_zero (p : Label) : 256 ≤ labelDist p ((0, 0), (0, 0)) := by
  have axis : ∀ level, 64 ≤ tcm_dist level 0 := by
    intro level
    have square : 128 * 128 ≤ (0 - tcm_decision level 0) * (0 - tcm_decision level 0) := by
      obtain below | above : tcm_decision level 0 ≤ -128 ∨ 128 ≤ tcm_decision level 0 := by
        simp only [tcm_decision]
        omega
      · nlinarith
      · nlinarith
    simp only [tcm_dist, Int.shiftRight_eq_div_pow]
    omega
  have a0 := axis p.1.1
  have a1 := axis p.1.2
  have a2 := axis p.2.1
  have a3 := axis p.2.2
  simp only [labelDist]
  omega

/-- Silence: the metrics overflow at symbol 2^23. -/
theorem silence_overflows : ¬ AdditionsFit 16 (fun _ => ((0, 0), (0, 0))) (2 ^ 23) := by
  intro fit
  have cost : ∀ n t j, 256 ≤ branchCost 16 (fun _ => ((0, 0), (0, 0))) n t j := by
    intro n t j
    obtain ⟨i, -, eq⟩ := (error_table_least 16 ((0, 0), (0, 0)) (j + offset 16 t)).1
    exact (le_labelDist_zero _).trans_eq eq
  obtain ⟨n, last⟩ : ∃ n, n + 1 = 2 ^ 23 := ⟨2 ^ 23 - 1, rfl⟩
  rw [← last] at fit
  have shortest := shortest_state_error (by decide) (fit.mono n.le_succ) (s := 0) (by decide)
  have least := shortest.nsmul_le cost
  have sum : (decoded 16 (fun _ => ((0, 0), (0, 0))) n).state_error 0 +
      branchCost 16 (fun _ => ((0, 0), (0, 0))) n 0 0 ≤ 2 ^ 31 - 1 :=
    fit n n.lt_succ_self (0, 0) (mem_branches.2 ⟨by decide, by decide⟩)
  have more := cost n 0 0
  rw [nsmul_eq_mul] at least
  omega

end Runs

end TrellisDecoder

end QFax.Linmodem

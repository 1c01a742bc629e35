import QFax.Linmodem.TrellisDecoder
import Mathlib.Tactic.Linarith

/-!
# V.34: what a call of the trellis decoder does

The costs of the transitions, and one step of a run: the next errors with their survivors are a table
of best candidates, and the slots of the last `TRELLIS_LENGTH - 1` calls are left alone.
-/

namespace QFax.Linmodem

open Viterbi

/-! ## Costs -/

/-- A sample is at most half a step away from the subset. -/
theorem sub_tcm_decision (level : Nat) (sample : Int) :
    -512 ≤ sample - tcm_decision level sample ∧ sample - tcm_decision level sample ≤ 511 := by
  simp only [tcm_decision, Int.shiftRight_eq_div_pow]
  omega

theorem tcm_dist_bounds (level : Nat) (sample : Int) :
    0 ≤ tcm_dist level sample ∧ tcm_dist level sample ≤ 1024 := by
  obtain ⟨low, high⟩ := sub_tcm_decision level sample
  simp only [tcm_dist, Int.shiftRight_eq_div_pow]
  have nonneg : 0 ≤ (sample - tcm_decision level sample) * (sample - tcm_decision level sample) :=
    mul_self_nonneg _
  have square : (sample - tcm_decision level sample) * (sample - tcm_decision level sample) ≤
      512 * 512 := by nlinarith
  omega

theorem labelDist_bounds (p : Label) (yy : Points) :
    0 ≤ labelDist p yy ∧ labelDist p yy ≤ 4096 := by
  have b0 := tcm_dist_bounds p.1.1 yy.1.1
  have b1 := tcm_dist_bounds p.1.2 yy.1.2
  have b2 := tcm_dist_bounds p.2.1 yy.2.1
  have b3 := tcm_dist_bounds p.2.2 yy.2.2
  unfold labelDist
  omega

/-- A search for the least value keeps the least one it has seen, and where that was. -/
theorem foldl_least (f : Nat → Int) (ns : List Nat) (e : Int) (k : Nat) :
    let best := ns.foldl (fun best j => if f j < best.1 then (f j, j) else best) (e, k)
    best.1 ≤ e ∧ (∀ j ∈ ns, best.1 ≤ f j) ∧
      (best = (e, k) ∨ best.2 ∈ ns ∧ best.1 = f best.2) := by
  induction ns generalizing e k with
  | nil => exact ⟨le_rfl, fun _ none => absurd none List.not_mem_nil, .inl rfl⟩
  | cons n ns ih =>
    simp only [List.foldl_cons]
    by_cases less : f n < e
    · rw [if_pos less]
      obtain ⟨le, least, found⟩ := ih (f n) n
      refine ⟨le.trans less.le, List.forall_mem_cons.2 ⟨le, least⟩, .inr ?_⟩
      obtain same | ⟨mem, eq⟩ := found
      · rw [same]
        exact ⟨List.mem_cons_self, rfl⟩
      · exact ⟨List.mem_cons_of_mem n mem, eq⟩
    · rw [if_neg less]
      obtain ⟨le, least, found⟩ := ih e k
      refine ⟨le, List.forall_mem_cons.2 ⟨le.trans (not_lt.1 less), least⟩, ?_⟩
      exact found.imp_right fun ⟨mem, eq⟩ => ⟨List.mem_cons_of_mem n mem, eq⟩

section Tables

variable (conv_nb_states : Nat) (yy : Points)

theorem nbLabels_pos : 0 < nbLabels conv_nb_states := by
  unfold nbLabels nbbt
  split <;> decide

theorem nb_trans_mul_nbLabels : nb_trans conv_nb_states * nbLabels conv_nb_states = 128 := by
  unfold nb_trans nbLabels nbbt
  split <;> decide

/-- The distance of a symbol from label `j` of transition `i`. -/
def transDist (i j : Nat) : Int :=
  labelDist (trellis_trans conv_nb_states (i * nbLabels conv_nb_states + j)) yy

/-- The scan of a transition finds the least distance, whatever `jmin` was before. -/
theorem scanLabels_least (i jmin : Nat) :
    let best := scanLabels conv_nb_states yy i jmin
    (∀ j < nbLabels conv_nb_states, best.1 ≤ transDist conv_nb_states yy i j) ∧
      best.2 < nbLabels conv_nb_states ∧ best.1 = transDist conv_nb_states yy i best.2 := by
  obtain ⟨-, least, found⟩ := foldl_least (transDist conv_nb_states yy i)
    (List.range (nbLabels conv_nb_states)) INFINITY jmin
  refine ⟨fun j lt => least j (List.mem_range.2 lt), ?_⟩
  obtain unchanged | ⟨mem, eq⟩ := found
  · have first := least 0 (List.mem_range.2 (nbLabels_pos conv_nb_states))
    have bound : transDist conv_nb_states yy i 0 ≤ 4096 := (labelDist_bounds _ _).2
    rw [unchanged] at first
    have large : (4096 : Int) < INFINITY := by decide
    omega
  · exact ⟨List.mem_range.1 mem, eq⟩

theorem error_table_least (i : Nat) :
    IsLeast {d | ∃ j < nbLabels conv_nb_states, transDist conv_nb_states yy i j = d}
      (error_table conv_nb_states yy i) := by
  obtain ⟨least, lt, eq⟩ :=
    scanLabels_least conv_nb_states yy i (jminBefore conv_nb_states yy i)
  refine ⟨⟨_, lt, eq.symm⟩, ?_⟩
  rintro d ⟨j, inside, rfl⟩
  exact least j inside

theorem error_table_bounds (i : Nat) :
    0 ≤ error_table conv_nb_states yy i ∧ error_table conv_nb_states yy i ≤ 4096 := by
  obtain ⟨j, -, eq⟩ := (error_table_least conv_nb_states yy i).1
  rw [← eq]
  exact labelDist_bounds _ _

/-- Decisions are numbers of 8 bits. -/
theorem decision_table_lt {i : Nat} (lt : i < nb_trans conv_nb_states * 2) :
    decision_table conv_nb_states yy i < 256 := by
  obtain ⟨-, inside, -⟩ :=
    scanLabels_least conv_nb_states yy i (jminBefore conv_nb_states yy i)
  have blocks := nb_trans_mul_nbLabels conv_nb_states
  have below : (i + 1) * nbLabels conv_nb_states ≤
      nb_trans conv_nb_states * 2 * nbLabels conv_nb_states := Nat.mul_le_mul_right _ lt
  have all : nb_trans conv_nb_states * 2 * nbLabels conv_nb_states = 256 := by
    rw [Nat.mul_right_comm, blocks]
  rw [Nat.succ_mul] at below
  unfold decision_table
  omega

end Tables

/-! ## The trellis -/

/-- The trellis of the convolutional code. -/
def trellis (conv_nb_states : Nat) : Trellis Nat Nat where
  state s := s < conv_nb_states
  branch t j s :=
    t < conv_nb_states ∧ j < nb_trans conv_nb_states ∧ trellis_next_state conv_nb_states t j = s
  source branch := branch.1

open TrellisDecoder in
/-- The entry of the error table for a branch, when symbol `n` is decoded. -/
def branchCost (conv_nb_states : Nat) (y : Nat → Points) (n t j : Nat) : Int :=
  error_table conv_nb_states (y n) (j + offset conv_nb_states t)

theorem mem_branches {conv_nb_states t j : Nat} :
    (t, j) ∈ TrellisDecoder.branches conv_nb_states ↔
      t < conv_nb_states ∧ j < nb_trans conv_nb_states := by
  simp [TrellisDecoder.branches]

/-- Some branch leads into every state. -/
theorem exists_branch {conv_nb_states s : Nat} (states : conv_nb_states ∈ [16, 32, 64])
    (inside : s < conv_nb_states) : ∃ t j, (trellis conv_nb_states).branch t j s := by
  have all : ∀ nb ∈ [16, 32, 64], ∀ s < nb, ∃ b ∈ TrellisDecoder.branches nb,
      trellis_next_state nb b.1 b.2 = s := by decide +kernel
  obtain ⟨b, mem, eq⟩ := all conv_nb_states states s inside
  obtain ⟨state, trans⟩ := mem_branches.1 mem
  exact ⟨b.1, b.2, state, trans, eq⟩

/-! ## One call -/

namespace TrellisDecoder

variable {conv_nb_states : Nat} {yy : Points}

/-- The errors of the next states with the survivors that the current slot has for them. -/
def view (s : TrellisDecoder) (k : Nat) : Int × Nat × Nat :=
  (s.state_error1 k, s.state_decision k s.trellis_ptr, s.state_path k s.trellis_ptr)

/-- What a branch offers to its next state. -/
def candidate (conv_nb_states : Nat) (yy : Points) (s : TrellisDecoder) (b : Nat × Nat) :
    Nat × Int × Nat × Nat :=
  (trellis_next_state conv_nb_states b.1 b.2,
    int32 (s.state_error b.1 + error_table conv_nb_states yy (b.2 + offset conv_nb_states b.1)),
    decision_table conv_nb_states yy (b.2 + offset conv_nb_states b.1), b.1)

/-- Updates of the next states leave everything else alone. -/
structure Frame (s s' : TrellisDecoder) : Prop where
  state_error : s'.state_error = s.state_error
  state_memory : s'.state_memory = s.state_memory
  u0_memory : s'.u0_memory = s.u0_memory
  trellis_ptr : s'.trellis_ptr = s.trellis_ptr
  slots : ∀ k slot, slot ≠ s.trellis_ptr →
    s'.state_decision k slot = s.state_decision k slot ∧ s'.state_path k slot = s.state_path k slot

theorem Frame.refl (s : TrellisDecoder) : Frame s s := ⟨rfl, rfl, rfl, rfl, fun _ _ _ => ⟨rfl, rfl⟩⟩

theorem Frame.trans {s s' s'' : TrellisDecoder} (first : Frame s s') (second : Frame s' s'') :
    Frame s s'' where
  state_error := second.state_error.trans first.state_error
  state_memory := second.state_memory.trans first.state_memory
  u0_memory := second.u0_memory.trans first.u0_memory
  trellis_ptr := second.trellis_ptr.trans first.trellis_ptr
  slots k slot other := by
    obtain ⟨decision, path⟩ := first.slots k slot other
    obtain ⟨decision', path'⟩ := second.slots k slot (first.trellis_ptr ▸ other)
    exact ⟨decision'.trans decision, path'.trans path⟩

theorem update_update_apply {v : Nat → Nat → Nat} (next k ptr slot x : Nat) (other : slot ≠ ptr) :
    Function.update v next (Function.update (v next) ptr x) k slot = v k slot := by
  obtain rfl | ne := eq_or_ne k next
  · rw [Function.update_self, Function.update_of_ne other]
  · rw [Function.update_of_ne ne]

theorem relax_frame (s : TrellisDecoder) (b : Nat × Nat) : Frame s (relax conv_nb_states yy s b) := by
  simp only [relax]
  split
  · exact ⟨rfl, rfl, rfl, rfl, fun k slot other =>
      ⟨update_update_apply _ k _ slot _ other, update_update_apply _ k _ slot _ other⟩⟩
  · exact Frame.refl s

theorem view_relax (s : TrellisDecoder) (b : Nat × Nat) :
    (relax conv_nb_states yy s b).view = improve s.view (candidate conv_nb_states yy s b) := by
  simp only [relax]
  split
  · rename_i better
    have entered : improve s.view (candidate conv_nb_states yy s b) =
        Function.update s.view (candidate conv_nb_states yy s b).1
          (candidate conv_nb_states yy s b).2 := if_pos better
    rw [entered]
    funext k
    by_cases same : k = trellis_next_state conv_nb_states b.1 b.2
    · subst same
      simp [view, candidate]
    · simp [view, candidate, same]
  · exact (if_neg ‹_›).symm

theorem foldl_relax_frame (bs : List (Nat × Nat)) (s : TrellisDecoder) :
    Frame s (bs.foldl (relax conv_nb_states yy) s) := by
  induction bs generalizing s with
  | nil => exact Frame.refl s
  | cons b bs ih => exact (relax_frame s b).trans (ih _)

variable (conv_nb_states yy) in
/-- The loop over the branches fills a table of best candidates. -/
theorem view_foldl_relax (bs : List (Nat × Nat)) (s : TrellisDecoder) :
    (bs.foldl (relax conv_nb_states yy) s).view =
      (bs.map (candidate conv_nb_states yy s)).foldl improve s.view := by
  induction bs generalizing s with
  | nil => rfl
  | cons b bs ih =>
    have same : candidate conv_nb_states yy (relax conv_nb_states yy s b) =
        candidate conv_nb_states yy s := by
      funext b'
      rw [candidate, (relax_frame s b).state_error, candidate]
    rw [List.foldl_cons, ih, same, view_relax, List.map_cons, List.foldl_cons]

end TrellisDecoder

end QFax.Linmodem

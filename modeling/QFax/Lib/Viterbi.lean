import Mathlib.Algebra.Order.Monoid.Defs
import Mathlib.Data.List.Basic
import Mathlib.Logic.Function.Basic
import Mathlib.Order.Bounds.Basic

/-!
# Shortest paths through a trellis

A path is the list of its branches, latest first; what a branch costs may depend on its step.
`Shortest.step` is the dynamic program: the cheapest extension of the shortest paths of `n` steps is a
shortest path of `n + 1`.  A table that keeps for every state the best candidate seen so far
(`improve`) finds it, and the branches that it keeps lead back along a shortest path (`kept_path`).
-/

namespace Viterbi

variable {σ β α : Type}

structure Trellis (σ β : Type) where
  /-- The states; a path may start in each of them. -/
  state : σ → Prop
  /-- A branch leads from a state to a state. -/
  branch : σ → β → σ → Prop
  source : ∀ {t b s}, branch t b s → state t

/-- A path ends in a state. -/
def Trellis.Leads (T : Trellis σ β) : List (σ × β) → σ → Prop
  | [], s => T.state s
  | (t, b) :: path, s => T.branch t b s ∧ T.Leads path t

/-- The branches of a path were all kept, each at its own step. -/
def Survives (kept : ℕ → σ → σ → β → Prop) : List (σ × β) → σ → Prop
  | [], _ => True
  | (t, b) :: path, s => kept path.length s t b ∧ Survives kept path t

section Metric

variable [AddCommMonoid α]

/-- What the branches of a path cost together. -/
def metric (cost : ℕ → σ → β → α) : List (σ × β) → α
  | [] => 0
  | (t, b) :: path => metric cost path + cost path.length t b

/-- The paths of `n` steps into a state cost at least `m`, and one of them costs just that. -/
def Shortest [LE α] (T : Trellis σ β) (cost : ℕ → σ → β → α) (n : ℕ) (s : σ) (m : α) : Prop :=
  IsLeast {c | ∃ path, path.length = n ∧ T.Leads path s ∧ metric cost path = c} m

variable {T : Trellis σ β} {cost : ℕ → σ → β → α}

theorem Shortest.zero [Preorder α] {s : σ} (inside : T.state s) : Shortest T cost 0 s 0 := by
  refine ⟨⟨[], rfl, inside, rfl⟩, ?_⟩
  rintro c ⟨path, none, -, rfl⟩
  rw [List.length_eq_zero_iff.1 none, metric]

section Bounds

variable [Preorder α] [IsOrderedAddMonoid α] {c : α}

theorem nsmul_le_metric (le : ∀ n t b, c ≤ cost n t b) (path : List (σ × β)) :
    path.length • c ≤ metric cost path := by
  induction path with
  | nil => rw [List.length_nil, zero_nsmul, metric]
  | cons tb path ih =>
    rw [List.length_cons, succ_nsmul, metric]
    exact add_le_add ih (le _ _ _)

theorem metric_le_nsmul (le : ∀ n t b, cost n t b ≤ c) (path : List (σ × β)) :
    metric cost path ≤ path.length • c := by
  induction path with
  | nil => rw [List.length_nil, zero_nsmul, metric]
  | cons tb path ih =>
    rw [List.length_cons, succ_nsmul, metric]
    exact add_le_add ih (le _ _ _)

theorem Shortest.nsmul_le (le : ∀ n t b, c ≤ cost n t b) {n : ℕ} {s : σ} {m : α}
    (shortest : Shortest T cost n s m) : n • c ≤ m := by
  obtain ⟨path, rfl, -, rfl⟩ := shortest.1
  exact nsmul_le_metric le path

/-- Where branches lead into every state, shortest paths do not cost more than their steps may. -/
theorem Shortest.le_nsmul (le : ∀ n t b, cost n t b ≤ c)
    (into : ∀ s, T.state s → ∃ t b, T.branch t b s) {n : ℕ} {s : σ} (inside : T.state s) {m : α}
    (shortest : Shortest T cost n s m) : m ≤ n • c := by
  have reached : ∀ n s, T.state s → ∃ path, path.length = n ∧ T.Leads path s := by
    intro n
    induction n with
    | zero => exact fun s inside => ⟨[], rfl, inside⟩
    | succ n ih =>
      intro s inside
      obtain ⟨t, b, branch⟩ := into s inside
      obtain ⟨path, rfl, leads⟩ := ih t (T.source branch)
      exact ⟨(t, b) :: path, rfl, branch, leads⟩
  obtain ⟨path, rfl, leads⟩ := reached n s inside
  exact (shortest.2 ⟨path, rfl, leads, rfl⟩).trans (metric_le_nsmul le path)

end Bounds

variable [LinearOrder α] [IsOrderedAddMonoid α]

/-- The cheapest extension of the shortest paths. -/
theorem Shortest.step {n : ℕ} {d : σ → α} (before : ∀ t, T.state t → Shortest T cost n t (d t))
    {s : σ} {m : α} (attained : ∃ t b, T.branch t b s ∧ d t + cost n t b = m)
    (below : ∀ t b, T.branch t b s → m ≤ d t + cost n t b) : Shortest T cost (n + 1) s m := by
  constructor
  · obtain ⟨t, b, branch, rfl⟩ := attained
    obtain ⟨path, rfl, leads, total⟩ := (before t (T.source branch)).1
    exact ⟨(t, b) :: path, rfl, ⟨branch, leads⟩, by rw [metric, total]⟩
  · rintro c ⟨path, steps, leads, rfl⟩
    match path, steps, leads with
    | (t, b) :: path, steps, leads =>
      obtain rfl : path.length = n := Nat.succ.inj steps
      have shorter : d t ≤ metric cost path :=
        (before t (T.source leads.1)).2 ⟨path, rfl, leads.2, rfl⟩
      exact (below t b leads.1).trans (add_le_add_left shorter _)

/-- Where every value below a bound belongs to a kept branch, the kept branches are a path with that
value: costs are not negative, so the values along it stay below the bound. -/
theorem kept_path {kept : ℕ → σ → σ → β → Prop} {d : ℕ → σ → α} {top : α} {N : ℕ}
    (nonneg : ∀ n t b, 0 ≤ cost n t b) (zero : ∀ s, T.state s → d 0 s = 0)
    (tight : ∀ n < N, ∀ s, T.state s → d (n + 1) s < top →
      ∃ t b, T.branch t b s ∧ kept n s t b ∧ d n t + cost n t b = d (n + 1) s)
    {n : ℕ} (le : n ≤ N) {s : σ} (inside : T.state s) (lt : d n s < top) :
    ∃ path, path.length = n ∧ T.Leads path s ∧ metric cost path = d n s ∧
      Survives kept path s := by
  induction n generalizing s with
  | zero => exact ⟨[], rfl, inside, (zero s inside).symm, trivial⟩
  | succ n ih =>
    obtain ⟨t, b, branch, keeps, eq⟩ := tight n le s inside lt
    have earlier : d n t < top := (le_add_of_nonneg_right (nonneg n t b)).trans_lt (eq ▸ lt)
    obtain ⟨path, rfl, leads, total, survives⟩ :=
      ih (Nat.le_of_succ_le le) (T.source branch) earlier
    exact ⟨(t, b) :: path, rfl, ⟨branch, leads⟩, by rw [metric, total, eq], keeps, survives⟩

end Metric

/-! ## Tables of best candidates -/

section Improve

variable {κ γ : Type} [DecidableEq κ] [LinearOrder α]

/-- Enter a candidate for a key where it is better than what the table has. -/
def improve (table : κ → α × γ) (candidate : κ × α × γ) : κ → α × γ :=
  if candidate.2.1 < (table candidate.1).1 then Function.update table candidate.1 candidate.2
  else table

theorem improve_le (table : κ → α × γ) (candidate : κ × α × γ) (k : κ) :
    (improve table candidate k).1 ≤ (table k).1 := by
  unfold improve
  split
  · rename_i better
    obtain rfl | other := eq_or_ne k candidate.1
    · rw [Function.update_self]
      exact better.le
    · rw [Function.update_of_ne other]
  · exact le_rfl

theorem improve_self_le (table : κ → α × γ) (candidate : κ × α × γ) :
    (improve table candidate candidate.1).1 ≤ candidate.2.1 := by
  unfold improve
  split
  · rw [Function.update_self]
  · exact not_lt.1 ‹_›

theorem improve_eq (table : κ → α × γ) (candidate : κ × α × γ) (k : κ) :
    improve table candidate k = table k ∨
      k = candidate.1 ∧ improve table candidate k = candidate.2 := by
  unfold improve
  split
  · obtain rfl | other := eq_or_ne k candidate.1
    · exact .inr ⟨rfl, Function.update_self ..⟩
    · exact .inl (Function.update_of_ne other ..)
  · exact .inl rfl

theorem foldl_improve_le (candidates : List (κ × α × γ)) (table : κ → α × γ) (k : κ) :
    (candidates.foldl improve table k).1 ≤ (table k).1 := by
  induction candidates generalizing table with
  | nil => exact le_rfl
  | cons c cs ih => exact (ih _).trans (improve_le table c k)

/-- No candidate for a key is better than the entry at the end. -/
theorem foldl_improve_le_mem {candidates : List (κ × α × γ)} {c : κ × α × γ}
    (mem : c ∈ candidates) (table : κ → α × γ) :
    (candidates.foldl improve table c.1).1 ≤ c.2.1 := by
  induction candidates generalizing table with
  | nil => cases mem
  | cons c' cs ih =>
    obtain rfl | later := List.mem_cons.1 mem
    · exact (foldl_improve_le cs _ _).trans (improve_self_le table c)
    · exact ih later _

/-- The entry at the end is the one at the start or a candidate for its key. -/
theorem foldl_improve_eq (candidates : List (κ × α × γ)) (table : κ → α × γ) (k : κ) :
    candidates.foldl improve table k = table k ∨
      ∃ c ∈ candidates, k = c.1 ∧ candidates.foldl improve table k = c.2 := by
  induction candidates generalizing table with
  | nil => exact .inl rfl
  | cons c cs ih =>
    obtain same | ⟨c', mem, key, eq⟩ := ih (improve table c)
    · obtain kept | ⟨key, entered⟩ := improve_eq table c k
      · exact .inl (same.trans kept)
      · exact .inr ⟨c, List.mem_cons_self, key, same.trans entered⟩
    · exact .inr ⟨c', List.mem_cons_of_mem c mem, key, eq⟩

end Improve

end Viterbi

import Mathlib.Logic.Function.Basic
import Mathlib.Data.List.Basic
import Mathlib.Data.Option.Basic

/-!
# Instances with shared hidden state

Several instances of a component are called in any order.  A call works on the state of its instance,
but it may also read and write a state that all instances share.  Where the shared state never makes
a call behave differently from a private one, every instance behaves as if it were alone: that is
`together_eq_alone`, for any condition that makes single calls behave the same.
-/

namespace SharedState

variable {ι η σ α β : Type} [DecidableEq ι]

/-- A call of an instance: the new hidden state, the new state of the instance, its outputs. -/
abbrev Call (η σ α β : Type) : Type := η → σ → α → Option (η × σ × List β)

variable (call : Call η σ α β) (ok : η → η → σ → α → Prop)

/-- The calls of one instance, alone. -/
def alone : η → σ → List α → Option (η × σ × List β)
  | h, s, [] => some (h, s, [])
  | h, s, a :: rest => do
    let (h, s, out) ← call h s a
    let (h, s, outs) ← alone h s rest
    some (h, s, out ++ outs)

/-- Calls of several instances, in any order. -/
def together : η → (ι → σ) → List (ι × α) → Option (η × (ι → σ) × List (ι × β))
  | h, s, [] => some (h, s, [])
  | h, s, (k, a) :: rest => do
    let (h, t, out) ← call h (s k) a
    let (h, s, outs) ← together h (Function.update s k t) rest
    some (h, s, out.map (k, ·) ++ outs)

/-- What belongs to one instance. -/
def only (k : ι) (xs : List (ι × α)) : List α :=
  (xs.filter fun x => x.1 = k).map (·.2)

/-- One instance meets the condition at every call, with two hidden states side by side. -/
def MeetsAlone : η → η → σ → List α → Prop
  | _, _, _, [] => True
  | h, own, s, a :: rest => ok h own s a ∧
    match call h s a, call own s a with
    | some (h, t, _), some (own, _, _) => MeetsAlone h own t rest
    | _, _ => True

/-- Every call meets the condition, with a hidden state of its own for every instance beside the
shared one. -/
def Meets : η → (ι → η) → (ι → σ) → List (ι × α) → Prop
  | _, _, _, [] => True
  | h, own, s, (k, a) :: rest => ok h (own k) (s k) a ∧
    match call h (s k) a, call (own k) (s k) a with
    | some (h, t, _), some (o, _, _) =>
      Meets h (Function.update own k o) (Function.update s k t) rest
    | _, _ => True

/-- The condition makes single calls behave the same. -/
def Hides : Prop :=
  ∀ h own s a, ok h own s a → (call h s a).map (·.2) = (call own s a).map (·.2)

variable {call ok} {k : ι}

theorem only_cons_self (a : α) (xs : List (ι × α)) : only k ((k, a) :: xs) = a :: only k xs := by
  simp [only]

theorem only_cons_of_ne {j : ι} (ne : j ≠ k) (a : α) (xs : List (ι × α)) :
    only k ((j, a) :: xs) = only k xs := by
  simp [only, ne]

theorem only_append (xs ys : List (ι × α)) : only k (xs ++ ys) = only k xs ++ only k ys := by
  simp [only]

theorem only_map_self (out : List α) : only k (out.map (k, ·)) = out := by
  induction out with
  | nil => rfl
  | cons b out ih => rw [List.map_cons, only_cons_self, ih]

theorem only_map_of_ne {j : ι} (ne : j ≠ k) (out : List α) : only k (out.map (j, ·)) = [] := by
  induction out with
  | nil => rfl
  | cons b out ih => rw [List.map_cons, only_cons_of_ne ne, ih]

theorem alone_one {h h' : η} {s t : σ} {a : α} {out : List β} (run : call h s a = some (h', t, out)) :
    alone call h s [a] = some (h', t, out) := by
  simp [alone, run]

/-- One call each of two instances. -/
theorem together_pair {h h₁ h₂ : η} {s : ι → σ} {t₁ t₂ : σ} {j : ι} {a b : α} {out₁ out₂ : List β}
    (ne : k ≠ j) (first : call h (s j) a = some (h₁, t₁, out₁))
    (second : call h₁ (s k) b = some (h₂, t₂, out₂)) :
    together call h s [(j, a), (k, b)] = some (h₂, Function.update (Function.update s j t₁) k t₂,
      out₁.map (j, ·) ++ out₂.map (k, ·)) := by
  simp [together, first, Function.update_of_ne ne, second]

/-- A condition that equal hidden states meet is met by them throughout. -/
theorem meetsAlone_self (self : ∀ h s a, ok h h s a) (h : η) (s : σ) (as : List α) :
    MeetsAlone call ok h h s as := by
  induction as generalizing h s with
  | nil => trivial
  | cons a as ih =>
    refine ⟨self h s a, ?_⟩
    cases call h s a with
    | none => trivial
    | some r => exact ih r.1 r.2.1

theorem meets_one {h : η} {own : ι → η} {s : ι → σ} {a : α} (met : ok h (own k) (s k) a) :
    Meets call ok h own s [(k, a)] := by
  refine ⟨met, ?_⟩
  split <;> trivial

/-- One more call. -/
theorem alone_snoc {h h' h'' : η} {s s' s'' : σ} {as : List α} {a : α} {outs out : List β}
    (run : alone call h s as = some (h', s', outs)) (last : call h' s' a = some (h'', s'', out)) :
    alone call h s (as ++ [a]) = some (h'', s'', outs ++ out) := by
  induction as generalizing h s outs with
  | nil =>
    cases run
    simp [alone, last]
  | cons b as ih =>
    simp only [alone, Option.bind_eq_bind, Option.bind_eq_some_iff] at run
    obtain ⟨⟨h₁, s₁, out₁⟩, first, ⟨h₂, s₂, outs₂⟩, rest, same⟩ := run
    cases same
    simp only [List.cons_append, alone, first, ih rest, Option.bind_eq_bind, Option.bind_some,
      List.append_assoc]

/-- A call that succeeds with one hidden state succeeds in the same way with the other. -/
theorem Hides.call_eq (hides : Hides call ok) {h own h' : η} {s t : σ} {a : α} {out : List β}
    (met : ok h own s a) (run : call h s a = some (h', t, out)) :
    ∃ own', call own s a = some (own', t, out) := by
  have same := hides h own s a met
  rw [run, Option.map_some, eq_comm, Option.map_eq_some_iff] at same
  obtain ⟨⟨own', rest⟩, found, rfl⟩ := same
  exact ⟨own', found⟩

/-- A run that meets the condition is the same with either hidden state. -/
theorem alone_eq (hides : Hides call ok) {h own : η} {s : σ} {as : List α}
    (meets : MeetsAlone call ok h own s as) :
    (alone call h s as).map (·.2) = (alone call own s as).map (·.2) := by
  induction as generalizing h own s with
  | nil => rfl
  | cons a as ih =>
    obtain ⟨met, later⟩ := meets
    cases run : call h s a with
    | none =>
      have other : call own s a = none := by
        have same := hides h own s a met
        rwa [run, Option.map_none, eq_comm, Option.map_eq_none_iff] at same
      simp [alone, run, other]
    | some r =>
      obtain ⟨h', t, out⟩ := r
      obtain ⟨own', other⟩ := hides.call_eq met run
      simp only [run, other] at later
      have same := ih later
      simp only [alone, run, other, Option.bind_eq_bind, Option.bind_some]
      cases first : alone call h' t as <;> cases second : alone call own' t as <;>
        simp_all

/-- Where the shared state goes unnoticed, every instance does what it does alone. -/
theorem together_eq_alone (hides : Hides call ok) {h h' : η} {own : ι → η} {s s' : ι → σ}
    {calls : List (ι × α)} {outs : List (ι × β)} (meets : Meets call ok h own s calls)
    (run : together call h s calls = some (h', s', outs)) (k : ι) :
    ∃ own', alone call (own k) (s k) (only k calls) = some (own', s' k, only k outs) := by
  induction calls generalizing h own s outs with
  | nil =>
    cases run
    exact ⟨own k, rfl⟩
  | cons c calls ih =>
    obtain ⟨j, a⟩ := c
    obtain ⟨met, later⟩ := meets
    simp only [together, Option.bind_eq_bind, Option.bind_eq_some_iff] at run
    obtain ⟨⟨h₁, t, out⟩, first, ⟨h₂, s₂, outs₂⟩, rest, same⟩ := run
    cases same
    obtain ⟨o, other⟩ := hides.call_eq met first
    simp only [first, other] at later
    obtain ⟨own', tail⟩ := ih later rest
    rw [only_append]
    by_cases mine : j = k
    · subst mine
      rw [Function.update_self, Function.update_self] at tail
      refine ⟨own', ?_⟩
      rw [only_cons_self, only_map_self]
      simp only [alone, other, tail, Option.bind_eq_bind, Option.bind_some]
    · rw [Function.update_of_ne (Ne.symm mine), Function.update_of_ne (Ne.symm mine)] at tail
      rw [only_cons_of_ne mine, only_map_of_ne mine]
      exact ⟨own', tail⟩

end SharedState

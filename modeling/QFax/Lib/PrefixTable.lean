import Mathlib.Data.Nat.Bitwise
import Mathlib.Data.List.Basic

/-!
# Lookup tables for prefix codes

A decoder that looks at a fixed window of bits keeps a table with one entry for every window.  The
table is filled range by range: a `Slot` with code word `word` and `shift` free bits stores its
value in every index that starts with the word.  When no two slots with different values share an
index (`Compatible`), the order in which they are stored does not matter, and a lookup finds the
value of any slot that covers the index (`fill_of_mem`).
-/

namespace PrefixTable

variable {α : Type}

/-- A value for all indices whose bits above the `shift` lowest ones are `word`. -/
structure Slot (α : Type) where
  word : Nat
  shift : Nat
  value : α

/-- The index starts with the slot's word. -/
def Slot.Covers (s : Slot α) (i : Nat) : Prop := i >>> s.shift = s.word

instance (s : Slot α) (i : Nat) : Decidable (s.Covers i) :=
  inferInstanceAs (Decidable (i >>> s.shift = s.word))

/-- Store a slot: a run of `2 ^ shift` entries from index `word * 2 ^ shift` on. -/
def Slot.store (t : Nat → α) (s : Slot α) : Nat → α := fun i =>
  if s.word <<< s.shift ≤ i ∧ i < s.word <<< s.shift + 1 <<< s.shift then s.value else t i

/-- The indices of a slot's run are those that start with its word. -/
theorem Slot.mem_run_iff (s : Slot α) (i : Nat) :
    (s.word <<< s.shift ≤ i ∧ i < s.word <<< s.shift + 1 <<< s.shift) ↔ s.Covers i := by
  have pos := Nat.two_pow_pos s.shift
  unfold Slot.Covers
  rw [Nat.shiftLeft_eq, Nat.shiftLeft_eq, Nat.shiftRight_eq_div_pow, Nat.one_mul,
    Nat.div_eq_iff pos]
  constructor <;> intro ⟨lower, upper⟩ <;> constructor <;> omega

theorem Slot.store_of_covers (t : Nat → α) {s : Slot α} {i : Nat} (covers : s.Covers i) :
    s.store t i = s.value :=
  if_pos ((s.mem_run_iff i).mpr covers)

theorem Slot.store_of_not_covers (t : Nat → α) {s : Slot α} {i : Nat} (apart : ¬ s.Covers i) :
    s.store t i = t i :=
  if_neg fun run => apart ((s.mem_run_iff i).mp run)

/-- Store slots one after the other. -/
def fill (t : Nat → α) (slots : List (Slot α)) : Nat → α := slots.foldl Slot.store t

@[simp] theorem fill_cons (t : Nat → α) (s : Slot α) (slots : List (Slot α)) :
    fill t (s :: slots) = fill (s.store t) slots := rfl

theorem fill_append (t : Nat → α) (as bs : List (Slot α)) :
    fill t (as ++ bs) = fill (fill t as) bs :=
  List.foldl_append

/-- Slots whose runs overlap carry the same value.  The longer word decides: it extends the
shorter one. -/
def Compatible (slots : List (Slot α)) : Prop :=
  ∀ s ∈ slots, ∀ r ∈ slots, r.shift ≤ s.shift →
    r.word >>> (s.shift - r.shift) = s.word → s.value = r.value

instance [DecidableEq α] (slots : List (Slot α)) : Decidable (Compatible slots) :=
  inferInstanceAs (Decidable (∀ s ∈ slots, ∀ r ∈ slots, r.shift ≤ s.shift →
    r.word >>> (s.shift - r.shift) = s.word → s.value = r.value))

/-- Two compatible slots that cover one index have one value. -/
theorem Compatible.value_eq {slots : List (Slot α)} (compatible : Compatible slots)
    {s r : Slot α} (hs : s ∈ slots) (hr : r ∈ slots) {i : Nat} (covers : s.Covers i)
    (covers' : r.Covers i) : s.value = r.value := by
  unfold Slot.Covers at covers covers'
  rcases Nat.le_total r.shift s.shift with le | le
  · apply compatible s hs r hr le
    rw [← covers', ← covers, ← Nat.shiftRight_add, Nat.add_sub_cancel' le]
  · apply Eq.symm
    apply compatible r hr s hs le
    rw [← covers', ← covers, ← Nat.shiftRight_add, Nat.add_sub_cancel' le]

/-- What the slots that cover an index and the table before them satisfy there, the table satisfies
afterwards. -/
theorem fill_covers {P : α → Prop} {slots : List (Slot α)} {i : Nat}
    (all : ∀ s ∈ slots, s.Covers i → P s.value) {t : Nat → α} (before : P (t i)) :
    P (fill t slots i) := by
  induction slots generalizing t with
  | nil => exact before
  | cons s slots ih =>
    apply ih (fun r hr => all r (List.mem_cons_of_mem s hr))
    by_cases covers : s.Covers i
    · rw [Slot.store_of_covers t covers]
      exact all s List.mem_cons_self covers
    · rwa [Slot.store_of_not_covers t covers]

/-- A lookup in a table filled with compatible slots finds the value of a slot that covers the
index, whatever was stored before or after it. -/
theorem fill_of_mem {slots : List (Slot α)} (compatible : Compatible slots) {s : Slot α}
    (hs : s ∈ slots) {i : Nat} (covers : s.Covers i) (t : Nat → α) :
    fill t slots i = s.value := by
  have all : ∀ r ∈ slots, r.Covers i → r.value = s.value := fun r hr covers' =>
    compatible.value_eq hr hs covers' covers
  obtain ⟨before, after, rfl⟩ := List.append_of_mem hs
  rw [fill_append, fill_cons]
  apply fill_covers (P := (· = s.value)) fun r hr => all r (by simp [hr])
  exact Slot.store_of_covers _ covers

/-- What the slots and the table before them satisfy, every entry satisfies. -/
theorem fill_forall {P : α → Prop} {slots : List (Slot α)} (all : ∀ s ∈ slots, P s.value)
    {t : Nat → α} (before : ∀ i, P (t i)) (i : Nat) : P (fill t slots i) :=
  fill_covers (fun s member _ => all s member) (before i)

end PrefixTable

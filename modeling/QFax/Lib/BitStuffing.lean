import Mathlib.Data.List.Basic
import Mathlib.Algebra.Order.Group.Nat

/-!
# Bit stuffing

After `k` ones in a row the sender puts in a zero, which the receiver takes out again.  What is sent
has at most `k` ones in a row whatever the message is, so that longer rows are free for flags and for
aborts; and a row of ones is the longest stretch without an edge on a line that changes at every zero.
-/

namespace BitStuffing

variable {k n : Nat} {bits more : List Bool}

/-- The ones at the end of a bit string that `n` ones came before. -/
def run : Nat → List Bool → Nat
  | n, [] => n
  | n, true :: bits => run (n + 1) bits
  | _, false :: bits => run 0 bits

/-- There are never more than `k` ones in a row, `n` ones before the string included. -/
def Calm (k : Nat) : Nat → List Bool → Prop
  | n, [] => n ≤ k
  | n, true :: bits => Calm k (n + 1) bits
  | n, false :: bits => n ≤ k ∧ Calm k 0 bits

instance Calm.instDecidable (k : Nat) : ∀ n bits, Decidable (Calm k n bits)
  | n, [] => inferInstanceAs (Decidable (n ≤ k))
  | n, true :: bits => instDecidable k (n + 1) bits
  | n, false :: bits =>
    have := instDecidable k 0 bits
    inferInstanceAs (Decidable (n ≤ k ∧ Calm k 0 bits))

/-- A zero is put in after every `k` ones in a row. -/
def stuff (k : Nat) : Nat → List Bool → List Bool
  | _, [] => []
  | n, true :: bits =>
    if n + 1 = k then true :: false :: stuff k 0 bits else true :: stuff k (n + 1) bits
  | _, false :: bits => false :: stuff k 0 bits

/-- A zero behind `k` ones is taken out. -/
def destuff (k : Nat) : Nat → List Bool → List Bool
  | _, [] => []
  | n, true :: bits => true :: destuff k (n + 1) bits
  | n, false :: bits => if k ≤ n then destuff k 0 bits else false :: destuff k 0 bits

/-! ## Rows of ones -/

theorem run_append (n : Nat) (bits more : List Bool) : run n (bits ++ more) = run (run n bits) more := by
  induction bits generalizing n with
  | nil => rfl
  | cons b bits ih =>
    cases b
    · exact ih 0
    · exact ih (n + 1)

theorem run_replicate (n r : Nat) : run n (List.replicate r true) = n + r := by
  induction r generalizing n with
  | zero => rfl
  | succ r ih =>
    rw [List.replicate_succ, run, ih]
    omega

theorem calm_append : Calm k n (bits ++ more) ↔ Calm k n bits ∧ Calm k (run n bits) more := by
  induction bits generalizing n with
  | nil =>
    refine ⟨fun calm => ⟨?_, calm⟩, And.right⟩
    -- the ones before the string are part of its first row
    induction more generalizing n with
    | nil => exact calm
    | cons b more ih =>
      cases b
      · exact calm.1
      · exact Nat.le_of_succ_le (ih calm)
  | cons b bits ih =>
    cases b
    · exact (and_congr_right fun _ => ih).trans and_assoc.symm
    · exact ih

theorem Calm.run_le (calm : Calm k n bits) : run n bits ≤ k := by
  induction bits generalizing n with
  | nil => exact calm
  | cons b bits ih =>
    cases b
    · exact ih calm.2
    · exact ih calm

theorem Calm.mono {m : Nat} (le : k ≤ m) (calm : Calm k n bits) : Calm m n bits := by
  induction bits generalizing n with
  | nil => exact calm.trans le
  | cons b bits ih =>
    cases b
    · exact ⟨calm.1.trans le, ih calm.2⟩
    · exact ih calm

/-! ## Putting in and taking out -/

theorem destuff_append (k n : Nat) (bits more : List Bool) :
    destuff k n (bits ++ more) = destuff k n bits ++ destuff k (run n bits) more := by
  induction bits generalizing n with
  | nil => rfl
  | cons b bits ih =>
    cases b
    · rw [List.cons_append, destuff, destuff, run, ih]
      split <;> rfl
    · rw [List.cons_append, destuff, destuff, run, ih, List.cons_append]

/-- The zeros put in are taken out again. -/
theorem destuff_stuff (below : n < k) (bits : List Bool) : destuff k n (stuff k n bits) = bits := by
  induction bits generalizing n with
  | nil => rfl
  | cons b bits ih =>
    cases b
    · rw [stuff, destuff, if_neg (Nat.not_le.mpr below), ih (Nat.zero_lt_of_lt below)]
    · rw [stuff]
      split
      · next full => rw [destuff, destuff, if_pos full.ge, ih (Nat.zero_lt_of_lt below)]
      · next room => rw [destuff, ih (Nat.lt_of_le_of_ne below room)]

/-- Fewer than `k` ones are pending after a stuffed string. -/
theorem run_stuff_lt (below : n < k) (bits : List Bool) : run n (stuff k n bits) < k := by
  induction bits generalizing n with
  | nil => exact below
  | cons b bits ih =>
    cases b
    · exact ih (Nat.zero_lt_of_lt below)
    · rw [stuff]
      split
      · exact ih (Nat.zero_lt_of_lt below)
      · next room => exact ih (Nat.lt_of_le_of_ne below room)

theorem stuff_append (k n : Nat) (bits more : List Bool) :
    stuff k n (bits ++ more) = stuff k n bits ++ stuff k (run n (stuff k n bits)) more := by
  induction bits generalizing n with
  | nil => rfl
  | cons b bits ih =>
    cases b
    · exact congrArg (false :: ·) (ih 0)
    · rw [List.cons_append, stuff, stuff]
      split
      · exact congrArg (true :: false :: ·) (ih 0)
      · exact congrArg (true :: ·) (ih (n + 1))

/-- No more than `k` ones are sent in a row. -/
theorem calm_stuff (below : n < k) (bits : List Bool) : Calm k n (stuff k n bits) := by
  induction bits generalizing n with
  | nil => exact below.le
  | cons b bits ih =>
    cases b
    · exact ⟨below.le, ih (Nat.zero_lt_of_lt below)⟩
    · rw [stuff]
      split
      · next full => exact ⟨full.le, ih (Nat.zero_lt_of_lt below)⟩
      · next room => exact ih (Nat.lt_of_le_of_ne below room)

end BitStuffing

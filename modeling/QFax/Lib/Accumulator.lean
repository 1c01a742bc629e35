import Mathlib.Data.Nat.Count

/-!
# Fractional counters

An accumulator is raised by `r` at every step, and lowered by `P` when this takes it to `P` or
more.  With `r ≤ P` it stays below `P` and overflows once for every `P` that have been added: `r`
times in `P` steps, as evenly as whole steps allow (`count_overflows`).
-/

namespace Accumulator

/-- One step: the accumulator behind it, and whether it overflowed. -/
def advance (P r acc : Nat) : Nat × Bool :=
  if acc + r < P then (acc + r, false) else (acc + r - P, true)

/-- The accumulator after `n` steps. -/
def after (P r acc n : Nat) : Nat := (acc + n * r) % P

/-- Whether step `n` overflows. -/
def overflows (P r acc n : Nat) : Bool := decide (P ≤ after P r acc n + r)

variable {P r acc : Nat}

/-- Adding at most `P` moves the quotient by one at an overflow and leaves it as it is otherwise. -/
theorem div_mod_add {a : Nat} (positive : 0 < P) (le : r ≤ P) :
    (a % P + r < P → (a + r) / P = a / P ∧ (a + r) % P = a % P + r) ∧
      (P ≤ a % P + r → (a + r) / P = a / P + 1 ∧ (a + r) % P = a % P + r - P) := by
  have parts : P * (a / P) + a % P = a := Nat.div_add_mod a P
  have lt : a % P < P := Nat.mod_lt a positive
  constructor
  · intro small
    have sum : a + r = P * (a / P) + (a % P + r) := by omega
    rw [sum, Nat.mul_add_div positive, Nat.mul_add_mod, Nat.div_eq_of_lt small, Nat.mod_eq_of_lt small]
    exact ⟨rfl, rfl⟩
  · intro large
    have next : P * (a / P + 1) = P * (a / P) + P := Nat.mul_succ P (a / P)
    have sum : a + r = P * (a / P + 1) + (a % P + r - P) := by omega
    have small : a % P + r - P < P := by omega
    rw [sum, Nat.mul_add_div positive, Nat.mul_add_mod, Nat.div_eq_of_lt small, Nat.mod_eq_of_lt small]
    exact ⟨rfl, rfl⟩

theorem after_succ (r acc n : Nat) : acc + (n + 1) * r = acc + n * r + r := by
  rw [Nat.succ_mul, Nat.add_assoc]

theorem advance_after (acc : Nat) (positive : 0 < P) (le : r ≤ P) (n : Nat) :
    advance P r (after P r acc n) = (after P r acc (n + 1), overflows P r acc n) := by
  obtain ⟨small, large⟩ := div_mod_add (a := acc + n * r) positive le
  unfold advance overflows after
  rw [after_succ]
  split
  case isTrue lt => rw [(small lt).2, decide_eq_false (by omega)]
  case isFalse ge => rw [(large (by omega)).2, decide_eq_true (by omega)]

theorem quotient_succ (acc : Nat) (positive : 0 < P) (le : r ≤ P) (n : Nat) : (acc + (n + 1) * r) / P =
    (acc + n * r) / P + (overflows P r acc n).toNat := by
  obtain ⟨small, large⟩ := div_mod_add (a := acc + n * r) positive le
  unfold overflows after
  rw [after_succ]
  by_cases overflow : P ≤ (acc + n * r) % P + r
  · rw [(large overflow).1, decide_eq_true overflow]
    rfl
  · rw [(small (by omega)).1, decide_eq_false overflow]
    rfl

/-- The overflows of the first `n` steps. -/
theorem count_overflows (start : acc < P) (le : r ≤ P) (n : Nat) :
    n.count (fun i => overflows P r acc i = true) = (acc + n * r) / P := by
  induction n with
  | zero => rw [Nat.count_zero, Nat.zero_mul, Nat.add_zero, Nat.div_eq_of_lt start]
  | succ n ih =>
    rw [Nat.count_succ, ih, quotient_succ acc (by omega) le]
    cases overflows P r acc n <;> rfl

theorem advance_lt (start : acc < P) (le : r ≤ P) : (advance P r acc).1 < P := by
  unfold advance
  split
  case isTrue small => exact small
  case isFalse =>
    show acc + r - P < P
    omega

/-- The overflows of `n + 1` steps, by the first of them. -/
theorem quotient_advance (start : acc < P) (n : Nat) : (acc + (n + 1) * r) / P =
    (advance P r acc).2.toNat + ((advance P r acc).1 + n * r) / P := by
  have positive : 0 < P := Nat.lt_of_le_of_lt (Nat.zero_le acc) start
  have sum : acc + (n + 1) * r = acc + r + n * r :=
    by rw [Nat.succ_mul, Nat.add_right_comm, Nat.add_assoc]
  rw [sum]
  unfold advance
  split
  case isTrue => exact (Nat.zero_add _).symm
  case isFalse large =>
    have whole : acc + r + n * r = acc + r - P + n * r + P := by omega
    rw [whole, Nat.add_div_right _ positive, Nat.add_comm]
    rfl

/-- Every `P` steps the accumulator is where it was. -/
theorem overflows_periodic (P r acc n : Nat) : overflows P r acc (n + P) = overflows P r acc n := by
  have turn : acc + (n + P) * r = acc + n * r + P * r := by rw [Nat.add_mul, Nat.add_assoc]
  rw [overflows, overflows, after, after, turn, Nat.add_mul_mod_self_left]

end Accumulator

import Mathlib.Algebra.BigOperators.Intervals
import Mathlib.Tactic.Ring

/-!
# How often a digit occurs

The numbers below a bound go through the values of a digit in blocks.  A sum over one of their digits
is a sum over its values, each taken as often as it occurs: once more in front of the digit of the last
number, and for that digit itself as often as the last block has numbers.
-/

namespace DigitCount

open Finset

variable {M : Type} [AddCommMonoid M]

/-- A quotient stays the same for as many numbers as the divisor. -/
theorem sum_div (h : Nat → M) {a : Nat} (pos : 0 < a) (r : Nat) {t : Nat} (le : t ≤ a) :
    ∑ v ∈ range (a * r + t), h (v / a) = a • ∑ q ∈ range r, h q + t • h r := by
  have block (q t : Nat) (le : t ≤ a) : ∑ v ∈ range t, h ((a * q + v) / a) = t • h q := by
    refine (sum_congr rfl fun v member => ?_).trans ((sum_const (h q)).trans (by rw [card_range]))
    have lt : v < a := (mem_range.mp member).trans_le le
    rw [Nat.mul_add_div pos, Nat.div_eq_of_lt lt, Nat.add_zero]
  rw [sum_range_add, block r t le]
  congr 1
  induction r with
  | zero => simp
  | succ r ih => rw [Nat.mul_succ, sum_range_add, ih, block r a le_rfl, sum_range_succ, nsmul_add]

/-- A remainder goes through its values again and again. -/
theorem sum_mod (g : Nat → M) (m r : Nat) {k : Nat} (le : k ≤ m) :
    ∑ q ∈ range (m * r + k), g (q % m) = r • ∑ j ∈ range m, g j + ∑ j ∈ range k, g j := by
  have block (q k : Nat) (le : k ≤ m) :
      ∑ v ∈ range k, g ((m * q + v) % m) = ∑ j ∈ range k, g j := by
    refine sum_congr rfl fun v member => ?_
    have lt : v < m := (mem_range.mp member).trans_le le
    rw [Nat.mul_add_mod, Nat.mod_eq_of_lt lt]
  rw [sum_range_add, block r k le]
  congr 1
  induction r with
  | zero => simp
  | succ r ih => rw [Nat.mul_succ, sum_range_add, ih, block r m le_rfl, succ_nsmul]

/-- How often the digit of weight `a` and radix `m` is `j`, among the numbers up to the one whose
quotient by `a` is `r` and that has `t` numbers with this quotient. -/
def occurrences (a m r t j : Nat) : Nat :=
  if j < r % m then a * (r / m + 1)
  else if j = r % m then a * (r / m) + t
  else a * (r / m)

/-- A sum over one digit of the first numbers is a sum over the values of the digit. -/
theorem sum_digit (g : Nat → M) {a m r t : Nat} (posA : 0 < a) (posM : 0 < m) (le : t ≤ a) :
    ∑ v ∈ range (a * r + t), g (v / a % m) = ∑ j ∈ range m, occurrences a m r t j • g j := by
  have last : r % m < m := Nat.mod_lt r posM
  have blocks : ∑ q ∈ range r, g (q % m) =
      (r / m) • ∑ j ∈ range m, g j + ∑ j ∈ range (r % m), g j := by
    have split := sum_mod g m (r / m) last.le
    rwa [Nat.div_add_mod] at split
  have front : ∑ j ∈ range (r % m), g j = ∑ j ∈ range m, if j < r % m then g j else 0 := by
    rw [← sum_filter]
    refine sum_congr ?_ fun _ _ => rfl
    ext j
    simp only [mem_range, mem_filter]
    omega
  have digit : g (r % m) = ∑ j ∈ range m, if j = r % m then g j else 0 := by
    rw [sum_ite_eq_of_mem' _ _ _ (mem_range.mpr last)]
  rw [sum_div (fun q => g (q % m)) posA r le, blocks, front, digit, nsmul_add, ← mul_nsmul',
    ← sum_nsmul, ← sum_nsmul, ← sum_nsmul, ← sum_add_distrib, ← sum_add_distrib]
  refine sum_congr rfl fun j _ => ?_
  unfold occurrences
  rcases lt_trichotomy j (r % m) with before | same | after
  · rw [if_pos before, if_neg before.ne, if_pos before, nsmul_zero, add_zero, ← add_nsmul,
      Nat.mul_succ]
  · rw [if_neg same.not_lt, if_pos same, if_neg same.not_lt, if_pos same, nsmul_zero, add_zero,
      ← add_nsmul]
  · rw [if_neg after.not_gt, if_neg after.ne', if_neg after.not_gt, if_neg after.ne', nsmul_zero,
      nsmul_zero, add_zero, add_zero]

end DigitCount

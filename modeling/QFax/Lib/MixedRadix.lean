import Mathlib.Algebra.BigOperators.Group.List.Basic
import Mathlib.Tactic.Ring

/-!
# Numbers in mixed radix

A list of radices, least significant first, splits a number into digits by repeated division, and
Horner's rule puts the digits together again.
-/

namespace MixedRadix

/-- The digits of a number. -/
def split : List Nat → Nat → List Nat
  | [], _ => []
  | m :: ms, v => v % m :: split ms (v / m)

/-- The number of a list of digits. -/
def join : List Nat → List Nat → Nat
  | m :: ms, d :: ds => join ms ds * m + d
  | _, _ => 0

/-- Splitting and joining keep a number modulo the product of the radices. -/
theorem join_split (ms : List Nat) (v : Nat) : join ms (split ms v) = v % ms.prod := by
  induction ms generalizing v with
  | nil => simp [join, Nat.mod_one]
  | cons m ms ih => rw [split, join, ih, List.prod_cons, Nat.mod_mul, Nat.mul_comm, Nat.add_comm]

/-- A number below the product comes back. -/
theorem join_split_of_lt {ms : List Nat} {v : Nat} (lt : v < ms.prod) :
    join ms (split ms v) = v := by
  rw [join_split, Nat.mod_eq_of_lt lt]

end MixedRadix

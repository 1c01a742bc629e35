import Mathlib.Algebra.Order.Ring.Int
import Mathlib.Data.List.Basic
import Mathlib.Tactic.NormNum

/-!
# Numbers in bytes

A number is stored in `w` bytes, least or most significant byte first, and read back modulo
`256 ^ w`.
-/

namespace ByteOrder

/-- The `w` low bytes of a number, least significant first. -/
def lowBytes : Nat → Nat → List UInt8
  | 0, _ => []
  | w + 1, n => UInt8.ofNat n :: lowBytes w (n / 256)

/-- The number that bytes stand for, least significant first. -/
def lowValue : List UInt8 → Nat
  | [] => 0
  | b :: bs => b.toNat + 256 * lowValue bs

/-- The bytes of an integer in two's complement, most significant first when `big`. -/
def store (big : Bool) (w : Nat) (n : Int) : List UInt8 :=
  let p := lowBytes w (n % 256 ^ w).toNat
  if big then p.reverse else p

/-- The number that bytes stand for. -/
def load (big : Bool) (bs : List UInt8) : Nat := lowValue (if big then bs.reverse else bs)

@[simp] theorem length_lowBytes (w n : Nat) : (lowBytes w n).length = w := by
  induction w generalizing n with
  | zero => rfl
  | succ w ih => rw [lowBytes, List.length_cons, ih]

@[simp] theorem length_store (big : Bool) (w : Nat) (n : Int) : (store big w n).length = w := by
  cases big <;> simp [store]

theorem lowValue_lowBytes (w n : Nat) : lowValue (lowBytes w n) = n % 256 ^ w := by
  induction w generalizing n with
  | zero => rw [lowBytes, lowValue, Nat.pow_zero, Nat.mod_one]
  | succ w ih =>
    have byte : (UInt8.ofNat n).toNat = n % 256 := UInt8.toNat_ofNat' ..
    rw [lowBytes, lowValue, ih, byte, Nat.pow_succ', Nat.mod_mul]

/-- What is stored is read back modulo the size of the field. -/
theorem load_store (big : Bool) (w : Nat) (n : Int) :
    (load big (store big w n) : Int) = n % 256 ^ w := by
  have pos : (0 : Int) < 256 ^ w := pow_pos (by decide) w
  have nonneg : 0 ≤ n % 256 ^ w := Int.emod_nonneg n (ne_of_gt pos)
  have upper : n % 256 ^ w < 256 ^ w := Int.emod_lt_of_pos n pos
  have small : (n % 256 ^ w).toNat < 256 ^ w := by
    have cast : ((256 ^ w : Nat) : Int) = 256 ^ w := by push_cast; rfl
    omega
  have bytes : load big (store big w n) = (n % 256 ^ w).toNat := by
    cases big <;> simp [load, store, lowValue_lowBytes, Nat.mod_eq_of_lt small]
  rw [bytes, Int.toNat_of_nonneg nonneg]

/-- A number that fits its field is read back. -/
theorem load_store_of_lt {big : Bool} {w n : Nat} (lt : n < 256 ^ w) :
    load big (store big w n) = n := by
  have value := load_store big w n
  have fits : (n : Int) % 256 ^ w = n := by
    refine Int.emod_eq_of_lt (by omega) ?_
    exact_mod_cast lt
  rw [fits] at value
  exact_mod_cast value

end ByteOrder

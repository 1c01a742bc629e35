import Mathlib.Data.Nat.Bitwise
import Mathlib.Data.Int.Bitwise
import Mathlib.Data.List.Basic
import Mathlib.Tactic.NormNum
import Mathlib.Tactic.Ring

/-!
# Bit strings, least significant bit first

`word` reads a bit string as a number whose bit 0 is the first element, `lowBits` lists the low
bits of a number in that order.  They are inverse to each other on strings and numbers of `n` bits.
-/

namespace Bits

/-- The number of a bit string, least significant bit first. -/
def word : List Bool → Nat
  | [] => 0
  | b :: bs => b.toNat + 2 * word bs

/-- The `n` low bits of a number. -/
def lowBits (n : Nat) (r : Int) : List Bool :=
  (List.range n).map fun i : Nat => decide ((r >>> i) % 2 = 1)

@[simp] theorem length_lowBits (n : Nat) (r : Int) : (lowBits n r).length = n := by
  simp [lowBits]

theorem lowBits_natCast (n r : Nat) : lowBits n r = (List.range n).map r.testBit := by
  refine List.map_congr_left fun i _ => ?_
  rw [Nat.testBit_eq_decide_div_mod_eq, Int.shiftRight_eq_div_pow]
  congr 1
  norm_cast

theorem testBit_word (bits : List Bool) (i : Nat) :
    (word bits).testBit i = bits.getD i false := by
  induction bits generalizing i with
  | nil => simp [word]
  | cons b bs ih =>
    cases i with
    | zero => cases b <;> simp [word, Nat.testBit_zero, Nat.add_mod]
    | succ i =>
      have half : (b.toNat + 2 * word bs) / 2 = word bs := by
        have small : b.toNat ≤ 1 := by cases b <;> simp
        omega
      rw [word, Nat.testBit_succ, half, ih]
      rfl

/-- The bits of a word are read back. -/
theorem lowBits_word (bits : List Bool) : lowBits bits.length (word bits) = bits := by
  rw [lowBits_natCast]
  refine List.ext_getElem (by simp) fun i _ inside => ?_
  simp [testBit_word, inside]

theorem word_lt (bits : List Bool) : word bits < 2 ^ bits.length := by
  induction bits with
  | nil => simp [word]
  | cons b bs ih =>
    have small : b.toNat ≤ 1 := by cases b <;> simp
    rw [word, List.length_cons, Nat.pow_succ]
    omega

/-- Different numbers of `n` bits have different bits. -/
theorem lowBits_inj {n r s : Nat} (hr : r < 2 ^ n) (hs : s < 2 ^ n)
    (same : lowBits n r = lowBits n s) : r = s := by
  rw [lowBits_natCast, lowBits_natCast, List.map_inj_left] at same
  refine Nat.eq_of_testBit_eq fun i => ?_
  rcases Nat.lt_or_ge i n with inside | above
  · exact same i (List.mem_range.mpr inside)
  · have high := Nat.pow_le_pow_right (show 0 < 2 by decide) above
    rw [Nat.testBit_lt_two_pow (by omega), Nat.testBit_lt_two_pow (by omega)]

/-- A number of `n` bits is read back. -/
theorem word_lowBits {n r : Nat} (lt : r < 2 ^ n) : word (lowBits n r) = r := by
  have bits := lowBits_word (lowBits n r)
  have bound := word_lt (lowBits n r)
  rw [length_lowBits] at bits bound
  exact lowBits_inj bound lt bits

theorem lowBits_take {n : Nat} {bits : List Bool} (le : n ≤ bits.length) :
    lowBits n (word (bits.take n)) = bits.take n := by
  have read := lowBits_word (bits.take n)
  rwa [List.length_take, Nat.min_eq_left le] at read

theorem word_append (xs ys : List Bool) : word (xs ++ ys) = word xs + 2 ^ xs.length * word ys := by
  induction xs with
  | nil => simp [word]
  | cons x xs ih =>
    rw [List.cons_append, word, ih, word, List.length_cons, Nat.pow_succ]
    ring

end Bits

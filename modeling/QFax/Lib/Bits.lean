import Mathlib.Data.Nat.Bitwise
import Mathlib.Data.List.Basic
import Mathlib.Tactic.Ring

/-!
# Bit strings, most significant bit first

A bit string is a `List Bool`.  `toBits w n` lists the `w` low bits of `n`, and `bytesBits` lists
the bits of a byte string.  A shift register that appends code words on the right and hands out
complete bytes on the left never loses a bit: `toBits_drain` is the one fact about it that an
encoder's proof needs.
-/

namespace Bits

/-! ## The low bits of a number -/

/-- The `w` low bits of `n`, most significant first. -/
def toBits : Nat → Nat → List Bool
  | 0, _ => []
  | w + 1, n => n.testBit w :: toBits w n

@[simp] theorem toBits_zero_width (n : Nat) : toBits 0 n = [] := rfl

theorem toBits_succ (w n : Nat) : toBits (w + 1) n = n.testBit w :: toBits w n := rfl

@[simp] theorem length_toBits (w n : Nat) : (toBits w n).length = w := by
  induction w with
  | zero => rfl
  | succ w ih => simp [toBits_succ, ih]

/-- A bit string splits at any position into the bits above and below it. -/
theorem toBits_add (a b n : Nat) : toBits (a + b) n = toBits a (n >>> b) ++ toBits b n := by
  induction a with
  | zero => simp
  | succ a ih =>
    have width : a + 1 + b = a + b + 1 := by omega
    rw [width, toBits_succ, toBits_succ, ih, Nat.testBit_shiftRight, Nat.add_comm b a]
    rfl

/-- Bits at and above position `m` do not show in a window below it. -/
theorem toBits_mod {w m : Nat} (n : Nat) (le : w ≤ m) : toBits w (n % 2 ^ m) = toBits w n := by
  induction w with
  | zero => rfl
  | succ w ih =>
    have below : w < m := by omega
    rw [toBits_succ, toBits_succ, ih (by omega), Nat.testBit_mod_two_pow]
    simp [below]

@[simp] theorem toBits_of_zero (w : Nat) : toBits w 0 = List.replicate w false := by
  induction w with
  | zero => rfl
  | succ w ih => simp [toBits_succ, ih, List.replicate_succ]

/-- Appending a code word on the right of a register keeps the register's own bits above it. -/
theorem toBits_shiftLeft_or {code bits : Nat} (x k : Nat) (lt : code < 2 ^ bits) :
    toBits (k + bits) (x <<< bits ||| code) = toBits k x ++ toBits bits code := by
  have high : (x <<< bits ||| code) >>> bits = x := by
    apply Nat.eq_of_testBit_eq
    intro i
    have above : code.testBit (bits + i) = false :=
      Nat.testBit_lt_two_pow (lt_of_lt_of_le lt (Nat.pow_le_pow_right (by omega) (by omega)))
    simp [Nat.testBit_shiftRight, Nat.testBit_or, above]
  have low : toBits bits (x <<< bits ||| code) = toBits bits code := by
    have value : (x <<< bits ||| code) % 2 ^ bits = code := by
      rw [← Nat.shiftLeft_add_eq_or_of_lt lt, Nat.shiftLeft_eq, Nat.mul_add_mod_self_right,
        Nat.mod_eq_of_lt lt]
    rw [← toBits_mod (m := bits) _ le_rfl, value]
  rw [toBits_add, high, low]

/-- Two numbers below `2 ^ w` with the same `w` bits are equal. -/
theorem toBits_inj {w a b : Nat} (ha : a < 2 ^ w) (hb : b < 2 ^ w)
    (same : toBits w a = toBits w b) : a = b := by
  induction w generalizing a b with
  | zero => simp only [Nat.pow_zero] at ha hb; omega
  | succ w ih =>
    rw [toBits_succ, toBits_succ, List.cons.injEq] at same
    obtain ⟨top, rest⟩ := same
    have low : a % 2 ^ w = b % 2 ^ w :=
      ih (Nat.mod_lt _ (Nat.two_pow_pos w)) (Nat.mod_lt _ (Nat.two_pow_pos w))
        (by rw [toBits_mod _ le_rfl, toBits_mod _ le_rfl, rest])
    apply Nat.eq_of_testBit_eq
    intro i
    rcases Nat.lt_trichotomy i w with below | rfl | above
    · have bits := congrArg (fun n => n.testBit i) low
      simpa [Nat.testBit_mod_two_pow, below] using bits
    · exact top
    · have huge : 2 ^ (w + 1) ≤ 2 ^ i := Nat.pow_le_pow_right (by omega) (by omega)
      rw [Nat.testBit_lt_two_pow (lt_of_lt_of_le ha huge),
        Nat.testBit_lt_two_pow (lt_of_lt_of_le hb huge)]

/-- The bits of a number below `2 ^ v`, in a wider window, are preceded by zeros. -/
theorem toBits_of_lt {v n : Nat} (w : Nat) (lt : n < 2 ^ v) :
    toBits (w + v) n = List.replicate w false ++ toBits v n := by
  rw [toBits_add, Nat.shiftRight_eq_div_pow, Nat.div_eq_of_lt lt, toBits_of_zero]

/-- A number whose bits start with those of `v`. -/
theorem shiftRight_eq_of_toBits {a b n v : Nat} {rest : List Bool} (hn : n < 2 ^ (a + b))
    (hv : v < 2 ^ a) (starts : toBits (a + b) n = (toBits a v ++ rest).take (a + b)) :
    n >>> b = v := by
  have top := congrArg (List.take a) starts
  rw [toBits_add, List.take_left' (length_toBits a _), List.take_take,
    Nat.min_eq_left (Nat.le_add_right a b), List.take_left' (length_toBits a _)] at top
  have small : n >>> b < 2 ^ a := by
    rw [Nat.shiftRight_eq_div_pow]
    exact Nat.div_lt_of_lt_mul (by rwa [← Nat.pow_add, Nat.add_comm b a])
  exact toBits_inj small hv top

/-- Only the low bits show. -/
theorem toBits_congr {w a b : Nat} (same : ∀ i < w, a.testBit i = b.testBit i) :
    toBits w a = toBits w b := by
  induction w with
  | zero => rfl
  | succ w ih =>
    rw [toBits_succ, toBits_succ, same w (by omega), ih fun i lt => same i (by omega)]

/-- Bits below a position replaced by copies of one bit. -/
theorem toBits_flood {a b n m : Nat} {bit : Bool}
    (bits : ∀ i < a + b, m.testBit i = if i < b then bit else n.testBit i) :
    toBits (a + b) m = (toBits (a + b) n).take a ++ List.replicate b bit := by
  have high : toBits a (m >>> b) = toBits a (n >>> b) := by
    refine toBits_congr fun i lt => ?_
    rw [Nat.testBit_shiftRight, Nat.testBit_shiftRight, bits (b + i) (by omega), if_neg (by omega)]
  have low : toBits b m = List.replicate b bit := by
    have below : ∀ w ≤ b, toBits w m = List.replicate w bit := by
      intro w le
      induction w with
      | zero => rfl
      | succ w ih =>
        rw [toBits_succ, ih (by omega), bits w (by omega), if_pos (by omega), List.replicate_succ]
    exact below b le_rfl
  rw [toBits_add, toBits_add, List.take_left' (length_toBits a _), high, low]

/-- The number with these bits. -/
def ofBits (bits : List Bool) : Nat := bits.foldl (fun n bit => 2 * n + bit.toNat) 0

theorem ofBits_toBits {w n : Nat} (small : n < 2 ^ w) : ofBits (toBits w n) = n := by
  have loop (w m : Nat) : (toBits w n).foldl (fun n bit => 2 * n + bit.toNat) m =
      m * 2 ^ w + n % 2 ^ w := by
    induction w generalizing m with
    | zero => simp [Nat.mod_one]
    | succ w ih =>
      rw [toBits_succ, List.foldl_cons, ih, Nat.toNat_testBit, Nat.pow_succ, Nat.mod_mul]
      ring
  rw [ofBits, loop, Nat.mod_eq_of_lt small, Nat.zero_mul, Nat.zero_add]

theorem ofBits_lt (bits : List Bool) : ofBits bits < 2 ^ bits.length := by
  have loop (m : Nat) : bits.foldl (fun n bit => 2 * n + bit.toNat) m < (m + 1) * 2 ^ bits.length := by
    induction bits generalizing m with
    | nil => simp
    | cons bit bits ih =>
      have next : 2 * m + bit.toNat + 1 ≤ 2 * (m + 1) := by
        have small := Bool.toNat_le bit
        omega
      calc
        _ < (2 * m + bit.toNat + 1) * 2 ^ bits.length := ih _
        _ ≤ 2 * (m + 1) * 2 ^ bits.length := Nat.mul_le_mul_right _ next
        _ = (m + 1) * 2 ^ (bit :: bits).length := by
          rw [List.length_cons, Nat.pow_succ]
          ring
  simpa [ofBits] using loop 0

/-! ## Byte strings -/

/-- The eight bits of a byte. -/
def byteBits (b : UInt8) : List Bool := toBits 8 b.toNat

/-- The bits of a byte string. -/
def bytesBits (bs : List UInt8) : List Bool := bs.flatMap byteBits

@[simp] theorem length_byteBits (b : UInt8) : (byteBits b).length = 8 := length_toBits 8 _

@[simp] theorem bytesBits_nil : bytesBits [] = [] := rfl

@[simp] theorem bytesBits_cons (b : UInt8) (bs : List UInt8) :
    bytesBits (b :: bs) = byteBits b ++ bytesBits bs := rfl

@[simp] theorem bytesBits_append (as bs : List UInt8) :
    bytesBits (as ++ bs) = bytesBits as ++ bytesBits bs :=
  List.flatMap_append

@[simp] theorem length_bytesBits (bs : List UInt8) : (bytesBits bs).length = 8 * bs.length := by
  induction bs with
  | nil => rfl
  | cons b bs ih => simp [ih]; omega

/-- Storing a number into a byte keeps its eight low bits. -/
theorem byteBits_ofNat (n : Nat) : byteBits (UInt8.ofNat n) = toBits 8 n := by
  rw [byteBits, UInt8.toNat_ofNat', toBits_mod n le_rfl]

/-! ## Handing out complete bytes -/

/-- Hand out the complete bytes of a register: `shift + 8` bits are pending and a byte goes out
while `shift` is not negative.  The first argument bounds the number of bytes. -/
def drain (x : Nat) : Nat → Int → List UInt8 × Int
  | 0, shift => ([], shift)
  | n + 1, shift =>
    if shift < 0 then ([], shift)
    else
      let (bytes, left) := drain x n (shift - 8)
      (UInt8.ofNat (x >>> shift.toNat) :: bytes, left)

/-- The bytes handed out, followed by the bits still pending, are the bits that were pending. -/
theorem toBits_drain (x n : Nat) (shift : Int) (low : -8 ≤ shift) (fuel : shift < n) :
    toBits (shift + 8).toNat x =
        bytesBits (drain x n shift).1 ++ toBits ((drain x n shift).2 + 8).toNat x ∧
      -8 ≤ (drain x n shift).2 ∧ (drain x n shift).2 < 0 := by
  induction n generalizing shift with
  | zero => exact ⟨rfl, low, by simpa [drain] using fuel⟩
  | succ n ih =>
    rw [drain]
    by_cases neg : shift < 0
    · rw [if_pos neg]
      exact ⟨rfl, low, neg⟩
    · rw [if_neg neg]
      obtain ⟨bits, lower, upper⟩ := ih (shift - 8) (by omega) (by push_cast at fuel; omega)
      refine ⟨?_, lower, upper⟩
      have width : (shift + 8).toNat = 8 + shift.toNat := by omega
      have rest : (shift - 8 + 8).toNat = shift.toNat := by omega
      rw [rest] at bits
      rw [width, toBits_add, bits, bytesBits_cons, byteBits_ofNat, List.append_assoc]

end Bits

import QFax.Lib.ShiftRegister
import Mathlib.Algebra.Group.Nat.Even

/-!
# Errors that a cyclic redundancy check sees

When the feedback has an odd number of taps, the check keeps the parity of the bits that came in, so
that an odd number of errors is seen.  Two errors are seen as long as the register that the first one
leaves does not come back by itself in between.
-/

namespace ShiftRegister

variable {w : Nat} {poly : BitVec w}

/-! ## Parity -/

/-- The sum of a bit string. -/
def xorAll (bits : List Bool) : Bool := bits.foldr xor false

/-- The sum of the bits of a register. -/
def parity (reg : BitVec w) : Bool := xorAll (lowBitsOf reg w)

theorem zipWith_zeros (bits : List Bool) :
    List.zipWith xor (List.replicate bits.length false) bits = bits := by
  induction bits with
  | nil => rfl
  | cons b bits ih =>
    rw [List.length_cons, List.replicate_succ, List.zipWith_cons_cons, ih, Bool.false_xor]

/-- Strings without a difference are equal. -/
theorem eq_of_zipWith_xor {as bs : List Bool} (same : as.length = bs.length)
    (silent : true ∉ List.zipWith xor as bs) : as = bs := by
  induction as generalizing bs with
  | nil => exact (List.eq_nil_of_length_eq_zero same.symm).symm
  | cons a as ih =>
    rcases bs with - | ⟨b, bs⟩
    · cases same
    · rw [List.zipWith_cons_cons, List.mem_cons, not_or] at silent
      have head : a = b := by
        rcases silent with ⟨first, -⟩
        cases a <;> cases b <;> first | rfl | exact absurd rfl first
      rw [head, ih (Nat.succ.inj same) silent.2]

theorem zipWith_ones (bits : List Bool) :
    List.zipWith xor bits (List.replicate bits.length true) = bits.map not := by
  induction bits with
  | nil => rfl
  | cons b bits ih =>
    rw [List.length_cons, List.replicate_succ, List.zipWith_cons_cons, ih, Bool.xor_true, List.map_cons]

theorem xorAll_append (as bs : List Bool) : xorAll (as ++ bs) = (xorAll as ^^ xorAll bs) := by
  induction as with
  | nil => exact (Bool.false_xor _).symm
  | cons a as ih =>
    show (a ^^ xorAll (as ++ bs)) = ((a ^^ xorAll as) ^^ xorAll bs)
    rw [ih, Bool.xor_assoc]

theorem xorAll_eq (bits : List Bool) : xorAll bits = decide (bits.count true % 2 = 1) := by
  induction bits with
  | nil => rfl
  | cons b bits ih =>
    show (b ^^ xorAll bits) = _
    rw [ih]
    cases b
    · rw [Bool.false_xor, List.count_cons_of_ne (by decide)]
    · rw [Bool.true_xor, List.count_cons_self, ← decide_not]
      congr 1
      rw [eq_iff_iff]
      omega

theorem parity_xor (a b : BitVec w) : parity (a ^^^ b) = (parity a ^^ parity b) := by
  rw [parity, parity, parity, lowBitsOf, lowBitsOf, lowBitsOf]
  induction List.range w with
  | nil => rfl
  | cons i is ih =>
    show ((a ^^^ b).getLsbD i ^^ xorAll (is.map (a ^^^ b).getLsbD)) = _
    rw [ih, BitVec.getLsbD_xor]
    show _ = ((a.getLsbD i ^^ xorAll (is.map a.getLsbD)) ^^ (b.getLsbD i ^^ xorAll (is.map b.getLsbD)))
    simp only [Bool.xor_assoc, Bool.xor_left_comm]

/-- Only the bit that is moved out is lost. -/
theorem parity_shiftRight (reg : BitVec w) : parity (reg >>> 1) = (parity reg ^^ reg.getLsbD 0) := by
  have longer : reg.getLsbD 0 :: lowBitsOf (reg >>> 1) w = lowBitsOf reg w ++ [false] := by
    have last : reg.getLsbD w = false := BitVec.getLsbD_of_ge reg w le_rfl
    rw [← last]
    have tail : lowBitsOf (reg >>> 1) w = (List.range w).map (reg.getLsbD ∘ Nat.succ) := by
      refine List.map_congr_left fun i _ => ?_
      rw [BitVec.getLsbD_ushiftRight, Nat.add_comm]
      rfl
    rw [tail, ← List.map_map, ← List.map_cons, ← List.range_succ_eq_map, List.range_succ,
      List.map_append, lowBitsOf]
    rfl
  have sums := congrArg xorAll longer
  rw [xorAll_append] at sums
  have sums' : (reg.getLsbD 0 ^^ parity (reg >>> 1)) = parity reg := sums.trans (Bool.xor_false _)
  rw [← sums', Bool.xor_comm, ← Bool.xor_assoc, Bool.xor_self, Bool.false_xor]

theorem parity_crcShift (odd : parity poly = true) (reg : BitVec w) (b : Bool) :
    parity (crcShift poly reg b) = (parity reg ^^ b) := by
  rw [crcShift]
  cases low : reg.getLsbD 0 <;> cases b
  · rw [Bool.xor_false, if_neg Bool.false_ne_true, parity_shiftRight, low]
  · rw [Bool.false_xor, if_pos rfl, parity_xor, parity_shiftRight, low, odd, Bool.xor_false]
  · rw [Bool.xor_false, if_pos rfl, parity_xor, parity_shiftRight, low, odd, Bool.xor_assoc,
      Bool.xor_self]
  · rw [Bool.xor_self, if_neg Bool.false_ne_true, parity_shiftRight, low]

/-- The register has the parity of all that came in. -/
theorem parity_crc (odd : parity poly = true) (reg : BitVec w) (bits : List Bool) :
    parity (crc poly reg bits) = (parity reg ^^ xorAll bits) := by
  induction bits generalizing reg with
  | nil => exact (Bool.xor_false _).symm
  | cons b bits ih =>
    show parity (crc poly (crcShift poly reg b) bits) = (parity reg ^^ (b ^^ xorAll bits))
    rw [ih, parity_crcShift odd, Bool.xor_assoc]

theorem parity_zero : parity (0 : BitVec w) = false := by
  have clear : lowBitsOf (0 : BitVec w) w = List.replicate w false := by
    refine List.eq_replicate_iff.mpr ⟨by rw [lowBitsOf, List.length_map, List.length_range], ?_⟩
    intro b member
    obtain ⟨i, -, rfl⟩ := List.mem_map.mp member
    exact BitVec.getLsbD_zero
  rw [parity, clear, xorAll_eq, List.count_replicate]
  rfl

/-- An even number of errors is left. -/
theorem even_count_of_crc (odd : parity poly = true) {e : List Bool} (zero : crc poly 0 e = 0) :
    Even (e.count true) := by
  have sum := parity_crc odd 0 e
  rw [zero, parity_zero, Bool.false_xor, xorAll_eq] at sum
  have no : ¬ e.count true % 2 = 1 := of_decide_eq_false sum.symm
  exact Nat.even_iff.mpr (by omega)

/-! ## Two errors -/

/-- The first error of a string. -/
theorem exists_first {e : List Bool} (hit : true ∈ e) :
    ∃ a rest, e = List.replicate a false ++ true :: rest := by
  induction e with
  | nil => cases hit
  | cons b e ih =>
    cases b
    · have later : true ∈ e := by
        rcases List.mem_cons.mp hit with head | tail
        · cases head
        · exact tail
      obtain ⟨a, rest, rfl⟩ := ih later
      exact ⟨a + 1, rest, rfl⟩
    · exact ⟨0, e, rfl⟩

theorem crcShift_true (reg : BitVec w) : crcShift poly reg true = crcShift poly reg false ^^^ poly := by
  have split := @crcShift_xor w poly reg 0 false true
  have fresh : crcShift poly 0 true = poly := by simp [crcShift]
  have same : reg ^^^ 0 = reg := BitVec.xor_zero
  rwa [fresh, same, Bool.false_xor] at split

/-- The zeros before the first error change nothing. -/
theorem crc_first (a : Nat) (rest : List Bool) :
    crc poly 0 (List.replicate a false ++ true :: rest) = crc poly poly rest := by
  rw [crc_append, crc_zeros]
  show crc poly (crcShift poly 0 true) rest = _
  have still : crcShift poly 0 false = 0 := @crc_zeros w poly 1
  have alone : 0 ^^^ poly = poly := BitVec.zero_xor
  rw [crcShift_true, still, alone]

/-- Two errors cancel only when the register comes back in between. -/
theorem crc_two (top : poly.getLsbD (w - 1) = true) {d c : Nat}
    (zero : crc poly poly (List.replicate d false ++ true :: List.replicate c false) = 0) :
    crc poly poly (List.replicate (d + 1) false) = poly := by
  rw [crc_append] at zero
  have reg := eq_zero_of_crc_zeros top zero
  have split : crcShift poly (crc poly poly (List.replicate d false)) true = 0 := reg
  rw [crcShift_true] at split
  rw [List.replicate_succ', crc_append]
  exact BitVec.xor_eq_zero_iff.mp split

/-- Unless the register comes back within the string, at least four errors are needed to be missed. -/
theorem four_le_count (top : poly.getLsbD (w - 1) = true) (odd : parity poly = true) {e : List Bool}
    (away : ∀ d < e.length, crc poly poly (List.replicate (d + 1) false) ≠ poly)
    (hit : true ∈ e) (zero : crc poly 0 e = 0) : 4 ≤ e.count true := by
  have even := Nat.even_iff.mp (even_count_of_crc odd zero)
  have positive : 0 < e.count true := List.count_pos_iff.mpr hit
  by_contra few
  have two : e.count true = 2 := by omega
  obtain ⟨a, rest, rfl⟩ := exists_first hit
  have one : rest.count true = 1 := by
    rw [List.count_append, List.count_replicate, List.count_cons_self] at two
    simpa using two
  obtain ⟨d, last, rfl⟩ := exists_first (List.count_pos_iff.mp (one ▸ Nat.one_pos))
  have none : last.count true = 0 := by
    rw [List.count_append, List.count_replicate, List.count_cons_self] at one
    simpa using one
  have quiet : last = List.replicate last.length false := by
    refine List.eq_replicate_of_mem fun b member => ?_
    cases b with
    | false => rfl
    | true => exact absurd member (List.count_eq_zero.mp none)
  rw [crc_first, quiet] at zero
  refine away d ?_ (crc_two top zero)
  rw [List.length_append, List.length_cons, List.length_append, List.length_replicate,
    List.length_replicate, List.length_cons]
  omega

end ShiftRegister

import Mathlib.Data.BitVec

/-!
# Shift registers with feedback

A register of `w` bits moves up by one place for every bit that comes in, and the polynomial is added
to it when that bit is set.  After `w` bits nothing of the first contents is left: the register is a
function of the bits that came in, and every bit of it is the sum of the incoming bits at the taps of
the polynomial.
-/

namespace ShiftRegister

variable {w : Nat} (poly : BitVec w)

/-- One bit comes in. -/
def shift (reg : BitVec w) (b : Bool) : BitVec w :=
  if b then (reg <<< 1) ^^^ poly else reg <<< 1

/-- The register after the first bits of a stream. -/
def after (reg : BitVec w) (s : Nat → Bool) : Nat → BitVec w
  | 0 => reg
  | n + 1 => shift poly (after reg s n) (s n)

/-- The sum of the bits of the stream before bit `i` at the taps up to bit `k`. -/
def taps (s : Nat → Bool) : Nat → Nat → Bool
  | i, 0 => s (i - 1) && poly.getLsbD 0
  | i, k + 1 => taps s (i - 1) k ^^ (s (i - 1) && poly.getLsbD (k + 1))

variable {poly}

theorem getLsbD_shift_zero (reg : BitVec w) (b : Bool) :
    (shift poly reg b).getLsbD 0 = (b && poly.getLsbD 0) := by
  cases b <;> simp [shift]

theorem getLsbD_shift_succ (reg : BitVec w) (b : Bool) {k : Nat} (lt : k + 1 < w) :
    (shift poly reg b).getLsbD (k + 1) = (reg.getLsbD k ^^ (b && poly.getLsbD (k + 1))) := by
  cases b <;> simp [shift, lt, Nat.lt_of_succ_lt lt]

/-- Two registers agree in as many low bits as they have shared incoming bits. -/
theorem after_getLsbD_eq {reg reg' : BitVec w} {s s' : Nat → Bool} {m : Nat}
    (same : ∀ i ≥ m, s i = s' i) {n k : Nat} (lt : k < n) (inside : k < w) :
    (after poly reg s (m + n)).getLsbD k = (after poly reg' s' (m + n)).getLsbD k := by
  induction n generalizing k with
  | zero => cases lt
  | succ n ih =>
    rw [← Nat.add_assoc, after, after, same (m + n) (Nat.le_add_right m n)]
    cases k with
    | zero => rw [getLsbD_shift_zero, getLsbD_shift_zero]
    | succ k =>
      rw [getLsbD_shift_succ _ _ inside, getLsbD_shift_succ _ _ inside,
        ih (Nat.lt_of_succ_lt_succ lt) (Nat.lt_of_succ_lt inside)]

/-- After `w` shared bits the registers are equal. -/
theorem after_eq {reg reg' : BitVec w} {s s' : Nat → Bool} {m : Nat}
    (same : ∀ i ≥ m, s i = s' i) {i : Nat} (late : m + w ≤ i) :
    after poly reg s i = after poly reg' s' i := by
  obtain ⟨n, rfl⟩ := Nat.exists_eq_add_of_le (Nat.le_of_add_right_le late)
  refine BitVec.eq_of_getLsbD_eq fun k inside => after_getLsbD_eq same ?_ inside
  omega

/-- Once enough bits have come in, every bit of the register is the sum at the taps. -/
theorem getLsbD_after (reg : BitVec w) (s : Nat → Bool) {i k : Nat} (late : k < i) (inside : k < w) :
    (after poly reg s i).getLsbD k = taps poly s i k := by
  induction k generalizing i with
  | zero =>
    obtain ⟨n, rfl⟩ := Nat.exists_eq_add_of_lt late
    rw [Nat.zero_add, after, getLsbD_shift_zero, taps, Nat.add_sub_cancel]
  | succ k ih =>
    cases i with
    | zero => cases late
    | succ n =>
      rw [after, getLsbD_shift_succ _ _ inside, taps, Nat.add_sub_cancel,
        ih (Nat.lt_of_succ_lt_succ late) (Nat.lt_of_succ_lt inside)]

/-! ## Cyclic redundancy checks -/

/-- A register that moves down: the incoming bit and the bit moved out decide about the feedback. -/
def crcShift (poly reg : BitVec w) (b : Bool) : BitVec w :=
  if reg.getLsbD 0 ^^ b then (reg >>> 1) ^^^ poly else reg >>> 1

/-- The register after some bits. -/
def crc (poly reg : BitVec w) (bits : List Bool) : BitVec w := bits.foldl (crcShift poly) reg

/-- The first bits of a register, as they move out. -/
def lowBitsOf (reg : BitVec w) (n : Nat) : List Bool := (List.range n).map reg.getLsbD

theorem crc_append (reg : BitVec w) (as bs : List Bool) :
    crc poly reg (as ++ bs) = crc poly (crc poly reg as) bs :=
  List.foldl_append

/-- A register that its own bits come into moves down without feedback. -/
theorem crc_lowBitsOf (reg : BitVec w) (n : Nat) : crc poly reg (lowBitsOf reg n) = reg >>> n := by
  induction n with
  | zero => exact (BitVec.ushiftRight_zero reg).symm
  | succ n ih =>
    have own : (reg >>> n).getLsbD 0 = reg.getLsbD n := by rw [BitVec.getLsbD_ushiftRight, Nat.add_zero]
    have last : lowBitsOf reg (n + 1) = lowBitsOf reg n ++ [reg.getLsbD n] := by
      rw [lowBitsOf, List.range_succ, List.map_append]
      rfl
    rw [last, crc_append, ih]
    show crcShift poly (reg >>> n) (reg.getLsbD n) = _
    rw [crcShift, own, Bool.xor_self, if_neg Bool.false_ne_true, BitVec.shiftRight_add]

/-- The check over a message and its own check bits is zero. -/
theorem crc_residue (reg : BitVec w) (message : List Bool) :
    crc poly reg (message ++ lowBitsOf (crc poly reg message) w) = 0 := by
  rw [crc_append, crc_lowBitsOf]
  exact BitVec.ushiftRight_eq_zero le_rfl

/-! ## Errors -/

theorem crcShift_xor (reg reg' : BitVec w) (x y : Bool) :
    crcShift poly (reg ^^^ reg') (x ^^ y) = crcShift poly reg x ^^^ crcShift poly reg' y := by
  have bit : ((reg ^^^ reg').getLsbD 0 ^^ (x ^^ y)) =
      ((reg.getLsbD 0 ^^ x) ^^ (reg'.getLsbD 0 ^^ y)) := by
    rw [BitVec.getLsbD_xor]
    simp only [Bool.xor_assoc, Bool.xor_left_comm]
  rw [crcShift, bit, BitVec.ushiftRight_xor_distrib]
  unfold crcShift
  cases reg.getLsbD 0 ^^ x <;> cases reg'.getLsbD 0 ^^ y
  · rfl
  · exact BitVec.xor_assoc _ _ _
  · show _ = reg >>> 1 ^^^ poly ^^^ reg' >>> 1
    rw [BitVec.xor_assoc, BitVec.xor_assoc, BitVec.xor_comm poly]
    rfl
  · have twice : poly ^^^ (reg' >>> 1 ^^^ poly) = reg' >>> 1 := by
      rw [BitVec.xor_comm, BitVec.xor_assoc, BitVec.xor_self, BitVec.xor_zero]
    have both : reg >>> 1 ^^^ poly ^^^ (reg' >>> 1 ^^^ poly) = reg >>> 1 ^^^ reg' >>> 1 := by
      rw [BitVec.xor_assoc, twice]
    exact both.symm

/-- The check is linear: errors change it by the check of the errors alone. -/
theorem crc_xor (reg reg' : BitVec w) {as bs : List Bool} (same : as.length = bs.length) :
    crc poly (reg ^^^ reg') (List.zipWith xor as bs) = crc poly reg as ^^^ crc poly reg' bs := by
  induction as generalizing bs reg reg' with
  | nil =>
    obtain rfl := List.eq_nil_of_length_eq_zero same.symm
    rfl
  | cons a as ih =>
    cases bs with
    | nil => cases same
    | cons b bs =>
      show crc poly (crcShift poly (reg ^^^ reg') (a ^^ b)) _ = _
      rw [crcShift_xor, ih _ _ (Nat.succ.inj same)]
      rfl

theorem crc_zeros (n : Nat) : crc poly 0 (List.replicate n false) = 0 := by
  induction n with
  | zero => rfl
  | succ n ih =>
    have still : crcShift poly 0 false = 0 := by simp [crcShift]
    show crc poly (crcShift poly 0 false) (List.replicate n false) = 0
    rw [still, ih]

/-- A polynomial with its top bit set moves no register to zero but zero. -/
theorem eq_zero_of_crcShift (top : poly.getLsbD (w - 1) = true) {reg : BitVec w}
    (zero : crcShift poly reg false = 0) : reg = 0 := by
  rw [crcShift, Bool.xor_false] at zero
  cases low : reg.getLsbD 0 with
  | true =>
    rw [low, if_pos rfl] at zero
    have last := congrArg (BitVec.getLsbD · (w - 1)) zero
    have gone : reg.getLsbD (1 + (w - 1)) = false := BitVec.getLsbD_of_ge reg _ (by omega)
    simp only [BitVec.getLsbD_xor, BitVec.getLsbD_ushiftRight, gone, top] at last
    simp at last
  | false =>
    rw [low, if_neg Bool.false_ne_true] at zero
    refine BitVec.eq_of_getLsbD_eq fun i _ => ?_
    cases i with
    | zero => rw [low]; simp
    | succ i =>
      have bit := congrArg (BitVec.getLsbD · i) zero
      simp only [BitVec.getLsbD_ushiftRight, Nat.add_comm 1] at bit
      rw [bit]
      simp

theorem eq_zero_of_crc_zeros (top : poly.getLsbD (w - 1) = true) {reg : BitVec w} {n : Nat}
    (zero : crc poly reg (List.replicate n false) = 0) : reg = 0 := by
  induction n generalizing reg with
  | zero => exact zero
  | succ n ih => exact eq_zero_of_crcShift top (ih zero)

/-- The register whose bits come in as the given ones. -/
theorem exists_lowBitsOf {bits : List Bool} (fits : bits.length ≤ w) :
    ∃ reg : BitVec w, lowBitsOf reg bits.length = bits ∧ reg >>> bits.length = 0 := by
  refine ⟨(BitVec.ofBoolListLE bits).setWidth w, ?_, ?_⟩
  · refine List.ext_getElem (by simp [lowBitsOf]) fun i inside inside' => ?_
    have lt : i < w := inside'.trans_le fits
    have bit : (lowBitsOf ((BitVec.ofBoolListLE bits).setWidth w) bits.length)[i] =
        ((BitVec.ofBoolListLE bits).setWidth w).getLsbD i := by simp only [lowBitsOf, List.getElem_map,
      List.getElem_range]
    rw [bit, BitVec.getLsbD_setWidth, BitVec.getLsbD_ofBoolListLE, decide_eq_true lt, Bool.true_and]
    simp [inside']
  · refine BitVec.eq_of_getLsbD_eq fun i _ => ?_
    simp

/-- A burst that fits into the register is seen. -/
theorem eq_replicate_of_crc (top : poly.getLsbD (w - 1) = true) {bits : List Bool}
    (fits : bits.length ≤ w) (zero : crc poly 0 bits = 0) :
    bits = List.replicate bits.length false := by
  obtain ⟨reg, own, gone⟩ := exists_lowBitsOf fits
  -- the register itself comes in, once against zeros and once against its own bits
  have split := @crc_xor w poly reg 0 (List.replicate bits.length false) bits List.length_replicate
  have zipped : List.zipWith xor (List.replicate bits.length false) bits = bits := by
    refine List.ext_getElem (by simp) fun i _ _ => ?_
    simp
  have alone : reg ^^^ 0 = reg := BitVec.xor_zero
  have own' := @crc_lowBitsOf w poly reg bits.length
  rw [own, gone] at own'
  rw [alone, zipped, own', zero] at split
  have clear : reg = 0 := eq_zero_of_crc_zeros top (split.trans BitVec.xor_zero).symm
  refine List.eq_replicate_of_mem fun b member => ?_
  rw [← own, clear, lowBitsOf] at member
  obtain ⟨i, -, rfl⟩ := List.mem_map.mp member
  exact BitVec.getLsbD_zero

/-- At least one bit is set, and all bits that are lie within `n` consecutive places. -/
structure Burst (n : Nat) (e : List Bool) : Prop where
  hit : true ∈ e
  within : ∃ start, ∀ i, e[i]? = some true → start ≤ i ∧ i < start + n

theorem crc_burst_ne_zero (top : poly.getLsbD (w - 1) = true) {e : List Bool} (burst : Burst w e) :
    crc poly 0 e ≠ 0 := by
  intro zero
  obtain ⟨hit, start, within⟩ := burst
  have quiet {bits : List Bool} (no : true ∉ bits) : bits = List.replicate bits.length false :=
    List.eq_replicate_of_mem fun b member => by
      cases b with
      | false => rfl
      | true => exact absurd member no
  have before : true ∉ e.take start := by
    intro member
    obtain ⟨i, found⟩ := List.getElem?_of_mem member
    rw [List.getElem?_take] at found
    split at found
    · have place := within i found
      omega
    · cases found
  have behind : true ∉ (e.drop start).drop w := by
    intro member
    obtain ⟨i, found⟩ := List.getElem?_of_mem member
    rw [List.getElem?_drop, List.getElem?_drop] at found
    have place := within _ found
    omega
  have parts : e = e.take start ++ ((e.drop start).take w ++ (e.drop start).drop w) := by
    rw [List.take_append_drop, List.take_append_drop]
  have window : (e.drop start).take w =
      List.replicate ((e.drop start).take w).length false := by
    refine eq_replicate_of_crc top (List.length_take_le _ _) ?_
    rw [parts, crc_append, crc_append, quiet before, crc_zeros, quiet behind] at zero
    exact eq_zero_of_crc_zeros top zero
  rw [parts, List.mem_append, List.mem_append] at hit
  rcases hit with early | inside | late
  · exact before early
  · rw [window] at inside
    cases List.eq_of_mem_replicate inside
  · exact behind late

end ShiftRegister

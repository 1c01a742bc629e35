import QFax.Lib.CheckDistance
import QFax.Lib.Octets

/-!
# Packet modem: the frame check

`crc_ccitt_table` moves the register on by a whole octet, least significant bit first.  A packet passes
when the register ends at a fixed value, which it does behind its own complemented check.  No packet
that passes is nearer than four bits to another one that the receive buffer holds, and none differs
from another within sixteen consecutive bits only.
-/

namespace QFax.Extmodem

open Bits Octets ShiftRegister

def crc_ccitt_table : List (BitVec 16) := [
  0x0000, 0x1189, 0x2312, 0x329b, 0x4624, 0x57ad, 0x6536, 0x74bf,
  0x8c48, 0x9dc1, 0xaf5a, 0xbed3, 0xca6c, 0xdbe5, 0xe97e, 0xf8f7,
  0x1081, 0x0108, 0x3393, 0x221a, 0x56a5, 0x472c, 0x75b7, 0x643e,
  0x9cc9, 0x8d40, 0xbfdb, 0xae52, 0xdaed, 0xcb64, 0xf9ff, 0xe876,
  0x2102, 0x308b, 0x0210, 0x1399, 0x6726, 0x76af, 0x4434, 0x55bd,
  0xad4a, 0xbcc3, 0x8e58, 0x9fd1, 0xeb6e, 0xfae7, 0xc87c, 0xd9f5,
  0x3183, 0x200a, 0x1291, 0x0318, 0x77a7, 0x662e, 0x54b5, 0x453c,
  0xbdcb, 0xac42, 0x9ed9, 0x8f50, 0xfbef, 0xea66, 0xd8fd, 0xc974,
  0x4204, 0x538d, 0x6116, 0x709f, 0x0420, 0x15a9, 0x2732, 0x36bb,
  0xce4c, 0xdfc5, 0xed5e, 0xfcd7, 0x8868, 0x99e1, 0xab7a, 0xbaf3,
  0x5285, 0x430c, 0x7197, 0x601e, 0x14a1, 0x0528, 0x37b3, 0x263a,
  0xdecd, 0xcf44, 0xfddf, 0xec56, 0x98e9, 0x8960, 0xbbfb, 0xaa72,
  0x6306, 0x728f, 0x4014, 0x519d, 0x2522, 0x34ab, 0x0630, 0x17b9,
  0xef4e, 0xfec7, 0xcc5c, 0xddd5, 0xa96a, 0xb8e3, 0x8a78, 0x9bf1,
  0x7387, 0x620e, 0x5095, 0x411c, 0x35a3, 0x242a, 0x16b1, 0x0738,
  0xffcf, 0xee46, 0xdcdd, 0xcd54, 0xb9eb, 0xa862, 0x9af9, 0x8b70,
  0x8408, 0x9581, 0xa71a, 0xb693, 0xc22c, 0xd3a5, 0xe13e, 0xf0b7,
  0x0840, 0x19c9, 0x2b52, 0x3adb, 0x4e64, 0x5fed, 0x6d76, 0x7cff,
  0x9489, 0x8500, 0xb79b, 0xa612, 0xd2ad, 0xc324, 0xf1bf, 0xe036,
  0x18c1, 0x0948, 0x3bd3, 0x2a5a, 0x5ee5, 0x4f6c, 0x7df7, 0x6c7e,
  0xa50a, 0xb483, 0x8618, 0x9791, 0xe32e, 0xf2a7, 0xc03c, 0xd1b5,
  0x2942, 0x38cb, 0x0a50, 0x1bd9, 0x6f66, 0x7eef, 0x4c74, 0x5dfd,
  0xb58b, 0xa402, 0x9699, 0x8710, 0xf3af, 0xe226, 0xd0bd, 0xc134,
  0x39c3, 0x284a, 0x1ad1, 0x0b58, 0x7fe7, 0x6e6e, 0x5cf5, 0x4d7c,
  0xc60c, 0xd785, 0xe51e, 0xf497, 0x8028, 0x91a1, 0xa33a, 0xb2b3,
  0x4a44, 0x5bcd, 0x6956, 0x78df, 0x0c60, 0x1de9, 0x2f72, 0x3efb,
  0xd68d, 0xc704, 0xf59f, 0xe416, 0x90a9, 0x8120, 0xb3bb, 0xa232,
  0x5ac5, 0x4b4c, 0x79d7, 0x685e, 0x1ce1, 0x0d68, 0x3ff3, 0x2e7a,
  0xe70e, 0xf687, 0xc41c, 0xd595, 0xa12a, 0xb0a3, 0x8238, 0x93b1,
  0x6b46, 0x7acf, 0x4854, 0x59dd, 0x2d62, 0x3ceb, 0x0e70, 0x1ff9,
  0xf78f, 0xe606, 0xd49d, 0xc514, 0xb1ab, 0xa022, 0x92b9, 0x8330,
  0x7bc7, 0x6a4e, 0x58d5, 0x495c, 0x3de3, 0x2c6a, 0x1ef1, 0x0f78]

/-- One turn of the loops of `check_crc_ccitt` and `calc_crc_ccitt`. -/
def crc_turn (reg : BitVec 32) (b : UInt8) : BitVec 32 :=
  (reg >>> 8) ^^^
    (crc_ccitt_table.getD ((reg ^^^ b.toBitVec.setWidth 32) &&& 0xff#32).toNat 0).setWidth 32

/-- The value of `crc` behind the loop. -/
def crc_loop (buf : List UInt8) : BitVec 32 := buf.foldl crc_turn 0xffff#32

def check_crc_ccitt (buf : List UInt8) : Bool := crc_loop buf &&& 0xffff#32 == 0xf0b8#32

def calc_crc_ccitt (buf : List UInt8) : BitVec 32 := (crc_loop buf &&& 0xffff#32) ^^^ 0xffff#32

/-! ## The table -/

/-- The polynomial x^16 + x^12 + x^5 + 1, without its highest term and mirrored. -/
def ccittPoly : BitVec 16 := 0x8408#16

/-- Every entry of the table is a register that eight zeros came into. -/
theorem crc_ccitt_table_eq : crc_ccitt_table =
    (List.range 256).map fun i => crc ccittPoly (BitVec.ofNat 16 i) (List.replicate 8 false) := by
  decide +kernel

theorem crc_ccitt_table_getD {x : BitVec 16} (small : x.toNat < 256) :
    crc_ccitt_table.getD x.toNat 0 = crc ccittPoly x (List.replicate 8 false) := by
  rw [crc_ccitt_table_eq, List.getD_eq_getElem?_getD, List.getElem?_map,
    List.getElem?_range small]
  show crc ccittPoly (BitVec.ofNat 16 x.toNat) _ = _
  rw [BitVec.ofNat_toNat, BitVec.setWidth_eq]

theorem octetBits_eq (b : UInt8) : octetBits b = lowBitsOf (b.toBitVec.setWidth 16) 8 := by
  rw [octetBits, lowBits_natCast, lowBitsOf]
  refine List.map_congr_left fun i inside => ?_
  have lt := List.mem_range.mp inside
  rw [BitVec.getLsbD_setWidth, decide_eq_true (by omega : i < 16), Bool.true_and]
  rfl

/-- An octet comes in as if it had been added to the register before eight zeros. -/
theorem crc_octetBits (reg : BitVec 16) (b : UInt8) : crc ccittPoly reg (octetBits b) =
    crc ccittPoly (reg ^^^ b.toBitVec.setWidth 16) (List.replicate 8 false) := by
  have same : (List.replicate 8 false).length = (octetBits b).length := by
    rw [List.length_replicate, length_octetBits]
  have split := @crc_xor 16 ccittPoly (reg ^^^ b.toBitVec.setWidth 16) (b.toBitVec.setWidth 16) _ _ same
  have added : reg ^^^ b.toBitVec.setWidth 16 ^^^ b.toBitVec.setWidth 16 = reg := by
    rw [BitVec.xor_assoc, BitVec.xor_self, BitVec.xor_zero]
  have zipped : List.zipWith xor (List.replicate 8 false) (octetBits b) = octetBits b := by
    have zeros := zipWith_zeros (octetBits b)
    rwa [length_octetBits] at zeros
  have gone : crc ccittPoly (b.toBitVec.setWidth 16) (octetBits b) = 0 := by
    rw [octetBits_eq, crc_lowBitsOf]
    refine BitVec.eq_of_toNat_eq ?_
    have small := b.toBitVec.isLt
    rw [BitVec.toNat_ushiftRight, BitVec.toNat_setWidth, Nat.mod_eq_of_lt (by omega),
      Nat.shiftRight_eq_div_pow, Nat.div_eq_of_lt small]
    rfl
  rw [added, zipped, gone] at split
  exact split.trans BitVec.xor_zero

/-- The low octet of a register decides about the feedback of eight zeros. -/
theorem crc_zeros_octet (x : BitVec 16) : crc ccittPoly x (List.replicate 8 false) =
    crc ccittPoly (x &&& 0xff#16) (List.replicate 8 false) ^^^ (x >>> 8) := by
  have parts : x = (x &&& 0xff#16) ^^^ (x &&& 0xff00#16) := by
    refine BitVec.eq_of_getLsbD_eq fun i inside => ?_
    have masks : (0xff#16).getLsbD i = !(0xff00#16).getLsbD i := by
      revert i
      decide
    rw [BitVec.getLsbD_xor, BitVec.getLsbD_and, BitVec.getLsbD_and, masks]
    cases x.getLsbD i <;> cases (0xff00#16).getLsbD i <;> rfl
  have silent : List.replicate 8 false = lowBitsOf (x &&& 0xff00#16) 8 := by
    refine (List.eq_replicate_iff.mpr ⟨by rw [lowBitsOf, List.length_map, List.length_range], ?_⟩).symm
    intro b member
    obtain ⟨i, inside, rfl⟩ := List.mem_map.mp member
    have clear : (0xff00#16).getLsbD i = false := by
      have lt := List.mem_range.mp inside
      clear inside member parts
      revert i
      decide
    rw [BitVec.getLsbD_and, clear, Bool.and_false]
  have high : crc ccittPoly (x &&& 0xff00#16) (List.replicate 8 false) = x >>> 8 := by
    rw [silent, crc_lowBitsOf]
    refine BitVec.eq_of_getLsbD_eq fun i inside => ?_
    rw [BitVec.getLsbD_ushiftRight, BitVec.getLsbD_ushiftRight, BitVec.getLsbD_and]
    rcases Nat.lt_or_ge i 8 with low | beyond
    · have set : (0xff00#16).getLsbD (8 + i) = true := by
        clear inside silent parts
        revert i
        decide
      rw [set, Bool.and_true]
    · rw [BitVec.getLsbD_of_ge x (8 + i) (by omega), Bool.false_and]
  have split := @crc_xor 16 ccittPoly (x &&& 0xff#16) (x &&& 0xff00#16) _ _
    (rfl : (List.replicate 8 false).length = (List.replicate 8 false).length)
  rw [← parts, high] at split
  exact split

/-! ## The register -/

/-- One turn of the loop brings the eight bits of an octet into the register. -/
theorem crc_turn_eq (reg : BitVec 16) (b : UInt8) :
    crc_turn (reg.setWidth 32) b = (crc ccittPoly reg (octetBits b)).setWidth 32 := by
  have index : (reg.setWidth 32 ^^^ b.toBitVec.setWidth 32) &&& 0xff#32 =
      ((reg ^^^ b.toBitVec.setWidth 16) &&& 0xff#16).setWidth 32 := by
    have widened : b.toBitVec.setWidth 32 = (b.toBitVec.setWidth 16).setWidth 32 := by
      refine BitVec.eq_of_toNat_eq ?_
      have octet := b.toBitVec.isLt
      rw [BitVec.toNat_setWidth, BitVec.toNat_setWidth, BitVec.toNat_setWidth,
        Nat.mod_eq_of_lt (b := 2 ^ 16) (by omega)]
    rw [widened, ← BitVec.setWidth_xor]
    exact (BitVec.setWidth_and (x := reg ^^^ b.toBitVec.setWidth 16) (y := 0xff#16)).symm
  have small : ((reg ^^^ b.toBitVec.setWidth 16) &&& 0xff#16).toNat < 256 := by
    rw [BitVec.toNat_and]
    exact Nat.lt_succ_of_le Nat.and_le_right
  have entry : (((reg ^^^ b.toBitVec.setWidth 16) &&& 0xff#16).setWidth 32).toNat =
      ((reg ^^^ b.toBitVec.setWidth 16) &&& 0xff#16).toNat := by
    rw [BitVec.toNat_setWidth, Nat.mod_eq_of_lt (by omega)]
  have out : (reg ^^^ b.toBitVec.setWidth 16) >>> 8 = reg >>> 8 := by
    have gone : b.toBitVec.setWidth 16 >>> 8 = 0#16 := by
      refine BitVec.eq_of_toNat_eq ?_
      have octet := b.toBitVec.isLt
      rw [BitVec.toNat_ushiftRight, BitVec.toNat_setWidth, Nat.mod_eq_of_lt (by omega),
        Nat.shiftRight_eq_div_pow, Nat.div_eq_of_lt octet]
      rfl
    rw [BitVec.ushiftRight_xor_distrib, gone, BitVec.xor_zero]
  have feedback := (crc_octetBits reg b).trans (crc_zeros_octet _)
  rw [out] at feedback
  have down : reg.setWidth 32 >>> 8 = (reg >>> 8).setWidth 32 := rfl
  rw [crc_turn, index, entry, crc_ccitt_table_getD small, feedback, BitVec.setWidth_xor, down]
  exact BitVec.xor_comm _ _

/-- The register behind a byte string. -/
def crcOf (buf : List UInt8) : BitVec 16 := crc ccittPoly 0xffff#16 (bitsOf buf)

theorem crc_loop_eq (buf : List UInt8) : crc_loop buf = (crcOf buf).setWidth 32 := by
  have turns : ∀ reg : BitVec 16, buf.foldl crc_turn (reg.setWidth 32) =
      (crc ccittPoly reg (bitsOf buf)).setWidth 32 := by
    induction buf with
    | nil => exact fun _ => rfl
    | cons b buf ih =>
      intro reg
      rw [List.foldl_cons, crc_turn_eq, ih, bitsOf_cons, crc_append]
  exact turns 0xffff#16

theorem crc_loop_low (buf : List UInt8) : crc_loop buf &&& 0xffff#32 = (crcOf buf).setWidth 32 := by
  refine BitVec.eq_of_toNat_eq ?_
  have bound := (crcOf buf).isLt
  rw [crc_loop_eq, BitVec.toNat_and, BitVec.toNat_setWidth, Nat.mod_eq_of_lt (by omega)]
  exact Nat.and_two_pow_sub_one_of_lt_two_pow bound

theorem check_crc_ccitt_iff {buf : List UInt8} :
    check_crc_ccitt buf = true ↔ crcOf buf = 0xf0b8#16 := by
  rw [check_crc_ccitt, beq_iff_eq, crc_loop_low]
  constructor
  · intro same
    have low := congrArg (BitVec.setWidth 16) same
    rwa [BitVec.setWidth_setWidth_of_le _ (by decide : (16 : Nat) ≤ 32), BitVec.setWidth_eq] at low
  · intro same
    rw [same]
    rfl

theorem calc_crc_ccitt_eq (buf : List UInt8) : calc_crc_ccitt buf = (~~~ crcOf buf).setWidth 32 := by
  rw [calc_crc_ccitt, crc_loop_low]
  have ones : (0xffff#32 : BitVec 32) = (BitVec.allOnes 16).setWidth 32 := rfl
  rw [ones, ← BitVec.setWidth_xor, BitVec.xor_allOnes]

/-! ## The check behind a packet -/

/-- The two octets of a check value, as the encoder sends them. -/
def crcBytes (crc : BitVec 32) : List UInt8 :=
  [UInt8.ofNat (crc &&& 0xff#32).toNat, UInt8.ofNat ((crc >>> 8) &&& 0xff#32).toNat]

theorem bitsOf_crcBytes (reg : BitVec 16) : bitsOf (crcBytes (reg.setWidth 32)) = lowBitsOf reg 16 := by
  have octet (k : Nat) (low : k ≤ 8) :
      octetBits (UInt8.ofNat ((reg.setWidth 32 >>> k) &&& 0xff#32).toNat) =
        (List.range 8).map fun i => reg.getLsbD (k + i) := by
    rw [octetBits_eq, lowBitsOf]
    refine List.map_congr_left fun i inside => ?_
    have lt := List.mem_range.mp inside
    have mask : (0xff#32).getLsbD i = true := by
      clear inside
      revert i
      decide
    have byte : (UInt8.ofNat ((reg.setWidth 32 >>> k) &&& 0xff#32).toNat).toBitVec.getLsbD i =
        ((reg.setWidth 32 >>> k) &&& 0xff#32).getLsbD i := by
      show (BitVec.ofNat 8 _).getLsbD i = _
      rw [BitVec.getLsbD_ofNat, decide_eq_true lt, Bool.true_and]
      rfl
    rw [BitVec.getLsbD_setWidth, decide_eq_true (by omega : i < 16), Bool.true_and, byte,
      BitVec.getLsbD_and, mask, Bool.and_true, BitVec.getLsbD_ushiftRight, BitVec.getLsbD_setWidth,
      decide_eq_true (by omega : k + i < 32), Bool.true_and]
  have low := octet 0 (Nat.zero_le 8)
  rw [BitVec.ushiftRight_zero] at low
  rw [crcBytes, bitsOf_cons, bitsOf_cons, low, octet 8 le_rfl]
  rfl

/-- A packet that ends with its check passes. -/
theorem check_crc_ccitt_checked (data : List UInt8) :
    check_crc_ccitt (data ++ crcBytes (calc_crc_ccitt data)) = true := by
  rw [check_crc_ccitt_iff, calc_crc_ccitt_eq, crcOf, bitsOf_append, bitsOf_crcBytes, crc_append]
  show crc ccittPoly (crcOf data) (lowBitsOf (~~~ crcOf data) 16) = _
  -- the bits of the complemented register are those of the register and ones
  have size : (lowBitsOf (crcOf data) 16).length = 16 := by
    rw [lowBitsOf, List.length_map, List.length_range]
  have bits : lowBitsOf (~~~ crcOf data) 16 =
      List.zipWith xor (lowBitsOf (crcOf data) 16) (List.replicate 16 true) := by
    have ones := zipWith_ones (lowBitsOf (crcOf data) 16)
    rw [size] at ones
    rw [ones, lowBitsOf, lowBitsOf, List.map_map]
    refine List.map_congr_left fun i inside => ?_
    rw [BitVec.getLsbD_not, decide_eq_true (List.mem_range.mp inside), Bool.true_and]
    rfl
  have same : (lowBitsOf (crcOf data) 16).length = (List.replicate 16 true).length := size
  have split := @crc_xor 16 ccittPoly (crcOf data) 0 _ _ same
  have alone : crcOf data ^^^ 0 = crcOf data := BitVec.xor_zero
  rw [alone, ← bits, crc_lowBitsOf, BitVec.ushiftRight_eq_zero le_rfl] at split
  rw [split]
  decide +kernel

/-! ## What passes -/

/-- The register is back at the polynomial within some zeros. -/
def comesBack : Nat → BitVec 16 → Bool
  | 0, _ => false
  | n + 1, reg =>
    crcShift ccittPoly reg false == ccittPoly || comesBack n (crcShift ccittPoly reg false)

theorem comesBack_of_eq {n d : Nat} {reg : BitVec 16} (inside : d < n)
    (back : crc ccittPoly reg (List.replicate (d + 1) false) = ccittPoly) : comesBack n reg = true := by
  induction n generalizing d reg with
  | zero => cases inside
  | succ n ih =>
    rw [comesBack, Bool.or_eq_true, beq_iff_eq]
    cases d with
    | zero => exact Or.inl back
    | succ d => exact Or.inr (ih (Nat.lt_of_succ_lt_succ inside) back)

set_option maxRecDepth 20000 in
/-- The register that the first error leaves does not come back within the receive buffer. -/
theorem ccittPoly_away : comesBack 8192 ccittPoly = false := by
  decide +kernel

/-- Two different packets of one size that fit into the receive buffer and pass differ in at least four
bits, in an even number of bits, and not within sixteen consecutive bits. -/
theorem check_crc_ccitt_distance {p q : List UInt8} (size : p.length = q.length)
    (fits : p.length ≤ 1024) (other : p ≠ q) (passes : check_crc_ccitt p = true)
    (passes' : check_crc_ccitt q = true) :
    4 ≤ (List.zipWith xor (bitsOf p) (bitsOf q)).count true ∧
      Even ((List.zipWith xor (bitsOf p) (bitsOf q)).count true) ∧
      ¬ Burst 16 (List.zipWith xor (bitsOf p) (bitsOf q)) := by
  have long : (bitsOf p).length = (bitsOf q).length := by rw [length_bitsOf, length_bitsOf, size]
  have zero : crc ccittPoly 0 (List.zipWith xor (bitsOf p) (bitsOf q)) = 0 := by
    have split := @crc_xor 16 ccittPoly 0xffff#16 0xffff#16 _ _ long
    rw [BitVec.xor_self] at split
    refine split.trans ?_
    rw [check_crc_ccitt_iff] at passes passes'
    show crcOf p ^^^ crcOf q = 0
    rw [passes, passes', BitVec.xor_self]
    rfl
  have hit : true ∈ List.zipWith xor (bitsOf p) (bitsOf q) := by
    by_contra silent
    refine other (bitsOf_inj ?_)
    exact eq_of_zipWith_xor long silent
  have odd : parity ccittPoly = true := by decide
  refine ⟨four_le_count (by decide) odd ?_ hit zero, even_count_of_crc odd zero, ?_⟩
  · intro d inside back
    have short : (List.zipWith xor (bitsOf p) (bitsOf q)).length ≤ 8192 := by
      rw [List.length_zipWith, ← long, min_self, length_bitsOf]
      omega
    have found := comesBack_of_eq (inside.trans_le short) back
    rw [ccittPoly_away] at found
    cases found
  · exact fun burst => crc_burst_ne_zero (by decide) burst zero

theorem check_crc_ccitt_distance_letters :
    4 ≤ (List.zipWith xor (bitsOf [65, 245, 163]) (bitsOf [66, 110, 145])).count true ∧
      Even ((List.zipWith xor (bitsOf [65, 245, 163]) (bitsOf [66, 110, 145])).count true) ∧
      ¬ Burst 16 (List.zipWith xor (bitsOf [65, 245, 163]) (bitsOf [66, 110, 145])) :=
  check_crc_ccitt_distance rfl (by decide) (by decide) (by decide +kernel) (by decide +kernel)

end QFax.Extmodem

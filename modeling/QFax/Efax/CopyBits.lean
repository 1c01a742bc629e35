import QFax.Efax.BitMap

/-!
# Copying bits into a scan line

`copybits` appends slices of a bit map to a scan line, through a `short` that holds the bits of an
incomplete byte.  A slice inside of one byte is masked for the whole rest of that byte: bits in front of
it are then OR-ed into bits that were copied before and have not been stored yet.
-/

namespace QFax.Efax

open Bits

/-! ## The bit buffer -/

/-- The static variables of `copybits`: the bytes stored, the bit buffer, and how many bits of it are
missing to a byte, as a negative number. -/
structure BitBuffer where
  out : List UInt8
  x : BitVec 16
  shift : Int

/-- `copybits (out, 0, 0)`: reset for a new scan line. -/
def BitBuffer.start : BitBuffer := ⟨[], 0, -8⟩

/-- `putbits`. -/
def BitBuffer.putbits (s : BitBuffer) (c : UInt8) (b : Nat) : BitBuffer :=
  let x := s.x <<< b ||| c.toBitVec.setWidth 16
  let shift := s.shift + b
  if shift ≥ 0 then
    ⟨s.out ++ [UInt8.ofBitVec ((x.sshiftRight shift.toNat).setWidth 8)], x, shift - 8⟩
  else ⟨s.out, x, shift⟩

/-- The table `right` of `copybits`. -/
def right : List UInt8 := [0x00, 0x01, 0x03, 0x07, 0x0f, 0x1f, 0x3f, 0x7f, 0xff]

/-- `while (nb >= 8) { putbits (*f++, 8); nb -= 8; } if (nb > 0) putbits (*f >> (8 - nb), nb);` -/
def BitBuffer.copyBytes (s : BitBuffer) (inp : Nat → UInt8) (f : Nat) : Nat → BitBuffer
  | nb + 8 => (s.putbits (inp f) 8).copyBytes inp (f + 1) nb
  | nb => if nb > 0 then s.putbits (inp f >>> UInt8.ofNat (8 - nb)) nb else s

/-- `copybits` for a number of bits that is not zero. -/
def BitBuffer.copybits (s : BitBuffer) (inp : Nat → UInt8) (from_bit nb : Nat) : BitBuffer :=
  let f := from_bit >>> 3
  let bits := 8 - (from_bit &&& 7)
  if nb ≥ bits then
    (s.putbits (inp f &&& right.getD bits 0) bits).copyBytes inp (f + 1) (nb - bits)
  else s.putbits ((inp f >>> UInt8.ofNat (bits - nb)) &&& right.getD bits 0) nb

/-- `copybits (0, 0, 0)`: flush the bit buffer. -/
def BitBuffer.flush (s : BitBuffer) : List UInt8 := (s.putbits 0 (-s.shift).toNat).out

/-! ## Slices -/

/-- Bits in bytes are ordered from MS to LS bit. -/
def bitAt (inp : Nat → UInt8) (i : Nat) : Bool := (inp (i / 8)).toNat.testBit (7 - i % 8)

/-- A call of `copybits` that copies something. -/
structure CopyCall where
  inp : Nat → UInt8
  from_bit : Nat
  nb : Nat
  some : 1 ≤ nb

/-- Bits of a bit map from an index on. -/
def sliceBits (inp : Nat → UInt8) (from_bit nb : Nat) : List Bool :=
  (List.range nb).map fun i => bitAt inp (from_bit + i)

/-- `in[from..from+nb-1]` -/
def CopyCall.slice (c : CopyCall) : List Bool := sliceBits c.inp c.from_bit c.nb

/-- The mask lets a bit in front of a slice through, and it falls on the bit of the line `j` places
before the end: one of the bits that are not stored yet. -/
def CopyCall.spill (c : CopyCall) (n j : Nat) : Bool :=
  decide (j < n % 8 ∧ j < c.from_bit % 8 ∧ c.from_bit % 8 + c.nb + j < 8) &&
    bitAt c.inp (c.from_bit - 1 - j)

/-- The line before a slice, with the bits in front of the slice. -/
def CopyCall.onto (c : CopyCall) (bits : List Bool) : List Bool :=
  bits.mapIdx fun i bit => bit || c.spill bits.length (bits.length - 1 - i)

/-- The line behind some slices. -/
def copiedBits (bits : List Bool) (calls : List CopyCall) : List Bool :=
  calls.foldl (fun bits c => c.onto bits ++ c.slice) bits

/-- The bits in front of a slice that the mask lets through fall on bits that are set. -/
def CopyCall.Clean (c : CopyCall) (bits : List Bool) : Prop :=
  ∀ j, c.spill bits.length j = true → bits.getD (bits.length - 1 - j) false = true

/-- All slices are clean where they are copied to. -/
def CleanCopies : List Bool → List CopyCall → Prop
  | _, [] => True
  | bits, c :: calls => c.Clean bits ∧ CleanCopies (bits ++ c.slice) calls

/-- The calls for a scan line, from the reset to the flush. -/
def copyLine (calls : List CopyCall) : List UInt8 :=
  (calls.foldl (fun s c => s.copybits c.inp c.from_bit c.nb) BitBuffer.start).flush

/-! ## What the bit buffer holds -/

/-- The bits that are not stored yet. -/
def BitBuffer.pend (s : BitBuffer) : List Bool := toBits (s.shift + 8).toNat s.x.toNat

/-- The bits of a scan line up to here. -/
structure BitBuffer.Holds (s : BitBuffer) (bits : List Bool) : Prop where
  lower : -8 ≤ s.shift
  upper : s.shift < 0
  content : bytesBits s.out ++ s.pend = bits

theorem BitBuffer.start_holds : BitBuffer.start.Holds [] := ⟨le_rfl, by decide, rfl⟩

theorem BitBuffer.length_pend (s : BitBuffer) : s.pend.length = (s.shift + 8).toNat :=
  length_toBits _ _

/-- The fill of the bit buffer is the place in the byte. -/
theorem BitBuffer.Holds.fill {s : BitBuffer} {bits : List Bool} (holds : s.Holds bits) :
    (s.shift + 8).toNat = bits.length % 8 := by
  have size := congrArg List.length holds.content
  have lower := holds.lower
  have upper := holds.upper
  rw [List.length_append, length_bytesBits, s.length_pend] at size
  omega

/-- Shifting bits into the buffer: those of `c` above the lowest `b` go to the bits before. -/
theorem toBits_shiftIn_byte (x : BitVec 16) (c : UInt8) {k b : Nat} (fits : k + b ≤ 16) :
    toBits (k + b) (x <<< b ||| c.toBitVec.setWidth 16).toNat =
      toBits k (x.toNat ||| c.toNat >>> b) ++ toBits b c.toNat := by
  have bit (i : Nat) (lt : i < 16) :
      (x <<< b ||| c.toBitVec.setWidth 16).toNat.testBit i =
        ((!decide (i < b) && x.toNat.testBit (i - b)) || c.toNat.testBit i) := by
    rw [BitVec.testBit_toNat, BitVec.getLsbD_or, BitVec.getLsbD_shiftLeft, BitVec.getLsbD_setWidth]
    simp only [lt, decide_true, Bool.true_and]
    rfl
  rw [toBits_add]
  congr 1
  · refine toBits_congr fun i lt => ?_
    rw [Nat.testBit_shiftRight, bit (b + i) (by omega), Nat.testBit_or, Nat.testBit_shiftRight,
      Nat.add_sub_cancel_left, decide_eq_false (by omega : ¬ b + i < b)]
    rfl
  · refine toBits_congr fun i lt => ?_
    rw [bit i (by omega), decide_eq_true lt]
    rfl

/-- A byte of the buffer, above the bits that stay. -/
theorem byteBits_sshiftRight (x : BitVec 16) {m : Nat} (le : m ≤ 7) :
    byteBits (UInt8.ofBitVec ((x.sshiftRight m).setWidth 8)) = toBits 8 (x.toNat >>> m) := by
  refine toBits_congr fun i lt => ?_
  have byte : (UInt8.ofBitVec ((x.sshiftRight m).setWidth 8)).toNat =
      ((x.sshiftRight m).setWidth 8).toNat := rfl
  rw [byte, BitVec.testBit_toNat, BitVec.getLsbD_setWidth, BitVec.getLsbD_sshiftRight,
    Nat.testBit_shiftRight, if_pos (by omega), decide_eq_true lt, decide_eq_false (by omega)]
  rfl

/-- `putbits` appends the lowest `b` bits of `c`; the others go to the bits that are not stored yet. -/
theorem BitBuffer.Holds.putbits {s : BitBuffer} {bits : List Bool} (holds : s.Holds bits) (c : UInt8)
    {b : Nat} (le : b ≤ 8) :
    (s.putbits c b).Holds (bytesBits s.out ++
      toBits (s.shift + 8).toNat (s.x.toNat ||| c.toNat >>> b) ++ toBits b c.toNat) := by
  obtain ⟨lower, upper, -⟩ := holds
  have shifted := toBits_shiftIn_byte s.x c (by omega : (s.shift + 8).toNat + b ≤ 16)
  rw [List.append_assoc, ← shifted]
  unfold BitBuffer.putbits
  generalize s.x <<< b ||| c.toBitVec.setWidth 16 = x
  dsimp only
  split
  case isTrue full =>
    refine ⟨by dsimp only; omega, by dsimp only; omega, ?_⟩
    have parts : (s.shift + 8).toNat + b = 8 + (s.shift + b).toNat := by omega
    rw [parts, toBits_add, bytesBits_append, bytesBits_cons, bytesBits_nil, List.append_nil,
      byteBits_sshiftRight x (by omega), List.append_assoc, BitBuffer.pend]
    congr 4
    dsimp only
    omega
  case isFalse part =>
    refine ⟨by dsimp only; omega, by dsimp only; omega, ?_⟩
    rw [BitBuffer.pend]
    congr 2
    dsimp only
    omega

/-- Bits of the right length are appended as they are. -/
theorem BitBuffer.Holds.putbits_exact {s : BitBuffer} {bits : List Bool} (holds : s.Holds bits)
    {c : UInt8} {b : Nat} (le : b ≤ 8) (small : c.toNat < 2 ^ b) :
    (s.putbits c b).Holds (bits ++ toBits b c.toNat) := by
  have put := holds.putbits c le
  have none : c.toNat >>> b = 0 := Nat.shiftRight_eq_zero _ _ small
  rw [none, Nat.or_zero] at put
  rw [← holds.content]
  exact put

/-! ## Bits of a bit map -/

@[simp] theorem length_sliceBits (inp : Nat → UInt8) (from_bit nb : Nat) :
    (sliceBits inp from_bit nb).length = nb := by
  rw [sliceBits, List.length_map, List.length_range]

theorem sliceBits_add (inp : Nat → UInt8) (from_bit m n : Nat) :
    sliceBits inp from_bit (m + n) = sliceBits inp from_bit m ++ sliceBits inp (from_bit + m) n := by
  rw [sliceBits, List.range_add, List.map_append, List.map_map, sliceBits, sliceBits]
  congr 1
  exact List.map_congr_left fun i _ => congrArg (bitAt inp) (Nat.add_assoc ..).symm

theorem toBits_eq_map (w n : Nat) :
    toBits w n = (List.range w).map fun i => n.testBit (w - 1 - i) := by
  induction w with
  | zero => rfl
  | succ w ih =>
    rw [toBits_succ, ih, List.range_succ_eq_map, List.map_cons, List.map_map]
    congr 1
    exact List.map_congr_left fun i _ => congrArg n.testBit (by omega)

/-- Bits of one byte. -/
theorem sliceBits_byte (inp : Nat → UInt8) (f : Nat) {o b c : Nat} (inside : o + b ≤ 8)
    (same : ∀ i < b, c.testBit i = (inp f).toNat.testBit (8 - (o + b) + i)) :
    sliceBits inp (8 * f + o) b = toBits b c := by
  rw [toBits_eq_map, sliceBits]
  refine List.map_congr_left fun i member => ?_
  have lt := List.mem_range.mp member
  have byte : (8 * f + o + i) / 8 = f := by omega
  have place : (8 * f + o + i) % 8 = o + i := by omega
  rw [bitAt, byte, place, same _ (by omega)]
  congr 1
  omega

/-- The table `right` masks the rightmost bits. -/
theorem toNat_right (a : UInt8) {b : Nat} (le : b ≤ 8) :
    (a &&& right.getD b 0).toNat = a.toNat % 2 ^ b := by
  have mask : ∀ b < 9, (right.getD b 0).toNat = 2 ^ b - 1 := by decide
  rw [UInt8.toNat_and, mask b (by omega), Nat.and_two_pow_sub_one_eq_mod]

theorem toNat_shift (a : UInt8) {k : Nat} (lt : k < 8) :
    (a >>> UInt8.ofNat k).toNat = a.toNat >>> k := by
  rw [UInt8.toNat_shiftRight, UInt8.toNat_ofNat', Nat.mod_eq_of_lt (by omega : k < 2 ^ 8),
    Nat.mod_eq_of_lt lt]

/-! ## Copying -/

/-- The bytes of a slice and the first bits of its last one. -/
theorem BitBuffer.Holds.copyBytes {s : BitBuffer} {bits : List Bool} (holds : s.Holds bits)
    (inp : Nat → UInt8) (f nb : Nat) :
    (s.copyBytes inp f nb).Holds (bits ++ sliceBits inp (8 * f) nb) := by
  induction s, f, nb using BitBuffer.copyBytes.induct inp generalizing bits with
  | case1 s f nb ih =>
    have byte : sliceBits inp (8 * f) 8 = toBits 8 (inp f).toNat :=
      sliceBits_byte inp f (o := 0) (by decide) fun i _ => by rw [Nat.zero_add]
    have parts : sliceBits inp (8 * f) (nb + 8) =
      toBits 8 (inp f).toNat ++ sliceBits inp (8 * (f + 1)) nb := by
      rw [Nat.add_comm nb 8, sliceBits_add, byte, Nat.mul_add, Nat.mul_one]
    have put := ih (holds.putbits_exact le_rfl (inp f).toNat_lt)
    rw [List.append_assoc, ← parts] at put
    exact put
  | case2 s f nb short some =>
    have few : nb < 8 := by
      by_contra many
      exact short (nb - 8) (by omega)
    have value := toNat_shift (inp f) (by omega : 8 - nb < 8)
    have small : (inp f >>> UInt8.ofNat (8 - nb)).toNat < 2 ^ nb := by
      rw [value, Nat.shiftRight_eq_div_pow, Nat.div_lt_iff_lt_mul (Nat.two_pow_pos _), ← Nat.pow_add,
        Nat.add_sub_cancel' few.le]
      exact (inp f).toNat_lt
    have byte : sliceBits inp (8 * f) nb = toBits nb (inp f >>> UInt8.ofNat (8 - nb)).toNat :=
      sliceBits_byte inp f (o := 0) (by omega) fun i _ => by
        rw [value, Nat.testBit_shiftRight, Nat.zero_add]
    rw [BitBuffer.copyBytes, if_pos some, byte]
    · exact holds.putbits_exact few.le small
    · exact short
  | case3 s f nb short none =>
    obtain rfl : nb = 0 := by omega
    rw [BitBuffer.copyBytes, if_neg none]
    · rwa [sliceBits, List.range_zero, List.map_nil, List.append_nil]
    · exact short

/-- The line with the bits in front of a slice, in the bit buffer. -/
theorem BitBuffer.Holds.onto {s : BitBuffer} {bits : List Bool} (holds : s.Holds bits) (c : CopyCall)
    {e : Nat} (same : ∀ j < bits.length % 8, e.testBit j = c.spill bits.length j) :
    bytesBits s.out ++ toBits (s.shift + 8).toNat (s.x.toNat ||| e) = c.onto bits := by
  have fill := holds.fill
  have size := congrArg List.length holds.content
  rw [List.length_append, length_bytesBits, s.length_pend] at size
  refine List.ext_getElem ?_ fun i here there => ?_
  · rw [CopyCall.onto, List.length_mapIdx, List.length_append, length_bytesBits, length_toBits, size]
  · have lt : i < bits.length := by rwa [CopyCall.onto, List.length_mapIdx] at there
    have bit := List.getElem_of_eq holds.content (by rwa [holds.content] : i < _)
    simp only [CopyCall.onto, List.getElem_mapIdx]
    rw [← bit]
    by_cases stored : i < (bytesBits s.out).length
    · rw [List.getElem_append_left stored, List.getElem_append_left stored]
      rw [length_bytesBits] at stored
      rw [CopyCall.spill, decide_eq_false (by omega), Bool.false_and, Bool.or_false]
    · have pending := Nat.le_of_not_lt stored
      rw [List.getElem_append_right pending, List.getElem_append_right pending]
      rw [length_bytesBits] at pending
      simp only [BitBuffer.pend, toBits_eq_map, List.getElem_map, List.getElem_range, length_bytesBits,
        Nat.testBit_or]
      have place : (s.shift + 8).toNat - 1 - (i - 8 * s.out.length) = bits.length - 1 - i := by omega
      rw [place, same _ (by omega)]

/-- What `copybits` takes from the byte of a slice that ends inside of it. -/
theorem testBit_short (inp : Nat → UInt8) {f o nb : Nat} (some : 1 ≤ nb) (inside : o + nb < 8)
    (i : Nat) :
    ((inp f >>> UInt8.ofNat (8 - o - nb)) &&& right.getD (8 - o) 0).toNat.testBit i =
      (decide (i < 8 - o) && (inp f).toNat.testBit (8 - (o + nb) + i)) := by
  rw [toNat_right _ (Nat.sub_le ..), Nat.testBit_mod_two_pow, toNat_shift _ (by omega),
    Nat.testBit_shiftRight, Nat.sub_sub]

theorem spill_of_long {c : CopyCall} (long : 8 ≤ c.from_bit % 8 + c.nb) (n j : Nat) :
    c.spill n j = false := by
  rw [CopyCall.spill, decide_eq_false (by omega), Bool.false_and]

theorem onto_of_long {c : CopyCall} (long : 8 ≤ c.from_bit % 8 + c.nb) (bits : List Bool) :
    c.onto bits = bits := by
  rw [CopyCall.onto, List.mapIdx_eq_iff]
  intro i
  rcases bits[i]? with _ | bit
  · rfl
  · simp only [spill_of_long long, Bool.or_false, Option.map_some]

/-- One call: the slice is appended, and the bits in front of it are OR-ed. -/
theorem BitBuffer.Holds.copybits {s : BitBuffer} {bits : List Bool} (holds : s.Holds bits)
    (c : CopyCall) : (s.copybits c.inp c.from_bit c.nb).Holds (c.onto bits ++ c.slice) := by
  have byte : c.from_bit >>> 3 = c.from_bit / 8 := Nat.shiftRight_eq_div_pow c.from_bit 3
  have place : c.from_bit &&& 7 = c.from_bit % 8 := Nat.and_two_pow_sub_one_eq_mod c.from_bit 3
  have start : 8 * (c.from_bit / 8) + c.from_bit % 8 = c.from_bit := by omega
  unfold BitBuffer.copybits
  rw [byte, place]
  dsimp only
  split
  case isTrue long =>
    have value := toNat_right (c.inp (c.from_bit / 8)) (Nat.sub_le 8 (c.from_bit % 8))
    have small := Nat.mod_lt (c.inp (c.from_bit / 8)).toNat (Nat.two_pow_pos (8 - c.from_bit % 8))
    rw [← value] at small
    have rest := (holds.putbits_exact (Nat.sub_le ..) small).copyBytes c.inp (c.from_bit / 8 + 1)
      (c.nb - (8 - c.from_bit % 8))
    have room : c.from_bit % 8 + (8 - c.from_bit % 8) ≤ 8 := by omega
    have first := sliceBits_byte c.inp (c.from_bit / 8) room
      (c := (c.inp (c.from_bit / 8) &&& right.getD (8 - c.from_bit % 8) 0).toNat) fun i lt => by
        rw [value, Nat.testBit_mod_two_pow, decide_eq_true lt, Bool.true_and,
          (by omega : 8 - (c.from_bit % 8 + (8 - c.from_bit % 8)) + i = i)]
    rw [start] at first
    have parts : c.slice = sliceBits c.inp c.from_bit (8 - c.from_bit % 8) ++
        sliceBits c.inp (8 * (c.from_bit / 8 + 1)) (c.nb - (8 - c.from_bit % 8)) := by
      have next : 8 * (c.from_bit / 8 + 1) = c.from_bit + (8 - c.from_bit % 8) := by omega
      rw [next, ← sliceBits_add, Nat.add_sub_cancel' long, CopyCall.slice]
    rw [List.append_assoc, ← first, ← parts] at rest
    rwa [onto_of_long (by omega)]
  case isFalse short =>
    have inside : c.from_bit % 8 + c.nb < 8 := by omega
    have value := testBit_short c.inp (f := c.from_bit / 8) c.some inside
    have put := holds.putbits ((c.inp (c.from_bit / 8) >>> UInt8.ofNat (8 - c.from_bit % 8 - c.nb)) &&&
      right.getD (8 - c.from_bit % 8) 0) (by omega : c.nb ≤ 8)
    have slice := sliceBits_byte c.inp (c.from_bit / 8) inside.le fun i lt => by
      rw [value, decide_eq_true (by omega : i < 8 - c.from_bit % 8), Bool.true_and]
    rw [start] at slice
    rw [← slice, holds.onto c fun j lt => ?_] at put
    · exact put
    rw [Nat.testBit_shiftRight, value]
    by_cases before : j < c.from_bit % 8
    · have byte : (c.from_bit - 1 - j) / 8 = c.from_bit / 8 := by omega
      have place : 8 - (c.from_bit % 8 + c.nb) + (c.nb + j) = 7 - (c.from_bit - 1 - j) % 8 := by omega
      have masked : c.nb + j < 8 - c.from_bit % 8 ↔
          j < bits.length % 8 ∧ j < c.from_bit % 8 ∧ c.from_bit % 8 + c.nb + j < 8 := by omega
      rw [CopyCall.spill, place, bitAt, byte, decide_eq_decide.mpr masked]
    · have outside :
          (c.inp (c.from_bit / 8)).toNat.testBit (8 - (c.from_bit % 8 + c.nb) + (c.nb + j)) = false :=
        Nat.testBit_lt_two_pow (lt_of_lt_of_le (c.inp (c.from_bit / 8)).toNat_lt
          (Nat.pow_le_pow_right (by decide) (by omega)))
      rw [outside, Bool.and_false, CopyCall.spill, decide_eq_false (fun all => before all.2.1)]
      rfl

/-- All calls for a scan line. -/
theorem BitBuffer.Holds.copyCalls {s : BitBuffer} {bits : List Bool} (holds : s.Holds bits)
    (calls : List CopyCall) :
    (calls.foldl (fun s c => s.copybits c.inp c.from_bit c.nb) s).Holds (copiedBits bits calls) := by
  induction calls generalizing s bits with
  | nil => exact holds
  | cons c calls ih => exact ih (holds.copybits c)

/-- The flush stores the incomplete byte, or one that is empty. -/
theorem BitBuffer.Holds.flush {s : BitBuffer} {line : List Bool} (holds : s.Holds line) :
    bytesBits s.flush = line ++ List.replicate (8 - line.length % 8) false := by
  have fill := holds.fill
  have lower := holds.lower
  have upper := holds.upper
  have put := holds.putbits_exact (c := 0) (by omega : (-s.shift).toNat ≤ 8) (Nat.two_pow_pos _)
  have stored : (s.putbits 0 (-s.shift).toNat).shift = -8 := by
    unfold BitBuffer.putbits
    rw [if_pos (by omega)]
    dsimp only
    omega
  have missing : (-s.shift).toNat = 8 - line.length % 8 := by omega
  have content := put.content
  rw [BitBuffer.pend, stored, missing, UInt8.toNat_zero, toBits_of_zero] at content
  rw [BitBuffer.flush, missing]
  exact (List.append_nil _).symm.trans content

/-- The stored line is made of the line's bits and of zero bits to the next byte boundary. -/
theorem bytesBits_copyLine (calls : List CopyCall) :
    bytesBits (copyLine calls) =
      copiedBits [] calls ++ List.replicate (8 - (copiedBits [] calls).length % 8) false :=
  (BitBuffer.start_holds.copyCalls calls).flush

/-! ## Lines of clean slices -/

/-- No bit is cleared. -/
def Covers (bits bits' : List Bool) : Prop := List.Forall₂ (fun a b => a = true → b = true) bits bits'

theorem Covers.refl (bits : List Bool) : Covers bits bits := List.forall₂_refl bits

theorem Covers.trans {bits bits' bits'' : List Bool} (first : Covers bits bits')
    (second : Covers bits' bits'') : Covers bits bits'' := by
  induction first generalizing bits'' with
  | nil => exact second
  | cons set _ ih =>
    rcases second with _ | ⟨set', rest⟩
    exact .cons (set' ∘ set) (ih rest)

theorem Covers.antisymm {bits bits' : List Bool} (covers : Covers bits bits')
    (back : Covers bits' bits) : bits' = bits := by
  induction covers with
  | nil => rfl
  | cons set _ ih =>
    rcases back with _ | ⟨unset, rest⟩
    rw [Bool.eq_iff_iff.mpr ⟨unset, set⟩, ih rest]

theorem Covers.append {bits bits' : List Bool} (covers : Covers bits bits') (rest : List Bool) :
    Covers (bits ++ rest) (bits' ++ rest) := List.rel_append covers (Covers.refl rest)

theorem CopyCall.covers_onto (c : CopyCall) (bits : List Bool) : Covers bits (c.onto bits) := by
  refine List.forall₂_iff_get.mpr ⟨List.length_mapIdx.symm, fun i here there set => ?_⟩
  rw [List.get_eq_getElem] at set ⊢
  simp only [CopyCall.onto, List.getElem_mapIdx]
  rw [set, Bool.true_or]

theorem CopyCall.onto_eq_iff (c : CopyCall) (bits : List Bool) : c.onto bits = bits ↔ c.Clean bits := by
  rw [CopyCall.onto, List.mapIdx_eq_iff]
  constructor
  · intro same j spilt
    have lt : j < bits.length := by
      by_contra outside
      rw [CopyCall.spill, decide_eq_false (by omega), Bool.false_and] at spilt
      exact absurd spilt (by decide)
    have bit := same (bits.length - 1 - j)
    rw [(by omega : bits.length - 1 - (bits.length - 1 - j) = j), spilt,
      List.getElem?_eq_getElem (by omega), Option.map_some, Bool.or_true] at bit
    rw [List.getD_eq_getElem?_getD, List.getElem?_eq_getElem (by omega), bit]
    rfl
  · intro clean i
    rcases here : bits[i]? with _ | bit
    · rfl
    · have lt : i < bits.length := by
        by_contra outside
        rw [List.getElem?_eq_none (Nat.le_of_not_lt outside)] at here
        exact absurd here.symm (Option.some_ne_none bit)
      rw [Option.map_some]
      rcases spilt : c.spill bits.length (bits.length - 1 - i)
      · rw [Bool.or_false]
      · have set := clean _ spilt
        rw [(by omega : bits.length - 1 - (bits.length - 1 - i) = i), List.getD_eq_getElem?_getD,
          here] at set
        rw [Bool.or_true, ← set]
        rfl

/-- The line covers the slices, and is equal to them if they are clean. -/
theorem copiedBits_covers (bits : List Bool) (calls : List CopyCall) :
    Covers (bits ++ calls.flatMap CopyCall.slice) (copiedBits bits calls) ∧
      (copiedBits bits calls = bits ++ calls.flatMap CopyCall.slice ↔ CleanCopies bits calls) := by
  induction calls generalizing bits with
  | nil =>
    rw [List.flatMap_nil, List.append_nil]
    exact ⟨Covers.refl bits, iff_of_true rfl trivial⟩
  | cons c calls ih =>
    obtain ⟨over_rest, exact_rest⟩ := ih (c.onto bits ++ c.slice)
    have covers_all := (c.covers_onto bits).append (c.slice ++ calls.flatMap CopyCall.slice)
    rw [List.append_assoc] at over_rest exact_rest
    refine ⟨covers_all.trans over_rest, ?_⟩
    rw [List.flatMap_cons, CleanCopies, ← c.onto_eq_iff bits]
    change copiedBits (c.onto bits ++ c.slice) calls = _ ↔ _
    constructor
    · intro exact_line
      rw [exact_line] at over_rest
      have kept : c.onto bits = bits := List.append_cancel_right (over_rest.antisymm covers_all).symm
      rw [kept] at exact_rest exact_line
      exact ⟨kept, exact_rest.mp exact_line⟩
    · rintro ⟨kept, rest⟩
      rw [kept] at exact_rest ⊢
      exact exact_rest.mpr rest

theorem length_copiedBits (calls : List CopyCall) :
    (copiedBits [] calls).length = (calls.flatMap CopyCall.slice).length :=
  (copiedBits_covers [] calls).1.length_eq.symm

/-- The flush stores to the byte boundary, and one byte more if the line ends at one. -/
theorem length_copyLine (calls : List CopyCall) :
    (copyLine calls).length = (calls.flatMap CopyCall.slice).length / 8 + 1 := by
  have size := congrArg List.length (bytesBits_copyLine calls)
  rw [length_bytesBits, List.length_append, List.length_replicate, length_copiedBits] at size
  omega

/-- The bytes up to the byte boundary and the byte behind it. -/
theorem copyLine_parts (calls : List CopyCall) {n : Nat} (width : (copiedBits [] calls).length = n) :
    bytesBits ((copyLine calls).take ((n + 7) / 8)) =
        copiedBits [] calls ++ List.replicate (8 * ((n + 7) / 8) - n) false ∧
      bytesBits ((copyLine calls).drop ((n + 7) / 8)) =
        List.replicate (if n % 8 = 0 then 8 else 0) false := by
  have long := length_copyLine calls
  rw [← length_copiedBits, width] at long
  have pad : 8 - n % 8 = 8 * ((n + 7) / 8) - n + if n % 8 = 0 then 8 else 0 := by
    split <;> omega
  have parts := bytesBits_append ((copyLine calls).take ((n + 7) / 8)) ((copyLine calls).drop ((n + 7) / 8))
  rw [List.take_append_drop, bytesBits_copyLine, width, pad, List.replicate_add,
    ← List.append_assoc] at parts
  obtain ⟨first, rest⟩ := List.append_inj parts (by
    rw [List.length_append, List.length_replicate, length_bytesBits, List.length_take]
    omega)
  exact ⟨first.symm, rest.symm⟩

/-- The scan line is the concatenation of the slices, to the byte boundary and with the byte that is
stored behind it, if and only if they are copied to where the bits in front of them are set. -/
theorem copybits_concat_iff (calls : List CopyCall) :
    let bits := calls.flatMap CopyCall.slice
    let size := (bits.length + 7) / 8
    (bytesBits ((copyLine calls).take size) = bits ++ List.replicate (8 * size - bits.length) false ↔
      CleanCopies [] calls) ∧
    bytesBits ((copyLine calls).drop size) =
      List.replicate (if bits.length % 8 = 0 then 8 else 0) false := by
  intro bits size
  obtain ⟨first, rest⟩ := copyLine_parts calls (length_copiedBits calls)
  refine ⟨?_, rest⟩
  rw [first, List.append_cancel_right_eq]
  exact (copiedBits_covers [] calls).2

/-- A white pixel, and three white pixels of a byte with a black one in front of them. -/
def shortSlices : List CopyCall :=
  [⟨fun _ => 0x20, 0, 1, by decide⟩, ⟨fun _ => 0x20, 3, 3, by decide⟩]

/-- The black pixel is stored in the place of the first one. -/
theorem short_slice_sets_pixel :
    shortSlices.flatMap CopyCall.slice = List.replicate 4 false ∧ copyLine shortSlices = [0x80] ∧
      bytesBits ((copyLine shortSlices).take 1) ≠
        shortSlices.flatMap CopyCall.slice ++ List.replicate 4 false := by
  decide +kernel

end QFax.Efax

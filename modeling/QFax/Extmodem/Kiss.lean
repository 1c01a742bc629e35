import QFax.Lib.Machine
import Mathlib.Data.UInt

/-!
# Packet modem: KISS frames

A packet goes to a host between two frame ends, its frame ends and escapes replaced by two octets.  Both
branches of `kiss_decode` ask for the same escape, so that the second one is never taken: a packet with an
escape octet in it is not read back, and every other one is.
-/

namespace QFax.Extmodem

def KISS_FEND : UInt8 := 0xc0
def KISS_FESC : UInt8 := 0xdb
def KISS_TFEND : UInt8 := 0xdc
def KISS_TFESC : UInt8 := 0xdd

/-- The octets pushed for one octet of a packet. -/
def kiss_escape (b : UInt8) : List UInt8 :=
  if b = KISS_FEND then [KISS_FESC, KISS_TFEND]
  else if b = KISS_FESC then [KISS_FESC, KISS_TFESC]
  else [b]

/-- The frame type is zero. -/
def kiss_encode (buffer : List UInt8) : List UInt8 :=
  KISS_FEND :: 0 :: (buffer.flatMap kiss_escape ++ [KISS_FEND])

/-- The loop of `kiss_decode` from `buffer[k]` on; the last octet is only looked at from the one before. -/
def kissDecodeLoop : List UInt8 → List UInt8 → Bool × List UInt8
  | b :: c :: rest, dst =>
    if b = KISS_FESC then
      if c = KISS_TFEND then kissDecodeLoop rest (dst ++ [KISS_FEND]) else (false, dst)
    else if b = KISS_FESC then
      if c = KISS_TFESC then kissDecodeLoop rest (dst ++ [KISS_FESC]) else (false, dst)
    else kissDecodeLoop (c :: rest) (dst ++ [b])
  | _, dst => (true, dst)

/-- The value returned, and what was pushed to `dst`. -/
def kiss_decode (buffer : List UInt8) : Bool × List UInt8 :=
  if buffer.length < 3 ∨ buffer.headD 0 ≠ KISS_FEND ∨ buffer.getLastD 0 ≠ KISS_FEND ∨
      buffer.getD 1 0 &&& 0x0f ≠ 0 then (false, [])
  else kissDecodeLoop (buffer.drop 2) []

/-! ## Escapes -/

theorem kissDecodeLoop_escaped {data : List UInt8} (free : KISS_FESC ∉ data) (rest dst : List UInt8)
    (some' : rest ≠ []) :
    kissDecodeLoop (data.flatMap kiss_escape ++ rest) dst = kissDecodeLoop rest (dst ++ data) := by
  induction data generalizing dst with
  | nil => exact congrArg (kissDecodeLoop rest) (List.append_nil dst).symm
  | cons b data ih =>
    rw [List.mem_cons, not_or] at free
    have next := ih free.2 (dst ++ [b])
    rw [List.append_assoc, List.singleton_append] at next
    rw [List.flatMap_cons, List.append_assoc, kiss_escape]
    by_cases fend : b = KISS_FEND
    · rw [if_pos fend]
      show kissDecodeLoop (KISS_FESC :: KISS_TFEND :: (data.flatMap kiss_escape ++ rest)) dst = _
      rw [kissDecodeLoop, if_pos rfl, if_pos rfl, ← fend]
      exact next
    · rw [if_neg fend, if_neg (Ne.symm free.1)]
      show kissDecodeLoop (b :: (data.flatMap kiss_escape ++ rest)) dst = _
      have more : data.flatMap kiss_escape ++ rest ≠ [] := fun none => some' (List.append_eq_nil_iff.mp none).2
      obtain ⟨c, cs, split⟩ := List.exists_cons_of_ne_nil more
      rw [split] at next ⊢
      rw [kissDecodeLoop, if_neg (Ne.symm free.1), if_neg (Ne.symm free.1)]
      exact next

/-- A frame has no frame end inside. -/
theorem fend_notMem_escaped (data : List UInt8) : KISS_FEND ∉ 0 :: data.flatMap kiss_escape := by
  intro member
  rcases List.mem_cons.mp member with type | inside
  · cases type
  · obtain ⟨b, -, escaped⟩ := List.mem_flatMap.mp inside
    rw [kiss_escape] at escaped
    split at escaped
    · exact absurd escaped (by decide)
    · split at escaped
      · exact absurd escaped (by decide)
      · next other _ => exact other (List.mem_singleton.mp escaped).symm

theorem kiss_decode_encoded (data : List UInt8) :
    kiss_decode (kiss_encode data) = kissDecodeLoop (data.flatMap kiss_escape ++ [KISS_FEND]) [] := by
  refine if_neg ?_
  rintro (short | head | last | type)
  · rw [kiss_encode, List.length_cons, List.length_cons, List.length_append, List.length_singleton] at short
    omega
  · exact head rfl
  · refine last ?_
    rw [kiss_encode, ← List.cons_append, ← List.cons_append, List.getLastD_concat]
  · exact type (by decide : (0 : UInt8) &&& 0x0f = 0)

theorem kiss_decode_free {data : List UInt8} (free : KISS_FESC ∉ data) :
    kiss_decode (kiss_encode data) = (true, data) := by
  rw [kiss_decode_encoded, kissDecodeLoop_escaped free _ _ (List.cons_ne_nil _ _)]
  rfl

theorem kiss_decode_escape {data : List UInt8} (escape : KISS_FESC ∈ data) :
    (kiss_decode (kiss_encode data)).1 = false := by
  obtain ⟨before, after, rfl, first⟩ := List.eq_append_cons_of_mem escape
  -- the first branch finds the escape and misses the second octet it expects
  have split : (before ++ KISS_FESC :: after).flatMap kiss_escape ++ [KISS_FEND] =
      before.flatMap kiss_escape ++
        (KISS_FESC :: KISS_TFESC :: (after.flatMap kiss_escape ++ [KISS_FEND])) := by
    rw [List.flatMap_append, List.flatMap_cons, List.append_assoc, List.append_assoc]
    rfl
  rw [kiss_decode_encoded, split, kissDecodeLoop_escaped first _ _ (List.cons_ne_nil _ _), kissDecodeLoop,
    if_pos rfl, if_neg (by decide)]

/-- A packet is read back from its frame exactly when it holds no escape octet; with one in it, reading
fails. -/
theorem kiss_decode_encode (data : List UInt8) :
    (kiss_decode (kiss_encode data) = (true, data) ↔ KISS_FESC ∉ data) ∧
      ((kiss_decode (kiss_encode data)).1 = false ↔ KISS_FESC ∈ data) := by
  by_cases escape : KISS_FESC ∈ data
  · have fails := kiss_decode_escape escape
    refine ⟨iff_of_false (fun read => ?_) (not_not.mpr escape), iff_of_true fails escape⟩
    rw [read] at fails
    cases fails
  · have read := kiss_decode_free escape
    refine ⟨iff_of_true read escape, iff_of_false (fun fails => ?_) escape⟩
    rw [read] at fails
    cases fails

end QFax.Extmodem

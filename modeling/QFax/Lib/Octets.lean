import QFax.Lib.LowBits
import Mathlib.Data.UInt

/-!
# Octets of a bit string

Bits are gathered eight at a time, the least significant one first.  The octets of a string and the
bits that wait for the rest of one are the string again.
-/

namespace Octets

open Bits

/-- The eight bits of an octet, as they go out. -/
def octetBits (b : UInt8) : List Bool := lowBits 8 b.toNat

/-- The bits of a byte string. -/
def bitsOf (bytes : List UInt8) : List Bool := bytes.flatMap octetBits

theorem bitsOf_cons (b : UInt8) (bytes : List UInt8) : bitsOf (b :: bytes) = octetBits b ++ bitsOf bytes :=
  rfl

theorem bitsOf_append (as bs : List UInt8) : bitsOf (as ++ bs) = bitsOf as ++ bitsOf bs :=
  List.flatMap_append

/-- One more bit behind whole octets and the bits that wait. -/
def gather (state : List UInt8 × List Bool) (b : Bool) : List UInt8 × List Bool :=
  if state.2.length = 7 then (state.1 ++ [UInt8.ofNat (word (state.2 ++ [b]))], [])
  else (state.1, state.2 ++ [b])

/-- The octets of a bit string, and the bits left. -/
def gathered (bits : List Bool) : List UInt8 × List Bool := bits.foldl gather ([], [])

/-- The octets of a bit string. -/
def octets (bits : List Bool) : List UInt8 := (gathered bits).1

/-- The bits that are no octet yet. -/
def pending (bits : List Bool) : List Bool := (gathered bits).2

theorem gathered_snoc (bits : List Bool) (b : Bool) :
    gathered (bits ++ [b]) = gather (gathered bits) b := List.foldl_append

theorem pending_lt (bits : List Bool) : (pending bits).length < 8 := by
  induction bits using List.reverseRecOn with
  | nil => exact Nat.succ_pos 7
  | append_singleton bits b ih =>
    rw [pending, gathered_snoc, gather]
    split
    · exact Nat.succ_pos 7
    · next room =>
      rw [List.length_append, List.length_singleton]
      exact Nat.lt_of_le_of_ne ih fun full => room (Nat.succ.inj full)

/-- A bit that completes an octet. -/
theorem octets_snoc_full {bits : List Bool} (full : (pending bits).length = 7) (b : Bool) :
    octets (bits ++ [b]) = octets bits ++ [UInt8.ofNat (word (pending bits ++ [b]))] ∧
      pending (bits ++ [b]) = [] := by
  have step : gathered (bits ++ [b]) =
      (octets bits ++ [UInt8.ofNat (word (pending bits ++ [b]))], []) :=
    (gathered_snoc bits b).trans (if_pos full)
  show (gathered (bits ++ [b])).1 = _ ∧ (gathered (bits ++ [b])).2 = _
  rw [step]
  exact ⟨rfl, rfl⟩

/-- Any other bit waits. -/
theorem octets_snoc_room {bits : List Bool} (room : (pending bits).length ≠ 7) (b : Bool) :
    octets (bits ++ [b]) = octets bits ∧ pending (bits ++ [b]) = pending bits ++ [b] := by
  have step : gathered (bits ++ [b]) = (octets bits, pending bits ++ [b]) :=
    (gathered_snoc bits b).trans (if_neg room)
  show (gathered (bits ++ [b])).1 = _ ∧ (gathered (bits ++ [b])).2 = _
  rw [step]
  exact ⟨rfl, rfl⟩

theorem octets_initial (bits more : List Bool) : octets bits <+: octets (bits ++ more) := by
  induction more using List.reverseRecOn with
  | nil => rw [List.append_nil]
  | append_singleton more b ih =>
    rw [← List.append_assoc]
    rcases eq_or_ne (pending (bits ++ more)).length 7 with full | room
    · rw [(octets_snoc_full full b).1]
      exact ih.trans (List.prefix_append _ _)
    · rwa [(octets_snoc_room room b).1]

theorem octetBits_ofNat {bits : List Bool} (size : bits.length = 8) :
    octetBits (UInt8.ofNat (word bits)) = bits := by
  have small : word bits < 2 ^ 8 := size ▸ word_lt bits
  rw [octetBits, UInt8.toNat_ofNat', Nat.mod_eq_of_lt small, ← size, lowBits_word]

/-- The octets and the bits that wait are the string. -/
theorem bitsOf_octets (bits : List Bool) : bitsOf (octets bits) ++ pending bits = bits := by
  induction bits using List.reverseRecOn with
  | nil => rfl
  | append_singleton bits b ih =>
    rcases eq_or_ne (pending bits).length 7 with full | room
    · obtain ⟨whole, rest⟩ := octets_snoc_full full b
      have size : (pending bits ++ [b]).length = 8 := by
        rw [List.length_append, full, List.length_singleton]
      have last : bitsOf [UInt8.ofNat (word (pending bits ++ [b]))] = pending bits ++ [b] := by
        rw [bitsOf_cons, octetBits_ofNat size]
        exact List.append_nil _
      rw [whole, rest, bitsOf_append, last, List.append_nil, ← List.append_assoc, ih]
    · obtain ⟨whole, rest⟩ := octets_snoc_room room b
      rw [whole, rest, ← List.append_assoc, ih]

@[simp] theorem length_octetBits (b : UInt8) : (octetBits b).length = 8 := length_lowBits 8 _

theorem length_bitsOf (bytes : List UInt8) : (bitsOf bytes).length = 8 * bytes.length := by
  induction bytes with
  | nil => rfl
  | cons b bytes ih =>
    rw [bitsOf_cons, List.length_append, length_octetBits, ih, List.length_cons]
    omega

theorem octetBits_inj {a b : UInt8} (same : octetBits a = octetBits b) : a = b :=
  UInt8.toNat_inj.mp (lowBits_inj a.toNat_lt b.toNat_lt same)

/-- A decomposition into octets and fewer than eight bits is the one that is gathered. -/
theorem gathered_unique {bytes : List UInt8} {rest bits : List Bool} (short : rest.length < 8)
    (split : bitsOf bytes ++ rest = bits) : octets bits = bytes ∧ pending bits = rest := by
  have own := bitsOf_octets bits
  have few := pending_lt bits
  have size : (octets bits).length = bytes.length := by
    have lengths := congrArg List.length (own.trans split.symm)
    rw [List.length_append, List.length_append, length_bitsOf, length_bitsOf] at lengths
    omega
  have same : bitsOf (octets bits) = bitsOf bytes ∧ pending bits = rest := by
    refine List.append_inj (own.trans split.symm) ?_
    rw [length_bitsOf, length_bitsOf, size]
  refine ⟨?_, same.2⟩
  have bitsEq := same.1
  clear own few split same short
  generalize octets bits = as at size bitsEq
  induction as generalizing bytes with
  | nil => exact (List.eq_nil_of_length_eq_zero size.symm).symm
  | cons a as ih =>
    rcases bytes with - | ⟨b, bytes⟩
    · cases size
    · obtain ⟨head, tail⟩ := List.append_inj bitsEq ((length_octetBits a).trans (length_octetBits b).symm)
      rw [octetBits_inj head, ih (Nat.succ.inj size) tail]

/-- The octets of a byte string and of fewer than eight further bits. -/
theorem octets_bitsOf (bytes : List UInt8) {rest : List Bool} (short : rest.length < 8) :
    octets (bitsOf bytes ++ rest) = bytes := (gathered_unique short rfl).1

theorem bitsOf_inj {as bs : List UInt8} (same : bitsOf as = bitsOf bs) : as = bs := by
  have first : octets (bitsOf as ++ []) = as := octets_bitsOf as (Nat.succ_pos 7)
  have second : octets (bitsOf bs ++ []) = bs := octets_bitsOf bs (Nat.succ_pos 7)
  rw [← first, same, second]

end Octets

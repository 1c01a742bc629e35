import Mathlib.Data.List.GetD
import Mathlib.Data.List.Nodup

/-!
# Base64

Three bytes are written as four characters, each for six bits.  The last bytes may be one or two; their
characters are filled up to four with a padding character.  `decode` reads a text of this form and
nothing else, and gives the bytes back (`decode_encode`).
-/

namespace Base64

variable {α : Type}

/-- The characters for the values below 64, and the padding. -/
structure Alphabet (α : Type) where
  chars : List α
  pad : α
  size : chars.length = 64
  nodup : chars.Nodup
  pad_notMem : pad ∉ chars

/-- The character for six bits. -/
def Alphabet.char (A : Alphabet α) (v : Nat) : α := A.chars.getD v A.pad

def Alphabet.value? [DecidableEq α] (A : Alphabet α) (c : α) : Option Nat :=
  if c ∈ A.chars then some (A.chars.idxOf c) else none

/-- The text of some bytes. -/
def encode (A : Alphabet α) : List UInt8 → List α
  | [] => []
  | [a] => [A.char (a.toNat / 4), A.char (a.toNat % 4 * 16), A.pad, A.pad]
  | [a, b] =>
    [A.char (a.toNat / 4), A.char (a.toNat % 4 * 16 + b.toNat / 16), A.char (b.toNat % 16 * 4), A.pad]
  | a :: b :: c :: bytes =>
    A.char (a.toNat / 4) :: A.char (a.toNat % 4 * 16 + b.toNat / 16) ::
      A.char (b.toNat % 16 * 4 + c.toNat / 64) :: A.char (c.toNat % 64) :: encode A bytes

/-- The bytes of a text.  The padding is at its end, and the bits in front of the padding that are no
part of a byte are zero. -/
def decode [DecidableEq α] (A : Alphabet α) : List α → Option (List UInt8)
  | [] => some []
  | x :: y :: z :: t :: text =>
    match A.value? x, A.value? y, A.value? z, A.value? t with
    | some v, some w, some p, some q =>
      (decode A text).map fun bytes =>
        .ofNat (v * 4 + w / 16) :: .ofNat (w % 16 * 16 + p / 4) :: .ofNat (p % 4 * 64 + q) :: bytes
    | some v, some w, some p, none =>
      if t = A.pad ∧ text = [] ∧ p % 4 = 0 then
        some [.ofNat (v * 4 + w / 16), .ofNat (w % 16 * 16 + p / 4)]
      else none
    | some v, some w, none, none =>
      if z = A.pad ∧ t = A.pad ∧ text = [] ∧ w % 16 = 0 then some [.ofNat (v * 4 + w / 16)] else none
    | _, _, _, _ => none
  | _ => none

/-- The form of a text: characters of the alphabet, and then at most two for the padding. -/
structure Valid (A : Alphabet α) (text : List α) : Prop where
  length : text.length % 4 = 0
  padded : ∃ body n, text = body ++ List.replicate n A.pad ∧ n ≤ 2 ∧ ∀ c ∈ body, c ∈ A.chars

variable {A : Alphabet α} {v : Nat}

theorem Alphabet.char_mem (lt : v < 64) : A.char v ∈ A.chars := by
  have inside : v < A.chars.length := by rwa [A.size]
  rw [Alphabet.char, List.getD_eq_getElem _ _ inside]
  exact List.getElem_mem inside

theorem Alphabet.value?_char [DecidableEq α] (lt : v < 64) : A.value? (A.char v) = some v := by
  have inside : v < A.chars.length := by rwa [A.size]
  rw [Alphabet.value?, if_pos (char_mem lt), Alphabet.char, List.getD_eq_getElem _ _ inside,
    A.nodup.idxOf_getElem]

theorem Alphabet.value?_pad [DecidableEq α] : A.value? A.pad = none := if_neg A.pad_notMem

/-- Four characters in front of a text. -/
theorem Valid.cons {text : List α} (valid : Valid A text) {u v w x : Nat} (hu : u < 64) (hv : v < 64)
    (hw : w < 64) (hx : x < 64) : Valid A (A.char u :: A.char v :: A.char w :: A.char x :: text) := by
  obtain ⟨length, body, n, rfl, few, inside⟩ := valid
  refine ⟨?_, A.char u :: A.char v :: A.char w :: A.char x :: body, n, rfl, few, ?_⟩
  · simp only [List.length_cons] at length ⊢
    omega
  · intro c member
    simp only [List.mem_cons] at member
    rcases member with rfl | rfl | rfl | rfl | member
    · exact Alphabet.char_mem hu
    · exact Alphabet.char_mem hv
    · exact Alphabet.char_mem hw
    · exact Alphabet.char_mem hx
    · exact inside c member

theorem encode_valid (bytes : List UInt8) : Valid A (encode A bytes) := by
  induction bytes using encode.induct with
  | case1 => exact ⟨rfl, [], 0, rfl, by decide, fun c member => by cases member⟩
  | case2 a =>
    have small := a.toNat_lt
    rw [encode]
    refine ⟨Nat.mod_self 4, [A.char (a.toNat / 4), A.char (a.toNat % 4 * 16)], 2, rfl,
      Nat.le_refl 2, ?_⟩
    intro c member
    simp only [List.mem_cons, List.not_mem_nil, or_false] at member
    rcases member with rfl | rfl
    · exact Alphabet.char_mem (by omega)
    · exact Alphabet.char_mem (by omega)
  | case3 a b =>
    have smallA := a.toNat_lt
    have smallB := b.toNat_lt
    rw [encode]
    refine ⟨Nat.mod_self 4, [A.char (a.toNat / 4), A.char (a.toNat % 4 * 16 + b.toNat / 16),
      A.char (b.toNat % 16 * 4)], 1, rfl, by decide, ?_⟩
    intro c member
    simp only [List.mem_cons, List.not_mem_nil, or_false] at member
    rcases member with rfl | rfl | rfl
    · exact Alphabet.char_mem (by omega)
    · exact Alphabet.char_mem (by omega)
    · exact Alphabet.char_mem (by omega)
  | case4 a b c bytes ih =>
    have smallA := a.toNat_lt
    have smallB := b.toNat_lt
    have smallC := c.toNat_lt
    exact ih.cons (by omega) (by omega) (by omega) (by omega)

/-- Decoding gives the bytes back; the groups of four characters are decoded one by one. -/
theorem decode_encode [DecidableEq α] (bytes : List UInt8) :
    decode A (encode A bytes) = some bytes := by
  have byte (a : UInt8) {n : Nat} (eq : n = a.toNat) : UInt8.ofNat n = a := by
    rw [eq, UInt8.ofNat_toNat]
  induction bytes using encode.induct with
  | case1 => rfl
  | case2 a =>
    have small := a.toNat_lt
    rw [encode, decode, Alphabet.value?_char (by omega), Alphabet.value?_char (by omega),
      Alphabet.value?_pad]
    dsimp only
    rw [if_pos ⟨rfl, rfl, rfl, by omega⟩, byte a (by omega)]
  | case3 a b =>
    have smallA := a.toNat_lt
    have smallB := b.toNat_lt
    rw [encode, decode, Alphabet.value?_char (by omega), Alphabet.value?_char (by omega),
      Alphabet.value?_char (by omega), Alphabet.value?_pad]
    dsimp only
    rw [if_pos ⟨rfl, rfl, by omega⟩, byte a (by omega), byte b (by omega)]
  | case4 a b c bytes ih =>
    have smallA := a.toNat_lt
    have smallB := b.toNat_lt
    have smallC := c.toNat_lt
    rw [encode, decode, Alphabet.value?_char (by omega), Alphabet.value?_char (by omega),
      Alphabet.value?_char (by omega), Alphabet.value?_char (by omega), ih]
    dsimp only
    rw [Option.map_some, byte a (by omega), byte b (by omega), byte c (by omega)]

end Base64

import QFax.Lib.Base64
import QFax.Lib.TextLines

/-!
# Base64 output

`base64encode` copies its input byte by byte and keeps the bits of a byte that the next character takes.
Without its line feeds, the output is the base64 text of the input (`base64_round_trip`).
-/

namespace QFax.Efax

open Base64 TextLines

def chartab : List Char :=
  ("ABCDEFGHIJKLMNOPQRSTUVWXYZ" ++ "abcdefghijklmnopqrstuvwxyz" ++ "0123456789+/").toList

/-- An element of `chartab`, which ends with a zero. -/
def chartabAt (i : Nat) : Char := chartab.getD i (Char.ofNat 0)

/-- The variables of `base64encode`. -/
structure Base64State where
  /-- Bytes of the current group. -/
  n : Nat
  /-- Groups on the current line. -/
  m : Nat
  /-- Bits that no character has yet. -/
  bits : Nat

/-- A byte and the characters written for it. -/
def base64Step (c : UInt8) (s : Base64State) : Base64State × List Char :=
  let c := c.toNat
  match s.n with
  | 0 => ({ s with bits := c &&& 0x3, n := 1 }, [chartabAt (c >>> 2)])
  | 1 => ({ s with bits := c &&& 0xf, n := 2 }, [chartabAt (s.bits <<< 4 ||| c >>> 4)])
  | 2 =>
    let out := [chartabAt (s.bits <<< 2 ||| c >>> 6), chartabAt (c &&& 0x3f)]
    if 18 ≤ s.m + 1 then ({ s with n := 0, m := 0 }, out ++ ['\n'])
    else ({ s with n := 0, m := s.m + 1 }, out)
  | _ => (s, [])

def base64Loop : List UInt8 → Base64State → Base64State × List Char
  | [], s => (s, [])
  | c :: input, s =>
    let (s, out) := base64Step c s
    let (s, later) := base64Loop input s
    (s, out ++ later)

/-- The last characters. -/
def base64End (s : Base64State) : List Char :=
  match s.n with
  | 1 => [chartabAt (s.bits <<< 4 ||| 0 >>> 4), '=', '=']
  | 2 => [chartabAt (s.bits <<< 2 ||| 0 >>> 6), '=']
  | _ => []

def base64encode (input : List UInt8) : List Char :=
  let (s, out) := base64Loop input ⟨0, 0, 0⟩
  out ++ base64End s ++ ['\n']

/-! ## The text -/

/-- The alphabet of RFC 1521. -/
def rfc1521 : Alphabet Char where
  chars := (List.range 26).map (fun i => Char.ofNat ('A'.toNat + i)) ++
    (List.range 26).map (fun i => Char.ofNat ('a'.toNat + i)) ++
    (List.range 10).map (fun i => Char.ofNat ('0'.toNat + i)) ++ ['+', '/']
  pad := '='
  size := rfl
  nodup := by decide +kernel
  pad_notMem := by decide +kernel

theorem chartabAt_eq {v : Nat} (lt : v < 64) : chartabAt v = rfc1521.char v := by
  have table : chartab = rfc1521.chars := by decide +kernel
  have inside : v < rfc1521.chars.length := by rwa [rfc1521.size]
  rw [chartabAt, table, List.getD_eq_getElem _ _ inside, Alphabet.char, List.getD_eq_getElem _ _ inside]

theorem mem_alphabet_ne {c : Char} (member : c ∈ rfc1521.chars) : c ≠ '\n' := by
  rintro rfl
  revert member
  decide +kernel

/-- Bits in front of the first ones of the next byte. -/
theorem join_bits (x : Nat) {y k : Nat} (lt : y < 2 ^ k) : x <<< k ||| y = x * 2 ^ k + y := by
  rw [← Nat.shiftLeft_add_eq_or_of_lt lt, Nat.shiftLeft_eq]

theorem firstBits (a : UInt8) : a.toNat >>> 2 = a.toNat / 4 := Nat.shiftRight_eq_div_pow a.toNat 2

theorem secondBits (a b : UInt8) :
    (a.toNat &&& 0x3) <<< 4 ||| b.toNat >>> 4 = a.toNat % 4 * 16 + b.toNat / 16 := by
  have low : a.toNat &&& 0x3 = a.toNat % 4 := Nat.and_two_pow_sub_one_eq_mod a.toNat 2
  have high : b.toNat >>> 4 = b.toNat / 16 := Nat.shiftRight_eq_div_pow b.toNat 4
  have small := b.toNat_lt
  rw [low, high]
  exact join_bits _ (by omega)

theorem thirdBits (b c : UInt8) :
    (b.toNat &&& 0xf) <<< 2 ||| c.toNat >>> 6 = b.toNat % 16 * 4 + c.toNat / 64 := by
  have low : b.toNat &&& 0xf = b.toNat % 16 := Nat.and_two_pow_sub_one_eq_mod b.toNat 4
  have high : c.toNat >>> 6 = c.toNat / 64 := Nat.shiftRight_eq_div_pow c.toNat 6
  have small := c.toNat_lt
  rw [low, high]
  exact join_bits _ (by omega)

theorem fourthBits (c : UInt8) : c.toNat &&& 0x3f = c.toNat % 64 :=
  Nat.and_two_pow_sub_one_eq_mod c.toNat 6

/-- Three bytes: their characters, a line feed behind every eighteenth group, and the rest. -/
theorem base64Loop_group (a b c : UInt8) (input : List UInt8) {m : Nat} (lt : m < 18) (bits : Nat) :
    ∃ m' feed bits', (feed = [] ∧ m' = m + 1 ∨ feed = ['\n'] ∧ m' = 0) ∧ m' < 18 ∧
      base64Loop (a :: b :: c :: input) ⟨0, m, bits⟩ = ((base64Loop input ⟨0, m', bits'⟩).1,
        encode rfc1521 [a, b, c] ++ (feed ++ (base64Loop input ⟨0, m', bits'⟩).2)) := by
  have smallA := a.toNat_lt
  have smallB := b.toNat_lt
  have smallC := c.toNat_lt
  have group : encode rfc1521 [a, b, c] = [chartabAt (a.toNat >>> 2),
      chartabAt ((a.toNat &&& 0x3) <<< 4 ||| b.toNat >>> 4),
      chartabAt ((b.toNat &&& 0xf) <<< 2 ||| c.toNat >>> 6), chartabAt (c.toNat &&& 0x3f)] := by
    rw [firstBits, secondBits, thirdBits, fourthBits, chartabAt_eq (by omega), chartabAt_eq (by omega),
      chartabAt_eq (by omega), chartabAt_eq (by omega), encode, encode]
  rw [group]
  by_cases last : 18 ≤ m + 1
  · refine ⟨0, ['\n'], b.toNat &&& 0xf, Or.inr ⟨rfl, rfl⟩, by decide, ?_⟩
    simp only [base64Loop, base64Step, if_pos last]
    rfl
  · refine ⟨m + 1, [], b.toNat &&& 0xf, Or.inl ⟨rfl, rfl⟩, by omega, ?_⟩
    simp only [base64Loop, base64Step, if_neg last]
    rfl

/-- What is written of the input from the start of a group on, with `m` groups on the line. -/
structure Encodes (m : Nat) (input : List UInt8) (out : List Char) : Prop where
  text : out.filter (· ≠ '\n') = encode rfc1521 input
  narrow : Narrow '\n' 76 (4 * m) out

theorem encode_no_feed (bytes : List UInt8) : '\n' ∉ encode rfc1521 bytes := by
  obtain ⟨body, n, text, -, inside⟩ := (encode_valid bytes : Valid rfc1521 _).padded
  rw [text]
  intro member
  rcases List.mem_append.mp member with char | pad
  · exact mem_alphabet_ne (inside _ char) rfl
  · exact absurd (List.eq_of_mem_replicate pad) (by decide)

theorem filter_encode (bytes : List UInt8) :
    (encode rfc1521 bytes).filter (· ≠ '\n') = encode rfc1521 bytes := by
  apply List.filter_eq_self.mpr
  intro c member
  apply decide_eq_true
  rintro rfl
  exact encode_no_feed bytes member

theorem encode_group (a b c : UInt8) (input : List UInt8) :
    encode rfc1521 (a :: b :: c :: input) = encode rfc1521 [a, b, c] ++ encode rfc1521 input := by
  rw [encode, encode, encode]
  rfl

/-- The last group, with the line feed behind it. -/
theorem Encodes.last {m : Nat} {input : List UInt8} (lt : m < 18)
    (few : (encode rfc1521 input).length ≤ 4) : Encodes m input (encode rfc1521 input ++ ['\n']) := by
  refine ⟨?_, (narrow_append (encode_no_feed input)).mpr ?_⟩
  · rw [List.filter_append, filter_encode]
    exact List.append_nil _
  · rw [Narrow, if_pos rfl]
    exact ⟨by omega, Nat.zero_le 76⟩

/-- A whole group. -/
theorem Encodes.group {m m' : Nat} (lt : m < 18) {feed : List Char}
    (ends : feed = [] ∧ m' = m + 1 ∨ feed = ['\n'] ∧ m' = 0) (a b c : UInt8) {input : List UInt8}
    {out : List Char} (later : Encodes m' input out) :
    Encodes m (a :: b :: c :: input) (encode rfc1521 [a, b, c] ++ (feed ++ out)) := by
  have size : (encode rfc1521 [a, b, c]).length = 4 := by
    rw [encode, encode]
    rfl
  have next : 4 * m + 4 = 4 * (m + 1) := by omega
  refine ⟨?_, (narrow_append (encode_no_feed [a, b, c])).mpr ?_⟩
  · rw [List.filter_append, List.filter_append, filter_encode, later.text, encode_group]
    rcases ends with ⟨rfl, -⟩ | ⟨rfl, -⟩ <;> rfl
  · rw [size, next]
    rcases ends with ⟨rfl, rfl⟩ | ⟨rfl, rfl⟩
    · exact later.narrow
    · rw [List.singleton_append, Narrow, if_pos rfl]
      exact ⟨by omega, later.narrow⟩

/-- The output from the start of a group on; the induction is on the groups. -/
theorem base64_encodes (input : List UInt8) {m : Nat} (lt : m < 18) (bits : Nat) : Encodes m input
    ((base64Loop input ⟨0, m, bits⟩).2 ++ base64End (base64Loop input ⟨0, m, bits⟩).1 ++ ['\n']) := by
  induction input using encode.induct generalizing m bits with
  | case1 => exact .last lt (Nat.zero_le 4)
  | case2 a =>
    have small := a.toNat_lt
    have none : (a.toNat &&& 0x3) <<< 4 ||| 0 >>> 4 = a.toNat % 4 * 16 := secondBits a 0
    have text : encode rfc1521 [a] = [chartabAt (a.toNat >>> 2),
        chartabAt ((a.toNat &&& 0x3) <<< 4 ||| 0 >>> 4), '=', '='] := by
      rw [firstBits, none, chartabAt_eq (by omega), chartabAt_eq (by omega), encode]
      rfl
    have few : (encode rfc1521 [a]).length ≤ 4 := by rw [text]; exact le_rfl
    have last := Encodes.last lt few
    rw [text] at last
    exact last
  | case3 a b =>
    have smallA := a.toNat_lt
    have smallB := b.toNat_lt
    have none : (b.toNat &&& 0xf) <<< 2 ||| 0 >>> 6 = b.toNat % 16 * 4 := thirdBits b 0
    have text : encode rfc1521 [a, b] = [chartabAt (a.toNat >>> 2),
        chartabAt ((a.toNat &&& 0x3) <<< 4 ||| b.toNat >>> 4),
        chartabAt ((b.toNat &&& 0xf) <<< 2 ||| 0 >>> 6), '='] := by
      rw [firstBits, secondBits, none, chartabAt_eq (by omega), chartabAt_eq (by omega),
        chartabAt_eq (by omega), encode]
      rfl
    have few : (encode rfc1521 [a, b]).length ≤ 4 := by rw [text]; exact le_rfl
    have last := Encodes.last lt few
    rw [text] at last
    exact last
  | case4 a b c input ih =>
    obtain ⟨m', feed, bits', ends, lt', loop⟩ := base64Loop_group a b c input lt bits
    have later := ih lt' bits'
    have whole := later.group lt ends a b c
    rw [loop, List.append_assoc, List.append_assoc, List.append_assoc, ← List.append_assoc _ _ ['\n']]
    exact whole

/-- Without the line feeds, the output is a base64 text that decodes to the input, and no line of it has
more than 76 characters. -/
theorem base64_round_trip (input : List UInt8) :
    Valid rfc1521 ((base64encode input).filter (· ≠ '\n')) ∧
      decode rfc1521 ((base64encode input).filter (· ≠ '\n')) = some input ∧
      ∀ line, line <:+: base64encode input → '\n' ∉ line → line.length ≤ 76 := by
  have encodes : Encodes 0 input (base64encode input) := base64_encodes input (by decide) 0
  rw [encodes.text]
  exact ⟨encode_valid input, decode_encode input, fun line inside absent =>
    encodes.narrow.length_le inside absent⟩

end QFax.Efax

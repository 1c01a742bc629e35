import Mathlib.Algebra.Group.Nat.Defs
import Mathlib.Data.List.Basic
import Mathlib.Data.List.Pairwise
import Mathlib.Data.List.Range

/-!
# V.90: tables and parameters

A V.90 encoder sends one of 128 levels, a ucode, for each of the six samples of a frame.  The CP
packet of the analog modem selects for every sample the ucodes that may be used, taken from the
largest down, the number `K` of data bits they carry, the number `S` of sign bits and the filter
and look-ahead depth of the spectral shaping.
-/

namespace QFax.Linmodem

def v90_ulaw_ucode_to_linear : List Int :=
  [0, 8, 16, 24, 32, 40, 48, 56, 64, 72, 80, 88, 96, 104, 112, 120,
    132, 148, 164, 180, 196, 212, 228, 244, 260, 276, 292, 308, 324, 340, 356, 372,
    396, 428, 460, 492, 524, 556, 588, 620, 652, 684, 716, 748, 780, 812, 844, 876,
    924, 988, 1052, 1116, 1180, 1244, 1308, 1372, 1436, 1500, 1564, 1628, 1692, 1756, 1820, 1884,
    1980, 2108, 2236, 2364, 2492, 2620, 2748, 2876, 3004, 3132, 3260, 3388, 3516, 3644, 3772, 3900,
    4092, 4348, 4604, 4860, 5116, 5372, 5628, 5884, 6140, 6396, 6652, 6908, 7164, 7420, 7676, 7932,
    8316, 8828, 9340, 9852, 10364, 10876, 11388, 11900, 12412, 12924, 13436, 13948, 14460, 14972, 15484, 15996,
    16764, 17788, 18812, 19836, 20860, 21884, 22908, 23932, 24956, 25980, 27004, 28028, 29052, 30076, 31100, 32124]

def v90_alaw_ucode_to_linear : List Int :=
  [8, 24, 40, 56, 72, 88, 104, 120, 136, 152, 168, 184, 200, 216, 232, 248,
    264, 280, 296, 312, 328, 344, 360, 376, 392, 408, 424, 440, 456, 472, 488, 504,
    528, 560, 592, 624, 656, 688, 720, 752, 784, 816, 848, 880, 912, 944, 976, 1008,
    1056, 1120, 1184, 1248, 1312, 1376, 1440, 1504, 1568, 1632, 1696, 1760, 1824, 1888, 1952, 2016,
    2112, 2240, 2368, 2496, 2624, 2752, 2880, 3008, 3136, 3264, 3392, 3520, 3648, 3776, 3904, 4032,
    4224, 4480, 4736, 4992, 5248, 5504, 5760, 6016, 6272, 6528, 6784, 7040, 7296, 7552, 7808, 8064,
    8448, 8960, 9472, 9984, 10496, 11008, 11520, 12032, 12544, 13056, 13568, 14080, 14592, 15104, 15616, 16128,
    16896, 17920, 18944, 19968, 20992, 22016, 23040, 24064, 25088, 26112, 27136, 28160, 29184, 30208, 31232, 32256]

/-- The linear value of a ucode. -/
def ucode_to_linear (alaw : Bool) (ucode : Nat) : Int :=
  (if alaw then v90_alaw_ucode_to_linear else v90_ulaw_ucode_to_linear).getD ucode 0

/-- A larger ucode is a louder sample. -/
theorem ucode_to_linear_lt (alaw : Bool) {i j : Nat} (lt : i < j) (bound : j < 128) :
    ucode_to_linear alaw i < ucode_to_linear alaw j := by
  have next : ∀ alaw, ∀ i : Fin 127, ucode_to_linear alaw i < ucode_to_linear alaw (i + 1 : Nat) := by
    decide +kernel
  induction j, lt using Nat.le_induction with
  | base => exact next alaw ⟨i, by omega⟩
  | succ j _ ih => exact Int.lt_trans (ih (by omega)) (next alaw ⟨j, by omega⟩)

theorem ucode_to_linear_nonneg (alaw : Bool) (ucode : Nat) :
    0 ≤ ucode_to_linear alaw ucode ∧ ucode_to_linear alaw ucode ≤ 32256 := by
  rcases Nat.lt_or_ge ucode 128 with inside | outside
  · have table : ∀ alaw, ∀ i : Fin 128,
        0 ≤ ucode_to_linear alaw i ∧ ucode_to_linear alaw i ≤ 32256 := by decide +kernel
    exact table alaw ⟨ucode, inside⟩
  · have beyond : ucode_to_linear alaw ucode = 0 := by
      rw [ucode_to_linear, List.getD_eq_getElem?_getD, List.getElem?_eq_none]
      · rfl
      · cases alaw <;> exact outside
    rw [beyond]
    decide

/-! ## Constellations -/

/-- The ucodes of one sample, from the largest down. -/
structure Constellation where
  ucodes : List Nat
  descending : ucodes.Pairwise (· > ·)
  below : ∀ u ∈ ucodes, u < 128

namespace Constellation

/-- The ucode are taken from the bigger value down to the smaller value. -/
def ofUsed (ucode_used : Nat → Bool) : Constellation where
  ucodes := (List.range 128).reverse.filter ucode_used
  descending := by
    refine List.Pairwise.filter _ (List.pairwise_reverse.mpr ?_)
    exact List.pairwise_lt_range.imp fun lt => lt
  below u member := by
    have inRange := List.mem_reverse.mp (List.mem_filter.mp member).1
    exact List.mem_range.mp inRange

/-- Ring size. -/
def M (c : Constellation) : Nat := c.ucodes.length

/-- The table of the decoder: the linear value of each ring. -/
def m_to_linear (alaw : Bool) (c : Constellation) : List Int := c.ucodes.map (ucode_to_linear alaw)

theorem length_m_to_linear (alaw : Bool) (c : Constellation) :
    (c.m_to_linear alaw).length = c.M := List.length_map _

/-- The decoder's table is strictly decreasing. -/
theorem m_to_linear_descending (alaw : Bool) (c : Constellation) :
    (c.m_to_linear alaw).Pairwise (· > ·) := by
  refine List.pairwise_map.mpr (c.descending.imp_of_mem ?_)
  intro u w hu _ gt
  exact ucode_to_linear_lt alaw gt (c.below u hu)

end Constellation

/-! ## The CP packet -/

/-- Parameters of the encoder. -/
structure V90Params where
  /-- Sign bits. -/
  S : Nat
  alaw : Bool
  /-- Depth for spectral shaping. -/
  ld : Nat
  a1 : Int
  a2 : Int
  b1 : Int
  b2 : Int
  /-- Number of bits for the ring coder. -/
  K : Nat
  rings : Fin 6 → Constellation

/-- `for (i = n-1; i >= 0; i--) v |= *p++ << i` -/
def getBits (buf : Nat → Bool) : Nat → Nat → Nat
  | _, 0 => 0
  | p, n + 1 => (buf p).toNat * 2 ^ n + getBits buf (p + 1) n

/-- What a signed byte holds of a value. -/
def signedByte (v : Nat) : Int := (v : Int).bmod 256

/-- Parse the CP packet and compute the V90 parameters; there is room for seven constellations. -/
def v90_parse_CP (buf : Nat → Bool) : Option V90Params :=
  let S := 6 - getBits buf 31 2
  let m_index : Fin 6 → Nat := fun i =>
    if i.val < 4 then getBits buf (103 + i * 4) 4 else getBits buf (120 + (i.val - 4) * 4) 4
  let most := (List.finRange 6).foldl (fun n i => if m_index i > n then m_index i else n) 0
  let nb_constellations := most + 1 + (buf 128).toNat
  let ucode_used := fun i j =>
    let k := i * 128 + j
    buf (137 + 17 * (k / 16) + k % 16)
  if 7 < nb_constellations then none else
    some
      { S := S
        alaw := buf 35
        ld := getBits buf 49 2
        a1 := signedByte (getBits buf 69 8)
        a2 := signedByte (getBits buf 77 8)
        b1 := signedByte (getBits buf 86 8)
        b2 := signedByte (getBits buf 94 8)
        K := getBits buf 20 5 + (if buf 19 then 20 else 8) - S
        rings := fun j => Constellation.ofUsed (ucode_used (m_index j)) }

/-- The packet selects three to six sign bits and at most three frames of look-ahead. -/
theorem parsed_ranges {buf : Nat → Bool} {p : V90Params} (parsed : v90_parse_CP buf = some p) :
    3 ≤ p.S ∧ p.S ≤ 6 ∧ p.ld ≤ 3 := by
  have two : ∀ q, getBits buf q 2 ≤ 3 := by
    intro q
    simp only [getBits]
    cases buf q <;> cases buf (q + 1) <;> decide
  have shaped := two 31
  have depth := two 49
  simp only [v90_parse_CP] at parsed
  split at parsed
  · cases parsed
  · obtain rfl := Option.some.inj parsed
    simp only
    omega

end QFax.Linmodem

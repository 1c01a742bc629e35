import Mathlib.Data.Nat.Find
import Mathlib.Data.Fin.VecNotation
import Mathlib.Data.Fintype.Basic
import Mathlib.Tactic.FinCases
import Mathlib.Tactic.Ring

/-!
# V.34: the parameters of a connection

`V34_init_low` turns the negotiated symbol rate, data rate, shaping and auxiliary channel into the
sizes the mapping of data bits works with: the frame size `b`, the fractional counter step `r`, the
number `K` of shell-mapped bits, the number `q` of uncoded bits for each 2D symbol, and the ring
count `M`.
-/

namespace QFax.Linmodem

/-- The negotiated parameters, as the caller hands them to `V34_init_low`. -/
structure V34State where
  calling : Bool
  /-- Index of the symbol rate. -/
  S : Fin 6
  expanded_shape : Bool
  /-- Data rate in bits per second, without the auxiliary channel. -/
  R : Nat
  use_aux_channel : Bool
  conv_nb_states : Nat
  /-- Precoding coefficients, 14 bits of fraction. -/
  h : Fin 3 → Int × Int

/-- The parameters `V34_init_low` computes, and those it copies. -/
structure V34Params where
  calling : Bool
  S : Fin 6
  expanded_shape : Bool
  /-- Transmit rate, with the auxiliary channel. -/
  R : Nat
  conv_nb_states : Nat
  h : Fin 3 → Int × Int
  /-- Data frames in a superframe. -/
  J : Nat
  /-- Mapping frames in a data frame. -/
  P : Nat
  /-- Bits in a data frame. -/
  N : Nat
  /-- Auxiliary bits in a data frame. -/
  W : Nat
  /-- Largest number of bits in a mapping frame. -/
  b : Nat
  /-- Step of the counter that tells long mapping frames from short ones. -/
  r : Int
  K : Nat
  q : Nat
  /-- Number of rings. -/
  M : Nat
  /-- Number of points of the constellation. -/
  L : Nat

/-- Columns `J` and `P` of the table of symbol rates. -/
def S_tab : Fin 6 → Nat × Nat :=
  ![(7, 12), (8, 12), (7, 14), (7, 15), (7, 16), (8, 15)]

/-- `while (K >= 32) { K -= 8; q++; }` -/
def splitK : Nat → Nat → Nat → Nat × Nat
  | 0, K, q => (K, q)
  | fuel + 1, K, q => if 32 ≤ K then splitK fuel (K - 8) (q + 1) else (K, q)

/-- The largest number of bits of a mapping frame, when `P` of them carry `N` bits. -/
def frameSize (N P : Nat) : Nat := if N / P * P < N then N / P + 1 else N / P

/-- The mapping parameters `K` and `q` of a frame of at most `b` bits. -/
def mappingBits (b : Nat) : Nat × Nat := if b ≤ 12 then (0, 0) else splitK b (b - 12) 0

/-- `ceil(pow(2.0, K / 8.0))`: the largest `m` with `m - 1 < 2^(K/8)`. -/
def ceilRings (K : Nat) : Nat :=
  Nat.findGreatest (fun m => (m - 1) ^ 8 < 2 ^ K) (2 ^ (K / 8 + 1))

/-- `m - 1/2 < 1.25 * 2^(K/8)`, or equality and `m` even: `rint` rounds a tie to the even side. -/
def RoundsUpTo (K m : Nat) : Prop :=
  (4 * m - 2) ^ 8 < 5 ^ 8 * 2 ^ K ∨ ((4 * m - 2) ^ 8 = 5 ^ 8 * 2 ^ K ∧ m % 2 = 0)

instance (K m : Nat) : Decidable (RoundsUpTo K m) :=
  inferInstanceAs (Decidable (_ ∨ _))

/-- `rint(1.25 * pow(2.0, K / 8.0))` -/
def rintRings (K : Nat) : Nat := Nat.findGreatest (RoundsUpTo K) (2 * 2 ^ (K / 8 + 1))

/-- The number of rings for minimum or expanded shaping. -/
def ringCount (expanded_shape : Bool) (K : Nat) : Nat :=
  if expanded_shape then rintRings K else ceilRings K

/-- The parameter part of `V34_init_low`. -/
def V34_init_low (p : V34State) : V34Params :=
  let R := if p.use_aux_channel then p.R + 200 else p.R
  let J := (S_tab p.S).1
  let P := (S_tab p.S).2
  let N := R * 28 / (J * 100)
  let b := frameSize N P
  let K := (mappingBits b).1
  let q := (mappingBits b).2
  let M := ringCount p.expanded_shape K
  { calling := p.calling
    S := p.S
    expanded_shape := p.expanded_shape
    R := R
    conv_nb_states := p.conv_nb_states
    h := p.h
    J := J
    P := P
    N := N
    W := if p.use_aux_channel then 15 - J else 0
    b := b
    r := N - ((b : Int) - 1) * P
    K := K
    q := q
    M := M
    L := 4 * M * 2 ^ q }

/-! ## What the sizes satisfy -/

/-- The bits above the first twelve are shell-mapped, fewer than 32 of them, or uncoded, eight
uncoded ones for each step of `q`. -/
theorem splitK_spec (fuel K q : Nat) (enough : K ≤ fuel) :
    (splitK fuel K q).1 + 8 * (splitK fuel K q).2 = K + 8 * q ∧ (splitK fuel K q).1 < 32 ∧
      (0 < K → 0 < (splitK fuel K q).1) := by
  induction fuel generalizing K q with
  | zero =>
    obtain rfl : K = 0 := by omega
    exact ⟨rfl, Nat.zero_lt_succ 31, id⟩
  | succ fuel ih =>
    rw [splitK]
    split
    · obtain ⟨sum, lt, positive⟩ := ih (K - 8) (q + 1) (by omega)
      exact ⟨by omega, lt, fun _ => positive (by omega)⟩
    · exact ⟨rfl, by omega, id⟩

/-- The ring count fits the tables: `M_MAX` is 18. -/
theorem ringCount_bounds (expanded_shape : Bool) {K : Nat} (lt : K < 32) :
    1 ≤ ringCount expanded_shape K ∧ ringCount expanded_shape K ≤ 18 := by
  revert expanded_shape K
  decide

/-- Frames of at most twelve bits are not shell-mapped. -/
theorem mappingBits_short {b : Nat} (short : b ≤ 12) : mappingBits b = (0, 0) := if_pos short

/-- Longer frames hold twelve coded bits, `K` shell-mapped ones and `8 q` uncoded ones. -/
theorem mappingBits_long {b : Nat} (long : 12 < b) :
    b = (mappingBits b).1 + 8 * (mappingBits b).2 + 12 ∧ 1 ≤ (mappingBits b).1 ∧
      (mappingBits b).1 < 32 := by
  obtain ⟨sum, lt, positive⟩ := splitK_spec b (b - 12) 0 (Nat.sub_le b 12)
  rw [mappingBits, if_neg (by omega)]
  exact ⟨by omega, positive (by omega), lt⟩

/-- Every V.34 data rate gives frames of at least two bits. -/
theorem two_le_b (p : V34State) (rate : 2400 ≤ p.R) : 2 ≤ (V34_init_low p).b := by
  have whole : ∀ (S : Fin 6) (R : Nat), 2400 ≤ R →
      2 ≤ R * 28 / ((S_tab S).1 * 100) / (S_tab S).2 := by
    intro S R le
    fin_cases S <;> simp only [S_tab] <;> simp <;> omega
  have up : ∀ N P, N / P ≤ frameSize N P := by
    intro N P
    unfold frameSize
    split <;> omega
  exact (whole p.S (V34_init_low p).R (by simp only [V34_init_low]; split <;> omega)).trans
    (up _ _)

end QFax.Linmodem

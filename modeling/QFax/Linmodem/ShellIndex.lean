import QFax.Linmodem.ShellMapping

/-!
# V.34 shell mapping recovers its index

For the ring counts of `V34_init_low` and up to 31 shell-mapped bits, `index_to_rings` gives eight
rings from which `rings_to_index` finds the index again, for every index but the last one that
`M` rings can number.  The search for the last index reads one entry more than `build_rings` fills;
minimum shaping reaches it where `M ^ 8 = 2 ^ K`.
-/

namespace QFax.Linmodem

open Ranking

/-- Every ring number of a table is one of `M` rings. -/
def InRings (M : Nat) (ring : RingTable) : Prop :=
  ∀ j, (0 ≤ (ring j).1 ∧ (ring j).1 < M) ∧ (0 ≤ (ring j).2 ∧ (ring j).2 < M)

/-- The mapping ends for index `r0`, reading filled entries only, with rings from which the index
is found again and which no other index of `K` bits has. -/
def Recovered (s : Rings) (K r0 : Nat) : Prop :=
  ∃ ring, index_to_rings s r0 = some ring ∧ InRings s.M ring ∧
    rings_to_index s ring = some (r0 : Int) ∧
    ∀ r1 : Nat, r1 < 2 ^ K → index_to_rings s r1 = some ring → r1 = r0

section Recovery

variable {m r0 : Nat}

theorem inRings_table {x : Octet} (member : (octets m).Mem x) : InRings m x.table := by
  obtain ⟨⟨⟨a, b⟩, c, d⟩, ⟨e, f⟩, g, h⟩ := member
  have bound : ∀ {n : Nat}, n < m → 0 ≤ (n : Int) ∧ (n : Int) < m :=
    fun lt => ⟨Int.natCast_nonneg _, by exact_mod_cast lt⟩
  intro j
  match j with
  | 0 => exact ⟨bound a, bound b⟩
  | 1 => exact ⟨bound c, bound d⟩
  | 2 => exact ⟨bound e, bound f⟩
  | 3 => exact ⟨bound g, bound h⟩

/-- Index and rings of a vector, when its number is not the last. -/
theorem index_to_rings_eq (positive : 0 < m) (small : m ≤ 18) (word : r0 < 2 ^ 31)
    (inside : r0 + 1 < m ^ 8) :
    (octets m).Mem ((octets m).unrank r0) ∧
      index_to_rings (build_rings m) r0 = some ((octets m).unrank r0).table ∧
      rings_to_index (build_rings m) ((octets m).unrank r0).table = some (r0 : Int) := by
  have lt : r0 < (octets m).total := by rw [total_octets positive]; omega
  have member := Graded.mem_unrank lt
  have rank := Graded.rank_unrank lt
  have forward := index_to_rings_rank positive small member (by rwa [rank]) (by rwa [rank])
  have back := rings_to_index_table positive member
  rw [rank] at forward back
  exact ⟨member, forward, by rw [back, int32_eq (by omega) (by omega)]⟩

/-- The last index has no result. -/
theorem index_to_rings_none (positive : 0 < m) (word : r0 < 2 ^ 31) (outside : m ^ 8 ≤ r0 + 1) :
    index_to_rings (build_rings m) r0 = none := by
  simp only [index_to_rings, searchTotal_none positive word outside, Option.bind_eq_bind,
    Option.bind_none]

/-- An index with rings is the one these rings give back. -/
theorem rings_to_index_of_some (positive : 0 < m) (small : m ≤ 18) (word : r0 < 2 ^ 31)
    {ring : RingTable} (mapped : index_to_rings (build_rings m) r0 = some ring) :
    rings_to_index (build_rings m) ring = some (r0 : Int) := by
  rcases Nat.lt_or_ge (r0 + 1) (m ^ 8) with inside | outside
  · obtain ⟨-, forward, back⟩ := index_to_rings_eq positive small word inside
    rw [forward, Option.some.injEq] at mapped
    rwa [← mapped]
  · rw [index_to_rings_none positive word outside] at mapped
    cases mapped

end Recovery

/-- Shell mapping recovers exactly the indices below the last vector's. -/
theorem index_recovered_iff (expanded_shape : Bool) {K r0 : Nat} (one : 1 ≤ K) (most : K ≤ 31)
    (lt : r0 < 2 ^ K) :
    Recovered (build_rings (ringCount expanded_shape K)) K r0 ↔
      r0 + 1 < ringCount expanded_shape K ^ 8 := by
  obtain ⟨positive, small⟩ := ringCount_bounds expanded_shape (show K < 32 by omega)
  have width : 2 ^ K ≤ 2 ^ 31 := Nat.pow_le_pow_right (by omega) most
  constructor
  · rintro ⟨ring, mapped, -⟩
    by_contra outside
    rw [index_to_rings_none positive (by omega) (by omega)] at mapped
    cases mapped
  · intro inside
    obtain ⟨member, forward, back⟩ := index_to_rings_eq positive small (by omega) inside
    refine ⟨_, forward, inRings_table member, back, fun r1 below same => ?_⟩
    have again := rings_to_index_of_some positive small (by omega) same
    rw [back, Option.some.injEq] at again
    exact_mod_cast again.symm

/-- Index 65534 of 16 bits comes back from the rings it is mapped to. -/
theorem index_recovered_sixteen : Recovered (build_rings (ringCount false 16)) 16 65534 :=
  (index_recovered_iff false (by decide) (by decide) (by decide)).mpr (by decide)

/-- With 16 bits and minimum shaping there are four rings, and index `4 ^ 8 - 1` is not mapped. -/
theorem last_index_unmapped :
    (65535 < 2 ^ 16 ∧ ringCount false 16 = 4) ∧
      index_to_rings (build_rings (ringCount false 16)) 65535 = none ∧
      ¬ Recovered (build_rings (ringCount false 16)) 16 65535 := by
  have rings : ringCount false 16 = 4 := by decide
  have beyond : index_to_rings (build_rings 4) (65535 : Nat) = none :=
    index_to_rings_none (by decide) (by decide) (by decide)
  have unmapped : index_to_rings (build_rings 4) 65535 = none := beyond
  rw [rings]
  refine ⟨by decide, unmapped, ?_⟩
  rintro ⟨ring, mapped, -⟩
  rw [show ((65535 : Nat) : Int) = 65535 from rfl, unmapped] at mapped
  cases mapped

end QFax.Linmodem

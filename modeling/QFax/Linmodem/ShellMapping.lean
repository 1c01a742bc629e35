import QFax.Lib.Ranking
import QFax.Linmodem.Shell

/-!
# V.34 shell mapping: the numbering of ring vectors

Eight ring numbers below `m` are a pair of pairs of pairs, graded by their sum.  The tables of
`build_rings` are the counts of these classes, the search loops of `index_to_rings` find the
blocks of the numbering, and `rings_to_index` computes the number of a vector.  The one index the
search cannot find is the last one, `m ^ 8 - 1`: to stop there the code would have to read an entry
that was never filled.
-/

namespace QFax.Linmodem

open Ranking

/-! ## The classes -/

abbrev Pair := Nat × Nat
abbrev Quad := Pair × Pair
abbrev Octet := Quad × Quad

/-- Two rings out of `m`. -/
def pairs (m : Nat) : Graded Pair := (Graded.below m).prod (Graded.below m)

/-- Four rings out of `m`. -/
def quads (m : Nat) : Graded Quad := (pairs m).prod (pairs m)

/-- Eight rings out of `m`, in the order of V.34. -/
def octets (m : Nat) : Graded Octet := (quads m).prod (quads m)

/-- The ring table of eight rings. -/
def Octet.table (x : Octet) : RingTable :=
  ![(x.1.1.1, x.1.1.2), (x.1.2.1, x.1.2.2), (x.2.1.1, x.2.1.2), (x.2.2.1, x.2.2.2)]

section Counts

variable {m : Nat}

theorem octets_top (m : Nat) : (octets m).top = 8 * (m - 1) := by
  show (m - 1 + (m - 1) + (m - 1 + (m - 1))) + (m - 1 + (m - 1) + (m - 1 + (m - 1))) = _
  omega

theorem quads_top (m : Nat) : (quads m).top = 4 * (m - 1) := by
  show m - 1 + (m - 1) + (m - 1 + (m - 1)) = _
  omega

theorem total_octets (positive : 0 < m) : (octets m).total = m ^ 8 := by
  simp only [octets, quads, pairs, Graded.total_prod, Graded.total_below positive]
  ring

/-- There is one vector of the largest sum. -/
theorem octets_count_top (positive : 0 < m) : (octets m).count (octets m).top = 1 := by
  have one : (Graded.below m).count (Graded.below m).top = 1 := by
    simp only [Graded.below]
    exact if_pos (by omega)
  simp only [octets, quads, pairs, Graded.count_prod_top, one]

/-- How many splits of `n` into two rings have a first ring below `x`. -/
theorem before_below {n x : Nat} (le : x ≤ n + 1) :
    before (fun i => (Graded.below m).count i * (Graded.below m).count (n - i)) x =
      min x m - (n + 1 - m) := by
  induction x with
  | zero => simp
  | succ x ih =>
    rw [before_succ, ih (by omega)]
    simp only [Graded.below]
    split <;> split <;> omega

theorem pairs_count (n : Nat) : (pairs m).count n = min (n + 1) m - (n + 1 - m) :=
  before_below le_rfl

/-- `g2` counts the pairs. -/
theorem g2_eq (positive : 0 < m) (p : Nat) : g2 p m = (pairs m).count p := by
  rw [pairs_count, g2]
  split
  · rcases abs_cases ((p : Int) - (m - 1)) with ⟨value, sign⟩ | ⟨value, sign⟩ <;> rw [value] <;> omega
  · omega

/-- The number of a pair among those with its sum, as the code computes it. -/
theorem pairs_index {x : Pair} (member : (pairs m).Mem x) :
    ((pairs m).index x : Int) = ringNumber m (x.1, x.2) := by
  obtain ⟨first, second⟩ : x.1 < m ∧ x.2 < m := member
  have index : (pairs m).index x = min x.1 m - (x.1 + x.2 + 1 - m) + (0 * _ + 0) :=
    congrArg (· + _) (before_below (show x.1 ≤ x.1 + x.2 + 1 by omega))
  rw [index, ringNumber]
  simp only
  split <;> omega

/-- No class of eight rings needs more than 32 bits for its numbers. -/
theorem octets_count_le (positive : 0 < m) (n : Nat) : (octets m).count n ≤ m ^ 7 := by
  have one : ∀ i, (Graded.below m).count i ≤ 1 := by
    intro i
    simp only [Graded.below]
    split <;> omega
  have two := Graded.count_prod_le (Graded.below m) one
  have four := Graded.count_prod_le (pairs m) two
  have eight := Graded.count_prod_le (quads m) four
  refine (eight n).trans (le_of_eq ?_)
  simp only [quads, pairs, Graded.total_prod, Graded.total_below positive]
  ring

end Counts

/-! ## The tables -/

/-- The table of the first `n` counts of a class. -/
def countTable (count : Nat → Nat) (n : Nat) : List Int :=
  (List.range n).map fun i => (count i : Int)

section Tables

variable {count : Nat → Nat} {n i : Nat}

theorem countTable_getElem? (lt : i < n) : (countTable count n)[i]? = some (count i : Int) := by
  simp [countTable, lt]

theorem entry_countTable (lt : i < n) : entry (countTable count n) i = some (count i : Int) := by
  simp [entry, countTable_getElem? lt]

theorem drop_countTable (lt : i < n) :
    (countTable count n).drop i = (count i : Int) :: (countTable count n).drop (i + 1) := by
  have length : i < (countTable count n).length := by simpa [countTable] using lt
  rw [List.drop_eq_getElem_cons length]
  simp [countTable]

/-- The loop of `g4` and `g8` computes a convolution. -/
theorem convolve_eq {p : Nat} (lt : p < n) :
    convolve (countTable count n) p = conv count count p := by
  have partly : ∀ k ≤ p + 1, (List.range k).foldl
      (fun s i => s + (countTable count n).getD i 0 * (countTable count n).getD (p - i) 0) 0 =
        (before (fun i => count i * count (p - i)) k : Int) := by
    intro k le
    induction k with
    | zero => simp
    | succ k ih =>
      rw [List.range_succ, List.foldl_append, ih (by omega), before_succ]
      simp [List.getD_eq_getElem?_getD, countTable_getElem? (show k < n by omega),
        countTable_getElem? (show p - k < n by omega)]
  exact partly (p + 1) le_rfl

end Tables

section Filled

variable {m : Nat}

theorem g2_tab_eq (positive : 0 < m) :
    (build_rings m).g2_tab = countTable (pairs m).count (8 * (m - 1) + 1) :=
  List.map_congr_left fun p _ => g2_eq positive p

theorem g4_tab_eq (positive : 0 < m) :
    (build_rings m).g4_tab = countTable (quads m).count (8 * (m - 1) + 1) := by
  refine List.map_congr_left fun p inside => ?_
  have lt := List.mem_range.mp inside
  show g4 (build_rings m).g2_tab p m = _
  rw [g4, g2_tab_eq positive]
  split
  · exact convolve_eq lt
  · rw [(quads m).count_top p (by rw [quads_top]; omega)]
    rfl

theorem g8_tab_eq (positive : 0 < m) :
    (build_rings m).g8_tab = countTable (octets m).count (8 * (m - 1) + 1) := by
  refine List.map_congr_left fun p inside => ?_
  have lt := List.mem_range.mp inside
  show g8 (build_rings m).g4_tab p m = _
  rw [g8, g4_tab_eq positive, if_pos (by omega)]
  exact convolve_eq lt

theorem int32_add_int32 (x y : Int) : int32 (int32 x + y) = int32 (x + y) := by
  simp [int32]

theorem int32_sub_int32 (x y : Int) : int32 (x - int32 y) = int32 (x - y) := by
  simp [int32]

/-- An `int` holds a value of its range as it is. -/
theorem int32_eq {x : Int} (low : -2 ^ 31 ≤ x) (high : x < 2 ^ 31) : int32 x = x := by
  rw [int32]
  exact Int.bmod_eq_of_le (by omega) (by omega)

/-- Entry `i` of `z8_tab` is the number of smaller vectors, as far as 32 bits hold it. -/
theorem z8_tab_eq (positive : 0 < m) :
    (build_rings m).z8_tab =
      (List.range (8 * (m - 1) + 1)).map fun i => int32 (before (octets m).count i) := by
  refine List.map_congr_left fun i inside => ?_
  have lt := List.mem_range.mp inside
  show z8 (build_rings m).g8_tab i = _
  clear inside
  induction i with
  | zero => simp [z8, int32]
  | succ i ih =>
    rw [z8, ih (by omega), g8_tab_eq positive, int32_add_int32, before_succ,
      List.getD_eq_getElem?_getD, countTable_getElem? (by omega)]
    rfl

end Filled

/-! ## The searches -/

/-- How many pairs of sum `total` have a first part of size `i`. -/
abbrev splits (count : Nat → Nat) (total : Nat) : Nat → Nat :=
  fun i => count i * count (total - i)

section Search

variable {count : Nat → Nat} {n : Nat}

/-- The pair search stops at the block of its number, with what is left of it. -/
theorem searchPair_eq (count : Nat → Nat) {total r : Nat} (inTable : total < n)
    (lt : r < conv count count total) :
    searchPair (countTable count n) total (countTable count n) 0 r =
      some (((locate (splits count total) total r : Nat) : Int),
        (r : Int) - before (splits count total) (locate (splits count total) total r)) := by
  generalize found : locate (splits count total) total r = k
  have low := before_locate_le (splits count total) total r
  have high : r < before (splits count total) (locate (splits count total) total r + 1) :=
    lt_before_locate lt
  have le := locate_le (splits count total) total r
  rw [found] at low high le
  -- what the loop finds at each entry up to the block
  have reads : ∀ i ≤ k, entry (countTable count n) ((total : Int) - i) =
      some (count (total - i) : Int) := by
    intro i ik
    rw [← Nat.cast_sub (show i ≤ total by omega)]
    exact entry_countTable (by omega)
  -- the search from entry `i` on, by induction on the distance to the block
  have from_entry : ∀ i ≤ k, searchPair (countTable count n) total ((countTable count n).drop i) i
      (r - before (splits count total) i) =
        some ((k : Int), (r : Int) - before (splits count total) k) := by
    intro i ik
    induction ik using Nat.decreasingInduction with
    | self =>
      have negative : (r : Int) - before (splits count total) k -
          count k * count (total - k) < 0 := by
        rw [before_succ] at high
        simp only [splits] at high ⊢
        omega
      rw [drop_countTable (by omega), searchPair, reads k le_rfl]
      simp only [Option.bind_eq_bind, Option.bind_some, if_pos negative]
    | of_succ i ik ih =>
      have fits := (before_mono (splits count total) (show i + 1 ≤ k from ik)).trans low
      have rest : (r : Int) - before (splits count total) i - count i * count (total - i) =
          r - before (splits count total) (i + 1) := by
        rw [before_succ]
        push_cast
        ring
      rw [drop_countTable (by omega), searchPair, reads i (by omega)]
      simp only [Option.bind_eq_bind, Option.bind_some, rest]
      rw [if_neg (by omega)]
      exact_mod_cast ih
  simpa using from_entry 0 (Nat.zero_le k)

/-- Division by the count of a class takes a number of the block apart. -/
theorem divide_eq {i r : Nat} (inTable : i < n) (positive : 0 < count i) :
    divide (countTable count n) i r = some (((r % count i : Nat) : Int), ((r / count i : Nat) : Int)) := by
  have nonzero : (count i : Int) ≠ 0 := by omega
  have quotient : ((r : Int) - (r : Int).tmod (count i)).tdiv (count i) = (r / count i : Nat) := by
    have multiple : r - r % count i = count i * (r / count i) := by
      have parts := Nat.div_add_mod r (count i)
      omega
    rw [Int.tmod_eq_emod_of_nonneg (by omega), ← Int.natCast_mod, ← Nat.cast_sub (Nat.mod_le _ _),
      Int.tdiv_eq_ediv_of_nonneg (by omega), ← Int.natCast_ediv, multiple,
      Nat.mul_div_cancel_left _ positive]
  rw [divide, entry_countTable inTable]
  simp only [Option.bind_eq_bind, Option.bind_some, if_neg nonzero, quotient]
  rw [Int.tmod_eq_emod_of_nonneg (by omega), Int.natCast_mod]

end Search

section Total

variable {m r0 : Nat}

theorem drop_z8_tab (positive : 0 < m) {i : Nat} (inside : i ≤ 8 * (m - 1)) :
    (build_rings m).z8_tab.drop i =
      int32 (before (octets m).count i) :: (build_rings m).z8_tab.drop (i + 1) := by
  have length : i < (build_rings m).z8_tab.length := by simp [build_rings]; omega
  rw [List.drop_eq_getElem_cons length]
  simp [z8_tab_eq positive]

/-- One round of the search that does not stop. -/
theorem searchTotal_step (positive : 0 < m) (word : r0 < 2 ^ 31) {i : Nat}
    (inside : i ≤ 8 * (m - 1)) (fits : before (octets m).count i ≤ r0) (a r1 : Int) :
    searchTotal r0 ((build_rings m).z8_tab.drop i) a r1 =
      searchTotal r0 ((build_rings m).z8_tab.drop (i + 1)) (a + 1)
        (r0 - before (octets m).count i) := by
  have value : int32 ((r0 : Int) - before (octets m).count i) =
      r0 - before (octets m).count i := int32_eq (by omega) (by omega)
  rw [drop_z8_tab positive inside, searchTotal, int32_sub_int32, value]
  exact if_neg (by omega)

/-- The search reaches every entry whose total the number covers. -/
theorem searchTotal_reaches (positive : 0 < m) (word : r0 < 2 ^ 31) {i : Nat}
    (inside : i ≤ 8 * (m - 1)) (fits : before (octets m).count i ≤ r0) :
    searchTotal r0 (build_rings m).z8_tab (-1) 0 =
      searchTotal r0 ((build_rings m).z8_tab.drop (i + 1)) i (r0 - before (octets m).count i) := by
  induction i with
  | zero => exact searchTotal_step positive word inside fits (-1) 0
  | succ i ih =>
    have earlier := (before_mono (octets m).count (show i ≤ i + 1 by omega)).trans fits
    rw [ih (by omega) earlier, searchTotal_step positive word inside fits]
    push_cast
    rfl

/-- The number of a vector tells its sum: the search over the totals finds it. -/
theorem searchTotal_eq (positive : 0 < m) (small : m ≤ 18) (word : r0 < 2 ^ 31)
    (inside : r0 + 1 < m ^ 8) :
    searchTotal r0 (build_rings m).z8_tab (-1) 0 =
      some (((locate (octets m).count (octets m).top r0 : Nat) : Int),
        (r0 : Int) - before (octets m).count (locate (octets m).count (octets m).top r0)) := by
  have total := total_octets positive
  have last := octets_count_top positive
  rw [Graded.total, before_succ, last] at total
  have low := before_locate_le (octets m).count (octets m).top r0
  have high : r0 < before (octets m).count (locate (octets m).count (octets m).top r0 + 1) :=
    lt_before_locate (by rw [before_succ, last]; omega)
  have below : locate (octets m).count (octets m).top r0 < (octets m).top := by
    refine lt_of_le_of_ne (locate_le _ _ _) fun top => ?_
    rw [top] at low
    omega
  generalize locate (octets m).count (octets m).top r0 = k at low high below ⊢
  rw [octets_top] at below
  have count_le := (octets_count_le positive k).trans (Nat.pow_le_pow_left small 7)
  have value : int32 ((r0 : Int) - before (octets m).count (k + 1)) =
      r0 - before (octets m).count (k + 1) := by
    rw [before_succ] at high ⊢
    exact int32_eq (by push_cast; omega) (by push_cast; omega)
  rw [searchTotal_reaches positive word (show k ≤ 8 * (m - 1) by omega) low,
    drop_z8_tab positive (by omega), searchTotal, int32_sub_int32, value]
  exact if_pos (by omega)

/-- The last vector's number runs past the filled entries. -/
theorem searchTotal_none (positive : 0 < m) (word : r0 < 2 ^ 31) (outside : m ^ 8 ≤ r0 + 1) :
    searchTotal r0 (build_rings m).z8_tab (-1) 0 = none := by
  have total := total_octets positive
  rw [Graded.total, before_succ, octets_count_top positive, octets_top] at total
  have length : (build_rings m).z8_tab.length ≤ 8 * (m - 1) + 1 := by simp [build_rings]
  rw [searchTotal_reaches positive word le_rfl (by omega), List.drop_eq_nil_of_le length]
  rfl

end Total

/-! ## Index and rings -/

section Members

variable {α : Type} {A : Graded α} {n : Nat} {x : α × α}

/-- At a pair's number the search finds the size of the first part. -/
theorem searchPair_member (first : A.Mem x.1) (second : A.Mem x.2)
    (inTable : A.size x.1 + A.size x.2 < n) {total : Int} (sum : total = (A.prod A).size x) :
    searchPair (countTable A.count n) total (countTable A.count n) 0 ((A.prod A).index x) =
      some ((A.size x.1 : Int), ((A.index x.2 * A.count (A.size x.1) + A.index x.1 : Nat) : Int)) := by
  have found := searchPair_eq A.count inTable
    ((A.prod A).index_lt (x := x) ⟨first, second⟩)
  have block : locate (splits A.count (A.size x.1 + A.size x.2)) (A.size x.1 + A.size x.2)
      ((A.prod A).index x) = A.size x.1 := Graded.locate_indexPair first second
  have rest : ((A.prod A).index x : Int) -
      before (splits A.count (A.size x.1 + A.size x.2)) (A.size x.1) =
        (A.index x.2 * A.count (A.size x.1) + A.index x.1 : Nat) := by
    show ((Graded.indexPair A A x : Nat) : Int) - _ = _
    rw [Graded.indexPair]
    push_cast
    ring
  rw [block, rest] at found
  rw [sum]
  exact found

/-- The division takes the number apart into the numbers of the parts. -/
theorem divide_member (first : A.Mem x.1) (inTable : A.size x.1 < n) :
    divide (countTable A.count n) (A.size x.1)
        ((A.index x.2 * A.count (A.size x.1) + A.index x.1 : Nat) : Int) =
      some ((A.index x.1 : Int), (A.index x.2 : Int)) := by
  have inside := A.index_lt first
  rw [divide_eq inTable (Nat.zero_lt_of_lt inside), Graded.join_mod _ inside,
    Graded.join_div _ inside]

end Members

section Index

variable {m : Nat}

/-- A pair of rings comes back from its sum and its number. -/
theorem placeRings_eq {x : Pair} (member : (pairs m).Mem x) :
    placeRings m ((pairs m).size x) ((pairs m).index x) = ((x.1 : Int), (x.2 : Int)) := by
  have size : ((pairs m).size x : Int) = x.1 + x.2 := Nat.cast_add x.1 x.2
  rw [pairs_index member, size, placeRings, ringNumber]
  simp only
  split <;> (ext <;> simp only <;> omega)

/-- The index of eight rings is mapped to these rings. -/
theorem index_to_rings_rank (positive : 0 < m) (small : m ≤ 18) {x : Octet}
    (member : (octets m).Mem x) (word : (octets m).rank x < 2 ^ 31)
    (inside : (octets m).rank x + 1 < m ^ 8) :
    index_to_rings (build_rings m) ((octets m).rank x) = some x.table := by
  obtain ⟨x1, x2⟩ := x
  have first : (quads m).Mem x1 := member.1
  have second : (quads m).Mem x2 := member.2
  have memberC : (pairs m).Mem x1.1 := first.1
  have memberF : (pairs m).Mem x1.2 := first.2
  have memberD : (pairs m).Mem x2.1 := second.1
  have memberH : (pairs m).Mem x2.2 := second.2
  have size : (octets m).size (x1, x2) = (quads m).size x1 + (quads m).size x2 := rfl
  have size1 : (quads m).size x1 = (pairs m).size x1.1 + (pairs m).size x1.2 := rfl
  have size2 : (quads m).size x2 = (pairs m).size x2.1 + (pairs m).size x2.2 := rfl
  have top := (octets m).size_le_top member
  rw [octets_top] at top
  have total := searchTotal_eq positive small word inside
  have rest : ((octets m).rank (x1, x2) : Int) -
      before (octets m).count ((octets m).size (x1, x2)) = (octets m).index (x1, x2) := by
    rw [Graded.rank]
    push_cast
    exact add_sub_cancel_left _ _
  rw [Graded.locate_rank member, rest] at total
  have fitsA : (quads m).size x1 + (quads m).size x2 < 8 * (m - 1) + 1 := by omega
  have searchB : searchPair (countTable (quads m).count (8 * (m - 1) + 1))
      ((octets m).size (x1, x2)) _ 0 ((octets m).index (x1, x2)) = _ :=
    searchPair_member first second fitsA rfl
  have searchC : searchPair (countTable (pairs m).count (8 * (m - 1) + 1))
      ((quads m).size x1) _ 0 ((quads m).index x1) = _ :=
    searchPair_member memberC memberF (by omega) rfl
  have searchD : searchPair (countTable (pairs m).count (8 * (m - 1) + 1))
      ((octets m).size (x1, x2) - (quads m).size x1) _ 0 ((quads m).index x2) = _ :=
    searchPair_member memberD memberH (by omega)
      (by rw [size]; push_cast; exact add_sub_cancel_left _ _)
  have divideB := divide_member (n := 8 * (m - 1) + 1) (x := (x1, x2)) first (by simp only; omega)
  have divideC := divide_member (n := 8 * (m - 1) + 1) (x := x1) memberC (by omega)
  have divideD := divide_member (n := 8 * (m - 1) + 1) (x := x2) memberD (by omega)
  simp only [index_to_rings, g2_tab_eq positive, g4_tab_eq positive, total, Option.bind_eq_bind,
    Option.bind_some, searchB, divideB, searchC, searchD, divideC, divideD]
  have sumF : ((quads m).size x1 : Int) - (pairs m).size x1.1 = (pairs m).size x1.2 := by
    rw [size1]; push_cast; exact add_sub_cancel_left _ _
  have sumH : ((octets m).size (x1, x2) : Int) - (quads m).size x1 - (pairs m).size x2.1 =
      (pairs m).size x2.2 := by
    rw [size, size2]; push_cast; ring
  have rings : ((build_rings m).M : Int) = m := rfl
  rw [rings, sumF, sumH, placeRings_eq memberC, placeRings_eq memberF, placeRings_eq memberD,
    placeRings_eq memberH]
  rfl

/-- The summing loop adds the blocks before its bound. -/
theorem addPairs_eq (count : Nat → Nat) {n total k : Nat} (inTable : total < n) (le : k ≤ total)
    (r : Int) :
    addPairs (countTable count n) total k r = some (r + before (splits count total) k) := by
  induction k with
  | zero => simp [addPairs]
  | succ k ih =>
    have read : entry (countTable count n) ((total : Int) - k) = some (count (total - k) : Int) := by
      rw [← Nat.cast_sub (show k ≤ total by omega)]
      exact entry_countTable (by omega)
    rw [addPairs, ih (by omega), entry_countTable (show k < n by omega), read, before_succ]
    simp only [Option.bind_eq_bind, Option.bind_some, Option.some.injEq]
    push_cast
    ring

/-- Summing up to the size of the first part gives a pair its number. -/
theorem addPairs_member {α : Type} {A : Graded α} {n : Nat} (x : α × α)
    (inTable : A.size x.1 + A.size x.2 < n) {total : Int} (sum : total = (A.prod A).size x) :
    addPairs (countTable A.count n) total (A.size x.1)
        (A.index x.2 * A.count (A.size x.1) + A.index x.1) = some ((A.prod A).index x : Int) := by
  have added := addPairs_eq A.count (k := A.size x.1) inTable (by omega)
    (A.index x.2 * A.count (A.size x.1) + A.index x.1)
  rw [sum]
  refine added.trans (congrArg some ?_)
  show _ = ((Graded.indexPair A A x : Nat) : Int)
  rw [Graded.indexPair]
  push_cast
  ring

/-- Eight rings are mapped to their index. -/
theorem rings_to_index_table (positive : 0 < m) {x : Octet} (member : (octets m).Mem x) :
    rings_to_index (build_rings m) x.table = some (int32 ((octets m).rank x)) := by
  obtain ⟨x1, x2⟩ := x
  have memberC : (pairs m).Mem x1.1 := member.1.1
  have memberF : (pairs m).Mem x1.2 := member.1.2
  have memberD : (pairs m).Mem x2.1 := member.2.1
  have memberH : (pairs m).Mem x2.2 := member.2.2
  have size : (octets m).size (x1, x2) = (quads m).size x1 + (quads m).size x2 := rfl
  have size1 : (quads m).size x1 = (pairs m).size x1.1 + (pairs m).size x1.2 := rfl
  have size2 : (quads m).size x2 = (pairs m).size x2.1 + (pairs m).size x2.2 := rfl
  have top := (octets m).size_le_top member
  rw [octets_top] at top
  have ring0 : Octet.table (x1, x2) 0 = ((x1.1.1 : Int), (x1.1.2 : Int)) := rfl
  have ring1 : Octet.table (x1, x2) 1 = ((x1.2.1 : Int), (x1.2.2 : Int)) := rfl
  have ring2 : Octet.table (x1, x2) 2 = ((x2.1.1 : Int), (x2.1.2 : Int)) := rfl
  have ring3 : Octet.table (x1, x2) 3 = ((x2.2.1 : Int), (x2.2.2 : Int)) := rfl
  have sum : ∀ p : Pair, (p.1 : Int) + p.2 = (pairs m).size p := fun p => (Nat.cast_add _ _).symm
  -- the sums `b` and `a` of the code, and the difference `a - b`
  have sumB : ((pairs m).size x1.2 : Int) + (pairs m).size x1.1 = (quads m).size x1 := by
    rw [size1]; push_cast; ring
  have sumA : ((pairs m).size x2.2 : Int) + ((quads m).size x1 + (pairs m).size x2.1) =
      (octets m).size (x1, x2) := by
    rw [size, size2]; push_cast; ring
  have sumD : ((octets m).size (x1, x2) : Int) - (quads m).size x1 = (quads m).size x2 := by
    rw [size]; push_cast; ring
  have pairD := addPairs_member (A := pairs m) (n := 8 * (m - 1) + 1) x2 (by omega) sumD
  have pairC := addPairs_member (A := pairs m) (n := 8 * (m - 1) + 1) x1 (by omega)
    (Eq.refl ((quads m).size x1 : Int))
  have pairB := addPairs_member (A := quads m) (n := 8 * (m - 1) + 1) (x1, x2)
    (by simp only; omega) (Eq.refl ((octets m).size (x1, x2) : Int))
  have readD : entry (countTable (pairs m).count (8 * (m - 1) + 1)) ((pairs m).size x2.1) = _ :=
    entry_countTable (by omega)
  have readC : entry (countTable (pairs m).count (8 * (m - 1) + 1)) ((pairs m).size x1.1) = _ :=
    entry_countTable (by omega)
  have readB : entry (countTable (quads m).count (8 * (m - 1) + 1)) ((quads m).size x1) = _ :=
    entry_countTable (by omega)
  have readA : entry (build_rings m).z8_tab ((octets m).size (x1, x2)) =
      some (int32 (before (octets m).count ((octets m).size (x1, x2)))) := by
    rw [z8_tab_eq positive, entry, if_neg (by omega), Int.toNat_natCast, List.getElem?_map,
      List.getElem?_range (by omega)]
    rfl
  have rings : ((build_rings m).M : Int) = m := rfl
  simp only [rings_to_index, ring0, ring1, ring2, ring3, rings, ← pairs_index memberC,
    ← pairs_index memberF, ← pairs_index memberD, ← pairs_index memberH, sum, sumB, sumA,
    g2_tab_eq positive, g4_tab_eq positive, Option.bind_eq_bind, Option.bind_some, readA, readB,
    readC, readD, Int.toNat_natCast, pairD, pairC]
  refine (congrArg (Option.bind · _) pairB).trans ?_
  rw [Option.bind_some, Int.add_comm, int32_add_int32, Graded.rank, Nat.cast_add]
  rfl

end Index

end QFax.Linmodem

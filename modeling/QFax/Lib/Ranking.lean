import Mathlib.Algebra.BigOperators.Intervals
import Mathlib.Algebra.BigOperators.Ring.Finset
import Mathlib.Algebra.Order.BigOperators.Group.Finset
import Mathlib.Data.Nat.Find
import Mathlib.Tactic.Ring

/-!
# Ranking objects by size

A graded class is a family of objects that have a size, with finitely many objects of each size,
numbered from 0 inside each size.  Two graded classes have a product, in which sizes add and the
number of a pair is found by going through the ways to split its size.  A class in which sizes are
bounded is numbered as a whole: smaller objects first, inside one size by their number.

`rank` and `unrank` are inverse to each other, whatever the class is made of; an enumerative code
is correct as soon as its tables are the counts of a class and its loops compute these two.
-/

namespace Ranking

/-! ## Blocks of consecutive numbers -/

/-- How many numbers the first `k` blocks hold, when block `i` holds `count i` of them. -/
def before (count : ℕ → ℕ) (k : ℕ) : ℕ := ∑ i ∈ Finset.range k, count i

@[simp] theorem before_zero (count : ℕ → ℕ) : before count 0 = 0 := by simp [before]

theorem before_succ (count : ℕ → ℕ) (k : ℕ) :
    before count (k + 1) = before count k + count k := by
  simp [before, Finset.sum_range_succ]

theorem before_mono (count : ℕ → ℕ) {j k : ℕ} (le : j ≤ k) : before count j ≤ before count k := by
  induction k, le using Nat.le_induction with
  | base => exact le_rfl
  | succ k _ ih => rw [before_succ]; omega

/-- Empty blocks hold nothing. -/
theorem before_of_empty {count : ℕ → ℕ} {j k : ℕ} (le : j ≤ k)
    (empty : ∀ i, j ≤ i → count i = 0) : before count k = before count j := by
  induction k, le using Nat.le_induction with
  | base => rfl
  | succ k jk ih => rw [before_succ, empty k jk, ih, Nat.add_zero]

/-- The block, among the first `n + 1`, that number `r` falls in. -/
def locate (count : ℕ → ℕ) (n r : ℕ) : ℕ := Nat.findGreatest (fun k => before count k ≤ r) n

theorem locate_le (count : ℕ → ℕ) (n r : ℕ) : locate count n r ≤ n := Nat.findGreatest_le n

theorem before_locate_le (count : ℕ → ℕ) (n r : ℕ) : before count (locate count n r) ≤ r :=
  Nat.findGreatest_spec (P := fun k => before count k ≤ r) (Nat.zero_le n) (by simp)

theorem lt_before_locate {count : ℕ → ℕ} {n r : ℕ} (lt : r < before count (n + 1)) :
    r < before count (locate count n r + 1) := by
  rcases Nat.lt_or_ge (locate count n r) n with inside | last
  · have greatest := Nat.findGreatest_is_greatest (P := fun k => before count k ≤ r)
      (Nat.lt_succ_self (locate count n r)) inside
    exact Nat.lt_of_not_le greatest
  · have whole : locate count n r = n := le_antisymm (locate_le count n r) last
    rwa [whole]

/-- The block of a number is the only one that holds it. -/
theorem locate_eq {count : ℕ → ℕ} {n k r : ℕ} (le : k ≤ n) (low : before count k ≤ r)
    (high : r < before count (k + 1)) : locate count n r = k := by
  have reaches : k ≤ locate count n r := Nat.le_findGreatest le low
  by_contra differs
  have above := before_mono count (show k + 1 ≤ locate count n r by omega)
  have fits := before_locate_le count n r
  omega

/-- What is left of a number after the blocks before its own lies inside its block. -/
theorem sub_before_locate_lt {count : ℕ → ℕ} {n r : ℕ} (lt : r < before count (n + 1)) :
    r - before count (locate count n r) < count (locate count n r) := by
  have inside := lt_before_locate lt
  have fits := before_locate_le count n r
  rw [before_succ] at inside
  omega

/-! ## Convolution of counts -/

/-- How many pairs have total size `n`. -/
def conv (f g : ℕ → ℕ) (n : ℕ) : ℕ := before (fun i => f i * g (n - i)) (n + 1)

/-- A convolution of two bounded families is bounded by the sum of the bounds. -/
theorem conv_eq_zero {f g : ℕ → ℕ} {p q n : ℕ} (fTop : ∀ i, p < i → f i = 0)
    (gTop : ∀ i, q < i → g i = 0) (lt : p + q < n) : conv f g n = 0 := by
  simp only [conv, before]
  refine Finset.sum_eq_zero fun i _ => ?_
  rcases Nat.lt_or_ge p i with big | small
  · simp [fTop i big]
  · simp [gTop (n - i) (by omega)]

/-- Only one split reaches the largest size of all. -/
theorem conv_top {f g : ℕ → ℕ} {p q : ℕ} (fTop : ∀ i, p < i → f i = 0)
    (gTop : ∀ i, q < i → g i = 0) : conv f g (p + q) = f p * g q := by
  simp only [conv, before]
  rw [Finset.sum_eq_single p]
  · rw [Nat.add_sub_cancel_left]
  · intro i _ other
    rcases Nat.lt_or_gt_of_ne other with small | big
    · simp [gTop (p + q - i) (by omega)]
    · simp [fTop i big]
  · intro outside
    exact absurd (Finset.mem_range.mpr (by omega)) outside

/-- The number of all pairs is the product of the numbers of the parts. -/
theorem before_conv {f g : ℕ → ℕ} {p q : ℕ} (fTop : ∀ i, p < i → f i = 0)
    (gTop : ∀ i, q < i → g i = 0) :
    before (conv f g) (p + q + 1) = before f (p + 1) * before g (q + 1) := by
  have split : before (conv f g) (p + q + 1) =
      ∑ i ∈ Finset.range (p + q + 1), f i * before g (p + q + 1 - i) := by
    simp only [before, conv, Finset.mul_sum]
    exact Finset.sum_range_diag_flip (p + q + 1) fun i k => f i * g k
  have whole : ∀ i ∈ Finset.range (p + q + 1),
      f i * before g (p + q + 1 - i) = f i * before g (q + 1) := by
    intro i _
    rcases Nat.lt_or_ge p i with big | small
    · simp [fTop i big]
    · rw [before_of_empty (show q + 1 ≤ p + q + 1 - i by omega) fun k above => gTop k (by omega)]
  rw [split, Finset.sum_congr rfl whole, ← Finset.sum_mul]
  have trimmed : before f (p + q + 1) = before f (p + 1) :=
    before_of_empty (by omega) fun k above => fTop k (by omega)
  simp only [before] at trimmed ⊢
  rw [trimmed]

/-- A term of a convolution is at most the largest factor times the number of the others. -/
theorem conv_le {f g : ℕ → ℕ} {bound n : ℕ} (small : ∀ i, g i ≤ bound) :
    conv f g n ≤ before f (n + 1) * bound := by
  simp only [conv, before, Finset.sum_mul]
  exact Finset.sum_le_sum fun i _ => Nat.mul_le_mul_left _ (small _)

/-! ## Graded classes -/

/-- Objects with a size, numbered from 0 within each size: `count n` objects have size `n`, and
`pick n i` is number `i` of them.  No object is larger than `top`. -/
structure Graded (α : Type*) where
  Mem : α → Prop
  size : α → ℕ
  index : α → ℕ
  count : ℕ → ℕ
  pick : ℕ → ℕ → α
  top : ℕ
  index_lt : ∀ {x}, Mem x → index x < count (size x)
  mem_pick : ∀ {n i}, i < count n → Mem (pick n i)
  size_pick : ∀ {n i}, i < count n → size (pick n i) = n
  index_pick : ∀ {n i}, i < count n → index (pick n i) = i
  pick_index : ∀ {x}, Mem x → pick (size x) (index x) = x
  count_top : ∀ n, top < n → count n = 0

namespace Graded

variable {α β : Type*}

/-- How many objects there are. -/
def total (A : Graded α) : ℕ := before A.count (A.top + 1)

theorem before_le_total (A : Graded α) (k : ℕ) : before A.count k ≤ A.total := by
  rcases Nat.le_total k (A.top + 1) with inside | above
  · exact before_mono A.count inside
  · exact (before_of_empty above fun i large => A.count_top i large).le

theorem size_le_top (A : Graded α) {x : α} (member : A.Mem x) : A.size x ≤ A.top := by
  by_contra above
  have inside := A.index_lt member
  rw [A.count_top _ (by omega)] at inside
  omega

/-- The numbers below `m`, each of its own size. -/
def below (m : ℕ) : Graded ℕ where
  Mem x := x < m
  size x := x
  index _ := 0
  count n := if n < m then 1 else 0
  pick n _ := n
  top := m - 1
  index_lt {x} member := by simp_all
  mem_pick {n i} inside := by by_contra above; simp [above] at inside
  size_pick _ := rfl
  index_pick {n i} inside := by split at inside <;> omega
  pick_index _ := rfl
  count_top n above := by rw [if_neg (by omega)]

/-- Number `r` among the pairs of total size `n`: the size of the first part comes first, then
the second part, then the first. -/
def pickPair (A : Graded α) (B : Graded β) (n r : ℕ) : α × β :=
  let k := locate (fun i => A.count i * B.count (n - i)) n r
  let rest := r - before (fun i => A.count i * B.count (n - i)) k
  (A.pick k (rest % A.count k), B.pick (n - k) (rest / A.count k))

/-- The number of a pair among the pairs of its total size. -/
def indexPair (A : Graded α) (B : Graded β) (x : α × β) : ℕ :=
  before (fun i => A.count i * B.count (A.size x.1 + B.size x.2 - i)) (A.size x.1) +
    (B.index x.2 * A.count (A.size x.1) + A.index x.1)

section Pairs

variable {A : Graded α} {B : Graded β}

/-- The two parts of a number inside a block of pairs. -/
theorem parts_lt {k n s : ℕ} (inside : s < A.count k * B.count (n - k)) :
    s % A.count k < A.count k ∧ s / A.count k < B.count (n - k) := by
  have positive : 0 < A.count k := by
    rcases Nat.eq_zero_or_pos (A.count k) with zero | positive
    · simp [zero] at inside
    · exact positive
  exact ⟨Nat.mod_lt _ positive, Nat.div_lt_of_lt_mul inside⟩

/-- Two numbers below the counts of the parts make a number inside the block of pairs. -/
theorem join_lt {a b i j : ℕ} (ha : i < a) (hb : j < b) : j * a + i < a * b := by
  calc j * a + i < j * a + a := by omega
    _ = (j + 1) * a := by ring
    _ ≤ b * a := Nat.mul_le_mul_right a hb
    _ = a * b := Nat.mul_comm b a

/-- The parts come back by remainder and quotient. -/
theorem join_mod {a i : ℕ} (j : ℕ) (lt : i < a) : (j * a + i) % a = i := by
  rw [Nat.mul_add_mod_self_right, Nat.mod_eq_of_lt lt]

theorem join_div {a i : ℕ} (j : ℕ) (lt : i < a) : (j * a + i) / a = j := by
  rw [Nat.add_comm, Nat.add_mul_div_right _ _ (Nat.zero_lt_of_lt lt), Nat.div_eq_of_lt lt,
    Nat.zero_add]

theorem indexPair_lt {x : α × β} (hx : A.Mem x.1) (hy : B.Mem x.2) :
    indexPair A B x <
      before (fun i => A.count i * B.count (A.size x.1 + B.size x.2 - i)) (A.size x.1 + 1) := by
  rw [before_succ, indexPair, Nat.add_sub_cancel_left]
  exact Nat.add_lt_add_left (join_lt (A.index_lt hx) (B.index_lt hy)) _

/-- The block of a pair's number is the size of its first part. -/
theorem locate_indexPair {x : α × β} (hx : A.Mem x.1) (hy : B.Mem x.2) :
    locate (fun i => A.count i * B.count (A.size x.1 + B.size x.2 - i))
      (A.size x.1 + B.size x.2) (indexPair A B x) = A.size x.1 :=
  locate_eq (Nat.le_add_right _ _) (Nat.le_add_right _ _) (indexPair_lt hx hy)

/-- What the blocks before its own leave of a pair's number. -/
theorem indexPair_sub (x : α × β) :
    indexPair A B x -
      before (fun i => A.count i * B.count (A.size x.1 + B.size x.2 - i)) (A.size x.1) =
      B.index x.2 * A.count (A.size x.1) + A.index x.1 := Nat.add_sub_cancel_left _ _

theorem pickPair_indexPair {x : α × β} (hx : A.Mem x.1) (hy : B.Mem x.2) :
    pickPair A B (A.size x.1 + B.size x.2) (indexPair A B x) = x := by
  simp only [pickPair, locate_indexPair hx hy, indexPair_sub, join_mod _ (A.index_lt hx),
    join_div _ (A.index_lt hx), Nat.add_sub_cancel_left, A.pick_index hx, B.pick_index hy]

variable {n r : ℕ}

/-- What the number of a pair leaves for its two parts. -/
theorem rest_lt (inside : r < conv A.count B.count n) :
    let k := locate (fun i => A.count i * B.count (n - i)) n r
    r - before (fun i => A.count i * B.count (n - i)) k < A.count k * B.count (n - k) :=
  sub_before_locate_lt inside

theorem pickPair_mem (inside : r < conv A.count B.count n) :
    A.Mem (pickPair A B n r).1 ∧ B.Mem (pickPair A B n r).2 := by
  obtain ⟨low, high⟩ := parts_lt (rest_lt inside)
  exact ⟨A.mem_pick low, B.mem_pick high⟩

theorem size_pickPair (inside : r < conv A.count B.count n) :
    A.size (pickPair A B n r).1 = locate (fun i => A.count i * B.count (n - i)) n r ∧
      A.size (pickPair A B n r).1 + B.size (pickPair A B n r).2 = n := by
  obtain ⟨low, high⟩ := parts_lt (rest_lt inside)
  have first : A.size (pickPair A B n r).1 =
      locate (fun i => A.count i * B.count (n - i)) n r := A.size_pick low
  have second : B.size (pickPair A B n r).2 =
      n - locate (fun i => A.count i * B.count (n - i)) n r := B.size_pick high
  have le := locate_le (fun i => A.count i * B.count (n - i)) n r
  exact ⟨first, by rw [first, second]; omega⟩

theorem indexPair_pickPair (inside : r < conv A.count B.count n) :
    indexPair A B (pickPair A B n r) = r := by
  obtain ⟨low, high⟩ := parts_lt (rest_lt inside)
  obtain ⟨first, whole⟩ := size_pickPair inside
  have fits := before_locate_le (fun i => A.count i * B.count (n - i)) n r
  have left : A.index (pickPair A B n r).1 = _ := A.index_pick low
  have right : B.index (pickPair A B n r).2 = _ := B.index_pick high
  rw [indexPair, whole, first, left, right, Nat.mul_comm, Nat.div_add_mod]
  omega

end Pairs

/-- Pairs, graded by the sum of the sizes. -/
def prod (A : Graded α) (B : Graded β) : Graded (α × β) where
  Mem x := A.Mem x.1 ∧ B.Mem x.2
  size x := A.size x.1 + B.size x.2
  index := indexPair A B
  count := conv A.count B.count
  pick := pickPair A B
  top := A.top + B.top
  index_lt {x} member := by
    refine lt_of_lt_of_le (indexPair_lt member.1 member.2) (before_mono _ ?_)
    omega
  mem_pick inside := pickPair_mem inside
  size_pick inside := (size_pickPair inside).2
  index_pick inside := indexPair_pickPair inside
  pick_index member := pickPair_indexPair member.1 member.2
  count_top _ above := conv_eq_zero A.count_top B.count_top above

/-- There are as many pairs as the product of the numbers of their parts. -/
theorem total_prod (A : Graded α) (B : Graded β) : (A.prod B).total = A.total * B.total :=
  before_conv A.count_top B.count_top

/-- One size holds no more pairs than the first parts times the largest class of second parts. -/
theorem count_prod_le (A : Graded α) {B : Graded β} {bound : ℕ} (small : ∀ i, B.count i ≤ bound)
    (n : ℕ) : (A.prod B).count n ≤ A.total * bound :=
  (conv_le small).trans (Nat.mul_le_mul_right bound (A.before_le_total _))

theorem count_prod_top (A : Graded α) (B : Graded β) :
    (A.prod B).count (A.prod B).top = A.count A.top * B.count B.top :=
  conv_top A.count_top B.count_top

theorem total_below {m : ℕ} (positive : 0 < m) : (below m).total = m := by
  have all : ∀ k ≤ m, before (below m).count k = k := by
    intro k le
    induction k with
    | zero => simp
    | succ k ih => rw [before_succ, ih (by omega)]; simp [below]; omega
  have width : (below m).top + 1 = m := by simp only [below]; omega
  rw [total, width, all m le_rfl]

/-! ## The numbering of a whole class -/

variable (A : Graded α)

/-- The number of an object: smaller objects come first. -/
def rank (x : α) : ℕ := before A.count (A.size x) + A.index x

/-- The object with a number. -/
def unrank (r : ℕ) : α :=
  A.pick (locate A.count A.top r) (r - before A.count (locate A.count A.top r))

variable {A}

theorem rank_lt_next {x : α} (member : A.Mem x) : A.rank x < before A.count (A.size x + 1) := by
  rw [before_succ, rank]
  exact Nat.add_lt_add_left (A.index_lt member) _

/-- A smaller object has the smaller number. -/
theorem rank_lt_of_size_lt {x y : α} (member : A.Mem x) (smaller : A.size x < A.size y) :
    A.rank x < A.rank y :=
  lt_of_lt_of_le (rank_lt_next member)
    ((before_mono A.count smaller).trans (Nat.le_add_right _ _))

/-- The block of an object's number is its size. -/
theorem locate_rank {x : α} (member : A.Mem x) : locate A.count A.top (A.rank x) = A.size x :=
  locate_eq (A.size_le_top member) (Nat.le_add_right _ _) (rank_lt_next member)

theorem unrank_rank {x : α} (member : A.Mem x) : A.unrank (A.rank x) = x := by
  rw [unrank, locate_rank member, rank, Nat.add_sub_cancel_left, A.pick_index member]

section Unrank

variable {r : ℕ}

theorem mem_unrank (lt : r < A.total) : A.Mem (A.unrank r) :=
  A.mem_pick (sub_before_locate_lt lt)

theorem rank_unrank (lt : r < A.total) : A.rank (A.unrank r) = r := by
  have size : A.size (A.unrank r) = locate A.count A.top r := A.size_pick (sub_before_locate_lt lt)
  have index : A.index (A.unrank r) = _ := A.index_pick (sub_before_locate_lt lt)
  have fits := before_locate_le A.count A.top r
  rw [rank, size, index]
  omega

end Unrank

end Graded

end Ranking

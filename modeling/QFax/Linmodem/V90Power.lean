import QFax.Lib.DigitCount
import QFax.Linmodem.V90Modulus

/-!
# V.90: the power of a constellation

`compute_power` averages the squared linear values that the words of `K` bits select.  It counts how
often each point of an interval is selected from the digits and quotients of the largest word.  For
the last interval the count needs a quotient more than the array `r` has, so that it is read from
behind the array in every case (`compute_power_none`); with that quotient, which is zero, the sum is
the power of all words (`power_sum`).
-/

namespace QFax.Linmodem

open MixedRadix Finset

/-- Arithmetic of type `u64`. -/
def u64 (x : Nat) : Nat := x % 2 ^ 64

def u64Sub (x y : Nat) : Nat := u64 (x + 2 ^ 64 - u64 y)

/-- The first loop of `compute_power`: the quotients `r` of the largest word and its digits `k`.  The
rings of an interval are given by their linear values. -/
def largestDigits : List (List Int) → Nat → Option (List Nat × List Nat)
  | [], _ => some ([], [])
  | ring :: rings, n =>
    if ring.length = 0 then none else do
      let (r, k) ← largestDigits rings (n / ring.length)
      some (n :: r, n % ring.length :: k)

/-- How many words select ring `j` of interval `i`. -/
def pointCount (K : Nat) (r k : List Nat) (a i j : Nat) : Option Nat := do
  let digit ← k[i]?
  if j < digit then
    let next ← r[i + 1]?
    some (u64 (a * (next + 1)))
  else if j = digit then
    let here ← r[i]?
    let next ← r[i + 1]?
    some (u64Sub (2 ^ K) (a * u64Sub here next))
  else
    let next ← r[i + 1]?
    some (u64 (a * next))

/-- `p += v * v * n` for the rings of an interval, from ring `j` on. -/
def ringPower (K : Nat) (r k : List Nat) (a i : Nat) : Nat → List Int → Nat → Option Nat
  | _, [], p => some p
  | j, v :: vs, p => do
    let n ← pointCount K r k a i j
    ringPower K r k a i (j + 1) vs (u64 (p + (v * v).toNat * n))

/-- The second loop of `compute_power`, from interval `i` on. -/
def ringsPower (K : Nat) (r k : List Nat) : Nat → Nat → List (List Int) → Nat → Option Nat
  | _, _, [], p => some p
  | i, a, ring :: rings, p => do
    let p ← ringPower K r k a i 0 ring p
    ringsPower K r k (i + 1) (u64 (a * ring.length)) rings p

/-- `compute_power`, from the linear values of the rings of the six intervals. -/
def compute_power (K : Nat) (rings : List (List Int)) : Option Nat :=
  if 64 ≤ K then none else do
    let (r, k) ← largestDigits rings (2 ^ K - 1)
    let p ← ringsPower K r k 0 1 rings 0
    some (p / u64 (6 * 2 ^ K))

/-- The squared linear values that are transmitted for a word. -/
def wordPower (rings : List (List Int)) (w : Nat) : Nat :=
  (List.zipWith (fun ring d => (ring.getD d 0 * ring.getD d 0).toNat) rings
    (split (rings.map (·.length)) w)).sum

/-- The average over all words of `K` bits and the six intervals. -/
def averagePower (K : Nat) (rings : List (List Int)) : Nat :=
  (∑ w ∈ range (2 ^ K), wordPower rings w) / (6 * 2 ^ K)

/-! ## Outside of the array -/

theorem largestDigits_length {rings : List (List Int)} {n : Nat} {r k : List Nat}
    (digits : largestDigits rings n = some (r, k)) : r.length = rings.length := by
  induction rings generalizing n r k with
  | nil =>
    cases digits
    rfl
  | cons ring rings ih =>
    rw [largestDigits] at digits
    split at digits
    case isTrue => cases digits
    case isFalse =>
      obtain ⟨⟨r', k'⟩, rest, eq⟩ := Option.bind_eq_some_iff.mp digits
      cases eq
      rw [List.length_cons, List.length_cons, ih rest]

/-- Every count of an interval reads the quotient of the next one. -/
theorem pointCount_outside {K : Nat} {r k : List Nat} {a i j : Nat} (last : r.length ≤ i + 1) :
    pointCount K r k a i j = none := by
  have next : r[i + 1]? = none := List.getElem?_eq_none last
  unfold pointCount
  cases k[i]? with
  | none => rfl
  | some ki =>
    simp only [next, Option.bind_eq_bind, Option.bind_some, Option.bind_none]
    split
    · rfl
    · split
      · cases r[i]? <;> rfl
      · rfl

theorem ringsPower_outside {K : Nat} {r k : List Nat} {rings : List (List Int)}
    (positive : ∀ ring ∈ rings, ring ≠ []) (ne : rings ≠ []) {i a p : Nat}
    (size : r.length = i + rings.length) : ringsPower K r k i a rings p = none := by
  induction rings generalizing i a p with
  | nil => exact absurd rfl ne
  | cons ring rings ih =>
    rw [List.length_cons] at size
    rw [ringsPower]
    cases rings with
    | nil =>
      -- the last interval
      obtain ⟨v, vs, rfl⟩ := List.exists_cons_of_ne_nil (positive ring List.mem_cons_self)
      have outside : pointCount K r k a i 0 = none := pointCount_outside (by
        rw [size, List.length_nil])
      rw [ringPower, outside]
      rfl
    | cons next rings =>
      cases ringPower K r k a i 0 ring p with
      | none => rfl
      | some p' =>
        exact ih (fun ring member => positive ring (List.mem_cons_of_mem _ member))
          (List.cons_ne_nil _ _) (by omega)

/-- `compute_power` reads behind its array of quotients, whatever the constellations are. -/
theorem compute_power_none (K : Nat) {rings : List (List Int)} (ne : rings ≠ [])
    (positive : ∀ ring ∈ rings, ring ≠ []) : compute_power K rings = none := by
  unfold compute_power
  split
  case isTrue => rfl
  case isFalse =>
    cases digits : largestDigits rings (2 ^ K - 1) with
    | none => rfl
    | some rk =>
      obtain ⟨r, k⟩ := rk
      have size := largestDigits_length digits
      have outside : ringsPower K r k 0 1 rings 0 = none :=
        ringsPower_outside positive ne (by omega)
      simp only [Option.bind_eq_bind, Option.bind_some, outside, Option.bind_none]

/-! ## With the quotient behind the last one -/

theorem u64_of_lt {x : Nat} (lt : x < 2 ^ 64) : u64 x = x := Nat.mod_eq_of_lt lt

theorem u64Sub_of_le {x y : Nat} (le : y ≤ x) (lt : x < 2 ^ 64) : u64Sub x y = x - y := by
  have whole : x + 2 ^ 64 - y = 2 ^ 64 + (x - y) := by omega
  rw [u64Sub, u64_of_lt (x := y) (by omega), whole, u64, Nat.add_mod_left, Nat.mod_eq_of_lt (by omega)]

/-- The quotients and digits of an interval count the words that select its rings: `t` is the number
of words with the quotient of the largest one. -/
theorem pointCount_eq {K : Nat} {r k : List Nat} {a i j m q t : Nat} (narrow : K < 64)
    (words : 2 ^ K = a * q + t) (here : r[i]? = some q) (digit : k[i]? = some (q % m))
    (next : r[i + 1]? = some (q / m)) :
    pointCount K r k a i j = some (DigitCount.occurrences a m q t j) := by
  have bound : 2 ^ K < 2 ^ 64 := Nat.pow_lt_pow_right (by decide) narrow
  have parts := Nat.div_add_mod q m
  have quotient : q / m ≤ q := Nat.div_le_self q m
  have product : a * (q / m) ≤ a * q := Nat.mul_le_mul_left a quotient
  simp only [pointCount, here, digit, next, Option.bind_eq_bind, Option.bind_some]
  unfold DigitCount.occurrences
  by_cases before : j < q % m
  · have more : q / m + 1 ≤ q := by
      rcases Nat.eq_zero_or_pos m with rfl | pos
      · simp only [Nat.mod_zero] at before
        simp only [Nat.div_zero]
        omega
      · have le : q / m ≤ m * (q / m) := Nat.le_mul_of_pos_left _ pos
        omega
    have product' : a * (q / m + 1) ≤ a * q := Nat.mul_le_mul_left a more
    rw [if_pos before, if_pos before, u64_of_lt (by omega)]
  · by_cases same : j = q % m
    · have small : q < 2 ^ 64 ∨ a = 0 := by
        rcases Nat.eq_zero_or_pos a with zero | pos
        · exact Or.inr zero
        · have le : q ≤ a * q := Nat.le_mul_of_pos_left _ pos
          exact Or.inl (by omega)
      have left : a * u64Sub q (q / m) = a * q - a * (q / m) := by
        rcases small with lt | rfl
        · rw [u64Sub_of_le quotient lt, Nat.mul_sub]
        · simp
      rw [if_neg before, if_pos same, if_neg before, if_pos same, left,
        u64Sub_of_le (by omega) bound]
      congr 1
      omega
    · rw [if_neg before, if_neg same, if_neg before, if_neg same, u64_of_lt (by omega)]

/-- The rings of an interval from `j` on, each with its count. -/
theorem ringPower_eq {K : Nat} {r k : List Nat} {a i : Nat} {count : Nat → Nat} {vs : List Int}
    {j p : Nat} (counts : ∀ l < vs.length, pointCount K r k a i (j + l) = some (count (j + l)))
    (bound : p + ∑ l ∈ range vs.length, count (j + l) * (vs.getD l 0 * vs.getD l 0).toNat < 2 ^ 64) :
    ringPower K r k a i j vs p =
      some (p + ∑ l ∈ range vs.length, count (j + l) * (vs.getD l 0 * vs.getD l 0).toNat) := by
  induction vs generalizing j p with
  | nil => rfl
  | cons v vs ih =>
    have first := counts 0 (by simp)
    rw [Nat.add_zero] at first
    have shift (l : Nat) : j + (l + 1) = j + 1 + l := by omega
    have total : ∑ l ∈ range (v :: vs).length,
          count (j + l) * ((v :: vs).getD l 0 * (v :: vs).getD l 0).toNat =
        ∑ l ∈ range vs.length, count (j + 1 + l) * (vs.getD l 0 * vs.getD l 0).toNat +
          (v * v).toNat * count j := by
      rw [List.length_cons, sum_range_succ', Nat.mul_comm (v * v).toNat]
      congr 1
      refine sum_congr rfl fun l _ => ?_
      rw [shift, List.getD_cons_succ]
    rw [total] at bound ⊢
    have next := ih (j := j + 1) (p := p + (v * v).toNat * count j)
      (fun l lt => shift l ▸ counts (l + 1) (by rw [List.length_cons]; omega))
      (by omega)
    rw [ringPower, first]
    simp only [Option.bind_eq_bind, Option.bind_some]
    rw [u64_of_lt (by omega), next]
    congr 1
    omega

/-- The squared value of the ring that an interval transmits for its digit of the words. -/
theorem ringPower_words {K : Nat} {r k : List Nat} {a i q t : Nat} {ring : List Int}
    (narrow : K < 64) (ne : ring ≠ []) (posA : 0 < a) (le : t ≤ a) (words : 2 ^ K = a * q + t)
    (here : r[i]? = some q) (digit : k[i]? = some (q % ring.length))
    (next : r[i + 1]? = some (q / ring.length)) {p : Nat}
    (bound : p + ∑ w ∈ range (2 ^ K),
      (ring.getD (w / a % ring.length) 0 * ring.getD (w / a % ring.length) 0).toNat < 2 ^ 64) :
    ringPower K r k a i 0 ring p = some (p + ∑ w ∈ range (2 ^ K),
      (ring.getD (w / a % ring.length) 0 * ring.getD (w / a % ring.length) 0).toNat) := by
  have sum := DigitCount.sum_digit (fun j => (ring.getD j 0 * ring.getD j 0).toNat) (r := q) posA
    (List.length_pos_iff.mpr ne) le
  simp only [Nat.nsmul_eq_mul] at sum
  rw [words] at bound ⊢
  rw [sum] at bound ⊢
  have all := @ringPower_eq K r k a i (DigitCount.occurrences a ring.length q t) ring 0 p
    (fun l _ => pointCount_eq narrow words here digit next)
    (by simpa only [Nat.zero_add] using bound)
  simpa only [Nat.zero_add] using all

/-- The first quotient, or the zero behind the last one. -/
theorem first_quotient {rings : List (List Int)} {q : Nat} {r k : List Nat}
    (digits : largestDigits rings q = some (r, k)) (last : q < (rings.map (·.length)).prod) :
    (r ++ [0])[0]? = some q := by
  cases rings with
  | nil =>
    cases digits
    have zero : q = 0 := Nat.lt_one_iff.mp last
    rw [zero]
    rfl
  | cons ring rings =>
    rw [largestDigits] at digits
    split at digits
    case isTrue => cases digits
    case isFalse =>
      obtain ⟨⟨r', k'⟩, -, eq⟩ := Option.bind_eq_some_iff.mp digits
      cases eq
      rfl

/-- The words in terms of the weight of the next interval. -/
theorem words_next {a q t n N : Nat} (pos : 0 < n) (le : t ≤ a) (words : N = a * q + t) :
    N = a * n * (q / n) + (a * (q % n) + t) ∧ a * (q % n) + t ≤ a * n := by
  have parts : a * q = a * n * (q / n) + a * (q % n) := by
    rw [Nat.mul_assoc, ← Nat.mul_add, Nat.div_add_mod]
  have lt := Nat.mod_lt q pos
  refine ⟨?_, ?_⟩
  · rw [← Nat.add_assoc, ← parts]
    exact words
  · calc a * (q % n) + t ≤ a * (q % n) + a := Nat.add_le_add_left le _
      _ = a * (q % n + 1) := (Nat.mul_succ _ _).symm
      _ ≤ a * n := Nat.mul_le_mul_left a lt

/-- With the quotient behind the last one, which is zero, the sum of `compute_power` is the squared
values that the words transmit in the intervals from `i` on. -/
theorem ringsPower_eq {K : Nat} (narrow : K < 64) {rings : List (List Int)}
    (positive : ∀ ring ∈ rings, ring ≠ []) {a q t : Nat} (posA : 0 < a) (le : t ≤ a)
    (words : 2 ^ K = a * q + t) (weights : a * (rings.map (·.length)).prod < 2 ^ 64)
    (last : q < (rings.map (·.length)).prod) {r k preR preK : List Nat} {i : Nat}
    (digits : largestDigits rings q = some (r, k)) (sizeR : preR.length = i)
    (sizeK : preK.length = i) {p : Nat}
    (bound : p + ∑ w ∈ range (2 ^ K), wordPower rings (w / a) < 2 ^ 64) :
    ringsPower K (preR ++ r ++ [0]) (preK ++ k) i a rings p =
      some (p + ∑ w ∈ range (2 ^ K), wordPower rings (w / a)) := by
  induction rings generalizing a q t r k preR preK i p with
  | nil => simp [ringsPower, wordPower]
  | cons ring rings ih =>
    have ne := positive ring List.mem_cons_self
    have pos : 0 < ring.length := List.length_pos_iff.mpr ne
    rw [largestDigits, if_neg pos.ne'] at digits
    obtain ⟨⟨r', k'⟩, rest, eq⟩ := Option.bind_eq_some_iff.mp digits
    cases eq
    rw [List.map_cons, List.prod_cons] at weights last
    have power (w : Nat) : wordPower (ring :: rings) (w / a) =
        (ring.getD (w / a % ring.length) 0 * ring.getD (w / a % ring.length) 0).toNat +
          wordPower rings (w / (a * ring.length)) := by
      rw [← Nat.div_div_eq_div_mul]
      rfl
    simp only [power, sum_add_distrib] at bound ⊢
    have below : q / ring.length < (rings.map (·.length)).prod :=
      Nat.div_lt_of_lt_mul last
    have next : (r' ++ [0])[0]? = some (q / ring.length) := first_quotient rest below
    have here : (preR ++ (q :: r') ++ [0])[i]? = some q := by
      rw [List.append_assoc, List.getElem?_append_right (by omega), sizeR, Nat.sub_self]
      rfl
    have after : (preR ++ (q :: r') ++ [0])[i + 1]? = some (q / ring.length) := by
      have one : i + 1 - i = 1 := by omega
      rw [List.append_assoc, List.getElem?_append_right (by omega), sizeR, one]
      exact next
    have digit : (preK ++ (q % ring.length :: k'))[i]? = some (q % ring.length) := by
      rw [List.getElem?_append_right (by omega), sizeK, Nat.sub_self]
      rfl
    have interval := ringPower_words narrow ne posA le words here digit after (p := p) (by omega)
    have pos' : 0 < (rings.map (·.length)).prod := (Nat.zero_le _).trans_lt below
    have weight : a * ring.length < 2 ^ 64 := by
      refine lt_of_le_of_lt ?_ weights
      rw [← Nat.mul_assoc]
      exact Nat.le_mul_of_pos_right _ pos'
    obtain ⟨words', less⟩ := words_next pos le words
    have restR : preR ++ (q :: r') ++ [0] = (preR ++ [q]) ++ r' ++ [0] := by simp
    have restK : preK ++ (q % ring.length :: k') = (preK ++ [q % ring.length]) ++ k' := by simp
    rw [ringsPower, interval, Option.bind_eq_bind, Option.bind_some, u64_of_lt weight, restR, restK,
      ih (fun ring member => positive ring (List.mem_cons_of_mem _ member))
        (Nat.mul_pos posA pos) less words' (by rwa [Nat.mul_assoc]) below rest (by simp [sizeR])
        (by simp [sizeK]) (by omega), Nat.add_assoc]

theorem largestDigits_isSome {rings : List (List Int)} (positive : ∀ ring ∈ rings, ring ≠ []) (n : Nat) :
    ∃ r k, largestDigits rings n = some (r, k) := by
  induction rings generalizing n with
  | nil => exact ⟨[], [], rfl⟩
  | cons ring rings ih =>
    have ne := positive ring List.mem_cons_self
    obtain ⟨r, k, rest⟩ := ih (fun ring member => positive ring (List.mem_cons_of_mem _ member))
      (n / ring.length)
    rw [largestDigits, if_neg (List.length_pos_iff.mpr ne).ne', rest]
    exact ⟨_, _, rfl⟩

/-- With a quotient of zero behind the last one, the sum of `compute_power` is that of the average. -/
theorem power_sum {K : Nat} {rings : List (List Int)} (positive : ∀ ring ∈ rings, ring ≠ [])
    (words : 2 ^ K ≤ (rings.map (·.length)).prod) (weights : (rings.map (·.length)).prod < 2 ^ 64)
    (bound : ∑ w ∈ range (2 ^ K), wordPower rings w < 2 ^ 64) :
    ∃ r k, largestDigits rings (2 ^ K - 1) = some (r, k) ∧
      ringsPower K (r ++ [0]) k 0 1 rings 0 = some (∑ w ∈ range (2 ^ K), wordPower rings w) := by
  have some_word : 0 < 2 ^ K := Nat.two_pow_pos K
  have narrow : K < 64 := (Nat.pow_lt_pow_iff_right (by decide)).mp (words.trans_lt weights)
  obtain ⟨r, k, digits⟩ := largestDigits_isSome positive (2 ^ K - 1)
  have sum := @ringsPower_eq K narrow rings positive 1 (2 ^ K - 1) 1 Nat.one_pos le_rfl (by omega)
    (by omega) (by omega) r k [] [] 0 digits rfl rfl 0
    (by simpa only [Nat.div_one, Nat.zero_add] using bound)
  refine ⟨r, k, digits, ?_⟩
  simpa only [List.nil_append, Nat.div_one, Nat.zero_add] using sum

/-- Two bits; the last two intervals have levels to choose from. -/
theorem power_sum_two : ∃ r k,
    largestDigits [[8], [8], [8], [8], [24, 8], [40, 16]] (2 ^ 2 - 1) = some (r, k) ∧
      ringsPower 2 (r ++ [0]) k 0 1 [[8], [8], [8], [8], [24, 8], [40, 16]] 0 =
        some (∑ w ∈ range (2 ^ 2), wordPower [[8], [8], [8], [8], [24, 8], [40, 16]] w) :=
  power_sum (by decide) (by decide) (by decide) (by decide)

/-! ## The power of six intervals -/

/-- For no constellations does `compute_power` return the average power of the words: it reads behind
its array for all of them. -/
theorem compute_power_never (K : Nat) {rings : List (List Int)} (six : rings.length = 6)
    (positive : ∀ ring ∈ rings, ring ≠ []) :
    compute_power K rings ≠ some (averagePower K rings) := by
  have ne : rings ≠ [] := List.ne_nil_of_length_eq_add_one six
  rw [compute_power_none K ne positive]
  exact (Option.some_ne_none _).symm

/-- One bit and two levels in the last interval. -/
theorem compute_power_never_two :
    compute_power 1 [[8], [8], [8], [8], [8], [16, 8]] ≠
      some (averagePower 1 [[8], [8], [8], [8], [8], [16, 8]]) :=
  compute_power_never 1 rfl (by decide)

/-- No bit and one level in each interval: the average is the square of the level. -/
theorem compute_power_one : compute_power 0 (List.replicate 6 [8]) = none ∧
    averagePower 0 (List.replicate 6 [8]) = 64 :=
  ⟨by decide, by decide⟩

end QFax.Linmodem

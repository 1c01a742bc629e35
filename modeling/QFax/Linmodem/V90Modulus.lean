import QFax.Linmodem.V90Ring

/-!
# V.90: the data bits of a frame

Without look-ahead the six samples of a frame carry its `K` data bits: division by the six ring
counts, the two tables and the binary search are undone one by one.  The word of `K` bits itself is
built in `int` arithmetic, which is defined for 31 bits, and for 32 when the last one is zero.
-/

namespace QFax.Linmodem

open Bits MixedRadix

/-! ## Packing the bits -/

/-- The data bits of a frame. -/
def dataBits (p : V90Params) (data : Nat → Bool) : List Bool :=
  (List.range p.K).map fun i => data (i + p.S)

theorem shiftInt_eq (data : Bool) {i : Nat} (defined : i < 31 ∨ (i = 31 ∧ data = false)) :
    shiftInt data i = some (data.toNat * 2 ^ i) := by
  refine if_pos ⟨by omega, ?_⟩
  rcases defined with low | ⟨rfl, rfl⟩
  · have power : 2 ^ i < 2 ^ 31 := Nat.pow_lt_pow_right (by decide) low
    cases data
    · simp
    · rwa [Bool.toNat_true, Nat.one_mul]
  · decide

theorem shiftInt_none (data : Bool) {i : Nat} (undefined : ¬ (i < 31 ∨ (i = 31 ∧ data = false))) :
    shiftInt data i = none := by
  refine if_neg fun ⟨narrow, fits⟩ => ?_
  obtain rfl : i = 31 := by omega
  cases data
  · exact undefined (Or.inr ⟨rfl, rfl⟩)
  · exact absurd fits (by decide)

/-- The `K` bits can be packed. -/
def Packable (p : V90Params) (data : Nat → Bool) : Prop :=
  p.K ≤ 31 ∨ (p.K = 32 ∧ data (p.S + 31) = false)

instance (p : V90Params) (data : Nat → Bool) : Decidable (Packable p data) :=
  inferInstanceAs (Decidable (_ ∨ _))

section Pack

variable (bit : Nat → Bool)

/-- Packing the first `k` bits. -/
def packFirst (k : Nat) : Option Nat :=
  (List.range k).foldlM (fun v i => (shiftInt (bit i) i).map (v ||| ·)) 0

theorem packFirst_succ (k : Nat) :
    packFirst bit (k + 1) = (packFirst bit k).bind fun v => (shiftInt (bit k) k).map (v ||| ·) := by
  simp [packFirst, List.range_succ, List.foldlM_append]

/-- The packed bits are the word of the bits. -/
theorem packFirst_eq {k : Nat} (defined : ∀ i < k, i < 31 ∨ (i = 31 ∧ bit i = false)) :
    packFirst bit k = some (word ((List.range k).map bit)) := by
  induction k with
  | zero => rfl
  | succ k ih =>
    have bound := word_lt ((List.range k).map bit)
    rw [List.length_map, List.length_range] at bound
    have joined := Nat.two_pow_add_eq_or_of_lt bound (bit k).toNat
    rw [packFirst_succ, ih fun i lt => defined i (by omega), Option.bind_some,
      shiftInt_eq _ (defined k (by omega)), Option.map_some, List.range_succ, List.map_append,
      word_append, List.length_map, List.length_range, Nat.or_comm, Nat.mul_comm, ← joined]
    simp [word, Nat.add_comm]

theorem packFirst_none {k i : Nat} (inside : i < k)
    (undefined : ¬ (i < 31 ∨ (i = 31 ∧ bit i = false))) : packFirst bit k = none := by
  induction k with
  | zero => omega
  | succ k ih =>
    rw [packFirst_succ]
    rcases Nat.lt_or_ge i k with earlier | last
    · rw [ih earlier, Option.bind_none]
    · obtain rfl : i = k := by omega
      rw [shiftInt_none _ undefined]
      cases packFirst bit i <;> rfl

end Pack

theorem packBits_eq {p : V90Params} {data : Nat → Bool} (packable : Packable p data) :
    packBits p data = some (word (dataBits p data)) := by
  refine packFirst_eq (fun i => data (i + p.S)) fun i inside => ?_
  rcases packable with few | ⟨all, zero⟩
  · omega
  · rcases Nat.lt_or_ge i 31 with low | high
    · exact Or.inl low
    · obtain rfl : i = 31 := by omega
      exact Or.inr ⟨rfl, by rwa [Nat.add_comm]⟩

theorem packBits_none {p : V90Params} {data : Nat → Bool} (wide : ¬ Packable p data) :
    packBits p data = none := by
  rcases Nat.lt_or_ge p.K 33 with few | many
  · obtain all : p.K = 32 := by
      by_contra other
      exact wide (Or.inl (by omega))
    refine packFirst_none (fun i => data (i + p.S)) (i := 31) (by omega) ?_
    rintro (low | ⟨-, zero⟩)
    · omega
    · exact wide (Or.inr ⟨all, by rwa [Nat.add_comm]⟩)
  · exact packFirst_none (fun i => data (i + p.S)) (i := 32) (by omega) (by omega)

/-! ## Rings -/

/-- The ucodes of a number are those of its digits. -/
theorem mapRings_eq {cs : List Constellation} (positive : ∀ c ∈ cs, 0 < c.M) (v : Nat) :
    mapRings cs v =
      some (List.zipWith (fun c d => c.ucodes.getD d 0) cs (split (cs.map (·.M)) v)) := by
  induction cs generalizing v with
  | nil => rfl
  | cons c cs ih =>
    have here := positive c List.mem_cons_self
    rw [mapRings, if_neg (by omega), ih fun d inTail => positive d (List.mem_cons_of_mem _ inTail)]
    rfl

section Search

variable {tab : List Int} {k : Nat}

theorem filled_eq {i : Int} (low : 0 ≤ i) (high : i < tab.length) :
    filled tab i = some (getElem tab i.toNat (by omega)) := by
  rw [filled, if_neg (by omega), List.getElem?_eq_getElem (by omega)]

/-- The search for an entry of a decreasing table finds it. -/
theorem searchLevel_eq (descending : tab.Pairwise (· > ·)) (inside : k < tab.length) {fuel : Nat}
    {m_min m_max : Int} (low : 0 ≤ m_min) (high : m_max < tab.length) (left : m_min ≤ k)
    (right : (k : Int) ≤ m_max) (enough : m_max - m_min < fuel) :
    searchLevel tab tab[k] fuel m_min m_max = some (k : Int) := by
  induction fuel generalizing m_min m_max with
  | zero => omega
  | succ fuel ih =>
    have lower : m_min ≤ (m_min + m_max) / 2 := by omega
    have upper : (m_min + m_max) / 2 ≤ m_max := by omega
    have strict := List.pairwise_iff_getElem.mp descending
    rw [searchLevel, if_pos (by omega)]
    generalize (m_min + m_max) / 2 = m at lower upper ⊢
    simp only [filled_eq (show 0 ≤ m by omega) (show m < tab.length by omega),
      Option.bind_eq_bind, Option.bind_some]
    rcases lt_trichotomy m.toNat k with before | same | after
    · have greater := strict m.toNat k (by omega) inside before
      rw [if_neg (by omega), if_neg (by omega)]
      exact ih (by omega) high (by omega) right (by omega)
    · subst same
      rw [if_pos rfl]
      simp only [Option.some.injEq]
      omega
    · have less := strict k m.toNat inside (by omega) after
      rw [if_neg (by omega), if_pos less]
      exact ih low (by omega) left (by omega) (by omega)

end Search

/-- The sign of a sample does not change its magnitude. -/
theorem magnitude_eq (sign : Bool) {x : Int} (level : 0 ≤ x) :
    (if (if sign then x else -x) < 0 then -(if sign then x else -x) else if sign then x else -x) =
      x := by
  cases sign <;> simp <;> omega

/-- The ring of a level is found whatever its sign. -/
theorem ringOf_eq (alaw : Bool) (c : Constellation) {d : Nat} (inside : d < c.M) (sign : Bool) :
    ringOf alaw c (if sign then ucode_to_linear alaw (c.ucodes.getD d 0)
      else -ucode_to_linear alaw (c.ucodes.getD d 0)) = some d := by
  have level := ucode_to_linear_nonneg alaw (c.ucodes.getD d 0)
  have length := c.length_m_to_linear alaw
  have entry : getElem (c.m_to_linear alaw) d (by rw [length]; exact inside) =
      ucode_to_linear alaw (c.ucodes.getD d 0) := by
    simp [Constellation.m_to_linear, List.getD_eq_getElem?_getD, show d < c.ucodes.length from inside]
  have found : searchLevel (c.m_to_linear alaw)
      (getElem (c.m_to_linear alaw) d (by rw [length]; exact inside))
      ((c.m_to_linear alaw).length + 1) 0 (c.M - 1) = some (d : Int) :=
    searchLevel_eq (c.m_to_linear_descending alaw) (by rw [length]; exact inside) le_rfl
      (by omega) (Int.natCast_nonneg d) (by omega) (by omega)
  rw [entry] at found
  have magnitude := magnitude_eq sign level.1
  simp only [ringOf, magnitude, found, Option.bind_eq_bind, Option.bind_some, Int.toNat_natCast]

end QFax.Linmodem

import Mathlib.Algebra.Order.BigOperators.Group.Finset
import Mathlib.Analysis.Real.Pi.Bounds
import QFax.Linmodem.Fsk

/-!
# FSK discrimination in 32 bits

The demodulator compares the energy of its window at two frequencies, in the arithmetic of `int`.  The
shift that `FSK_demod_init` chooses keeps the dot products within 32 bits, but not their squares: with a
loud signal they overflow, and the demodulator may take a one for a zero (`fsk_energy_iff`).
-/

namespace QFax.Linmodem

open SlidingWindow

/-! ## Exact values -/

/-- A value that an `int` can have. -/
def FitsInt (x : Int) : Prop := -2 ^ 31 ≤ x ∧ x < 2 ^ 31

def dot (w filter : Nat → Int) (n : Nat) : Int := ∑ i ∈ Finset.range n, w i * filter i

section Energies

variable (v : FskSettings) (k : FskFilters) (w : Nat → Int)

/-- The correlation of a window with a filter. -/
def level (filter : Nat → Int) : Int := dot w filter v.filter_size >>> COS_BITS

def energyHi : Int := level v w k.filter_hi_i ^ 2 + level v w k.filter_hi_q ^ 2

def energyLo : Int := level v w k.filter_lo_i ^ 2 + level v w k.filter_lo_q ^ 2

def FskFilters.all : List (Nat → Int) := [k.filter_hi_i, k.filter_hi_q, k.filter_lo_i, k.filter_lo_q]

/-- Everything that is computed from a window fits, so that the energies are compared as they should
be. -/
structure Discriminates : Prop where
  dots : ∀ filter ∈ k.all, ∀ n ≤ v.filter_size, FitsInt (dot w filter n)
  squares : ∀ filter ∈ k.all, FitsInt (level v w filter ^ 2)
  hi : FitsInt (energyHi v k w)
  rest : FitsInt (energyHi v k w - level v w k.filter_lo_i ^ 2)
  total : FitsInt (energyHi v k w - energyLo v k w)
  decision : FskDemod.newsample v k w = true ↔ energyLo v k w < energyHi v k w

/-- A window that is not too loud at either frequency. -/
structure Moderate : Prop where
  hi : energyHi v k w < 2 ^ 31
  lo_i : level v w k.filter_lo_i ^ 2 < 2 ^ 31
  lo_q : level v w k.filter_lo_q ^ 2 < 2 ^ 31
  lo : energyLo v k w ≤ energyHi v k w + 2 ^ 31

end Energies

/-! ## In 32 bits -/

section Machine

variable {v : FskSettings} {k : FskFilters} {w w' filter : Nat → Int}

theorem toInt_ofInt_fits {x : Int} (fits : FitsInt x) : (BitVec.ofInt 32 x).toInt = x := by
  rw [BitVec.toInt_ofInt]
  exact Int.bmod_eq_of_le (by have := fits.1; omega) (by have := fits.2; omega)

theorem dsp_dot_prod_eq (w filter : Nat → Int) (n : Nat) :
    dsp_dot_prod w filter n 0 = BitVec.ofInt 32 (dot w filter n) := by
  induction n with
  | zero => rfl
  | succ n ih =>
    have last : dot w filter (n + 1) = dot w filter n + w n * filter n := Finset.sum_range_succ _ _
    rw [dsp_dot_prod, ih, last, BitVec.ofInt_add]

theorem corr_eq (fits : FitsInt (dot w filter v.filter_size)) :
    FskDemod.corr v w filter = BitVec.ofInt 32 (level v w filter) := by
  have shifted : FitsInt (level v w filter) := by
    obtain ⟨low, high⟩ := fits
    unfold FitsInt level COS_BITS
    rw [Int.shiftRight_eq_div_pow]
    omega
  apply BitVec.eq_of_toInt_eq
  rw [FskDemod.corr, dsp_dot_prod_eq, BitVec.toInt_sshiftRight, toInt_ofInt_fits fits,
    toInt_ofInt_fits shifted, level]

theorem sum_eq (dots : ∀ filter ∈ k.all, ∀ n ≤ v.filter_size, FitsInt (dot w filter n)) :
    FskDemod.sum v k w = BitVec.ofInt 32 (energyHi v k w - energyLo v k w) := by
  have whole : ∀ filter ∈ k.all, FskDemod.corr v w filter = BitVec.ofInt 32 (level v w filter) :=
    fun filter member => corr_eq (dots filter member _ (Nat.le_refl _))
  unfold FskFilters.all at whole
  have total : energyHi v k w - energyLo v k w = level v w k.filter_hi_i * level v w k.filter_hi_i +
      level v w k.filter_hi_q * level v w k.filter_hi_q - level v w k.filter_lo_i * level v w k.filter_lo_i -
      level v w k.filter_lo_q * level v w k.filter_lo_q := by
    rw [energyHi, energyLo]
    ring
  rw [FskDemod.sum, whole _ (by simp), whole _ (by simp), whole _ (by simp), whole _ (by simp), total]
  simp only [Int.sub_eq_add_neg, BitVec.sub_eq_add_neg, BitVec.ofInt_add, BitVec.ofInt_neg,
    BitVec.ofInt_mul]

/-- Where the dot products fit, the rest of it does exactly for a moderate window. -/
theorem discriminates_iff (dots : ∀ filter ∈ k.all, ∀ n ≤ v.filter_size, FitsInt (dot w filter n)) :
    Discriminates v k w ↔ Moderate v k w := by
  have squares : ∀ filter, 0 ≤ level v w filter ^ 2 := fun filter => sq_nonneg _
  have hi_i := squares k.filter_hi_i
  have hi_q := squares k.filter_hi_q
  have lo_i := squares k.filter_lo_i
  have lo_q := squares k.filter_lo_q
  constructor
  · intro fits
    have member : k.filter_lo_i ∈ k.all ∧ k.filter_lo_q ∈ k.all := by simp [FskFilters.all]
    have total := fits.total.1
    exact ⟨fits.hi.2, (fits.squares _ member.1).2, (fits.squares _ member.2).2, by omega⟩
  · intro moderate
    obtain ⟨hi, lo_i_fits, lo_q_fits, lo⟩ := moderate
    have total : FitsInt (energyHi v k w - energyLo v k w) := by
      unfold FitsInt energyLo at *
      omega
    refine ⟨dots, ?_, ?_, ?_, total, ?_⟩
    · intro filter member
      unfold energyHi at hi
      simp only [FskFilters.all, List.mem_cons, List.not_mem_nil, or_false] at member
      unfold FitsInt
      rcases member with rfl | rfl | rfl | rfl <;> constructor <;> omega
    · unfold FitsInt energyHi at *
      omega
    · unfold FitsInt energyHi at *
      omega
    · rw [FskDemod.newsample, decide_eq_true_iff, sum_eq dots, toInt_ofInt_fits total]
      omega

/-- Only the cells of the window count. -/
theorem dot_congr {n : Nat} (same : ∀ i < n, w i = w' i) (filter : Nat → Int) :
    dot w filter n = dot w' filter n :=
  Finset.sum_congr rfl fun i inside => by rw [same i (Finset.mem_range.mp inside)]

theorem newsample_congr (same : ∀ i < v.filter_size, w i = w' i) :
    FskDemod.newsample v k w = FskDemod.newsample v k w' := by
  have corrs : FskDemod.corr v w = FskDemod.corr v w' := by
    funext filter
    rw [FskDemod.corr, FskDemod.corr, dsp_dot_prod_eq, dsp_dot_prod_eq, dot_congr same]
  rw [FskDemod.newsample, FskDemod.newsample, FskDemod.sum, FskDemod.sum, corrs]

theorem discriminates_congr (same : ∀ i < v.filter_size, w i = w' i) :
    Discriminates v k w ↔ Discriminates v k w' := by
  have dots : ∀ filter, ∀ n ≤ v.filter_size, dot w filter n = dot w' filter n :=
    fun filter n le => dot_congr (fun i lt => same i (Nat.lt_of_lt_of_le lt le)) filter
  have levels : level v w = level v w' := by
    funext filter
    rw [level, level, dots filter _ (Nat.le_refl _)]
  have machine : FskDemod.newsample v k w = FskDemod.newsample v k w' := newsample_congr same
  have hi : energyHi v k w = energyHi v k w' := by rw [energyHi, energyHi, levels]
  have lo : energyLo v k w = energyLo v k w' := by rw [energyLo, energyLo, levels]
  constructor
  · rintro ⟨fit, squares, sum, rest, total, decision⟩
    rw [levels] at squares rest
    rw [hi] at sum rest total decision
    rw [lo] at total decision
    rw [machine] at decision
    exact ⟨fun f member n le => dots f n le ▸ fit f member n le, squares, sum, rest, total, decision⟩
  · rintro ⟨fit, squares, sum, rest, total, decision⟩
    rw [← levels] at squares rest
    rw [← hi] at sum rest total decision
    rw [← lo] at total decision
    rw [← machine] at decision
    exact ⟨fun f member n le => (dots f n le).symm ▸ fit f member n le, squares, sum, rest, total,
      decision⟩

/-- A dot product is no larger than its length times the largest product. -/
theorem abs_dot_le {a b : Int} (positive : 0 ≤ a) {n : Nat} (small : ∀ i < n, |w i| ≤ a)
    (table : ∀ i, |filter i| ≤ b) : |dot w filter n| ≤ n * (a * b) := by
  induction n with
  | zero => rw [dot, Finset.sum_range_zero, abs_zero, Nat.cast_zero, zero_mul]
  | succ n ih =>
    have before := ih fun i lt => small i (Nat.lt_succ_of_lt lt)
    have product : |w n * filter n| ≤ a * b := by
      rw [abs_mul]
      exact mul_le_mul (small n (Nat.lt_succ_self n)) (table n) (abs_nonneg _) positive
    calc |dot w filter (n + 1)| = |dot w filter n + w n * filter n| := by
          rw [dot, Finset.sum_range_succ, dot]
      _ ≤ |dot w filter n| + |w n * filter n| := abs_add_le _ _
      _ ≤ n * (a * b) + a * b := add_le_add before product
      _ = (n + 1 : Nat) * (a * b) := by push_cast; ring

theorem dots_fit {a : Int} (positive : 0 ≤ a) (small : ∀ i < v.filter_size, |w i| ≤ a)
    (table : ∀ filter ∈ k.all, ∀ i, |filter i| ≤ COS_BASE)
    (room : v.filter_size * (a * COS_BASE) < 2 ^ 31) :
    ∀ filter ∈ k.all, ∀ n ≤ v.filter_size, FitsInt (dot w filter n) := by
  intro filter member n le
  have bound := abs_dot_le positive (fun i lt => small i (Nat.lt_of_lt_of_le lt le)) (table filter member)
  have more : (n : Int) * (a * COS_BASE) ≤ v.filter_size * (a * COS_BASE) :=
    mul_le_mul_of_nonneg_right (by exact_mod_cast le) (mul_nonneg positive (by decide))
  rw [abs_le] at bound
  unfold FitsInt
  omega

end Machine

/-! ## The windows of a stream -/

section Windows

variable {v : FskSettings} {k : FskFilters}

/-- The largest sample behind the shift. -/
def FskSettings.peak (v : FskSettings) : Int := 2 ^ 15 / 2 ^ v.shift.toNat

/-- The latest samples of a stream, as the filter takes them. -/
def wave (v : FskSettings) (xs : List (BitVec 16)) : Nat → Int :=
  fun i => (latest v.filter_size 0 (xs.map (FskDemod.scaled v))).getD i 0

/-- The shift leaves room for the sum of as many products as the window is long. -/
theorem FskLine.room (line : FskLine) :
    (line.settings.filter_size : Int) * (line.settings.peak * COS_BASE) < 2 ^ 31 := by
  cases line with
  | v21 calling => cases calling <;> decide
  | v23 calling => cases calling <;> decide

theorem FskLine.shift_le (line : FskLine) : line.settings.shift.toNat ≤ 15 := by
  cases line with
  | v21 calling => cases calling <;> decide
  | v23 calling => cases calling <;> decide

/-- Shifting is rounding down, so that a bound on a sample is a bound on what is left of it. -/
theorem scaled_bound {c : Int} {x : BitVec 16} (low : -(c * 2 ^ v.shift.toNat) ≤ x.toInt)
    (high : x.toInt ≤ c * 2 ^ v.shift.toNat) : |FskDemod.scaled v x| ≤ c := by
  have positive : (0 : Int) < ((2 ^ v.shift.toNat : Nat) : Int) := by exact_mod_cast Nat.two_pow_pos _
  rw [FskDemod.scaled, Int.shiftRight_eq_div_pow, abs_le]
  constructor
  · apply Int.le_ediv_of_mul_le positive
    rw [Int.neg_mul]
    exact_mod_cast low
  · apply Int.ediv_le_of_le_mul positive
    exact_mod_cast high

theorem scaled_le (line : FskLine) (x : BitVec 16) :
    |FskDemod.scaled line.settings x| ≤ line.settings.peak := by
  have low : -2 ^ 15 ≤ x.toInt := BitVec.le_toInt x
  have high : x.toInt < 2 ^ 15 := BitVec.toInt_lt
  have whole : line.settings.peak * 2 ^ line.settings.shift.toNat = 2 ^ 15 :=
    Int.ediv_mul_cancel (pow_dvd_pow 2 line.shift_le)
  apply scaled_bound <;> rw [whole] <;> omega

/-- What a window of the stream is made of. -/
theorem wave_le {a : Int} (positive : 0 ≤ a) {xs : List (BitVec 16)}
    (small : ∀ x ∈ xs, |FskDemod.scaled v x| ≤ a) (i : Nat) : |wave v xs i| ≤ a := by
  unfold wave
  rw [List.getD_eq_getElem?_getD]
  cases entry : (latest v.filter_size 0 (xs.map (FskDemod.scaled v)))[i]? with
  | none => exact positive
  | some y =>
    have member : y ∈ List.replicate v.filter_size 0 ++ xs.map (FskDemod.scaled v) :=
      List.mem_of_mem_drop (List.mem_of_getElem? entry)
    rcases List.mem_append.mp member with fill | scaled
    · rw [List.eq_of_mem_replicate fill]
      exact positive
    · obtain ⟨x, taken, rfl⟩ := List.mem_map.mp scaled
      exact small x taken

/-- The cells before the pointer are the window of the stream. -/
theorem slice_eq (sane : v.Sane) (before : List (BitVec 16)) (x : BitVec 16) :
    ∀ i < v.filter_size, ((FSK_demod v k before (FSK_demod_init v)).2.insert v x).slice v i =
      wave v (before ++ [x]) i := by
  intro i lt
  have window := (insert_window (k := k) sane before x).2
  rw [wave, ← window, SlidingWindow.window, List.getD_eq_getElem?_getD, List.getElem?_map,
    List.getElem?_range lt]
  rfl

end Windows

/-! ## The filters -/

/-- The conversion to an integer, which cuts off the fraction. -/
noncomputable def truncate (x : ℝ) : Int := if 0 ≤ x then ⌊x⌋ else ⌈x⌉

namespace FskSettings

variable (v : FskSettings)

/-- The phase of a frequency at a sample. -/
noncomputable def phase (f i : Nat) : ℝ := 2 * Real.pi * f * i / v.sample_rate

/-- The filters that `FSK_demod_init` computes. -/
noncomputable def filters : FskFilters where
  filter_lo_i i := truncate (Real.cos (v.phase v.f_lo i) * COS_BASE)
  filter_lo_q i := truncate (Real.sin (v.phase v.f_lo i) * COS_BASE)
  filter_hi_i i := truncate (Real.cos (v.phase v.f_hi i) * COS_BASE)
  filter_hi_q i := truncate (Real.sin (v.phase v.f_hi i) * COS_BASE)

end FskSettings

/-- A value between two integers is so behind the conversion. -/
theorem truncate_bounds {x : ℝ} {a b : Int} (low : a ≤ x) (high : x ≤ b) :
    a ≤ truncate x ∧ truncate x ≤ b := by
  unfold truncate
  split
  · exact ⟨Int.le_floor.mpr low, Int.floor_le_iff.mpr (lt_of_le_of_lt high (by linarith))⟩
  · exact ⟨Int.le_ceil_iff.mpr (by linarith), Int.ceil_le.mpr high⟩

theorem truncate_unit {x : ℝ} (low : -1 ≤ x) (high : x ≤ 1) : |truncate (x * COS_BASE)| ≤ COS_BASE := by
  have base : (0 : ℝ) ≤ (COS_BASE : ℝ) := Nat.cast_nonneg _
  obtain ⟨lower, upper⟩ := truncate_bounds (x := x * COS_BASE) (a := -COS_BASE) (b := COS_BASE)
    (by push_cast; nlinarith) (by push_cast; nlinarith)
  exact abs_le.mpr ⟨lower, upper⟩

theorem filters_le (v : FskSettings) : ∀ filter ∈ v.filters.all, ∀ i, |filter i| ≤ COS_BASE := by
  intro filter member i
  simp only [FskFilters.all, List.mem_cons, List.not_mem_nil, or_false] at member
  rcases member with rfl | rfl | rfl | rfl
  · exact truncate_unit (Real.neg_one_le_cos _) (Real.cos_le_one _)
  · exact truncate_unit (Real.neg_one_le_sin _) (Real.sin_le_one _)
  · exact truncate_unit (Real.neg_one_le_cos _) (Real.cos_le_one _)
  · exact truncate_unit (Real.neg_one_le_sin _) (Real.sin_le_one _)

/-! ## Loud and quiet streams -/

/-- The dot products of a stream fit. -/
theorem wave_dots (line : FskLine) (xs : List (BitVec 16)) : ∀ filter ∈ line.settings.filters.all,
    ∀ n ≤ line.settings.filter_size, FitsInt (dot (wave line.settings xs) filter n) := by
  have peak : 0 ≤ line.settings.peak := Int.ediv_nonneg (by decide) (by positivity)
  exact dots_fit peak (fun i _ => wave_le peak (fun y _ => scaled_le line y) i) (filters_le line.settings)
    line.room

/-- A window of a stream is discriminated exactly if it is moderate. -/
theorem window_discriminates_iff (line : FskLine) (before : List (BitVec 16)) (x : BitVec 16) :
    Discriminates line.settings line.settings.filters
        (((FSK_demod line.settings line.settings.filters before (FSK_demod_init line.settings)).2.insert
          line.settings x).slice line.settings) ↔
      Moderate line.settings line.settings.filters (wave line.settings (before ++ [x])) := by
  rw [discriminates_congr (slice_eq line.sane before x)]
  exact discriminates_iff (wave_dots line (before ++ [x]))

/-- For every stream of samples, a line discriminates all its windows in 32 bits if and only if all
of them are moderate. -/
theorem fsk_energy_iff (line : FskLine) (stream : List (BitVec 16)) :
    let v := line.settings
    (∀ before x later, stream = before ++ x :: later → Discriminates v v.filters
      (((FSK_demod v v.filters before (FSK_demod_init v)).2.insert v x).slice v)) ↔
    ∀ before x later, stream = before ++ x :: later →
      Moderate v v.filters (wave v (before ++ [x])) := by
  intro v
  constructor
  · intro discriminates before x later split
    exact (window_discriminates_iff line before x).mp (discriminates before x later split)
  · intro moderate before x later split
    exact (window_discriminates_iff line before x).mpr (moderate before x later split)

/-- No window of a quiet stream is too loud. -/
theorem quiet_moderate (line : FskLine) {stream : List (BitVec 16)}
    (quiet : ∀ x ∈ stream, |x.toInt| ≤ 9888) :
    Moderate line.settings line.settings.filters (wave line.settings stream) := by
  let c : Int := 9888 / 2 ^ line.settings.shift.toNat
  have parts : c * 2 ^ line.settings.shift.toNat = 9888 ∧ line.settings.filter_size * c ≤ 32767 ∧
    0 ≤ c := by
    cases line with
    | v21 calling => cases calling <;> exact ⟨by decide, by decide, by decide⟩
    | v23 calling => cases calling <;> exact ⟨by decide, by decide, by decide⟩
  obtain ⟨whole, room, positive⟩ := parts
  have small : ∀ x ∈ stream, |FskDemod.scaled line.settings x| ≤ c := by
    intro x member
    have bound := abs_le.mp (quiet x member)
    apply scaled_bound <;> rw [whole] <;> omega
  have levels : ∀ filter ∈ line.settings.filters.all,
      level line.settings (wave line.settings stream) filter ^ 2 ≤ 32767 ^ 2 := by
    intro filter member
    have bound := abs_dot_le positive (n := line.settings.filter_size)
      (fun i _ => wave_le positive small i) (filters_le line.settings filter member)
    have total : (line.settings.filter_size : Int) * (c * COS_BASE) ≤ 32767 * COS_BASE := by
      rw [← mul_assoc]
      exact mul_le_mul_of_nonneg_right room (by decide)
    have base : (COS_BASE : Int) = 16384 := rfl
    rw [abs_le] at bound
    apply sq_le_sq'
    all_goals
      rw [level, Int.shiftRight_eq_div_pow, COS_BITS]
      omega
  simp only [FskFilters.all, List.forall_mem_cons] at levels
  obtain ⟨hi_i, hi_q, lo_i, lo_q, -⟩ := levels
  have squares : ∀ filter, 0 ≤ level line.settings (wave line.settings stream) filter ^ 2 :=
    fun filter => sq_nonneg _
  have hi_i' := squares line.settings.filters.filter_hi_i
  have hi_q' := squares line.settings.filters.filter_hi_q
  refine ⟨?_, by omega, by omega, ?_⟩
  · rw [energyHi]
    omega
  · rw [energyLo, energyHi]
    omega

/-- About ten decibels below full scale there is nothing to fear. -/
theorem quiet_discriminates (line : FskLine) {stream : List (BitVec 16)}
    (quiet : ∀ x ∈ stream, |x.toInt| ≤ 9888)
    {before later : List (BitVec 16)} {x : BitVec 16} (split : stream = before ++ x :: later) :
    Discriminates line.settings line.settings.filters
      (((FSK_demod line.settings line.settings.filters before (FSK_demod_init line.settings)).2.insert
        line.settings x).slice line.settings) := by
  apply (window_discriminates_iff line before x).mpr
  apply quiet_moderate
  intro y member
  apply quiet y
  rw [split, List.append_cons]
  exact List.mem_append_left later member

/-! ## A tone at full scale -/

section Trigonometry

variable {x lo hi : ℝ}

theorem power_le (start : 0 ≤ lo) (low : lo ≤ x) (high : x ≤ hi) (n : Nat) : |x| ^ n ≤ hi ^ n := by
  rw [abs_of_nonneg (by linarith)]
  exact pow_le_pow_left₀ (by linarith) high n

theorem cos_near (start : 0 ≤ lo) (low : lo ≤ x) (high : x ≤ hi) (unit : hi ≤ 1) :
    1 - hi ^ 2 / 2 - hi ^ 4 * (5 / 96) ≤ Real.cos x ∧
      Real.cos x ≤ 1 - lo ^ 2 / 2 + hi ^ 4 * (5 / 96) := by
  have near := abs_le.mp (Real.cos_bound (abs_le.mpr ⟨by linarith, by linarith⟩ : |x| ≤ 1))
  have rest := power_le start low high 4
  have upper : x ^ 2 ≤ hi ^ 2 := pow_le_pow_left₀ (by linarith) high 2
  have lower : lo ^ 2 ≤ x ^ 2 := pow_le_pow_left₀ start low 2
  constructor <;> linarith [near.1, near.2]

theorem sin_near (start : 0 ≤ lo) (low : lo ≤ x) (high : x ≤ hi) (unit : hi ≤ 1) :
    lo - hi ^ 3 / 6 - hi ^ 5 / 100 ≤ Real.sin x ∧ Real.sin x ≤ hi - lo ^ 3 / 6 + hi ^ 5 / 100 := by
  have near := abs_le.mp (Real.sin_bound (abs_le.mpr ⟨by linarith, by linarith⟩ : |x| ≤ 1))
  have rest := power_le start low high 5
  have upper : x ^ 3 ≤ hi ^ 3 := pow_le_pow_left₀ (by linarith) high 3
  have lower : lo ^ 3 ≤ x ^ 3 := pow_le_pow_left₀ start low 3
  constructor <;> linarith [near.1, near.2]

/-- A part of half a turn, and its cosine and sine. -/
theorem pi_div_near {d : ℝ} (large : 4 ≤ d) :
    (1 - (3.1416 / d) ^ 2 / 2 - (3.1416 / d) ^ 4 * (5 / 96) ≤ Real.cos (Real.pi / d) ∧
      Real.cos (Real.pi / d) ≤ 1 - (3.1415 / d) ^ 2 / 2 + (3.1416 / d) ^ 4 * (5 / 96)) ∧
    3.1415 / d - (3.1416 / d) ^ 3 / 6 - (3.1416 / d) ^ 5 / 100 ≤ Real.sin (Real.pi / d) ∧
      Real.sin (Real.pi / d) ≤ 3.1416 / d - (3.1415 / d) ^ 3 / 6 + (3.1416 / d) ^ 5 / 100 := by
  have positive : 0 < d := by linarith
  have start : 0 ≤ 3.1415 / d := by positivity
  have low : 3.1415 / d ≤ Real.pi / d := div_le_div_of_nonneg_right Real.pi_gt_d4.le positive.le
  have high : Real.pi / d ≤ 3.1416 / d := div_le_div_of_nonneg_right Real.pi_lt_d4.le positive.le
  have unit : 3.1416 / d ≤ 1 := by
    rw [div_le_one positive]
    linarith
  exact ⟨cos_near start low high unit, sin_near start low high unit⟩

end Trigonometry

/-- The faster half of V.23. -/
def fastLine : FskSettings := V23_demod_init true

/-- A quarter turn for each sample, roughly: the higher frequency at full scale. -/
def loudTone : List (BitVec 16) := [32767, 0, -32768, 0, 32767, -32768]

/-- The phases of `loudTone` at the higher frequency, in the first quarter. -/
theorem phase_hi : fastLine.phase fastLine.f_hi 2 = Real.pi / 20 + Real.pi ∧
    fastLine.phase fastLine.f_hi 4 = Real.pi / 10 + 2 * Real.pi ∧
    fastLine.phase fastLine.f_hi 5 = Real.pi / 8 + Real.pi / 2 + 2 * Real.pi := by
  simp only [FskSettings.phase, fastLine, V23_demod_init, FSK_SAMPLE_RATE]
  norm_num
  refine ⟨by ring, by ring, by ring⟩

theorem phase_lo : fastLine.phase fastLine.f_lo 2 = Real.pi / (20 / 3) + Real.pi / 2 ∧
    fastLine.phase fastLine.f_lo 4 = Real.pi / 2 - Real.pi / 5 + Real.pi ∧
    fastLine.phase fastLine.f_lo 5 = Real.pi / 8 + Real.pi / 2 + Real.pi := by
  simp only [FskSettings.phase, fastLine, V23_demod_init, FSK_SAMPLE_RATE]
  norm_num
  refine ⟨by ring, by ring, by ring⟩

/-- A table entry between two integers. -/
def Entry (a b n : Int) : Prop := a ≤ n ∧ n ≤ b

theorem entry_of {x : ℝ} {a b : Int} (low : (a : ℝ) / 16384 ≤ x) (high : x ≤ (b : ℝ) / 16384) :
    Entry a b (truncate (x * COS_BASE)) := by
  have base : COS_BASE = 16384 := rfl
  rw [div_le_iff₀ (by norm_num)] at low
  rw [le_div_iff₀ (by norm_num)] at high
  rw [base, Nat.cast_ofNat]
  exact truncate_bounds low high

theorem entries_hi : Entry (-16200) (-16150) (fastLine.filters.filter_hi_i 2) ∧
    Entry 15560 15610 (fastLine.filters.filter_hi_i 4) ∧
      Entry (-6300) (-6240) (fastLine.filters.filter_hi_i 5) ∧
    Entry (-2600) (-2530) (fastLine.filters.filter_hi_q 2) ∧
      Entry 5030 5100 (fastLine.filters.filter_hi_q 4) ∧
    Entry 15090 15165 (fastLine.filters.filter_hi_q 5) := by
  obtain ⟨two, four, five⟩ := phase_hi
  have near2 := pi_div_near (d := 20) (by norm_num)
  have near4 := pi_div_near (d := 10) (by norm_num)
  have near5 := pi_div_near (d := 8) (by norm_num)
  norm_num at near2 near4 near5
  simp only [FskSettings.filters, two, four, five, Real.cos_add_pi, Real.sin_add_pi,
    Real.cos_add_two_pi,
    Real.sin_add_two_pi, Real.cos_add_pi_div_two, Real.sin_add_pi_div_two]
  refine ⟨?_, ?_, ?_, ?_, ?_, ?_⟩ <;> apply entry_of <;> norm_num <;> linarith

theorem entries_lo : Entry (-7500) (-7380) (fastLine.filters.filter_lo_i 2) ∧
    Entry (-9780) (-9480) (fastLine.filters.filter_lo_i 4) ∧
      Entry 6240 6300 (fastLine.filters.filter_lo_i 5) ∧
    Entry 14500 14660 (fastLine.filters.filter_lo_q 2) ∧
      Entry (-13400) (-13000) (fastLine.filters.filter_lo_q 4) ∧
    Entry (-15165) (-15090) (fastLine.filters.filter_lo_q 5) := by
  obtain ⟨two, four, five⟩ := phase_lo
  have near2 := pi_div_near (d := 20 / 3) (by norm_num)
  have near4 := pi_div_near (d := 5) (by norm_num)
  have near5 := pi_div_near (d := 8) (by norm_num)
  norm_num at near2 near4 near5
  simp only [FskSettings.filters, two, four, five, Real.cos_add_pi, Real.sin_add_pi,
    Real.cos_add_pi_div_two,
    Real.sin_add_pi_div_two, Real.cos_pi_div_two_sub, Real.sin_pi_div_two_sub]
  refine ⟨?_, ?_, ?_, ?_, ?_, ?_⟩ <;> apply entry_of <;> norm_num <;> linarith

/-- A correlation of `loudTone`, from three entries and the one at the start. -/
theorem loud_level {filter : Nat → Int} : level fastLine (wave fastLine loudTone) filter =
    (16383 * filter 0 - 16384 * filter 2 + 16383 * filter 4 - 16384 * filter 5) / 16384 := by
  have cells : wave fastLine loudTone 0 = 16383 ∧ wave fastLine loudTone 1 = 0 ∧
      wave fastLine loudTone 2 = -16384 ∧ wave fastLine loudTone 3 = 0 ∧
      wave fastLine loudTone 4 = 16383 ∧ wave fastLine loudTone 5 = -16384 := by decide
  have size : fastLine.filter_size = 6 := rfl
  obtain ⟨zero, one, two, three, four, five⟩ := cells
  rw [level, dot, size, Int.shiftRight_eq_div_pow]
  simp only [Finset.sum_range_succ, Finset.sum_range_zero, zero, one, two, three, four, five]
  congr 1
  ring

theorem entries_start (v : FskSettings) : Entry 16384 16384 (v.filters.filter_hi_i 0) ∧
    Entry 0 0 (v.filters.filter_hi_q 0) ∧ Entry 16384 16384 (v.filters.filter_lo_i 0) ∧
    Entry 0 0 (v.filters.filter_lo_q 0) := by
  have start : ∀ f, v.phase f 0 = 0 := by
    intro f
    rw [FskSettings.phase, Nat.cast_zero, mul_zero, zero_div]
  simp only [FskSettings.filters, start, Real.cos_zero, Real.sin_zero]
  refine ⟨?_, ?_, ?_, ?_⟩ <;> apply entry_of <;> norm_num

/-- The tone is heard at the higher frequency, but the sum of the squares is no `int`. -/
theorem loud_energies :
    energyLo fastLine fastLine.filters (wave fastLine loudTone) + 2 ^ 31 ≤
      energyHi fastLine fastLine.filters (wave fastLine loudTone) ∧
    energyHi fastLine fastLine.filters (wave fastLine loudTone) < 2 ^ 32 := by
  obtain ⟨hi_i0, hi_q0, lo_i0, lo_q0⟩ := entries_start fastLine
  obtain ⟨hi_i2, hi_i4, hi_i5, hi_q2, hi_q4, hi_q5⟩ := entries_hi
  obtain ⟨lo_i2, lo_i4, lo_i5, lo_q2, lo_q4, lo_q5⟩ := entries_lo
  unfold Entry at *
  have hi_i : 54000 ≤ level fastLine (wave fastLine loudTone) fastLine.filters.filter_hi_i ∧
      level fastLine (wave fastLine loudTone) fastLine.filters.filter_hi_i ≤ 55000 := by
    rw [loud_level]
    omega
  have hi_q : -8000 ≤ level fastLine (wave fastLine loudTone) fastLine.filters.filter_hi_q ∧
      level fastLine (wave fastLine loudTone) fastLine.filters.filter_hi_q ≤ 8000 := by
    rw [loud_level]
    omega
  have lo_i : -8500 ≤ level fastLine (wave fastLine loudTone) fastLine.filters.filter_lo_i ∧
      level fastLine (wave fastLine loudTone) fastLine.filters.filter_lo_i ≤ 8500 := by
    rw [loud_level]
    omega
  have lo_q : -13300 ≤ level fastLine (wave fastLine loudTone) fastLine.filters.filter_lo_q ∧
      level fastLine (wave fastLine loudTone) fastLine.filters.filter_lo_q ≤ 13300 := by
    rw [loud_level]
    omega
  have large := pow_le_pow_left₀ (by decide) hi_i.1 2
  have most := sq_le_sq' (by omega) hi_i.2
  have side := sq_le_sq' hi_q.1 hi_q.2
  have low := sq_le_sq' lo_i.1 lo_i.2
  have low_side := sq_le_sq' lo_q.1 lo_q.2
  have positive := sq_nonneg (level fastLine (wave fastLine loudTone) fastLine.filters.filter_hi_q)
  unfold energyHi energyLo
  omega

/-- With `loudTone` the higher frequency has the more energy by far, and is not recognised. -/
theorem loud_tone_mistaken :
    energyLo fastLine fastLine.filters (wave fastLine loudTone) <
      energyHi fastLine fastLine.filters (wave fastLine loudTone) ∧
    FskDemod.newsample fastLine fastLine.filters
      (((FSK_demod fastLine fastLine.filters loudTone.dropLast (FSK_demod_init fastLine)).2.insert fastLine
        (-32768)).slice fastLine) = false ∧
    ¬ ∀ before x later, loudTone = before ++ x :: later → Discriminates fastLine fastLine.filters
      (((FSK_demod fastLine fastLine.filters before (FSK_demod_init fastLine)).2.insert fastLine x).slice
        fastLine) := by
  obtain ⟨loud, bounded⟩ := loud_energies
  have positive : 0 ≤ energyLo fastLine fastLine.filters (wave fastLine loudTone) :=
    add_nonneg (sq_nonneg _) (sq_nonneg _)
  have cells := slice_eq (k := fastLine.filters) (FskLine.v23 true).sane loudTone.dropLast (-32768)
  have dots : ∀ filter ∈ fastLine.filters.all, ∀ n ≤ fastLine.filter_size,
      FitsInt (dot (wave fastLine loudTone) filter n) := wave_dots (.v23 true) loudTone
  refine ⟨by omega, ?_, ?_⟩
  · apply (newsample_congr cells).trans
    show FskDemod.newsample fastLine fastLine.filters (wave fastLine loudTone) = false
    rw [FskDemod.newsample, sum_eq dots, BitVec.toInt_ofInt, Int.bmod_def]
    apply decide_eq_false
    omega
  · intro all
    have last : Moderate fastLine fastLine.filters (wave fastLine loudTone) :=
      (window_discriminates_iff (.v23 true) loudTone.dropLast (-32768)).mp (all _ _ [] rfl)
    have quiet := last.hi
    omega

end QFax.Linmodem

import QFax.Efax.RunMerge
import QFax.Efax.RunScale

/-!
# Padding and scaling a scan line

`xpad` keeps the pels of a line up to its new width, and what it adds is white (`Padded`).  `xscale`
moves the end of every run to its scaled position, with the rounding of the whole line and not of the
run, as long as no run gets longer than a `short` holds (`pad_scale_iff`).
-/

namespace QFax.Efax

/-! ## Padding -/

/-- A line with `pad` white pels more, or without its last `-pad` ones. -/
structure Padded (runs : List Int) (pad : Int) (out : List Int) : Prop where
  nonneg : ∀ r ∈ out, 0 ≤ r
  width : out.sum = max 0 (runs.sum + pad)
  cut : pad < 0 → pels .white out = (pels .white runs).take (runs.sum + pad).toNat
  white : 0 ≤ pad → pels .white out = pels .white runs ++ List.replicate pad.toNat Colour.white.bit

/-- Truncation takes runs off the end and puts a part of the last one back. -/
theorem dropPels_split {runs : List Int} {pad : Int} (cut : pad < 0) (width : 0 ≤ runs.sum + pad) :
    ∃ taken run kept, runs = taken ++ run :: kept ∧ (dropPels runs pad).1 = kept ∧
      (dropPels runs pad).2 < run := by
  induction runs generalizing pad with
  | nil =>
    rw [List.sum_nil] at width
    omega
  | cons run runs ih =>
    rw [List.sum_cons] at width
    rw [dropPels, if_pos cut]
    by_cases more : pad + run < 0
    · obtain ⟨taken, run', kept, parts, first, second⟩ := ih more (by omega)
      exact ⟨run :: taken, run', kept, by rw [parts, List.cons_append], first, second⟩
    · refine ⟨[], run, runs, rfl, ?_⟩
      rcases runs with _ | ⟨next, runs⟩
      · rw [dropPels, if_neg more]
        exact ⟨rfl, by dsimp only; omega⟩
      · rw [dropPels, if_neg more]
        exact ⟨rfl, by dsimp only; omega⟩

/-- A run vector whose last run is shortened has the first pels of the line. -/
theorem pels_shorten {kept : List Int} (nonneg : ∀ r ∈ kept, 0 ≤ r) {run p : Int} (pos : 0 ≤ p)
    (lt : p < run) (rest : List Int) :
    pels .white (kept ++ [p]) = (pels .white (kept ++ run :: rest)).take (kept.sum + p).toNat := by
  have size := length_pels .white nonneg
  have count : (kept.sum + p).toNat = (pels .white kept).length + p.toNat := by omega
  have more : run.toNat = p.toNat + (run - p).toNat := by omega
  rw [pels_append, pels_append, pels, pels, pels, List.append_nil, count, List.take_length_add_append,
    more, ← List.replicate_append_replicate, List.append_assoc,
    List.take_left' List.length_replicate]

theorem pels_xpad_cut {runs : List Int} (nonneg : ∀ r ∈ runs, 0 ≤ r) {pad : Int} (cut : pad < 0)
    (lower : 0 ≤ runs.sum + pad) (upper : runs.sum + pad ≤ 32767) :
    pels .white (xpad runs pad) = (pels .white runs).take (runs.sum + pad).toNat := by
  have reversed : ∀ r ∈ runs.reverse, 0 ≤ r := by simpa using nonneg
  have width : 0 ≤ runs.reverse.sum + pad := by rwa [List.sum_reverse]
  obtain ⟨taken, run, kept, parts, first, second⟩ := dropPels_split cut width
  obtain ⟨kept_nonneg, pos, sum⟩ := dropPels_sum reversed pad width
  rw [List.sum_reverse] at sum
  rw [first] at kept_nonneg sum
  have kept_sum : 0 ≤ kept.sum := List.sum_nonneg kept_nonneg
  have front : runs = kept.reverse ++ run :: taken.reverse := by
    rw [← List.reverse_reverse runs, parts, List.reverse_append, List.reverse_cons, List.append_assoc]
    rfl
  have padded : xpad runs pad = kept.reverse ++ [(dropPels runs.reverse pad).2] := by
    rw [xpad, if_pos cut, ← first, ← toShort_of_small (n := (dropPels runs.reverse pad).2)
      (by omega) (by omega)]
  have reversed_kept : ∀ r ∈ kept.reverse, 0 ≤ r := by simpa using kept_nonneg
  have short := pels_shorten reversed_kept pos second taken.reverse
  rw [← front, List.sum_reverse, sum] at short
  rw [padded, short]

theorem pels_xpad_white {runs : List Int} (nonneg : ∀ r ∈ runs, 0 ≤ r) {pad : Int} (white : 0 ≤ pad)
    (upper : runs.sum + pad ≤ 32767) :
    pels .white (xpad runs pad) = pels .white runs ++ List.replicate pad.toNat Colour.white.bit := by
  have below := getLastD_le_sum nonneg
  have above := getLastD_nonneg nonneg
  rw [xpad, if_neg (not_lt.mpr white)]
  split
  case isTrue odd =>
    rcases List.eq_nil_or_concat' runs with rfl | ⟨front, last, rfl⟩
    · exact absurd odd (by decide)
    · rw [List.getLastD_concat] at below above ⊢
      have even : front.length % 2 = 0 := by
        rw [List.length_append, List.length_singleton] at odd
        omega
      have colour : Colour.white.after front.length = .white := by
        rw [Colour.after_white, if_neg (by omega)]
      have more : (last + pad).toNat = last.toNat + pad.toNat := by omega
      rw [toShort_of_small (by omega) (by omega), List.dropLast_concat, pels_append, pels_append,
        colour]
      simp only [pels, List.append_nil]
      rw [more, ← List.replicate_append_replicate, ← List.append_assoc]
  case isFalse even =>
    have colour : Colour.white.after runs.length = .white := by
      rw [Colour.after_white, if_neg even]
    rw [toShort_of_small (by omega) (by omega), pels_append, colour, pels, pels, List.append_nil]

/-- A line whose new width fits a `short` is padded. -/
theorem xpad_padded {runs : List Int} (nonneg : ∀ r ∈ runs, 0 ≤ r) {pad : Int}
    (upper : runs.sum + pad ≤ 32767) : Padded runs pad (xpad runs pad) := by
  by_cases gone : runs.sum + pad < 0
  · have total : 0 ≤ runs.sum := List.sum_nonneg nonneg
    rw [xpad_gone nonneg gone]
    refine ⟨by simp, ?_, fun _ => ?_, fun white => ?_⟩
    · rw [List.sum_singleton]
      omega
    · rw [Int.toNat_of_nonpos gone.le]
      rfl
    · omega
  · have lower : 0 ≤ runs.sum + pad := not_lt.mp gone
    obtain ⟨stored, sum⟩ := xpad_sum nonneg pad lower upper
    exact ⟨stored, by omega, fun cut => pels_xpad_cut nonneg cut lower upper,
      fun white => pels_xpad_white nonneg white upper⟩

/-! ## Scaling -/

/-- A line in which every run ends at its scaled position, with its exact width. -/
structure Scaled (xs : Int) (runs : List Int) (out : List Int × Int) : Prop where
  count : out.1.length = runs.length
  nonneg : ∀ r ∈ out.1, 0 ≤ r
  ends : ∀ k, (out.1.take k).sum = scaledTo xs (runs.take k).sum
  total : out.2 = out.1.sum

theorem take_stretched (xs n : Int) (runs : List Int) (k : Nat) :
    (stretched xs n runs).take k = stretched xs n (runs.take k) := by
  induction runs generalizing n k with
  | nil => simp [stretched]
  | cons run runs ih =>
    cases k with
    | zero => rfl
    | succ k => rw [stretched, List.take_succ_cons, ih, List.take_succ_cons, stretched]

/-- The runs are what the sums of the first ones differ by. -/
theorem forall_le_iff_sums {runs : List Int} {m : Int} (pos : 0 ≤ m) :
    (∀ r ∈ runs, r ≤ m) ↔ ∀ k, (runs.take (k + 1)).sum - (runs.take k).sum ≤ m := by
  have last {k : Nat} (inside : k < runs.length) :
      (runs.take (k + 1)).sum - (runs.take k).sum = runs[k] := by
    rw [List.sum_take_succ runs k inside]
    omega
  constructor
  · intro short k
    by_cases inside : k < runs.length
    · rw [last inside]
      exact short _ (List.getElem_mem inside)
    · rw [List.take_of_length_le (by omega), List.take_of_length_le (by omega), Int.sub_self]
      exact pos
  · intro steps r member
    obtain ⟨k, inside, rfl⟩ := List.mem_iff_getElem.mp member
    rw [← last inside]
    exact steps k

theorem toShort_le (n : Int) : toShort n ≤ 32767 := by
  have small : toShort n < ((2 ^ 16 : Nat) + 1) / 2 := Int.bmod_lt (by decide)
  omega

/-- A `short` is all that a run can be. -/
theorem xscale_short (runs : List Int) (xs : Int) : ∀ r ∈ (xscale runs xs).1, r ≤ 32767 := by
  have loop (inlen outlen : Int) : ∀ r ∈ (scaleRuns xs inlen outlen runs).1, r ≤ 32767 := by
    induction runs generalizing inlen outlen with
    | nil => simp [scaleRuns]
    | cons run runs ih =>
      intro r member
      rw [scaleRuns] at member
      rcases List.mem_cons.mp member with rfl | later
      · exact toShort_le _
      · exact ih _ _ r later
  exact loop 0 0

theorem xscale_scaled_iff {xs : Int} {runs : List Int} (pos : 0 < xs) (nonneg : ∀ r ∈ runs, 0 ≤ r) :
    Scaled xs runs (xscale runs xs) ↔
      ∀ k, scaledTo xs (runs.take (k + 1)).sum - scaledTo xs (runs.take k).sum ≤ 32767 := by
  constructor
  · intro scaled k
    rw [← scaled.ends, ← scaled.ends]
    exact (forall_le_iff_sums (by decide)).mp (xscale_short runs xs) k
  · intro steps
    have ends (k : Nat) : ((stretched xs 0 runs).take k).sum = scaledTo xs (runs.take k).sum := by
      rw [take_stretched, stretched_width]
    have fits : ∀ r ∈ stretched xs 0 runs, r ≤ 32767 := by
      refine (forall_le_iff_sums (by decide)).mpr fun k => ?_
      rw [ends, ends]
      exact steps k
    rw [xscale_stretched pos nonneg fits]
    exact ⟨length_stretched xs 0 runs, stretched_nonneg pos nonneg 0, ends,
      (stretched_width xs runs).symm⟩

/-- Padding keeps the pels of every line whose new width fits a `short`.  Scaling moves every run to its
scaled position if and only if no run gets longer than a `short` holds. -/
theorem pad_scale_iff {runs : List Int} (shorts : ∀ r ∈ runs, 0 ≤ r ∧ r ≤ 32767) :
    (∀ pad, -32768 ≤ runs.sum + pad → runs.sum + pad ≤ 32767 → Padded runs pad (xpad runs pad)) ∧
      ∀ xs, 0 < xs → runs.sum * xs ≤ 2147483647 →
        (Scaled xs runs (xscale runs xs) ↔
          ∀ k, scaledTo xs (runs.take (k + 1)).sum - scaledTo xs (runs.take k).sum ≤ 32767) := by
  have nonneg : ∀ r ∈ runs, 0 ≤ r := fun r member => (shorts r member).1
  exact ⟨fun pad _ upper => xpad_padded nonneg upper, fun xs pos _ => xscale_scaled_iff pos nonneg⟩

/-- A line of four runs, truncated in its third one, padded and scaled by 1.5. -/
theorem pad_scale_four : Padded [3, 5, 4, 2] (-4) (xpad [3, 5, 4, 2] (-4)) ∧
    Padded [3, 5, 4, 2] 6 (xpad [3, 5, 4, 2] 6) ∧
    (Scaled 384 [3, 5, 4, 2] (xscale [3, 5, 4, 2] 384) ↔
      ∀ k, scaledTo 384 ([3, 5, 4, 2].take (k + 1)).sum - scaledTo 384 ([3, 5, 4, 2].take k).sum ≤
        32767) :=
  have line := pad_scale_iff (by decide : ∀ r ∈ [3, 5, 4, 2], (0 : Int) ≤ r ∧ r ≤ 32767)
  ⟨line.1 (-4) (by decide) (by decide), line.1 6 (by decide) (by decide),
    line.2 384 (by decide) (by decide)⟩

/-- A white line of 1728 pels, scaled by 20, is 34560 pels wide, which a `short` does not hold. -/
theorem xscale_loses_run : (1728 : Int) * 5120 ≤ 2147483647 ∧
    xscale [1728] 5120 = ([-30976], -30976) ∧ scaledTo 5120 1728 = 34560 ∧
    ¬ Scaled 5120 [1728] (xscale [1728] 5120) := by
  have lost : xscale [1728] 5120 = ([-30976], -30976) := by decide
  refine ⟨by decide, lost, by decide, fun scaled => ?_⟩
  have width := scaled.nonneg (-30976) (by rw [lost]; exact List.mem_cons_self)
  omega

end QFax.Efax

import QFax.Efax.RunShift

/-!
# Placing a line on a page

`xscale` scales a run vector in place: the end of every run goes to its scaled position.  `efix` scales
a line, shifts it and pads it to the width of the page.  When no value is lost in a `short` or an `int`,
the line fills the page if and only if its pels were counted right and it is as wide as a shift to the
left, or has an odd number of runs (`place_fills`, `placed_of_fills`).
-/

namespace QFax.Efax

variable {xs ixsh w pels : Int} {runs : List Int}

/-! ## Scaling -/

/-- The value of an `int` expression that may overflow. -/
def wrapInt (n : Int) : Int := n.bmod (2 ^ 32)

theorem wrapInt_of_small {n : Int} (lower : -2147483648 ≤ n) (upper : n ≤ 2147483647) :
    wrapInt n = n :=
  Int.bmod_eq_of_le (by omega) (by omega)

/-- The loop of `xscale`, with the pels read and the pels written so far. -/
def scaleRuns (xs : Int) : Int → Int → List Int → List Int × Int
  | _, outlen, [] => ([], outlen)
  | inlen, outlen, p :: runs =>
    let inlen := inlen + p
    let p := toShort (wrapInt (inlen * xs + 128) / 256 - outlen)
    let (runs, outlen) := scaleRuns xs inlen (outlen + p) runs
    (p :: runs, outlen)

/-- `xscale`: the run vector scaled by `xs / 256` and its width. -/
def xscale (runs : List Int) (xs : Int) : List Int × Int := scaleRuns xs 0 0 runs

/-- Where the pels behind the first `n` ones go. -/
def scaledTo (xs n : Int) : Int := (n * xs + 128) / 256

/-- The runs between the scaled positions, from the pel `n` on. -/
def stretched (xs : Int) : Int → List Int → List Int
  | _, [] => []
  | n, run :: runs => (scaledTo xs (n + run) - scaledTo xs n) :: stretched xs (n + run) runs

theorem scaledTo_mono (pos : 0 < xs) {m n : Int} (le : m ≤ n) : scaledTo xs m ≤ scaledTo xs n := by
  have product := Int.mul_le_mul_of_nonneg_right le pos.le
  unfold scaledTo
  omega

theorem scaledTo_zero (xs : Int) : scaledTo xs 0 = 0 := by
  rw [scaledTo, Int.zero_mul]
  rfl

theorem scaledTo_256 (n : Int) : scaledTo 256 n = n := by
  unfold scaledTo
  omega

@[simp] theorem length_stretched (xs n : Int) (runs : List Int) :
    (stretched xs n runs).length = runs.length := by
  induction runs generalizing n with
  | nil => rfl
  | cons run runs ih => rw [stretched, List.length_cons, List.length_cons, ih]

theorem stretched_nonneg (pos : 0 < xs) (nonneg : ∀ r ∈ runs, 0 ≤ r) (n : Int) :
    ∀ r ∈ stretched xs n runs, 0 ≤ r := by
  induction runs generalizing n with
  | nil => simp [stretched]
  | cons run runs ih =>
    have here := nonneg run List.mem_cons_self
    have step := scaledTo_mono pos (m := n) (n := n + run) (by omega)
    intro r member
    rcases List.mem_cons.mp member with rfl | member
    · omega
    · exact ih (fun r hr => nonneg r (List.mem_cons_of_mem run hr)) _ r member

theorem stretched_sum (xs n : Int) (runs : List Int) :
    (stretched xs n runs).sum = scaledTo xs (n + runs.sum) - scaledTo xs n := by
  induction runs generalizing n with
  | nil => rw [stretched, List.sum_nil, Int.add_zero, Int.sub_self]
  | cons run runs ih =>
    rw [stretched, List.sum_cons, ih, List.sum_cons, Int.add_assoc]
    omega

theorem stretched_256 (n : Int) (runs : List Int) : stretched 256 n runs = runs := by
  induction runs generalizing n with
  | nil => rfl
  | cons run runs ih =>
    have same : scaledTo 256 (n + run) - scaledTo 256 n = run := by
      rw [scaledTo_256, scaledTo_256]
      omega
    rw [stretched, ih, same]

/-- What an `int` loses is a multiple of `2 ^ 24` behind the division, which a `short` loses in any
case. -/
theorem toShort_wrapInt (m n : Int) : toShort (wrapInt m / 256 - n) = toShort (m / 256 - n) := by
  have lost : wrapInt m = m + 4294967296 * -((m + 2147483648) / 4294967296) := by
    unfold wrapInt
    rw [Int.bmod_def]
    split <;> omega
  generalize (m + 2147483648) / 4294967296 = k at lost
  have behind : wrapInt m / 256 - n = m / 256 - n + (2 ^ 16 : Nat) * (256 * -k) := by omega
  rw [behind, toShort, toShort, Int.add_mul_bmod_self_left]

/-- As long as no run is lost in its `short`, the runs end at their scaled positions. -/
theorem scaleRuns_stretched (pos : 0 < xs) (nonneg : ∀ r ∈ runs, 0 ≤ r) {n : Int}
    (fits : ∀ r ∈ stretched xs n runs, r ≤ 32767) :
    scaleRuns xs n (scaledTo xs n) runs =
      (stretched xs n runs, scaledTo xs (n + runs.sum)) := by
  induction runs generalizing n with
  | nil => rw [scaleRuns, stretched, List.sum_nil, Int.add_zero]
  | cons run runs ih =>
    have here := nonneg run List.mem_cons_self
    have later : ∀ r ∈ runs, 0 ≤ r := fun r hr => nonneg r (List.mem_cons_of_mem run hr)
    have first : scaledTo xs (n + run) - scaledTo xs n ≤ 32767 := fits _ List.mem_cons_self
    have step := scaledTo_mono pos (m := n) (n := n + run) (by omega)
    have stored : toShort (wrapInt ((n + run) * xs + 128) / 256 - scaledTo xs n) =
        scaledTo xs (n + run) - scaledTo xs n :=
      (toShort_wrapInt _ _).trans (toShort_of_small (n := scaledTo xs (n + run) - scaledTo xs n)
        (by omega) first)
    have back : scaledTo xs n + (scaledTo xs (n + run) - scaledTo xs n) = scaledTo xs (n + run) := by
      omega
    have next := ih later fun r hr => fits r (List.mem_cons_of_mem _ hr)
    rw [scaleRuns]
    simp only [stored, back, next]
    rw [stretched, List.sum_cons, Int.add_assoc]

theorem xscale_stretched (pos : 0 < xs) (nonneg : ∀ r ∈ runs, 0 ≤ r)
    (fits : ∀ r ∈ stretched xs 0 runs, r ≤ 32767) :
    xscale runs xs = (stretched xs 0 runs, scaledTo xs runs.sum) := by
  have loop := scaleRuns_stretched pos nonneg fits
  rwa [scaledTo_zero, Int.zero_add] at loop

/-! ## Padding -/

/-- A line of `w` pels. -/
structure Fills (w : Int) (runs : List Int) : Prop where
  nonneg : ∀ r ∈ runs, 0 ≤ r
  width : runs.sum = w

/-- What a `short` stores is right up to multiples of `2 ^ 16`. -/
theorem toShort_eq_add (n : Int) : ∃ k, toShort n = n + 65536 * k := by
  unfold toShort
  rw [Int.bmod_def]
  split
  · exact ⟨-(n / 65536), by omega⟩
  · exact ⟨-(n / 65536) - 1, by omega⟩

/-- Padding with white gives the new width up to multiples of `2 ^ 16`. -/
theorem xpad_white_sum {pad : Int} (white : 0 ≤ pad) (runs : List Int) :
    ∃ k, (xpad runs pad).sum = runs.sum + pad + 65536 * k := by
  unfold xpad
  rw [if_neg (by omega)]
  split
  case isTrue odd =>
    rcases List.eq_nil_or_concat' runs with rfl | ⟨front, last, rfl⟩
    · cases odd
    · obtain ⟨k, stored⟩ := toShort_eq_add (last + pad)
      refine ⟨k, ?_⟩
      rw [List.dropLast_concat, List.getLastD_concat, List.sum_append, List.sum_append,
        List.sum_singleton, List.sum_singleton, stored]
      omega
  case isFalse =>
    obtain ⟨k, stored⟩ := toShort_eq_add pad
    refine ⟨k, ?_⟩
    rw [List.sum_append, List.sum_singleton, stored]
    omega

/-- Truncating by more pels than there are takes all runs. -/
theorem dropPels_all {pad : Int} (cut : pad < 0)
    (short : ∀ front, front <+: runs → front.sum + pad < 0) :
    dropPels runs pad = ([], 0) := by
  induction runs generalizing pad with
  | nil => rw [dropPels, if_pos cut]
  | cons run runs ih =>
    have here := short [run] (by simp)
    rw [List.sum_singleton] at here
    rw [dropPels, if_pos cut]
    refine ih (by omega) fun front isPrefix => ?_
    have more := short (run :: front) (List.cons_prefix_cons.mpr ⟨rfl, isPrefix⟩)
    rw [List.sum_cons] at more
    omega

theorem xpad_all {pad : Int} (cut : pad < 0)
    (short : ∀ back, back <:+ runs → back.sum + pad < 0) : xpad runs pad = [0] := by
  have all : dropPels runs.reverse pad = ([], 0) := by
    refine dropPels_all cut fun front isPrefix => ?_
    have back := short front.reverse (by
      rw [← List.reverse_prefix, List.reverse_reverse]
      exact isPrefix)
    rwa [List.sum_reverse] at back
  rw [xpad, if_pos cut, all]
  rfl

/-- Nothing is left of a line that is truncated by more than its width. -/
theorem xpad_gone {pad : Int} (nonneg : ∀ r ∈ runs, 0 ≤ r) (gone : runs.sum + pad < 0) :
    xpad runs pad = [0] := by
  have total : 0 ≤ runs.sum := List.sum_nonneg nonneg
  refine xpad_all (by omega) fun back isSuffix => ?_
  obtain ⟨front, whole⟩ := isSuffix
  have rest : 0 ≤ front.sum := List.sum_nonneg
    fun r hr => nonneg r (whole ▸ List.mem_append_left back hr)
  rw [← whole, List.sum_append] at gone
  omega

/-- A padded line fills the page only if its pels were counted right. -/
theorem count_of_fills (pos : 0 < w) (nonneg : ∀ r ∈ runs, 0 ≤ r) (near : |pels - runs.sum| < 65536)
    (fills : Fills w (if pels = w then runs else xpad runs (w - pels))) : pels = runs.sum := by
  rw [abs_lt] at near
  obtain ⟨-, width⟩ := fills
  split at width
  case isTrue same => omega
  case isFalse differ =>
    rcases lt_or_ge (w - pels) 0 with cut | white
    · by_cases short : runs.sum + (w - pels) < 0
      · rw [xpad_gone nonneg short, List.sum_singleton] at width
        omega
      · have reversed : ∀ r ∈ runs.reverse, 0 ≤ r := by simpa using nonneg
        obtain ⟨-, -, sum⟩ := dropPels_sum reversed (w - pels) (by rw [List.sum_reverse]; omega)
        obtain ⟨k, stored⟩ := toShort_eq_add (dropPels runs.reverse (w - pels)).2
        rw [List.sum_reverse] at sum
        rw [xpad, if_pos cut] at width
        simp only [List.sum_append, List.sum_reverse, List.sum_singleton, stored] at width
        omega
    · obtain ⟨k, sum⟩ := xpad_white_sum white runs
      omega

/-- A line that the shift has left with a negative last run fills the page when that run is white. -/
theorem xpad_narrow (nonneg : 0 ≤ w) (upper : w ≤ 32767) {m : Nat} (odd : (m + 1) % 2 = 1) {a : Int}
    (negative : a < 0) :
    xpad (List.replicate m 0 ++ [toShort a]) (w - a) = List.replicate m 0 ++ [w] := by
  have white : ¬ w - a < 0 := by omega
  have size : (List.replicate m (0 : Int) ++ [toShort a]).length % 2 = 1 := by
    rwa [List.length_append, List.length_replicate, List.length_singleton]
  have last : toShort (toShort a + (w - a)) = w := by
    have back : a + (w - a) = w := by omega
    rw [toShort, toShort, Int.bmod_add_bmod, back]
    exact toShort_of_small (by omega) upper
  rw [xpad, if_neg white, if_pos size, List.dropLast_concat, List.getLastD_concat, last]

/-- It does only then. -/
theorem odd_of_fills (pos : 0 < w) {m : Nat} {a : Int} (negative : a < 0) (near : |pels - a| < 65536)
    (fills : Fills w (if pels = w then List.replicate m 0 ++ [a]
      else xpad (List.replicate m 0 ++ [a]) (w - pels))) : (m + 1) % 2 = 1 ∧ pels = a := by
  have member : a ∈ List.replicate m 0 ++ [a] := List.mem_append_right _ List.mem_cons_self
  have size : (List.replicate m (0 : Int) ++ [a]).length = m + 1 := by
    rw [List.length_append, List.length_replicate, List.length_singleton]
  have sum : (List.replicate m (0 : Int) ++ [a]).sum = a := by
    rw [List.sum_append, List.sum_singleton, List.sum_replicate]
    simp
  have nonpos : ∀ r ∈ List.replicate m 0 ++ [a], r ≤ 0 := by
    intro r member
    rcases List.mem_append.mp member with zero | last
    · exact (List.eq_of_mem_replicate zero).le
    · rw [List.mem_singleton.mp last]
      exact negative.le
  rw [abs_lt] at near
  generalize List.replicate m (0 : Int) ++ [a] = runs at fills member size sum nonpos
  split at fills
  case isTrue same => exact absurd (fills.nonneg a member) (by omega)
  case isFalse differ =>
    rcases lt_or_ge (w - pels) 0 with cut | white
    · have all : xpad runs (w - pels) = [0] := xpad_all cut fun back isSuffix => by
        have rest := List.sum_le_card_nsmul back 0 fun r hr => nonpos r (isSuffix.subset hr)
        rw [nsmul_zero] at rest
        omega
      have width := fills.width
      rw [all, List.sum_singleton] at width
      omega
    · obtain ⟨k, padded⟩ := xpad_white_sum white runs
      have width := fills.width
      refine ⟨?_, by omega⟩
      by_contra even
      have added : xpad runs (w - pels) = runs ++ [toShort (w - pels)] := by
        rw [xpad, if_neg (by omega), if_neg (by rwa [size])]
      rw [added] at fills
      exact absurd (fills.nonneg a (List.mem_append_left _ member)) (by omega)

/-! ## Placing -/

/-- The shift of a line and its change of width, if there is one. -/
def shiftRuns (ixsh : Int) (runs : List Int) : Option (List Int × Int) :=
  if ixsh = 0 then some (runs, 0) else xshift runs ixsh

/-- What `efix` does with a line before it writes it: scale it, shift it and pad it to the width of the
page, unless it accesses a run outside of the run vector. -/
def place (xs ixsh w : Int) (runs : List Int) (pels : Int) : Option (List Int) :=
  let (runs, pels) := if xs = 256 then (runs, pels) else xscale runs xs
  match shiftRuns ixsh runs with
  | none => none
  | some (runs, n) =>
    let pels := pels + n
    if pels = w then some runs else stored (xpad runs (w - pels))

/-- The pel count of a line that is scaled and shifted, when no run outside of the run vector is accessed. -/
def placedPels (xs ixsh : Int) (runs : List Int) (pels : Int) : Option Int :=
  let (runs, pels) := if xs = 256 then (runs, pels) else xscale runs xs
  (shiftRuns ixsh runs).map fun (_, n) => pels + n

/-- No value of a line is lost in a `short` or an `int`. -/
structure Stored (xs ixsh : Int) (runs : List Int) : Prop where
  short : ∀ r ∈ runs, 0 ≤ r ∧ r ≤ 32767
  product : xs ≠ 256 → runs.sum * xs + 128 ≤ 2147483647
  scaled : ∀ r ∈ stretched xs 0 runs, r ≤ 32767
  right : ∀ r ∈ (stretched xs 0 runs).head?, r + ixsh ≤ 32767

/-- The pels of a line were counted right, and it is as wide as a shift to the left or its last run is
white. -/
structure Placed (xs ixsh : Int) (runs : List Int) (pels : Int) : Prop where
  count : xs = 256 → pels = runs.sum
  wide : 0 ≤ scaledTo xs runs.sum + ixsh ∨ runs.length % 2 = 1

/-- The width after `xscale`, which counts the pels again. -/
def scaledPels (xs : Int) (runs : List Int) (pels : Int) : Int :=
  if xs = 256 then pels else scaledTo xs runs.sum

theorem Stored.scale (pos : 0 < xs) (stored : Stored xs ixsh runs) (pels : Int) :
    (if xs = 256 then (runs, pels) else xscale runs xs) =
      (stretched xs 0 runs, scaledPels xs runs pels) := by
  unfold scaledPels
  split
  case isTrue same => rw [same, stretched_256]
  case isFalse => exact xscale_stretched pos (fun r hr => (stored.short r hr).1) stored.scaled

theorem stretched_width (xs : Int) (runs : List Int) :
    (stretched xs 0 runs).sum = scaledTo xs runs.sum := by
  rw [stretched_sum, Int.zero_add, scaledTo_zero, Int.sub_zero]

/-- A line as wide as a shift to the left keeps its count of pels right. -/
theorem shiftRuns_wide (shorts : ∀ r ∈ runs, 0 ≤ r ∧ r ≤ 32767)
    (right : ∀ r ∈ runs.head?, r + ixsh ≤ 32767) (wide : 0 ≤ runs.sum + ixsh) :
    ∃ out n, shiftRuns ixsh runs = some (out, n) ∧ (∀ r ∈ out, 0 ≤ r) ∧ n = out.sum - runs.sum := by
  unfold shiftRuns
  by_cases zero : ixsh = 0
  · rw [if_pos zero]
    exact ⟨runs, 0, rfl, fun r hr => (shorts r hr).1, (Int.sub_self _).symm⟩
  · rw [if_neg zero]
    by_cases empty : 0 < ixsh ∧ runs = []
    · obtain ⟨pos, rfl⟩ := empty
      exact ⟨[], 0, xshift_nil_right pos.le, by simp, rfl⟩
    · have shiftable : Shiftable runs ixsh := by
        refine ⟨wide, fun pos => ?_⟩
        have some_run : runs ≠ [] := fun none => empty ⟨pos, none⟩
        refine ⟨some_run, ?_⟩
        cases runs with
        | nil => exact absurd rfl some_run
        | cons run runs => exact right run rfl
      obtain ⟨⟨out, n⟩, eq, shifted⟩ := (xshift_iff shorts ixsh).mpr shiftable
      exact ⟨out, n, eq, shifted.nonneg, shifted.change⟩

theorem length_scaleRuns (xs inlen outlen : Int) (runs : List Int) :
    (scaleRuns xs inlen outlen runs).1.length = runs.length := by
  induction runs generalizing inlen outlen with
  | nil => rfl
  | cons run runs ih =>
    rw [scaleRuns]
    exact congrArg (· + 1) (ih _ _)

/-- A run outside of the run vector is accessed for a line without runs that is shifted to the left. -/
theorem xshift_eq_none {s : Int} : xshift runs s = none ↔ runs = [] ∧ s < 0 := by
  constructor
  · intro none
    cases runs with
    | nil =>
      refine ⟨rfl, ?_⟩
      by_contra right
      rw [xshift_nil_right (not_lt.mp right)] at none
      cases none
    | cons run runs =>
      rcases lt_or_ge s 0 with left | right
      · have first : ¬ (((clearRuns runs (s + run) (0 - run)).1 + 1 : Nat) : Int) - 1 < 0 := by omega
        rw [xshift, if_pos left, clearRuns, if_pos left] at none
        simp only [if_neg first] at none
        split at none <;> cases none
      · rw [xshift_right runs right] at none
        cases none
  · rintro ⟨rfl, left⟩
    exact xshift_nil_left left

theorem padded_eq {out : List Int}
    (padded : (if pels = w then some runs else stored (xpad runs (w - pels))) = some out) :
    (if pels = w then runs else xpad runs (w - pels)) = out := by
  split at padded
  case isTrue same => rw [if_pos same, Option.some.inj padded]
  case isFalse differ => rw [if_neg differ, (stored_eq_some.mp padded).2]

/-- A shift keeps the number of runs. -/
theorem length_shiftRuns {out : List Int} {n : Int} (shifted : shiftRuns ixsh runs = some (out, n)) :
    out.length = runs.length := by
  unfold shiftRuns at shifted
  split at shifted
  · cases shifted
    rfl
  · exact length_xshift shifted

/-- A run outside of the run vector is accessed for a line without runs that is shifted to the left, and
for a line that fills the run vector and is narrower than the page. -/
theorem place_eq_none (fits : runs.length ≤ maxRuns) :
    place xs ixsh w runs pels = none ↔
      runs = [] ∧ ixsh < 0 ∨ runs.length = maxRuns ∧ ∃ pels' ∈ placedPels xs ixsh runs pels, pels' < w := by
  have shift (line : List Int) : shiftRuns ixsh line = none ↔ line = [] ∧ ixsh < 0 := by
    unfold shiftRuns
    split
    case isTrue zero => simp [zero]
    case isFalse => exact xshift_eq_none
  have scaled : (if xs = 256 then (runs, pels) else xscale runs xs).1.length = runs.length := by
    split
    · rfl
    · rw [xscale, length_scaleRuns]
  have empty : (if xs = 256 then (runs, pels) else xscale runs xs).1 = [] ↔ runs = [] := by
    rw [← List.length_eq_zero_iff, scaled, List.length_eq_zero_iff]
  rw [← empty, ← shift]
  unfold place placedPels
  generalize (if xs = 256 then (runs, pels) else xscale runs xs) = line at scaled
  rw [← scaled] at fits ⊢
  dsimp only
  cases shifted : shiftRuns ixsh line.1 with
  | none => exact iff_of_true rfl (Or.inl rfl)
  | some out =>
    obtain ⟨out, n⟩ := out
    have size := length_shiftRuns shifted
    rw [← size] at fits ⊢
    simp only [Option.map_some, Option.mem_some, exists_eq_left', reduceCtorEq, false_or]
    split
    case isTrue same => exact iff_of_false nofun fun narrow => absurd narrow.2 (by omega)
    case isFalse differ =>
      rw [stored_xpad_eq_none fits]
      refine and_congr_right fun _ => ?_
      omega

theorem Stored.shorts (stored : Stored xs ixsh runs) (pos : 0 < xs) :
    ∀ r ∈ stretched xs 0 runs, 0 ≤ r ∧ r ≤ 32767 := fun r hr =>
  ⟨stretched_nonneg pos (fun r hr => (stored.short r hr).1) 0 r hr, stored.scaled r hr⟩

/-- A line that keeps its values and is placed right fills the page. -/
theorem place_fills (pos : 0 < xs) (nonneg : 0 ≤ w) (upper : w ≤ 32767)
    (stored : Stored xs ixsh runs) (placed : Placed xs ixsh runs pels) {out : List Int}
    (result : place xs ixsh w runs pels = some out) : Fills w out := by
  have shorts := stored.shorts pos
  have lineNonneg : ∀ r ∈ stretched xs 0 runs, 0 ≤ r := fun r hr => (shorts r hr).1
  have right := stored.right
  have width := stretched_width xs runs
  have size := length_stretched xs 0 runs
  have count : scaledPels xs runs pels = scaledTo xs runs.sum := by
    unfold scaledPels
    split
    case isTrue same => rw [placed.count same, same, scaledTo_256]
    case isFalse => rfl
  have wide := placed.wide
  rw [← width, ← size] at wide
  unfold place at result
  rw [stored.scale pos, count, ← width] at result
  dsimp only at result
  generalize stretched xs 0 runs = line at lineNonneg shorts right wide result
  by_cases narrow : line.sum + ixsh < 0
  · have odd : line.length % 2 = 1 := wide.resolve_left (by omega)
    have total : 0 ≤ line.sum := List.sum_nonneg lineNonneg
    have ne : line ≠ [] := by
      rintro rfl
      cases odd
    have zero : ixsh ≠ 0 := by omega
    have shifted : shiftRuns ixsh line =
        some (List.replicate (line.length - 1) 0 ++ [toShort (ixsh + line.sum)], ixsh) := by
      rw [shiftRuns, if_neg zero]
      exact xshift_short ne lineNonneg (by omega)
    have differ : line.sum + ixsh ≠ w := by omega
    have swap : ixsh + line.sum = line.sum + ixsh := Int.add_comm _ _
    rw [shifted] at result
    dsimp only at result
    rw [if_neg differ, swap, xpad_narrow nonneg upper (by omega) narrow, stored_eq_some] at result
    obtain ⟨-, rfl⟩ := result
    refine ⟨fun r member => ?_, ?_⟩
    · rcases List.mem_append.mp member with zero | last
      · exact (List.eq_of_mem_replicate zero).ge
      · rwa [List.mem_singleton.mp last]
    · rw [List.sum_append, List.sum_singleton, List.sum_replicate, nsmul_zero, Int.zero_add]
  · obtain ⟨out, n, shifted, outNonneg, change⟩ := shiftRuns_wide shorts right (by omega)
    have counted : line.sum + n = out.sum := by omega
    rw [shifted] at result
    dsimp only at result
    rw [counted] at result
    obtain rfl := padded_eq result
    split
    case isTrue same => exact ⟨outNonneg, same⟩
    case isFalse differ =>
      obtain ⟨padded, sum⟩ := xpad_sum outNonneg (w - out.sum) (by omega) (by omega)
      exact ⟨padded, by omega⟩

/-- A line that keeps its values fills the page only if it is placed right. -/
theorem placed_of_fills (pos : 0 < xs) (positive : 0 < w) (stored : Stored xs ixsh runs)
    (left : -32768 ≤ ixsh) (near : xs = 256 → |pels - runs.sum| < 65536) {out : List Int}
    (result : place xs ixsh w runs pels = some out) (fills : Fills w out) :
    Placed xs ixsh runs pels := by
  have shorts := stored.shorts pos
  have lineNonneg : ∀ r ∈ stretched xs 0 runs, 0 ≤ r := fun r hr => (shorts r hr).1
  have right := stored.right
  have width := stretched_width xs runs
  have size := length_stretched xs 0 runs
  have close : |scaledPels xs runs pels - scaledTo xs runs.sum| < 65536 := by
    unfold scaledPels
    split
    case isTrue same =>
      rw [same, scaledTo_256]
      exact near same
    case isFalse =>
      rw [Int.sub_self, abs_zero]
      decide
  -- the pels as they are counted after scaling decide
  have final (counted : scaledPels xs runs pels = scaledTo xs runs.sum)
      (wide : 0 ≤ scaledTo xs runs.sum + ixsh ∨ runs.length % 2 = 1) : Placed xs ixsh runs pels := by
    refine ⟨fun same => ?_, wide⟩
    rwa [scaledPels, if_pos same, same, scaledTo_256] at counted
  rw [← width, ← size] at final
  rw [← width] at close
  unfold place at result
  rw [stored.scale pos] at result
  dsimp only at result
  generalize stretched xs 0 runs = line at lineNonneg shorts right final close result
  generalize scaledPels xs runs pels = count at final close result
  have total : 0 ≤ line.sum := List.sum_nonneg lineNonneg
  by_cases narrow : line.sum + ixsh < 0
  · have zero : ixsh ≠ 0 := by omega
    by_cases empty : line = []
    · subst empty
      have none : shiftRuns ixsh [] = none := by
        rw [shiftRuns, if_neg zero]
        exact xshift_nil_left (by simpa using narrow)
      rw [none] at result
      cases result
    · have shifted : shiftRuns ixsh line =
          some (List.replicate (line.length - 1) 0 ++ [line.sum + ixsh], ixsh) := by
        rw [shiftRuns, if_neg zero, xshift_short empty lineNonneg (by omega), Int.add_comm,
          toShort_of_small (by omega) (by omega)]
      rw [shifted] at result
      obtain rfl := padded_eq result
      have same : count + ixsh - (line.sum + ixsh) = count - line.sum := by omega
      obtain ⟨odd, counted⟩ := odd_of_fills positive narrow (by rwa [same]) fills
      have some_run : 0 < line.length := List.length_pos_iff.mpr empty
      rw [Nat.sub_add_cancel some_run] at odd
      exact final (by omega) (Or.inr odd)
  · obtain ⟨line', n, shifted, outNonneg, change⟩ := shiftRuns_wide shorts right (by omega)
    rw [shifted] at result
    obtain rfl := padded_eq result
    have same : count + n - line'.sum = count - line.sum := by omega
    have counted := count_of_fills positive outNonneg (by rwa [same]) fills
    exact final (by omega) (Or.inl (by omega))

end QFax.Efax

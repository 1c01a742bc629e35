import Mathlib.Algebra.Order.BigOperators.Group.List
import Mathlib.Algebra.Ring.Int.Defs
import QFax.Efax.T4

/-!
# Run vectors

A scan line is a vector of run lengths whose first run is white.  `xpad` pads or truncates it and
`runor` merges two of them, reading and storing runs as `short` values.  On run vectors that fit a
`short` both keep every run nonnegative.
-/

namespace QFax.Efax

/-- The value of an `int` stored into a `short`. -/
def toShort (n : Int) : Int := n.bmod (2 ^ 16)

theorem toShort_of_small {n : Int} (lower : -32768 ≤ n) (upper : n ≤ 32767) : toShort n = n :=
  Int.bmod_eq_of_le (by omega) (by omega)

/-- A value is lost in a `short` up to multiples of `2 ^ 16`. -/
theorem toShort_add_sub {m n : Int} (lower : -32768 ≤ n) (upper : n ≤ 32767) :
    toShort (m + toShort (n - m)) = n := by
  have back : m + (n - m) = n := by omega
  rw [toShort, toShort, Int.add_bmod_bmod, back]
  exact toShort_of_small lower upper

/-- A run vector that a run buffer can hold. -/
def stored (runs : List Int) : Option (List Int) :=
  if runs.length ≤ maxRuns then some runs else none

theorem stored_eq_some {runs out : List Int} :
    stored runs = some out ↔ runs.length ≤ maxRuns ∧ runs = out := by
  unfold stored
  split
  case isTrue fits => rw [Option.some.injEq, and_iff_right fits]
  case isFalse long => exact iff_of_false nofun fun both => long both.1

theorem stored_eq_none {runs : List Int} : stored runs = none ↔ maxRuns < runs.length := by
  unfold stored
  split
  case isTrue fits => exact iff_of_false nofun (Nat.not_lt.mpr fits)
  case isFalse long => exact iff_of_true rfl (Nat.lt_of_not_le long)

/-! ## Padding -/

/-- The loop of `xpad` that takes runs off the end, which comes first here, until `pad` pels of the
last one taken are to be put back. -/
def dropPels : List Int → Int → List Int × Int
  | [], pad => ([], if pad < 0 then 0 else pad)
  | run :: runs, pad => if pad < 0 then dropPels runs (pad + run) else (run :: runs, pad)

/-- `xpad`: pad a run vector with white, or truncate it when `pad` is negative. -/
def xpad (runs : List Int) (pad : Int) : List Int :=
  if pad < 0 then
    let (kept, pad) := dropPels runs.reverse pad
    kept.reverse ++ [toShort pad]
  else if runs.length % 2 = 1 then
    runs.dropLast ++ [toShort (runs.getLastD 0 + pad)]
  else runs ++ [toShort pad]

theorem length_dropPels (runs : List Int) {pad : Int} (cut : pad < 0) :
    (dropPels runs pad).1.length ≤ runs.length - 1 := by
  have loop (runs : List Int) (pad : Int) : (dropPels runs pad).1.length ≤ runs.length := by
    induction runs generalizing pad with
    | nil => exact Nat.le_refl 0
    | cons run runs ih =>
      rw [dropPels]
      split
      · exact Nat.le_succ_of_le (ih _)
      · exact Nat.le_refl _
  cases runs with
  | nil => exact Nat.zero_le _
  | cons run runs =>
    rw [dropPels, if_pos cut]
    exact loop runs _

/-- A run buffer can hold a padded line unless it is full and the line gets a white run more. -/
theorem stored_xpad_eq_none {runs : List Int} (fits : runs.length ≤ maxRuns) (pad : Int) :
    stored (xpad runs pad) = none ↔ runs.length = maxRuns ∧ 0 ≤ pad := by
  have size : maxRuns = 8192 := rfl
  rw [stored_eq_none]
  unfold xpad
  split
  case isTrue cut =>
    have shorter := length_dropPels runs.reverse cut
    rw [List.length_reverse] at shorter
    simp only [List.length_append, List.length_reverse, List.length_singleton]
    omega
  case isFalse white =>
    split
    case isTrue odd =>
      rw [List.length_append, List.length_dropLast, List.length_singleton]
      omega
    case isFalse even =>
      rw [List.length_append, List.length_singleton]
      omega

/-- Taking runs off the end keeps the width that is asked for. -/
theorem dropPels_sum {runs : List Int} (nonneg : ∀ r ∈ runs, 0 ≤ r) (pad : Int)
    (width : 0 ≤ runs.sum + pad) :
    (∀ r ∈ (dropPels runs pad).1, 0 ≤ r) ∧ 0 ≤ (dropPels runs pad).2 ∧
      (dropPels runs pad).1.sum + (dropPels runs pad).2 = runs.sum + pad := by
  induction runs generalizing pad with
  | nil =>
    have pos : ¬ pad < 0 := by simpa using width
    have nonneg' : 0 ≤ pad := by omega
    simp only [dropPels, if_neg pos]
    exact ⟨by simp, nonneg', trivial⟩
  | cons run runs ih =>
    rw [dropPels]
    rw [List.sum_cons] at width ⊢
    split
    case isTrue neg =>
      obtain ⟨kept, pos, sum⟩ := ih (fun r hr => nonneg r (List.mem_cons_of_mem run hr))
        (pad + run) (by omega)
      exact ⟨kept, pos, by omega⟩
    case isFalse pos => exact ⟨nonneg, by omega, rfl⟩

theorem getLastD_nonneg {runs : List Int} (nonneg : ∀ r ∈ runs, 0 ≤ r) : 0 ≤ runs.getLastD 0 := by
  rcases List.eq_nil_or_concat' runs with rfl | ⟨front, last, rfl⟩
  · exact le_rfl
  · rw [List.getLastD_concat]
    exact nonneg last (List.mem_append_right _ List.mem_cons_self)

/-- `xpad` gives a run vector its new width, as long as the run that it stores fits a `short`. -/
theorem xpad_sum_of_stored {runs : List Int} (nonneg : ∀ r ∈ runs, 0 ≤ r) {pad : Int}
    (lower : 0 ≤ runs.sum + pad) (taken : pad < 0 → (dropPels runs.reverse pad).2 ≤ 32767)
    (added : 0 ≤ pad → runs.getLastD 0 + pad ≤ 32767) :
    (∀ r ∈ xpad runs pad, 0 ≤ r) ∧ (xpad runs pad).sum = runs.sum + pad := by
  have snoc {front : List Int} (front' : ∀ r ∈ front, 0 ≤ r) {last : Int} (last' : 0 ≤ last) :
      ∀ r ∈ front ++ [last], 0 ≤ r := by
    intro r member
    rcases List.mem_append.mp member with member | member
    · exact front' r member
    · rwa [List.mem_singleton.mp member]
  have final := getLastD_nonneg nonneg
  unfold xpad
  split
  case isTrue neg =>
    have reversed : ∀ r ∈ runs.reverse, 0 ≤ r := by simpa using nonneg
    obtain ⟨kept, pos, sum⟩ := dropPels_sum reversed pad (by rw [List.sum_reverse]; omega)
    rw [List.sum_reverse] at sum
    have last : toShort (dropPels runs.reverse pad).2 = (dropPels runs.reverse pad).2 :=
      toShort_of_small (by omega) (taken neg)
    simp only [last, List.sum_append, List.sum_reverse, List.sum_singleton]
    exact ⟨snoc (by simpa using kept) pos, sum⟩
  case isFalse pos =>
    have fits := added (by omega)
    split
    case isTrue odd =>
      rw [toShort_of_small (by omega) fits]
      rcases List.eq_nil_or_concat' runs with rfl | ⟨front, last, rfl⟩
      · simp at odd
      · have front' : ∀ r ∈ front, 0 ≤ r := fun r hr => nonneg r (List.mem_append_left _ hr)
        rw [List.getLastD_concat] at final ⊢
        rw [List.dropLast_concat, List.sum_append, List.sum_append, List.sum_singleton,
          List.sum_singleton, Int.add_assoc]
        exact ⟨snoc front' (by omega), rfl⟩
    case isFalse even =>
      rw [toShort_of_small (by omega) (by omega), List.sum_append, List.sum_singleton]
      exact ⟨snoc nonneg (by omega), rfl⟩

theorem getLastD_le_sum {runs : List Int} (nonneg : ∀ r ∈ runs, 0 ≤ r) :
    runs.getLastD 0 ≤ runs.sum := by
  rcases List.eq_nil_or_concat' runs with rfl | ⟨front, last, rfl⟩
  · exact le_rfl
  · have front' : 0 ≤ front.sum := List.sum_nonneg fun r hr => nonneg r (List.mem_append_left _ hr)
    rw [List.getLastD_concat, List.sum_append, List.sum_singleton]
    omega

/-- `xpad` gives a run vector its new width when that fits a `short`. -/
theorem xpad_sum {runs : List Int} (nonneg : ∀ r ∈ runs, 0 ≤ r) (pad : Int)
    (lower : 0 ≤ runs.sum + pad) (upper : runs.sum + pad ≤ 32767) :
    (∀ r ∈ xpad runs pad, 0 ≤ r) ∧ (xpad runs pad).sum = runs.sum + pad := by
  refine xpad_sum_of_stored nonneg lower (fun _ => ?_) (fun _ => ?_)
  · have reversed : ∀ r ∈ runs.reverse, 0 ≤ r := by simpa using nonneg
    obtain ⟨kept, pos, sum⟩ := dropPels_sum reversed pad (by rw [List.sum_reverse]; omega)
    have small : 0 ≤ (dropPels runs.reverse pad).1.sum := List.sum_nonneg kept
    rw [List.sum_reverse] at sum
    omega
  · have last := getLastD_le_sum nonneg
    omega

/-- What is put back of the last run taken is not longer than a run. -/
theorem dropPels_le {runs : List Int} {m : Int} (pos : 0 ≤ m) (short : ∀ r ∈ runs, r ≤ m) {pad : Int}
    (le : pad ≤ m) : (dropPels runs pad).2 ≤ m := by
  induction runs generalizing pad with
  | nil =>
    rw [dropPels]
    dsimp only
    split
    · exact pos
    · exact le
  | cons run runs ih =>
    rw [dropPels]
    split
    case isTrue neg =>
      have here := short run List.mem_cons_self
      exact ih (fun r hr => short r (List.mem_cons_of_mem run hr)) (by omega)
    case isFalse => exact le

/-- `xpad` gives a run vector of short runs its new width, however wide it is. -/
theorem xpad_sum_of_short {runs : List Int} (nonneg : ∀ r ∈ runs, 0 ≤ r) {m : Int} (pos : 0 ≤ m)
    (short : ∀ r ∈ runs, r ≤ m) {pad : Int} (lower : 0 ≤ runs.sum + pad)
    (upper : m + max pad 0 ≤ 32767) :
    (∀ r ∈ xpad runs pad, 0 ≤ r) ∧ (xpad runs pad).sum = runs.sum + pad := by
  refine xpad_sum_of_stored nonneg lower (fun neg => ?_) (fun _ => ?_)
  · have reversed : ∀ r ∈ runs.reverse, r ≤ m := by simpa using short
    have below : pad ≤ m := by omega
    have taken := dropPels_le pos reversed below
    omega
  · have last : runs.getLastD 0 ≤ m := by
      rcases List.eq_nil_or_concat' runs with rfl | ⟨front, last, rfl⟩
      · exact pos
      · rw [List.getLastD_concat]
        exact short last (List.mem_append_right _ List.mem_cons_self)
    omega

/-! ## Merging -/

/-- A position in a run vector: the index of the current run, what is left of it, and the runs after
it. -/
structure Cursor where
  i : Nat
  l : Int
  rest : List Int
  deriving DecidableEq, Repr

/-- The output of `runor`: the finished runs and the current one. -/
structure OrOut where
  done : List Int
  cur : Int
  deriving DecidableEq, Repr

/-- Output a subrun: a new run when the colour `col` is not that of the current run. -/
def OrOut.add (c : OrOut) (col : Nat) (n : Int) : OrOut :=
  if (col ^^^ c.done.length) % 2 = 1 then ⟨c.done ++ [c.cur], n⟩ else ⟨c.done, toShort (c.cur + n)⟩

/-- The first loop of `runor`: take the shorter subrun until the last run of one line is used up.
The result says whether that was the first line.  The number bounds the subruns. -/
def orBoth : Nat → OrOut → Cursor → Cursor → OrOut × Cursor × Cursor × Bool
  | 0, c, a, b => (c, a, b, true)
  | n + 1, c, a, b =>
    if a.l ≤ b.l then
      let c := c.add (a.i ||| b.i) a.l
      let b := { b with l := toShort (b.l - a.l) }
      match a.rest with
      | [] => (c, { a with i := a.i + 1 }, b, true)
      | l :: rest => orBoth n c ⟨a.i + 1, l, rest⟩ b
    else
      let c := c.add (a.i ||| b.i) b.l
      let a := { a with l := toShort (a.l - b.l) }
      match b.rest with
      | [] => (c, a, { b with i := b.i + 1 }, false)
      | l :: rest => orBoth n c a ⟨b.i + 1, l, rest⟩

/-- The second loop of `runor`: what is left of the other line. -/
def orRest (c : OrOut) (i : Nat) (l : Int) : List Int → OrOut
  | [] => c.add i l
  | l' :: rest => orRest (c.add i l) (i + 1) l' rest

/-- `runor` with its output placed in `a`: the runs of the OR of two lines.  `a` and `b` are the run
buffers, of which the first `na` and `nb` runs are the lines; the first run of each is read in any
case. -/
def runor (a : List Int) (na : Nat) (b : List Int) (nb : Nat) : List Int :=
  let ca : Cursor := ⟨0, a.headD 0, (a.take na).tail⟩
  let cb : Cursor := ⟨0, b.headD 0, (b.take nb).tail⟩
  let (c, ca, cb, aDone) := orBoth (ca.rest.length + cb.rest.length + 1) ⟨[], 0⟩ ca cb
  let c := if ¬ aDone ∧ na ≠ 0 then orRest c ca.i ca.l ca.rest else orRest c cb.i cb.l cb.rest
  c.done ++ [c.cur]

/-- The pels output so far. -/
def OrOut.total (c : OrOut) : Int := c.done.sum + c.cur

/-- Every run output so far is a nonnegative number. -/
def OrOut.Nonneg (c : OrOut) : Prop := (∀ r ∈ c.done, 0 ≤ r) ∧ 0 ≤ c.cur

/-- A line of which `pos` pels are done and that fits a `short`. -/
structure Cursor.Fits (b : Cursor) (pos : Int) : Prop where
  here : 0 ≤ b.l
  later : ∀ r ∈ b.rest, 0 ≤ r
  width : pos + (b.l + b.rest.sum) ≤ 32767

theorem Cursor.Fits.rest_sum {b : Cursor} {pos : Int} (fits : b.Fits pos) : 0 ≤ b.rest.sum :=
  List.sum_nonneg fits.later

theorem OrOut.Nonneg.snoc {c : OrOut} (nonneg : c.Nonneg) {n : Int} (pos : 0 ≤ n) :
    (⟨c.done ++ [c.cur], n⟩ : OrOut).Nonneg := by
  refine ⟨fun r member => ?_, pos⟩
  have member' : r ∈ c.done ++ [c.cur] := member
  rw [List.mem_append, List.mem_singleton] at member'
  rcases member' with member' | rfl
  · exact nonneg.1 r member'
  · exact nonneg.2

theorem OrOut.Nonneg.total {c : OrOut} (nonneg : c.Nonneg) : 0 ≤ c.total := by
  have done : 0 ≤ c.done.sum := List.sum_nonneg nonneg.1
  have cur := nonneg.2
  unfold OrOut.total
  omega

/-- Output of a subrun within the width of a `short`. -/
theorem OrOut.Nonneg.add {c : OrOut} (nonneg : c.Nonneg) (col : Nat) {n : Int} (pos : 0 ≤ n)
    (width : c.total + n ≤ 32767) : (c.add col n).Nonneg ∧ (c.add col n).total = c.total + n := by
  have done : 0 ≤ c.done.sum := List.sum_nonneg nonneg.1
  have cur := nonneg.2
  unfold OrOut.total at width ⊢
  unfold OrOut.add
  split
  · refine ⟨nonneg.snoc pos, ?_⟩
    rw [List.sum_append, List.sum_singleton]
  · rw [toShort_of_small (by omega) (by omega)]
    refine ⟨⟨nonneg.1, ?_⟩, ?_⟩
    · show 0 ≤ c.cur + n
      omega
    · show c.done.sum + (c.cur + n) = c.done.sum + c.cur + n
      omega

/-- The line after its current run. -/
theorem Cursor.Fits.next {a : Cursor} {pos : Int} (fits : a.Fits pos) {l : Int} {rest : List Int}
    (eq : a.rest = l :: rest) : (⟨a.i + 1, l, rest⟩ : Cursor).Fits (pos + a.l) := by
  obtain ⟨-, later, width⟩ := fits
  rw [eq] at later width
  rw [List.sum_cons] at width
  refine ⟨later l List.mem_cons_self, fun r hr => later r (List.mem_cons_of_mem l hr), ?_⟩
  show pos + a.l + (l + rest.sum) ≤ 32767
  omega

/-- The line after a part of its current run. -/
theorem Cursor.Fits.less {b : Cursor} {pos : Int} (fits : b.Fits pos) (start : 0 ≤ pos) {n : Int}
    (nonneg : 0 ≤ n) (le : n ≤ b.l) :
    toShort (b.l - n) = b.l - n ∧ ({ b with l := b.l - n } : Cursor).Fits (pos + n) := by
  have rest := fits.rest_sum
  have width := fits.width
  refine ⟨toShort_of_small (by omega) (by omega), ?_, fits.later, ?_⟩
  · show 0 ≤ b.l - n
    omega
  · show pos + n + (b.l - n + b.rest.sum) ≤ 32767
    omega

/-- The second loop of `runor` outputs the rest of a line that fits. -/
theorem orRest_spec {c : OrOut} (nonneg : c.Nonneg) (i : Nat) {l : Int} {rest : List Int}
    (fits : (⟨i, l, rest⟩ : Cursor).Fits c.total) :
    (orRest c i l rest).Nonneg ∧ (orRest c i l rest).total ≤ 32767 := by
  induction rest generalizing c i l with
  | nil =>
    have width : c.total + (l + 0) ≤ 32767 := fits.width
    obtain ⟨nonneg', total⟩ := nonneg.add i (n := l) fits.here (by omega)
    refine ⟨nonneg', ?_⟩
    show (c.add i l).total ≤ 32767
    omega
  | cons l' rest ih =>
    have width : c.total + (l + (l' :: rest).sum) ≤ 32767 := fits.width
    have later : 0 ≤ (l' :: rest).sum := List.sum_nonneg fits.later
    obtain ⟨nonneg', total⟩ := nonneg.add i (n := l) fits.here (by omega)
    have fits' := fits.next rfl
    rw [← total] at fits'
    exact ih nonneg' (i + 1) fits'

/-- What the first loop of `runor` leaves: one line is used up, and the other one still fits. -/
structure BothSpec (out : OrOut × Cursor × Cursor × Bool) : Prop where
  nonneg : out.1.Nonneg
  first : out.2.2.2 = true → out.2.2.1.Fits out.1.total
  second : out.2.2.2 = false → out.2.1.Fits out.1.total

theorem orBoth_spec {n : Nat} {c : OrOut} {a b : Cursor} (nonneg : c.Nonneg)
    (fitsA : a.Fits c.total) (fitsB : b.Fits c.total)
    (fuel : a.rest.length + b.rest.length < n) : BothSpec (orBoth n c a b) := by
  induction n generalizing c a b with
  | zero => omega
  | succ n ih =>
    have restA := fitsA.rest_sum
    have restB := fitsB.rest_sum
    have widthA := fitsA.width
    have widthB := fitsB.width
    have pos := nonneg.total
    rw [orBoth]
    split
    case isTrue le =>
      obtain ⟨nonneg', total⟩ := nonneg.add (a.i ||| b.i) fitsA.here (by omega)
      obtain ⟨stored, fitsB'⟩ := fitsB.less pos fitsA.here le
      rw [← total] at fitsB'
      rw [stored]
      cases restA' : a.rest with
      | nil => exact ⟨nonneg', fun _ => fitsB', fun no => by cases no⟩
      | cons l rest =>
        have fitsA' := fitsA.next restA'
        rw [← total] at fitsA'
        rw [restA', List.length_cons] at fuel
        exact ih nonneg' fitsA' fitsB' (by show rest.length + b.rest.length < n; omega)
    case isFalse gt =>
      obtain ⟨nonneg', total⟩ := nonneg.add (a.i ||| b.i) fitsB.here (by omega)
      obtain ⟨stored, fitsA'⟩ := fitsA.less pos fitsB.here (by omega)
      rw [← total] at fitsA'
      rw [stored]
      cases restB' : b.rest with
      | nil => exact ⟨nonneg', fun no => (by cases no), fun _ => fitsA'⟩
      | cons l rest =>
        have fitsB' := fitsB.next restB'
        rw [← total] at fitsB'
        rw [restB', List.length_cons] at fuel
        exact ih nonneg' fitsA' fitsB' (by show a.rest.length + rest.length < n; omega)

/-- A run buffer whose first `n` runs are a line that fits a `short`. -/
structure LineBuffer (a : List Int) (n : Nat) : Prop where
  nonneg : ∀ r ∈ a.take n, 0 ≤ r
  width : (a.take n).sum ≤ 32767

/-- The first cursor into a line.  Without a run in the line, it reads what the buffer holds. -/
theorem LineBuffer.fits {a : List Int} {n : Nat} (line : LineBuffer a n)
    (head : n = 0 → 0 ≤ a.headD 0 ∧ a.headD 0 ≤ 32767) :
    (⟨0, a.headD 0, (a.take n).tail⟩ : Cursor).Fits 0 := by
  cases n with
  | zero =>
    refine ⟨(head rfl).1, by simp, ?_⟩
    have upper := (head rfl).2
    show 0 + (a.headD 0 + 0) ≤ 32767
    omega
  | succ n =>
    cases a with
    | nil => exact ⟨le_rfl, by simp, by show (0 : Int) + (0 + 0) ≤ 32767; decide⟩
    | cons run runs =>
      have nonneg := line.nonneg
      have width := line.width
      rw [List.take_succ_cons] at nonneg width
      rw [List.sum_cons] at width
      refine ⟨nonneg run List.mem_cons_self, fun r hr => nonneg r (List.mem_cons_of_mem run hr), ?_⟩
      show 0 + (run + (runs.take n).sum) ≤ 32767
      omega

/-- The first run is white, and so is a subrun that is white in both lines. -/
theorem OrOut.add_first (cur n : Int) :
    (⟨[], cur⟩ : OrOut).add 0 n = ⟨[], toShort (cur + n)⟩ := by
  simp [OrOut.add]

theorem nonneg_empty : (⟨[], 0⟩ : OrOut).Nonneg := ⟨by simp, le_rfl⟩

theorem OrOut.Nonneg.runs {c : OrOut} (nonneg : c.Nonneg) : ∀ r ∈ c.done ++ [c.cur], 0 ≤ r :=
  (nonneg.snoc nonneg.2).1

/-- A first buffer without runs whose first run is negative, such as the code of an EOL, leaves the
second line as it is. -/
theorem runor_negative {a b : List Int} (nb : Nat) (lower : -32768 ≤ a.headD 0)
    (negative : a.headD 0 < 0) (head : 0 ≤ b.headD 0) (upper : b.headD 0 ≤ 32767) :
    runor a 0 b nb = (orRest ⟨[], 0⟩ 0 (b.headD 0) (b.take nb).tail).done ++
      [(orRest ⟨[], 0⟩ 0 (b.headD 0) (b.take nb).tail).cur] := by
  have le : a.headD 0 ≤ b.headD 0 := by omega
  have first : (⟨[], 0⟩ : OrOut).add 0 (a.headD 0) = ⟨[], a.headD 0⟩ := by
    rw [OrOut.add_first, Int.zero_add, toShort_of_small lower (by omega)]
  have both : orBoth ((List.take 0 a).tail.length + (b.take nb).tail.length + 1) ⟨[], 0⟩
      ⟨0, a.headD 0, (a.take 0).tail⟩ ⟨0, b.headD 0, (b.take nb).tail⟩ =
      (⟨[], a.headD 0⟩, ⟨1, a.headD 0, []⟩,
        ⟨0, toShort (b.headD 0 - a.headD 0), (b.take nb).tail⟩, true) := by
    rw [orBoth]
    simp only [if_pos le, Nat.or_zero, first, List.take_zero, List.tail_nil]
  have second : (⟨[], a.headD 0⟩ : OrOut).add 0 (toShort (b.headD 0 - a.headD 0)) =
      (⟨[], 0⟩ : OrOut).add 0 (b.headD 0) := by
    rw [OrOut.add_first, OrOut.add_first, toShort_add_sub (by omega) upper, Int.zero_add,
      toShort_of_small (by omega) upper]
  have rest : orRest ⟨[], a.headD 0⟩ 0 (toShort (b.headD 0 - a.headD 0)) (b.take nb).tail =
      orRest ⟨[], 0⟩ 0 (b.headD 0) (b.take nb).tail := by
    cases (b.take nb).tail with
    | nil => exact second
    | cons l rest => rw [orRest, orRest, second]
  simp only [runor, both, rest, not_true, false_and, if_false]

/-- The OR of two lines that fit a `short` is such a line, also when the first one has no runs and
the code of an EOL stands in its buffer, or the second one has none and a run of another line does. -/
theorem runor_line {a b : List Int} {na nb : Nat} (lineA : LineBuffer a na)
    (eol : na = 0 → -32768 ≤ a.headD 0 ∧ a.headD 0 < 0) (lineB : LineBuffer b nb)
    (head : nb = 0 → 0 ≤ b.headD 0 ∧ b.headD 0 ≤ 32767) :
    (∀ r ∈ runor a na b nb, 0 ≤ r) ∧ (runor a na b nb).sum ≤ 32767 := by
  have fitsB := lineB.fits head
  have result : ∃ c : OrOut, c.Nonneg ∧ c.total ≤ 32767 ∧ runor a na b nb = c.done ++ [c.cur] := by
    by_cases empty : na = 0
    · subst empty
      obtain ⟨lower, negative⟩ := eol rfl
      have width : 0 + (b.headD 0 + (b.take nb).tail.sum) ≤ 32767 := fitsB.width
      have here : 0 ≤ b.headD 0 := fitsB.here
      have later : 0 ≤ (b.take nb).tail.sum := fitsB.rest_sum
      obtain ⟨nonneg, total⟩ := orRest_spec nonneg_empty 0 fitsB
      exact ⟨_, nonneg, total, runor_negative nb lower negative here (by omega)⟩
    · have fitsA := lineA.fits fun none => absurd none empty
      have spec := orBoth_spec (n := (a.take na).tail.length + (b.take nb).tail.length + 1)
        nonneg_empty fitsA fitsB (Nat.lt_succ_self _)
      unfold runor
      simp only
      generalize orBoth ((a.take na).tail.length + (b.take nb).tail.length + 1) ⟨[], 0⟩
        ⟨0, a.headD 0, (a.take na).tail⟩ ⟨0, b.headD 0, (b.take nb).tail⟩ = out at spec
      obtain ⟨c, ca, cb, aDone⟩ := out
      cases aDone with
      | true =>
        obtain ⟨nonneg, total⟩ := orRest_spec spec.nonneg cb.i (spec.first rfl)
        exact ⟨_, nonneg, total, by simp only [not_true, false_and, if_false]⟩
      | false =>
        obtain ⟨nonneg, total⟩ := orRest_spec spec.nonneg ca.i (spec.second rfl)
        refine ⟨_, nonneg, total, ?_⟩
        simp only [Bool.false_eq_true, not_false_eq_true, ne_eq, empty, and_self, if_true]
  obtain ⟨c, nonneg, total, runs⟩ := result
  rw [runs]
  refine ⟨nonneg.runs, ?_⟩
  rw [List.sum_append, List.sum_singleton]
  exact total

end QFax.Efax

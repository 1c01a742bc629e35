import QFax.Efax.RunMerge
import QFax.Efax.RunScale

/-!
# The pages that `efix` writes

`efix` copies the lines of a page.  It moves them down by blank lines or up by lines that it skips,
repeats or drops lines by a fixed-point accumulator, scales, shifts and pads each line, and fills the
page with blank lines.  A page has exactly `h` lines of `w` pels when the blank lines in front fit the
page, the run vectors have room, and every line that is written keeps its values and is placed right; as
long as no value is lost, only then (`copyPage_full`).
-/

namespace QFax.Efax

/-! ## The page loop -/

/-- What `readline` leaves: the run buffer, whose first `nr` runs are the line, and the pel count. -/
structure ReadLine where
  buf : List Int
  nr : Nat
  pels : Int

/-- The output dimensions in pixels, the shifts and the scales, as `int` values of the arguments and
the resolutions, and whether the output format is `O_PGM`. -/
structure Geometry where
  w : Int
  h : Int
  ixsh : Int
  iysh : Int
  xs : Int
  ys : Int
  pgm : Bool

/-- `MAXBITS`. -/
def maxBits : Nat := maxRuns / 8 + 1

/-- The width in pixels, rounded to bytes. -/
def Geometry.width (g : Geometry) : Int := if g.w % 8 ≠ 0 then (g.w + 7) / 8 * 8 else g.w

/-- The height in lines, rounded for the decimation of a PGM image. -/
def Geometry.height (g : Geometry) : Int :=
  if g.pgm ∧ g.h % 4 ≠ 0 then (g.h + 3) / 4 * 4 else g.h

/-- An error is reported. -/
def Geometry.err (g : Geometry) : Bool :=
  g.width ≤ 0 || g.height ≤ 0 || g.width > maxBits * 8 || g.xs ≤ 0 || g.ys ≤ 0

/-- The runs and the pel count of a line with the next line of the overlay file over it, if there is
such a file and if the run vector (`tmp` of `runor`) has room for them, and the rest of the file. -/
def overlay (line : ReadLine) :
    Option (List (Option ReadLine)) → Option (List Int × Int) × Option (List (Option ReadLine))
  | some (some ov :: ovfile) =>
    let (runs, pels, nr) := runorInPlace line.buf line.nr ov.buf ov.nr
    ((stored (runs.take nr)).map (·, pels), some ovfile)
  | some (none :: ovfile) => ((stored (line.buf.take line.nr)).map (·, line.pels), some ovfile)
  | ovfile => ((stored (line.buf.take line.nr)).map (·, line.pels), ovfile)

/-- Copy input to output, up to the first line that `readline` does not return: the lines written and
their number with those before, unless a run outside of a run vector is accessed. -/
def copyLines (g : Geometry) : List (Option ReadLine) → Option (List (Option ReadLine)) →
    Int → Int → Int → Option (List (List Int) × Int)
  | some line :: ifile, ovfile, ilines, olines, linesout =>
    if linesout < g.height then
      let ilines := ilines + 1
      match overlay line ovfile with
      | (none, _) => none
      | (some (runs, pels), ovfile) =>
        match place g.xs g.ixsh g.width runs pels with
        | none => none
        | some runs =>
          -- scale by deleting or duplicating lines
          let no := wrapInt (ilines * g.ys) / 256 - olines
          let no := if linesout + no > g.height then g.height - linesout else no
          match copyLines g ifile ovfile ilines (olines + no) (linesout + no) with
          | none => none
          | some (lines, linesout) => some (List.replicate no.toNat runs ++ lines, linesout)
    else some ([], linesout)
  | _, _, _, _, linesout => some ([], linesout)

/-- The lines of a page that `writeline` gets.  The input is what the calls of `readline` return. -/
def copyPage (g : Geometry) (ifile : List (Option ReadLine))
    (ovfile : Option (List (Option ReadLine))) : Option (List (List Int)) :=
  let blank := [toShort g.width]
  let (shift, ifile, linesout) :=
    if g.iysh > 0 then (List.replicate g.iysh.toNat blank, ifile, g.iysh)
    else ([], ifile.drop (-g.iysh).toNat, 0)
  match copyLines g ifile ovfile 0 0 linesout with
  | none => none
  | some (lines, linesout) =>
    let fill := if linesout < g.height then List.replicate (g.height - linesout).toNat blank else []
    some (shift ++ lines ++ fill)

/-- A page of `height` lines of `width` pels, in whole bytes. -/
structure FullPage (g : Geometry) (lines : List (List Int)) : Prop where
  count : (lines.length : Int) = g.height
  fills : ∀ runs ∈ lines, Fills g.width runs
  bytes : g.width % 8 = 0

/-! ## Which lines are written -/

variable {g : Geometry} {ifile : List (Option ReadLine)} {ovfile : Option (List (Option ReadLine))}

/-- The lines of the input, each one with its overlay if there is room for both, up to the first that
is not returned. -/
def inputLines : List (Option ReadLine) → Option (List (Option ReadLine)) →
    List (Option (List Int × Int))
  | some line :: ifile, ovfile =>
    (overlay line ovfile).1 :: inputLines ifile (overlay line ovfile).2
  | _, _ => []

/-- The lines that `efix` does not skip. -/
def Geometry.lines (g : Geometry) (ifile : List (Option ReadLine))
    (ovfile : Option (List (Option ReadLine))) : List (Option (List Int × Int)) :=
  inputLines (if g.iysh > 0 then ifile else ifile.drop (-g.iysh).toNat) ovfile

/-- The scaled position of input line `i`. -/
def Geometry.row (g : Geometry) (i : Nat) : Int := i * g.ys / 256

/-- The lines written before input line `i` is read, unless the blank lines in front fill the page. -/
def Geometry.top (g : Geometry) (i : Nat) : Int := min (max g.iysh 0 + g.row i) g.height

/-- Input line `i` is read. -/
def Geometry.Reads (g : Geometry) (i : Nat) : Prop := max g.iysh 0 + g.row i < g.height

/-- Input line `i` is written at least once, if it is read. -/
def Geometry.Repeats (g : Geometry) (i : Nat) : Prop := g.row i < g.row (i + 1)

/-- What `efix` does with input line `i` gives a line of the page, if it is written at all. -/
structure Geometry.LineDone (g : Geometry) (i : Nat) (line : List Int × Int) : Prop where
  inside : place g.xs g.ixsh g.width line.1 line.2 ≠ none
  fills : g.Repeats i → ∃ out, place g.xs g.ixsh g.width line.1 line.2 = some out ∧
    Fills g.width out

/-- A line that `readline` returns and its overlay are in the run vector. -/
theorem length_overlay {line : ReadLine} {l : List Int × Int} (l_mem : l ∈ (overlay line ovfile).1) :
    l.1.length ≤ maxRuns := by
  have fits {runs : List Int} {pels : Int} (kept : (stored runs).map (·, pels) = some l) :
      l.1.length ≤ maxRuns := by
    obtain ⟨out, room, rfl⟩ := Option.map_eq_some_iff.mp kept
    obtain ⟨few, rfl⟩ := stored_eq_some.mp room
    exact few
  unfold overlay at l_mem
  split at l_mem <;> exact fits l_mem

theorem Geometry.row_mono (pos : 0 < g.ys) (i : Nat) : g.row i ≤ g.row (i + 1) := by
  have product : (i : Int) * g.ys ≤ ((i + 1 : Nat) : Int) * g.ys :=
    Int.mul_le_mul_of_nonneg_right (by omega) pos.le
  unfold Geometry.row
  omega

/-- A full page gets no more lines. -/
theorem copyLines_full {ilines olines linesout : Int} (full : g.height ≤ linesout) :
    copyLines g ifile ovfile ilines olines linesout = some ([], linesout) := by
  unfold copyLines
  split
  · exact if_neg (by omega)
  · rfl

/-- One round of the loop. -/
theorem copyLines_step (pos : 0 < g.ys) {i : Nat} (reads : g.Reads i)
    (product : ((i + 1 : Nat) : Int) * g.ys ≤ 2147483647) {line : ReadLine} {l : List Int × Int}
    (joined : (overlay line ovfile).1 = some l) :
    copyLines g (some line :: ifile) ovfile i (g.row i) (g.top i) =
      match place g.xs g.ixsh g.width l.1 l.2 with
      | none => none
      | some runs =>
        match copyLines g ifile (overlay line ovfile).2 (i + 1 : Nat) (g.row (i + 1))
          (g.top (i + 1)) with
        | none => none
        | some (lines, linesout) =>
          some (List.replicate (g.top (i + 1) - g.top i).toNat runs ++ lines, linesout) := by
  have mono := g.row_mono pos i
  have here : g.top i = max g.iysh 0 + g.row i := min_eq_left reads.le
  have room : g.top i < g.height := by rwa [here]
  have next : g.top (i + 1) = min (max g.iysh 0 + g.row (i + 1)) g.height := rfl
  have above : 0 ≤ ((i + 1 : Nat) : Int) * g.ys := Int.mul_nonneg (by omega) pos.le
  have scaled : wrapInt (((i + 1 : Nat) : Int) * g.ys) / 256 = g.row (i + 1) := by
    rw [wrapInt_of_small (by omega) product]
    rfl
  have index : (i : Int) + 1 = ((i + 1 : Nat) : Int) := by omega
  obtain ⟨runs, pels⟩ := l
  have both : overlay line ovfile = (some (runs, pels), (overlay line ovfile).2) := Prod.ext joined rfl
  rw [copyLines, if_pos room, both]
  simp only [index, scaled]
  cases place g.xs g.ixsh g.width runs pels with
  | none => rfl
  | some runs =>
    dsimp only
    by_cases clamped : g.top i + (g.row (i + 1) - g.row i) > g.height
    · have full : g.top (i + 1) = g.height := by omega
      have rest : g.top i + (g.height - g.top i) = g.height := by omega
      rw [if_pos clamped, full, rest, copyLines_full le_rfl, copyLines_full le_rfl]
    · have olines : g.row i + (g.row (i + 1) - g.row i) = g.row (i + 1) := by omega
      have linesout : g.top i + (g.row (i + 1) - g.row i) = g.top (i + 1) := by omega
      have no : g.row (i + 1) - g.row i = g.top (i + 1) - g.top i := by omega
      rw [if_neg clamped, olines, linesout, no]

theorem Geometry.Reads.top_lt {i : Nat} (reads : g.Reads i) : g.top i < g.height :=
  (min_eq_left reads.le).trans_lt reads

/-- The page is full where no more lines are read. -/
theorem Geometry.top_full {i : Nat} (reads : ¬ g.Reads i) : g.top i = g.height :=
  min_eq_right (not_lt.mp reads)

/-- A line that there is no room for. -/
theorem copyLines_outside {ilines olines linesout : Int} (room : linesout < g.height) {line : ReadLine}
    (joined : (overlay line ovfile).1 = none) :
    copyLines g (some line :: ifile) ovfile ilines olines linesout = none := by
  have both : overlay line ovfile = (none, (overlay line ovfile).2) := Prod.ext joined rfl
  rw [copyLines, if_pos room, both]

theorem Geometry.Reads.of_add (pos : 0 < g.ys) {i k : Nat} (reads : g.Reads (i + k)) :
    g.Reads i := by
  induction k with
  | zero => exact reads
  | succ k ih =>
    have mono := g.row_mono pos (i + k)
    apply ih
    unfold Geometry.Reads at reads ⊢
    rw [← Nat.add_assoc] at reads
    omega

/-- A property of the entries of a list and their positions. -/
theorem forall_getElem?_cons {α : Type} {P : Nat → α → Prop} {x : α} {xs : List α} :
    (∀ k y, (x :: xs)[k]? = some y → P k y) ↔ P 0 x ∧ ∀ k y, xs[k]? = some y → P (k + 1) y := by
  constructor
  · intro all
    exact ⟨all 0 x rfl, fun k y found => all (k + 1) y (by simpa using found)⟩
  · rintro ⟨first, later⟩ k y found
    cases k with
    | zero =>
      cases found
      exact first
    | succ k => exact later k y (by simpa using found)

/-- The lines of the loop, counted. -/
theorem copyLines_count (pos : 0 < g.ys) {i : Nat}
    (product : ∀ k line, (inputLines ifile ovfile)[k]? = some line → g.Reads (i + k) → line.isSome →
      ((i + k + 1 : Nat) : Int) * g.ys ≤ 2147483647) {lines : List (List Int)} {linesout : Int}
    (copied : copyLines g ifile ovfile i (g.row i) (g.top i) = some (lines, linesout)) :
    g.top i + lines.length = linesout ∧ linesout ≤ g.height := by
  induction ifile generalizing i ovfile lines linesout with
  | nil =>
    cases copied
    exact ⟨Int.add_zero _, min_le_right _ _⟩
  | cons line ifile ih =>
    cases line with
    | none =>
      cases copied
      exact ⟨Int.add_zero _, min_le_right _ _⟩
    | some line =>
      by_cases reads : g.Reads i
      · cases joined : (overlay line ovfile).1 with
        | none =>
          rw [copyLines_outside reads.top_lt joined] at copied
          cases copied
        | some l =>
          have first := product 0 _ rfl reads (joined ▸ rfl)
          rw [copyLines_step pos reads first joined] at copied
          split at copied
          case h_1 => cases copied
          case h_2 runs placed =>
            split at copied
            case h_1 => cases copied
            case h_2 lines' linesout' rest =>
              cases copied
              have later := ih (i := i + 1) (fun k line inside read some' => by
                have shifted : i + 1 + k = i + (k + 1) := by omega
                rw [shifted] at read ⊢
                exact product (k + 1) line inside read some') rest
              have mono := g.row_mono pos i
              have less : g.top i ≤ g.top (i + 1) := by
                unfold Geometry.top
                omega
              rw [List.length_append, List.length_replicate]
              omega
      · rw [g.top_full reads, copyLines_full le_rfl] at copied
        cases copied
        rw [g.top_full reads]
        exact ⟨Int.add_zero _, le_rfl⟩

/-- A line is written as often as the output goes on, which may be never. -/
theorem replicated_fills_iff {i : Nat} (reads : g.Reads i) (runs : List Int) :
    (∀ r ∈ List.replicate (g.top (i + 1) - g.top i).toNat runs, Fills g.width r) ↔
      (g.Repeats i → Fills g.width runs) := by
  have written : 0 < (g.top (i + 1) - g.top i).toNat ↔ g.Repeats i := by
    unfold Geometry.Reads at reads
    unfold Geometry.Repeats Geometry.top
    omega
  rw [← written]
  constructor
  · intro all some
    exact all runs (List.mem_replicate.mpr ⟨some.ne', rfl⟩)
  · intro one r member
    obtain ⟨some, rfl⟩ := List.mem_replicate.mp member
    exact one (Nat.pos_of_ne_zero some)

/-- The loop writes lines of the page if and only if each line that it reads gives one. -/
theorem copyLines_fills (pos : 0 < g.ys) {i : Nat}
    (product : ∀ k line, (inputLines ifile ovfile)[k]? = some line → g.Reads (i + k) → line.isSome →
      ((i + k + 1 : Nat) : Int) * g.ys ≤ 2147483647) :
    (∃ lines linesout, copyLines g ifile ovfile i (g.row i) (g.top i) = some (lines, linesout) ∧
      ∀ runs ∈ lines, Fills g.width runs) ↔
    ∀ k line, (inputLines ifile ovfile)[k]? = some line → g.Reads (i + k) →
      ∃ l ∈ line, g.LineDone (i + k) l := by
  have blank : ∃ lines linesout, some (([] : List (List Int)), g.top i) = some (lines, linesout) ∧
      ∀ runs ∈ lines, Fills g.width runs := ⟨[], g.top i, rfl, by simp⟩
  induction ifile generalizing i ovfile with
  | nil => exact iff_of_true blank (by simp [inputLines])
  | cons line ifile ih =>
    cases line with
    | none => exact iff_of_true blank (by simp [inputLines])
    | some line =>
      by_cases reads : g.Reads i
      · rw [inputLines, forall_getElem?_cons] at product ⊢
        obtain ⟨first, later⟩ := product
        have rest := ih (i := i + 1) (by simp only [Nat.add_right_comm i 1]; exact later)
          ⟨[], _, rfl, by simp⟩
        simp only [Nat.add_right_comm i 1] at rest
        cases joined : (overlay line ovfile).1 with
        | none =>
          -- the line and its overlay are no line of the page
          rw [copyLines_outside reads.top_lt joined]
          refine iff_of_false (fun copied => ?_) fun all => ?_
          · obtain ⟨lines, linesout, none, -⟩ := copied
            cases none
          · obtain ⟨l, none, -⟩ := all.1 reads
            cases none
        | some l =>
          rw [joined] at first
          rw [copyLines_step pos reads (first reads rfl) joined]
          simp only [Option.mem_some, exists_eq_left']
          constructor
          · rintro ⟨lines, linesout, copied, fills⟩
            split at copied
            case h_1 => cases copied
            case h_2 runs placed =>
              split at copied
              case h_1 => cases copied
              case h_2 lines' linesout' copied' =>
                cases copied
                have one := (replicated_fills_iff reads runs).mp fun r hr =>
                  fills r (List.mem_append_left _ hr)
                refine ⟨fun _ => ⟨by rw [placed]; exact Option.some_ne_none runs,
                  fun repeats => ⟨runs, placed, one repeats⟩⟩, rest.mp ?_⟩
                exact ⟨lines', linesout, copied', fun r hr => fills r (List.mem_append_right _ hr)⟩
          · rintro ⟨done, done'⟩
            obtain ⟨inside, fills⟩ := done reads
            obtain ⟨runs, placed⟩ := Option.ne_none_iff_exists'.mp inside
            obtain ⟨lines, linesout, copied, fills'⟩ := rest.mpr done'
            have one : g.Repeats i → Fills g.width runs := by
              intro repeats
              obtain ⟨out, same, ok⟩ := fills repeats
              rw [placed] at same
              cases same
              exact ok
            rw [placed, copied]
            refine ⟨_, _, rfl, fun r member => ?_⟩
            rcases List.mem_append.mp member with member | member
            · exact (replicated_fills_iff reads runs).mpr one r member
            · exact fills' r member
      · rw [g.top_full reads] at blank ⊢
        rw [copyLines_full le_rfl]
        exact iff_of_true blank fun k _ _ read => absurd (read.of_add pos) reads

/-! ## Pages -/

theorem Geometry.err_eq_false : g.err = false ↔
    0 < g.width ∧ 0 < g.height ∧ g.width ≤ 8200 ∧ 0 < g.xs ∧ 0 < g.ys := by
  have bits : (maxBits : Int) * 8 = 8200 := rfl
  simp only [Geometry.err, bits, Bool.or_eq_false_iff, decide_eq_false_iff_not, not_le, not_lt]
  tauto

theorem Geometry.width_mod (g : Geometry) : g.width % 8 = 0 := by
  unfold Geometry.width
  split <;> omega

theorem Geometry.row_zero (g : Geometry) : g.row 0 = 0 := by
  unfold Geometry.row
  rw [Int.natCast_zero, Int.zero_mul]
  rfl

/-- A page: blank lines in front, the lines of the loop, and blank lines up to its height. -/
theorem copyPage_eq (g : Geometry) (ifile : List (Option ReadLine))
    (ovfile : Option (List (Option ReadLine))) :
    copyPage g ifile ovfile =
      (copyLines g (if g.iysh > 0 then ifile else ifile.drop (-g.iysh).toNat) ovfile 0 0
        (max g.iysh 0)).map fun out =>
          List.replicate (max g.iysh 0).toNat [toShort g.width] ++ out.1 ++
            List.replicate (g.height - out.2).toNat [toShort g.width] := by
  have fill (linesout : Int) : (if linesout < g.height then
      List.replicate (g.height - linesout).toNat [toShort g.width] else []) =
        List.replicate (g.height - linesout).toNat [toShort g.width] := by
    split
    · rfl
    · have none : (g.height - linesout).toNat = 0 := by omega
      rw [none]
      rfl
  unfold copyPage
  split
  case isTrue down =>
    have front : max g.iysh 0 = g.iysh := by omega
    simp only [front, fill]
    cases copyLines g ifile ovfile 0 0 g.iysh <;> rfl
  case isFalse up =>
    have front : max g.iysh 0 = 0 := by omega
    simp only [front, fill]
    cases copyLines g (ifile.drop (-g.iysh).toNat) ovfile 0 0 0 <;> rfl

/-- A page is full if and only if the blank lines in front fit and each line that is read gives a line
of the page. -/
theorem copyPage_iff (accepted : g.err = false)
    (product : ∀ k line, (g.lines ifile ovfile)[k]? = some line → g.Reads k → line.isSome →
      ((k + 1 : Nat) : Int) * g.ys ≤ 2147483647) :
    (∃ lines, copyPage g ifile ovfile = some lines ∧ FullPage g lines) ↔
      g.iysh ≤ g.height ∧
        ∀ k line, (g.lines ifile ovfile)[k]? = some line → g.Reads k → ∃ l ∈ line, g.LineDone k l := by
  obtain ⟨width, height, fits, xs, ys⟩ := Geometry.err_eq_false.mp accepted
  have blank : Fills g.width [toShort g.width] := by
    rw [toShort_of_small (by omega) (by omega)]
    exact ⟨by simpa using width.le, List.sum_singleton⟩
  rw [copyPage_eq]
  by_cases room : g.iysh ≤ g.height
  · have top : g.top 0 = max g.iysh 0 := by
      rw [Geometry.top, g.row_zero]
      omega
    have product' : ∀ k line, (g.lines ifile ovfile)[k]? = some line → g.Reads (0 + k) → line.isSome →
        ((0 + k + 1 : Nat) : Int) * g.ys ≤ 2147483647 := by
      simpa only [Nat.zero_add] using product
    have fills := copyLines_fills ys product'
    simp only [Nat.zero_add] at fills
    have start : copyLines g (if g.iysh > 0 then ifile else ifile.drop (-g.iysh).toNat) ovfile
        ((0 : Nat) : Int) (g.row 0) (g.top 0) =
        copyLines g (if g.iysh > 0 then ifile else ifile.drop (-g.iysh).toNat) ovfile 0 0
          (max g.iysh 0) := by
      rw [top, g.row_zero]
      rfl
    rw [← start]
    constructor
    · rintro ⟨lines, copied, full⟩
      obtain ⟨⟨body, linesout⟩, loop, rfl⟩ := Option.map_eq_some_iff.mp copied
      refine ⟨room, fills.mp ⟨body, linesout, loop, fun r member => full.fills r ?_⟩⟩
      exact List.mem_append_left _ (List.mem_append_right _ member)
    · rintro ⟨-, done⟩
      obtain ⟨body, linesout, loop, ok⟩ := fills.mpr done
      obtain ⟨count, le⟩ := copyLines_count ys product' loop
      refine ⟨_, Option.map_eq_some_iff.mpr ⟨_, loop, rfl⟩, ?_, fun r member => ?_, g.width_mod⟩
      · rw [List.length_append, List.length_append, List.length_replicate, List.length_replicate]
        dsimp only
        omega
      · rcases List.mem_append.mp member with member | member
        · rcases List.mem_append.mp member with member | member
          · rwa [List.eq_of_mem_replicate member]
          · exact ok r member
        · rwa [List.eq_of_mem_replicate member]
  · refine iff_of_false ?_ fun ok => room ok.1
    rintro ⟨lines, copied, full⟩
    have front : max g.iysh 0 = g.iysh := by omega
    rw [front, copyLines_full (by omega)] at copied
    cases copied
    have total := full.count
    simp only [List.append_nil, List.length_append, List.length_replicate] at total
    omega

/-- No value of input line `k` is lost in a `short` or an `int`. -/
structure Geometry.LineStored (g : Geometry) (k : Nat) (line : List Int × Int) : Prop where
  product : ((k + 1 : Nat) : Int) * g.ys ≤ 2147483647
  stored : g.Repeats k → Stored g.xs g.ixsh line.1

/-- Input line `k` is placed right if it is written.  It is not shifted to the left without a run, and a
line that fills the run vector is not narrower than the page. -/
structure Geometry.LinePlaced (g : Geometry) (k : Nat) (line : List Int × Int) : Prop where
  inside : line.1 = [] → 0 ≤ g.ixsh
  room : line.1.length = maxRuns → ∀ pels ∈ placedPels g.xs g.ixsh line.1 line.2, g.width ≤ pels
  placed : g.Repeats k → Placed g.xs g.ixsh line.1 line.2

/-- The condition on input line `k`. -/
structure Geometry.LineOk (g : Geometry) (k : Nat) (line : List Int × Int) : Prop where
  stored : g.LineStored k line
  placed : g.LinePlaced k line

/-- The lines of the input are in the run vector. -/
theorem length_inputLines {k : Nat} {l : List Int × Int}
    (found : (inputLines ifile ovfile)[k]? = some (some l)) : l.1.length ≤ maxRuns := by
  induction ifile generalizing k ovfile with
  | nil => cases found
  | cons line ifile ih =>
    cases line with
    | none => cases found
    | some line =>
      rw [inputLines] at found
      cases k with
      | zero =>
        have here : l ∈ (overlay line ovfile).1 := Option.some.inj found
        exact length_overlay here
      | succ k => exact ih found

/-- No run outside of a run vector is accessed. -/
theorem Geometry.LinePlaced.place_ne_none {k : Nat} {l : List Int × Int} (placed : g.LinePlaced k l)
    (fits : l.1.length ≤ maxRuns) : place g.xs g.ixsh g.width l.1 l.2 ≠ none := by
  intro none
  rcases (place_eq_none fits).mp none with ⟨empty, left⟩ | ⟨full, pels, member, narrow⟩
  · exact absurd (placed.inside empty) (by omega)
  · exact absurd (placed.room full pels member) (by omega)

/-- The page geometry of `efix`.  When it reports no error, a page has exactly `height` lines of
`width` pels if the blank lines in front fit the page, there is room for every line with its overlay, no
value of a line is lost and each line that is written is placed right.  When no value is lost, the shift to
the left fits a `short` and the pel counts are right up to `2 ^ 16`, it has them only then. -/
theorem copyPage_full (accepted : g.err = false) (ifile : List (Option ReadLine))
    (ovfile : Option (List (Option ReadLine))) :
    ((g.iysh ≤ g.height ∧
        ∀ k line, (g.lines ifile ovfile)[k]? = some line → g.Reads k → ∃ l ∈ line, g.LineOk k l) →
      ∃ lines, copyPage g ifile ovfile = some lines ∧ FullPage g lines) ∧
    (-32768 ≤ g.ixsh →
      (∀ k line, (g.lines ifile ovfile)[k]? = some line → g.Reads k → ∀ l ∈ line, g.LineStored k l ∧
        (g.Repeats k → g.xs = 256 → |l.2 - l.1.sum| < 65536)) →
      (∃ lines, copyPage g ifile ovfile = some lines ∧ FullPage g lines) →
      g.iysh ≤ g.height ∧
        ∀ k line, (g.lines ifile ovfile)[k]? = some line → g.Reads k → ∃ l ∈ line, g.LineOk k l) := by
  obtain ⟨width, height, fits, xs, ys⟩ := Geometry.err_eq_false.mp accepted
  constructor
  · rintro ⟨room, all⟩
    rw [copyPage_iff accepted fun k line found reads _ => by
      obtain ⟨l, -, ok⟩ := all k line found reads
      exact ok.stored.product]
    refine ⟨room, fun k line found reads => ?_⟩
    obtain ⟨l, rfl, stored, placed⟩ := all k line found reads
    have inside := placed.place_ne_none (length_inputLines found)
    obtain ⟨out, result⟩ := Option.ne_none_iff_exists'.mp inside
    refine ⟨l, rfl, inside, fun repeats => ⟨out, result, ?_⟩⟩
    exact place_fills xs width.le (by omega) (stored.stored repeats) (placed.placed repeats) result
  · intro left all full
    rw [copyPage_iff accepted fun k line found reads some' => by
      obtain ⟨l, rfl⟩ := Option.isSome_iff_exists.mp some'
      exact (all k _ found reads l rfl).1.product] at full
    obtain ⟨room, done⟩ := full
    refine ⟨room, fun k line found reads => ?_⟩
    obtain ⟨l, rfl, inside, fills⟩ := done k line found reads
    obtain ⟨stored, near⟩ := all k _ found reads l rfl
    have none : place g.xs g.ixsh g.width l.1 l.2 = none ↔ _ := place_eq_none (length_inputLines found)
    refine ⟨l, rfl, stored, fun empty => ?_, fun full pels member => ?_, fun repeats => ?_⟩
    · by_contra negative
      exact inside (none.mpr (Or.inl ⟨empty, not_le.mp negative⟩))
    · by_contra narrow
      exact inside (none.mpr (Or.inr ⟨full, pels, member, not_le.mp narrow⟩))
    · obtain ⟨out, placed, ok⟩ := fills repeats
      exact placed_of_fills xs width (stored.stored repeats) left (near repeats) placed ok

/-- A line of 8 white pels on a page of two lines of 16 pels, 3 pels to the right. -/
theorem copyPage_full_line :
    ∃ lines, copyPage ⟨16, 2, 3, 0, 256, 256, false⟩ [some ⟨[8], 1, 8⟩] none = some lines ∧
      FullPage ⟨16, 2, 3, 0, 256, 256, false⟩ lines := by
  refine (copyPage_full (by decide) _ _).1 ⟨by decide, fun k line found reads => ?_⟩
  cases k with
  | zero =>
    cases found
    exact ⟨_, rfl, ⟨by decide, fun _ => ⟨by decide, by decide, by decide, by decide⟩⟩,
      ⟨fun _ => by decide, nofun, fun _ => ⟨fun _ => by decide, Or.inl (by decide)⟩⟩⟩
  | succ k => cases found

/-- A shift down by more lines than the page has; a line of two runs that is narrower than a shift to the
left; a line of 32 pels that is counted as 24, as that of a PCX file of this width is; and a black run
that is scaled beyond a `short`. -/
theorem copyPage_not_full :
    (copyPage ⟨16, 2, 0, 3, 256, 256, false⟩ [] none = some [[16], [16], [16]] ∧
      copyPage ⟨16, 1, -5, 0, 256, 256, false⟩ [some ⟨[2, 1], 2, 3⟩] none = some [[0, -2, 18]] ∧
      copyPage ⟨24, 1, 0, 0, 256, 256, false⟩ [some ⟨[0, 32], 2, 24⟩] none = some [[0, 32]] ∧
      copyPage ⟨104, 1, 0, 0, 102400, 256, false⟩ [some ⟨[0, 100], 2, 100⟩] none =
        some [[0, -25536, 25640]]) ∧
    ¬ ∀ (g : Geometry) (ifile : List (Option ReadLine)), g.err = false →
      ∃ lines, copyPage g ifile none = some lines ∧ FullPage g lines := by
  have down : copyPage ⟨16, 2, 0, 3, 256, 256, false⟩ [] none = some [[16], [16], [16]] := by decide
  refine ⟨⟨down, by decide, by decide, by decide⟩, fun all => ?_⟩
  obtain ⟨lines, copied, full⟩ := all ⟨16, 2, 0, 3, 256, 256, false⟩ [] (by decide)
  rw [down] at copied
  cases copied
  exact absurd full.count (by decide)

end QFax.Efax

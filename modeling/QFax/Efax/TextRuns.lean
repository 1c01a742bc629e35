import Mathlib.Data.List.Destutter
import QFax.Efax.CopyBits
import QFax.Efax.LineForms
import QFax.Efax.RunScale
import QFax.Efax.TextPages

/-!
# Scan lines of text

`texttorun` copies a row of pels of every character of a text line into a bit map and finds its runs.
The number of characters is limited, but not the number of cells that tabs fill.  The bit map, the run
vector and the scaled runs have room for up to 8190 pels, and for a few more if their colour changes
less than with every pel (`textFits_iff`).
-/

namespace QFax.Efax

open Bits

/-! ## Drawing -/

/-- `HT`. -/
def ht : UInt8 := 9

/-- `MAXFONTW`. -/
def maxFontW : Nat := 32

/-- `faxfont`: the bit map has a row of pels for all characters after the other. -/
structure FaxFont extends Font where
  buf : Nat → UInt8
  offset : UInt8 → Nat
  w_le : w ≤ maxFontW

/-- The characters whose cells `texttorun` copies, `nc` cells behind the margin. -/
def textCells (nc : Nat) : List UInt8 → List UInt8
  | [] => []
  | c :: txt =>
    -- `while ( nc & 7 )`, behind a tab
    let tab := if c = ht then List.replicate ((8 - (nc + 1) % 8) % 8) 32 else []
    c :: tab ++ textCells (nc + 1 + tab.length) txt

/-- The cells of a string. -/
def cells (txt : List UInt8) : List UInt8 := textCells 0 ((txt.takeWhile (· ≠ 0)).take maxLineLen)

/-- The row of a font for a scan line of a text line that is `h` lines high. -/
def FaxFont.row (font : FaxFont) (line h : Nat) : Nat :=
  min ((line * font.h + h / 2) / h) (font.h - 1)

/-- The calls of `copybits` for the cells of a string. -/
def FaxFont.calls (font : FaxFont) (txt : List UInt8) (line h : Nat) : List CopyCall :=
  (cells txt).map fun c =>
    ⟨fun i => font.buf (256 / 8 * font.w * font.row line h + i), font.offset c, font.w, font.w_pos⟩

/-- The bit map `out` of `texttorun`. -/
def FaxFont.bitmap (font : FaxFont) (txt : List UInt8) (line h : Nat) : List UInt8 :=
  copyLine (font.calls txt line h)

/-- The runs of a string before they are scaled. -/
def FaxFont.runs (font : FaxFont) (txt : List UInt8) (line h : Nat) : List Int :=
  bittorun ((font.bitmap txt line h).take (((cells txt).length * font.w + 7) / 8))

/-- `texttorun`: the run vector and the line width. -/
def FaxFont.texttorun (font : FaxFont) (txt : List UInt8) (line w h : Nat) (lmargin : Int) :
    Option (List Int × Int) :=
  let runs := font.runs txt line h
  let (runs, pels) := if font.w = w then (runs, ((cells txt).length * font.w : Int))
    else xscale runs ((w * 256 : Int) / font.w)
  (xshift runs lmargin).map fun (runs, n) => (runs, pels + n)

/-- The buffers of `texttorun` hold a line: the bit map, the run vector, and a `short` every run of the
line with doubled pels. -/
structure TextFits (font : FaxFont) (txt : List UInt8) (line h : Nat) : Prop where
  bitmap : (font.bitmap txt line h).length ≤ maxLineLen * maxFontW / 8 + 1
  runs : (font.runs txt line h).length ≤ maxRuns
  doubled : ∀ r ∈ stretched (((2 * font.w : Nat) * 256 : Int) / font.w) 0 (font.runs txt line h),
    r ≤ 32767

/-! ## Runs and colours -/

/-- A line has a run for every stretch of one colour. -/
theorem length_pelRuns_eq (col : Colour) (cur : Int) (bits : List Bool) :
    (pelRuns col cur bits).length = (bits.destutter' (· ≠ ·) col.bit).length := by
  induction bits generalizing col cur with
  | nil => rfl
  | cons bit bits ih =>
    rw [pelRuns]
    split
    case isTrue same => rw [ih, List.destutter'_cons_neg bits (not_not.mpr same.symm)]
    case isFalse differs =>
      rw [List.length_cons, ih, List.destutter'_cons_pos bits (Ne.symm differs), List.length_cons,
        ← Colour.bit_other differs]

theorem destutter_white (k : Nat) :
    (List.replicate k false).destutter' (· ≠ ·) false = [false] := by
  induction k with
  | zero => rfl
  | succ k ih => rw [List.replicate_succ, List.destutter'_cons_neg _ (not_not.mpr rfl), ih]

/-- White pels at the end are one stretch. -/
theorem length_destutter_pad (bit : Bool) (bits : List Bool) (k : Nat) :
    ((bits ++ List.replicate k false).destutter' (· ≠ ·) bit).length ≤ bits.length + 2 := by
  induction bits generalizing bit with
  | nil =>
    rw [List.nil_append]
    rcases bit with _ | _
    · exact (congrArg List.length (destutter_white k)).le.trans (by decide)
    · rcases k with _ | k
      · exact Nat.le_succ 1
      · rw [List.replicate_succ, List.destutter'_cons_pos _ (by decide), destutter_white]
        exact le_rfl
  | cons first bits ih =>
    rw [List.cons_append, List.length_cons]
    by_cases same : bit = first
    · rw [List.destutter'_cons_neg _ (not_not.mpr same)]
      exact (ih bit).trans (Nat.le_succ _)
    · rw [List.destutter'_cons_pos _ same, List.length_cons]
      exact Nat.succ_le_succ (ih first)

/-! ## What fits -/

/-- The row of pels that is drawn: the cells, with the pels in front of cells that are OR-ed into the
line, and white ones to the end of the last byte. -/
def FaxFont.pels (font : FaxFont) (txt : List UInt8) (line h : Nat) : List Bool :=
  let n := (cells txt).length * font.w
  copiedBits [] (font.calls txt line h) ++ List.replicate (8 * ((n + 7) / 8) - n) false

section

variable (font : FaxFont) (txt : List UInt8) (line h : Nat)

theorem length_slices :
    ((font.calls txt line h).flatMap CopyCall.slice).length = (cells txt).length * font.w := by
  rw [FaxFont.calls]
  induction cells txt with
  | nil => exact (Nat.zero_mul font.w).symm
  | cons c cells ih =>
    rw [List.map_cons, List.flatMap_cons, List.length_append, ih, CopyCall.slice, length_sliceBits,
      List.length_cons, Nat.succ_mul cells.length]
    exact Nat.add_comm ..

theorem length_bitmap :
    (font.bitmap txt line h).length = (cells txt).length * font.w / 8 + 1 := by
  rw [FaxFont.bitmap, length_copyLine, length_slices]

theorem length_row : (copiedBits [] (font.calls txt line h)).length = (cells txt).length * font.w := by
  rw [length_copiedBits, length_slices]

theorem FaxFont.length_pels :
    (font.pels txt line h).length = 8 * (((cells txt).length * font.w + 7) / 8) := by
  rw [FaxFont.pels, List.length_append, List.length_replicate, length_row]
  omega

/-- The runs are those of the pels that are drawn. -/
theorem runs_eq :
    font.runs txt line h = (pelRuns .white 0 (font.pels txt line h)).map toShort := by
  obtain ⟨stored, -⟩ := copyLine_parts (font.calls txt line h) (length_row font txt line h)
  rw [FaxFont.runs, bittorun_eq, FaxFont.bitmap, stored, FaxFont.pels]

theorem length_runs :
    (font.runs txt line h).length = ((font.pels txt line h).destutter' (· ≠ ·) false).length := by
  rw [runs_eq, List.length_map, length_pelRuns_eq]
  rfl

/-- No run of a line of the right length is lost in a `short`. -/
theorem runs_sum (fits : (cells txt).length * font.w ≤ 8199) :
    (∀ r ∈ font.runs txt line h, 0 ≤ r) ∧ (font.runs txt line h).sum ≤ 8200 := by
  have nonneg := pelRuns_nonneg .white le_rfl (font.pels txt line h)
  have width := length_pels .white nonneg
  rw [pels_pelRuns .white le_rfl, Int.toNat_zero, List.replicate_zero, List.nil_append,
    FaxFont.length_pels] at width
  have short : (pelRuns .white 0 (font.pels txt line h)).map toShort =
      pelRuns .white 0 (font.pels txt line h) := by
    refine (List.map_congr_left fun r member => ?_).trans (List.map_id _)
    have part := List.single_le_sum nonneg r member
    exact toShort_of_small (by have := nonneg r member; omega) (by omega)
  rw [runs_eq, short]
  exact ⟨nonneg, by omega⟩

theorem bitmap_fits_iff :
    (font.bitmap txt line h).length ≤ maxLineLen * maxFontW / 8 + 1 ↔
      (cells txt).length * font.w ≤ 8199 := by
  have size : maxLineLen * maxFontW / 8 + 1 = 1025 := by decide
  rw [length_bitmap, size]
  omega

theorem doubled_scale : ((2 * font.w : Nat) * 256 : Int) / font.w = 512 := by
  have pos := font.w_pos
  rw [Nat.cast_mul, Int.mul_right_comm, Int.mul_ediv_cancel _ (by omega)]
  rfl

/-- Doubled, the runs of a line that fits are stored as they are. -/
theorem texttorun_doubled (lmargin : Int) (fits : TextFits font txt line h) :
    font.texttorun txt line (2 * font.w) h lmargin =
      (xshift (stretched 512 0 (font.runs txt line h)) lmargin).map fun (runs, n) =>
        (runs, scaledTo 512 (font.runs txt line h).sum + n) := by
  obtain ⟨nonneg, sum⟩ := runs_sum font txt line h ((bitmap_fits_iff font txt line h).mp fits.bitmap)
  have short := fits.doubled
  rw [doubled_scale] at short
  have doubling : (0 : Int) < 512 := by decide
  have scaled := xscale_stretched doubling nonneg short
  have wider : font.w ≠ 2 * font.w := by
    have pos := font.w_pos
    omega
  rw [FaxFont.texttorun, if_neg wider, doubled_scale, scaled]

/-- A text line fits into the buffers if and only if it has at most 8199 pels, and at most 8192 stretches
of one colour if it has more than 8190. -/
theorem textFits_iff :
    TextFits font txt line h ↔
      (cells txt).length * font.w ≤ 8199 ∧
        ((cells txt).length * font.w ≤ 8190 ∨
          ((font.pels txt line h).destutter' (· ≠ ·) false).length ≤ 8192) := by
  have room := bitmap_fits_iff font txt line h
  constructor
  · rintro ⟨bitmap, runs, -⟩
    rw [length_runs] at runs
    exact ⟨room.mp bitmap, .inr runs⟩
  · rintro ⟨fits, stretches⟩
    refine ⟨room.mpr fits, ?_, ?_⟩
    · rw [length_runs]
      rcases stretches with narrow | few
      · have most := length_destutter_pad false (copiedBits [] (font.calls txt line h))
          (8 * (((cells txt).length * font.w + 7) / 8) - (cells txt).length * font.w)
        rw [length_row] at most
        exact most.trans (Nat.add_le_add_right narrow 2)
      · exact few
    · obtain ⟨nonneg, sum⟩ := runs_sum font txt line h fits
      have doubling : (0 : Int) < 512 := by decide
      have all := stretched_nonneg doubling nonneg 0
      have total := stretched_sum 512 0 (font.runs txt line h)
      rw [Int.zero_add, scaledTo_zero, Int.sub_zero] at total
      have below := scaledTo_mono doubling sum
      have most : scaledTo 512 8200 = 16400 := by decide
      intro r member
      rw [doubled_scale] at member
      have part := List.single_le_sum all r member
      omega

end

/-- The built-in font without its bit map. -/
def blankFont : FaxFont :=
  { stdFont with buf := fun _ => 0, offset := fun c => c.toNat * 8, w_le := by decide }

/-- A line of 129 tabs in the built-in font. -/
theorem tabs_overflow :
    (blankFont.bitmap (List.replicate 129 ht ++ [lf]) 0 32).length = 1034 ∧
      ¬ TextFits blankFont (List.replicate 129 ht ++ [lf]) 0 32 := by
  have size : (cells (List.replicate 129 ht ++ [lf])).length = 1033 := by decide +kernel
  have written : (blankFont.bitmap (List.replicate 129 ht ++ [lf]) 0 32).length = 1034 := by
    rw [length_bitmap, size]
    rfl
  refine ⟨written, fun fits => absurd fits.bitmap ?_⟩
  rw [written]
  decide

end QFax.Efax

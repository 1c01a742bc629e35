import Mathlib.Data.List.TakeWhile
import QFax.Lib.TextLines

/-!
# Pages of text files

`newIFILE` scans a text file and starts a page after every `pglines` calls of `fgets`, each for as many
characters as fit the page width (`text_next`).  When a page is sent, `readline` calls `fgets` for up
to 255 characters a text line, and ends the page at a form feed.  The two agree on a file in the cases
of `text_pages_iff` only.
-/

namespace QFax.Efax

open TextLines

/-! ## Files -/

/-- The end of a text line. -/
def lf : UInt8 := 10

/-- `FF`. -/
def ff : UInt8 := 12

/-- `isdigit`. -/
def isdigit (c : UInt8) : Bool := '0'.toUInt8 ≤ c ∧ c ≤ '9'.toUInt8

/-- `MAXLINELEN`. -/
def maxLineLen : Nat := 256

/-- `MAXPAGE`. -/
def maxPage : Nat := 360

/-- A text file open for reading: what is left of it, the position, and whether the end was seen. -/
structure TextStream where
  rest : List UInt8
  pos : Nat
  eof : Bool

/-- The file from an offset on. -/
def openText (file : List UInt8) (offset : Nat) : TextStream := ⟨file.drop offset, offset, false⟩

/-- `fgets` with a buffer of `n` characters. -/
def fgets (n : Int) (f : TextStream) : Option (List UInt8) × TextStream :=
  if n ≤ 0 then (none, f)
  else if n = 1 then (some [], f)
  else
    let size := (n - 1).toNat
    let (text, rest) := piece lf size f.rest
    let ended := text.length < size ∧ text.getLast? ≠ some lf
    (if text = [] then none else some text, ⟨rest, f.pos + text.length, f.eof || ended⟩)

/-! ## Layout -/

/-- The size of a font. -/
structure Font where
  w : Nat
  h : Nat
  w_pos : 0 < w
  h_pos : 0 < h

/-- The built-in font. -/
def stdFont : Font := ⟨8, 16, by decide, by decide⟩

/-- The fields of `IFILE` about text, zero where they are not set. -/
structure TextFields where
  font : Option Font
  charw : Nat
  charh : Nat
  lmargin : Int
  pglines : Int

/-- A page of text: its width, and the fields of `IFILE` once they are set. -/
structure TextLayout where
  w : Int
  charw : Nat
  charh : Nat
  lmargin : Int
  pglines : Int
  charw_pos : 0 < charw
  charh_pos : 0 < charh

/-- The default for a field that is not set. -/
def orDefault (n d : Nat) : Nat := if n = 0 then d else n

theorem orDefault_pos (n : Nat) {d : Nat} (pos : 0 < d) : 0 < orDefault n d := by
  unfold orDefault
  split <;> omega

/-- The fields that `text_first` sets, for a page of `w` by `h` pels. -/
def TextFields.text_first (f : TextFields) (w h : Int) : TextLayout :=
  match f.font with
  | none =>
    -- the built-in font scaled by two, one inch margin
    { w := w
      charw := orDefault f.charw (2 * stdFont.w)
      charh := orDefault f.charh (2 * stdFont.h)
      lmargin := if f.lmargin = 0 then 204 else f.lmargin
      pglines := if f.pglines = 0 then 66 else f.pglines
      charw_pos := orDefault_pos _ (by decide)
      charh_pos := orDefault_pos _ (by decide) }
  | some font =>
    { w := w
      charw := orDefault f.charw font.w
      charh := orDefault f.charh font.h
      lmargin := f.lmargin
      pglines :=
        if f.pglines = 0 then h.tdiv (orDefault f.charh font.h) - 6 else f.pglines
      charw_pos := orDefault_pos _ font.w_pos
      charh_pos := orDefault_pos _ font.h_pos }

/-- The buffer size of the scanner. -/
def TextLayout.nc (g : TextLayout) : Int :=
  let nc := (g.w - g.lmargin).tdiv g.charw
  if nc > maxLineLen then maxLineLen else nc

/-! ## Scanning -/

/-- The loop of `text_next`. -/
def scanLines (nc : Int) : Nat → TextStream → TextStream
  | 0, f => f
  | n + 1, f =>
    match fgets nc f with
    | (none, f) => f
    | (some _, f) => scanLines nc n f

/-- `text_next`: the offset of the page, the offset of the next one or zero, and the file behind the
page. -/
def TextLayout.text_next (g : TextLayout) (f : TextStream) : Nat × Nat × TextStream :=
  let behind := scanLines g.nc g.pglines.toNat f
  (f.pos, if behind.eof then 0 else behind.pos, behind)

/-- The pages of a file, of which there may be fewer than the number given. -/
def TextLayout.scanPages (g : TextLayout) : Nat → TextStream → Option (List Nat)
  | 0, _ => none
  | n + 1, f =>
    let (offset, next, f) := g.text_next f
    if n = 0 then none
    else if next = 0 then some [offset]
    else (g.scanPages n f).map (offset :: ·)

/-- `newIFILE` for a text file: the offsets of its pages, or an error when there are too many. -/
def TextLayout.newIFILE (g : TextLayout) (file : List UInt8) : Option (List Nat) :=
  g.scanPages maxPage (openText file 0)

/-! ## Reading -/

/-- The state of `readline` on a text page. -/
structure TextState where
  f : TextStream
  /-- Scan lines left in the page, unless negative. -/
  lines : Int
  /-- Scan lines left in the text line. -/
  txtlines : Int
  text : List UInt8

/-- `nextipage` for the page at an offset, with `text_reset`. -/
def TextLayout.nextipage (g : TextLayout) (file : List UInt8) (offset : Nat) : TextState :=
  ⟨openText file offset, (g.pglines * g.charh).tdiv g.charh * g.charh, 0, []⟩

/-- The characters of a buffer up to the null that ends the string. -/
def cString (text : List UInt8) : List UInt8 := text.takeWhile (· ≠ 0)

/-- Return a scan line of the current text line: the arguments of `texttorun`. -/
def TextLayout.scanLine (g : TextLayout) (s : TextState) :
    Option (List UInt8 × Int) × TextState :=
  (some (cString s.text, g.charh - s.txtlines),
    { s with txtlines := s.txtlines - 1, lines := if s.lines > 0 then s.lines - 1 else s.lines })

/-- `readline` on a text page; `none` is `EOF`. -/
def TextLayout.readline (g : TextLayout) (s : TextState) :
    Option (List UInt8 × Int) × TextState :=
  if s.lines ≠ 0 then
    if s.txtlines ≤ 0 then
      match fgets maxLineLen s.f with
      | (none, f) => (none, { s with f := f })
      | (some text, f) =>
        let s := { s with f := f, text := text, txtlines := g.charh }
        -- no more lines in this page
        if ff ∈ cString text then (none, { s with lines := 0 })
        else g.scanLine s
    else g.scanLine s
  else (none, s)

/-- The scan lines of a page, read until `EOF`; the first argument bounds them. -/
def TextLayout.readPage (g : TextLayout) : Nat → TextState → Option (List (List UInt8 × Int))
  | 0, _ => none
  | n + 1, s =>
    match g.readline s with
    | (none, _) => some []
    | (some row, s) => (g.readPage n s).map (row :: ·)

/-! ## What a page holds -/

/-- The scan lines of a text line. -/
def TextLayout.textRows (g : TextLayout) (text : List UInt8) : List (List UInt8 × Int) :=
  (List.range g.charh).map fun (i : Nat) => (text, (i : Int))

/-- No character that ends a page or a string. -/
def Clean (text : List UInt8) : Prop := ff ∉ text ∧ 0 ∉ text

theorem Clean.cString {text : List UInt8} (clean : Clean text) : cString text = text :=
  List.takeWhile_eq_self_iff.mpr fun c member => by
    simp only [decide_eq_true_eq]
    rintro rfl
    exact clean.2 member

/-- The rest of a text line. -/
theorem readPage_text (g : TextLayout) (s : TextState) (t n : Nat) (left : s.txtlines = t)
    (room : s.lines < 0 ∨ t ≤ s.lines) :
    g.readPage (n + t) s =
      (g.readPage n { s with
        txtlines := 0
        lines := if s.lines < 0 then s.lines else s.lines - t }).map
        (((List.range t).map fun (i : Nat) => (cString s.text, (g.charh : Int) - t + i)) ++ ·) := by
  induction t generalizing s with
  | zero =>
    have same : ({ s with
        txtlines := 0
        lines := if s.lines < 0 then s.lines else s.lines - (0 : Nat) } : TextState) = s := by
      cases s
      simp_all
    rw [same]
    simp
  | succ t ih =>
    have more : s.lines ≠ 0 := by omega
    have inside : ¬ s.txtlines ≤ 0 := by omega
    have line : g.readline s = g.scanLine s := by
      rw [TextLayout.readline, if_pos more, if_neg inside]
    rw [← Nat.add_assoc, TextLayout.readPage, line]
    dsimp only [TextLayout.scanLine]
    rw [ih _ (by dsimp only; omega) (by dsimp only; split <;> omega), Option.map_map,
      List.range_succ_eq_map, List.map_cons, List.map_map]
    have first : (g.charh : Int) - s.txtlines = g.charh - (t + 1 : Nat) + (0 : Nat) := by omega
    have later (i : Nat) : (g.charh : Int) - t + i = g.charh - (t + 1 : Nat) + (i + 1 : Nat) := by
      omega
    have lines : (if (if s.lines > 0 then s.lines - 1 else s.lines) < 0 then
        (if s.lines > 0 then s.lines - 1 else s.lines)
        else (if s.lines > 0 then s.lines - 1 else s.lines) - (t : Int)) =
        if s.lines < 0 then s.lines else s.lines - (t + 1 : Nat) := by
      omega
    rw [lines, first]
    simp only [later]
    rfl

/-- `fgets` with room for a character. -/
theorem fgets_of_room {n : Int} (room : 2 ≤ n) (f : TextStream) :
    fgets n f = (if f.rest = [] then none else some (piece lf (n - 1).toNat f.rest).1,
      ⟨(piece lf (n - 1).toNat f.rest).2, f.pos + (piece lf (n - 1).toNat f.rest).1.length,
        f.eof || decide ((piece lf (n - 1).toNat f.rest).1.length < (n - 1).toNat ∧
          (piece lf (n - 1).toNat f.rest).1.getLast? ≠ some lf)⟩) := by
  have size : 0 < (n - 1).toNat := by omega
  rw [fgets, if_neg (by omega), if_neg (by omega)]
  simp only [piece_eq_nil lf size]

/-- The file behind a text line of `readline`. -/
def TextStream.behind (f : TextStream) : TextStream := (fgets maxLineLen f).2

/-- The next text line of `readline`. -/
def TextStream.next (f : TextStream) : List UInt8 := (piece lf (maxLineLen - 1) f.rest).1

theorem TextStream.behind_rest (f : TextStream) :
    f.behind.rest = (piece lf (maxLineLen - 1) f.rest).2 := by
  rw [behind, fgets_of_room (by decide)]
  rfl

theorem readline_end (g : TextLayout) {s : TextState} (idle : s.txtlines ≤ 0)
    (ended : s.f.rest = []) : (g.readline s).1 = none := by
  rw [TextLayout.readline]
  split
  · rw [fgets_of_room (by decide), if_pos ended]
  · rfl

theorem readline_next (g : TextLayout) {s : TextState} (more : s.lines ≠ 0) (idle : s.txtlines ≤ 0)
    (some : s.f.rest ≠ []) (clean : Clean s.f.next) :
    g.readline s = g.scanLine ⟨s.f.behind, s.lines, g.charh, s.f.next⟩ := by
  have fetched : fgets maxLineLen s.f = (Option.some s.f.next, s.f.behind) := by
    rw [TextStream.behind, fgets_of_room (by decide), if_neg some]
    rfl
  have whole : ff ∉ cString s.f.next := by
    rw [clean.cString]
    exact clean.1
  rw [TextLayout.readline, if_pos more, if_pos idle, fetched]
  exact if_neg whole

theorem Clean.of_subset {text whole : List UInt8} (clean : Clean whole) (subset : text ⊆ whole) :
    Clean text :=
  ⟨fun member => clean.1 (subset member), fun member => clean.2 (subset member)⟩

theorem readPage_end {g : TextLayout} {s : TextState} (ended : (g.readline s).1 = none) :
    ∃ n, ∀ fuel ≥ n, g.readPage fuel s = some [] := by
  refine ⟨1, fun fuel pos => ?_⟩
  obtain ⟨fuel, rfl⟩ : ∃ m, fuel = m + 1 := ⟨fuel - 1, by omega⟩
  rw [TextLayout.readPage]
  generalize g.readline s = out at ended
  obtain ⟨row, s'⟩ := out
  cases ended
  rfl

/-- A text line and the rest of the page. -/
theorem readPage_next (g : TextLayout) {s : TextState} (idle : s.txtlines ≤ 0)
    (room : s.lines < 0 ∨ g.charh ≤ s.lines) (some : s.f.rest ≠ []) (clean : Clean s.f.next)
    (n : Nat) :
    g.readPage (n + g.charh) s =
      (g.readPage n ⟨s.f.behind, if s.lines < 0 then s.lines else s.lines - g.charh, 0,
        s.f.next⟩).map (g.textRows s.f.next ++ ·) := by
  have charh := g.charh_pos
  have fetched : g.readline s = g.readline ⟨s.f.behind, s.lines, g.charh, s.f.next⟩ := by
    have more : s.lines ≠ 0 := by omega
    have inside : ¬ (g.charh : Int) ≤ 0 := by omega
    rw [readline_next g more idle some clean, TextLayout.readline, if_pos more, if_neg inside]
  have same : g.readPage (n + g.charh) s =
      g.readPage (n + g.charh) ⟨s.f.behind, s.lines, g.charh, s.f.next⟩ := by
    obtain ⟨k, fuel⟩ : ∃ k, n + g.charh = k + 1 := ⟨n + g.charh - 1, by omega⟩
    rw [fuel, TextLayout.readPage, TextLayout.readPage, fetched]
  have zero (i : Nat) : (g.charh : Int) - g.charh + i = i := by omega
  rw [same, readPage_text g ⟨s.f.behind, s.lines, g.charh, s.f.next⟩ g.charh n rfl room, clean.cString]
  simp only [zero]
  rfl

/-- A page of clean text, as `readline` reads it: at most `b` text lines, or all of them. -/
theorem readPage_clean (g : TextLayout) (b : Nat) (s : TextState) (idle : s.txtlines ≤ 0)
    (room : s.lines = (b * g.charh : Nat) ∨ s.lines < 0 ∧ s.f.rest.length ≤ b)
    (clean : Clean s.f.rest) :
    ∃ n, ∀ fuel ≥ n, g.readPage fuel s =
      some ((pieces lf (maxLineLen - 1) b s.f.rest).flatMap g.textRows) := by
  induction b generalizing s with
  | zero =>
    refine readPage_end ?_
    rcases room with full | ⟨-, none⟩
    · have filled : ¬ s.lines ≠ 0 := by simpa using full
      rw [TextLayout.readline, if_neg filled]
    · exact readline_end g idle (List.eq_nil_of_length_eq_zero (Nat.le_zero.mp none))
  | succ b ih =>
    by_cases ended : s.f.rest = []
    · rw [ended, pieces_nil, List.flatMap_nil]
      exact readPage_end (readline_end g idle ended)
    · have parts := piece_append lf (maxLineLen - 1) s.f.rest
      have size : 0 < maxLineLen - 1 := by decide
      have first : (piece lf (maxLineLen - 1) s.f.rest).1 ≠ [] :=
        fun empty => ended ((piece_eq_nil lf size).mp empty)
      have charh := g.charh_pos
      have lines : s.lines < 0 ∨ (g.charh : Int) ≤ s.lines := by
        rcases room with full | ⟨negative, -⟩
        · right
          rw [full, Nat.succ_mul]
          omega
        · exact Or.inl negative
      have rest := s.f.behind_rest
      obtain ⟨n, later⟩ := ih ⟨s.f.behind, if s.lines < 0 then s.lines else s.lines - g.charh, 0,
        s.f.next⟩ le_rfl (by
          dsimp only
          rcases room with full | ⟨negative, few⟩
          · left
            rw [Nat.succ_mul] at full
            rw [if_neg (by omega)]
            omega
          · right
            have taken := congrArg List.length parts
            have some := List.length_pos_iff.mpr first
            rw [List.length_append, ← rest] at taken
            rw [if_pos negative]
            exact ⟨negative, by omega⟩) (by
          refine clean.of_subset fun c member => ?_
          rw [← parts, ← rest]
          exact List.mem_append_right _ member)
      refine ⟨n + g.charh, fun fuel le => ?_⟩
      obtain ⟨k, rfl⟩ : ∃ k, fuel = k + g.charh := ⟨fuel - g.charh, by omega⟩
      have here := readPage_next g idle lines ended (clean.of_subset fun c member => by
        rw [← parts]
        exact List.mem_append_left _ member) k
      rw [here, later k (by omega), pieces, if_neg first, rest]
      rfl

/-! ## What a page may hold -/

theorem clean_cString {text : List UInt8} (whole : ff ∉ cString text) : Clean (cString text) := by
  refine ⟨whole, fun member => ?_⟩
  have other := List.mem_takeWhile_imp member
  simp at other

/-- The text line that scan lines are taken from has no form feed. -/
def TextState.Whole (s : TextState) : Prop := 0 < s.txtlines → ff ∉ cString s.text

theorem readline_clean {g : TextLayout} {s s' : TextState} {row : List UInt8 × Int}
    (whole : s.Whole) (read : g.readline s = (some row, s')) : Clean row.1 ∧ s'.Whole := by
  have line {s : TextState} (whole : ff ∉ cString s.text) (read : g.scanLine s = (some row, s')) :
      Clean row.1 ∧ s'.Whole := by
    cases read
    exact ⟨clean_cString whole, fun _ => whole⟩
  rw [TextLayout.readline] at read
  split at read
  · split at read
    · generalize fgets maxLineLen s.f = fetched at read
      obtain ⟨text, f⟩ := fetched
      cases text with
      | none => cases read
      | some text =>
        dsimp only at read
        split at read
        case isTrue => cases read
        case isFalse clean => exact line clean read
    case isFalse inside => exact line (whole (by omega)) read
  · cases read

/-- A page holds clean text lines only. -/
theorem readPage_rows {g : TextLayout} {n : Nat} {s : TextState} {rows : List (List UInt8 × Int)}
    (whole : s.Whole) (read : g.readPage n s = some rows) : ∀ row ∈ rows, Clean row.1 := by
  induction n generalizing s rows with
  | zero => cases read
  | succ n ih =>
    rw [TextLayout.readPage] at read
    cases one : g.readline s with
    | mk out s' =>
      rw [one] at read
      cases out with
      | none =>
        cases read
        simp
      | some row =>
        obtain ⟨rows', later, rfl⟩ := Option.map_eq_some_iff.mp read
        obtain ⟨clean, whole'⟩ := readline_clean whole one
        intro r member
        rcases List.mem_cons.mp member with rfl | member
        · exact clean
        · exact ih whole' later r member

/-! ## What the scanner counts -/

/-- The loop of `text_next` reads pieces. -/
theorem scanLines_pieces {nc : Int} (room : 2 ≤ nc) (n : Nat) (f : TextStream) :
    (scanLines nc n f).rest = skip lf (nc - 1).toNat n f.rest ∧
      (scanLines nc n f).pos + (scanLines nc n f).rest.length = f.pos + f.rest.length ∧
      ((scanLines nc n f).eof = true ↔ f.eof = true ∨ SeesEnd lf (nc - 1).toNat n f.rest) := by
  have size : 0 < (nc - 1).toNat := by omega
  induction n generalizing f with
  | zero => simp [scanLines, skip, SeesEnd]
  | succ n ih =>
    rw [scanLines, fgets_of_room room]
    by_cases ended : f.rest = []
    · have some : 0 < nc.toNat - 1 := by omega
      simp [ended, skip, skip_nil, SeesEnd, some]
    · simp only [if_neg ended]
      obtain ⟨rest, pos, eof⟩ := ih ⟨(piece lf (nc - 1).toNat f.rest).2,
        f.pos + (piece lf (nc - 1).toNat f.rest).1.length,
        f.eof || decide ((piece lf (nc - 1).toNat f.rest).1.length < (nc - 1).toNat ∧
          (piece lf (nc - 1).toNat f.rest).1.getLast? ≠ some lf)⟩
      have parts := congrArg List.length (piece_append lf (nc - 1).toNat f.rest)
      rw [List.length_append] at parts
      refine ⟨rest, ?_, ?_⟩
      · rw [pos]
        dsimp only
        omega
      · rw [eof, SeesEnd]
        simp only [Bool.or_eq_true, decide_eq_true_eq, or_assoc]

/-- A position in a file. -/
structure TextStream.At (f : TextStream) (file : List UInt8) : Prop where
  suffix : f.rest <:+ file
  pos : f.pos + f.rest.length = file.length
  eof : f.eof = false

theorem TextStream.At.drop {f : TextStream} {file : List UInt8} (inside : f.At file) :
    file.drop f.pos = f.rest := by
  have index : file.length - f.rest.length = f.pos := by
    have := inside.pos
    omega
  rw [← index]
  exact (List.suffix_iff_eq_drop.mp inside.suffix).symm

/-- The pages that the scanner finds. -/
theorem scanPages_pages {g : TextLayout} (room : 2 ≤ g.nc) (some : 0 < g.pglines) {n : Nat}
    {file : List UInt8} {f : TextStream} (inside : f.At file) {offsets : List Nat}
    (scanned : g.scanPages n f = Option.some offsets) :
    Pages lf (g.nc - 1).toNat g.pglines.toNat f.rest (offsets.map file.drop) := by
  induction n generalizing f offsets with
  | zero => cases scanned
  | succ n ih =>
    obtain ⟨rest, pos, eof⟩ := scanLines_pieces room g.pglines.toNat f
    rw [TextLayout.scanPages, TextLayout.text_next] at scanned
    dsimp only at scanned
    generalize scanLines g.nc g.pglines.toNat f = behind at rest pos eof scanned
    rw [inside.eof, Bool.false_eq_true, false_or] at eof
    split at scanned
    · cases scanned
    · by_cases seen : SeesEnd lf (g.nc - 1).toNat g.pglines.toNat f.rest
      · rw [if_pos (eof.mpr seen), if_pos rfl] at scanned
        cases scanned
        rw [List.map_singleton, inside.drop]
        exact .last seen
      · have open' : behind.eof = false := by
          rw [← Bool.not_eq_true, eof]
          exact seen
        have taken : behind.rest.length < f.rest.length := by
          have more : f.rest ≠ [] := by
            intro ended
            rw [ended, seesEnd_nil (by omega)] at seen
            omega
          rw [rest]
          by_cases none : skip lf (g.nc - 1).toNat g.pglines.toNat f.rest = []
          · rw [none]
            exact List.length_pos_iff.mpr more
          · have := length_skip (by omega) g.pglines.toNat none
            omega
        rw [open', if_neg Bool.false_ne_true, if_neg (by omega)] at scanned
        obtain ⟨later, found, rfl⟩ := Option.map_eq_some_iff.mp scanned
        have next : behind.At file := by
          refine ⟨?_, by rw [pos, inside.pos], open'⟩
          rw [rest]
          exact List.IsSuffix.trans ⟨_, pieces_flatten lf (by omega) _ _⟩ inside.suffix
        rw [List.map_cons, inside.drop]
        refine .page seen ?_
        rw [← rest]
        exact ih next found

/-- A scanner that reads nothing finds one page. -/
theorem scanPages_idle {g : TextLayout} (idle : ¬ (2 ≤ g.nc ∧ 0 < g.pglines)) {file : List UInt8}
    {offsets : List Nat} (scanned : g.newIFILE file = some offsets) : offsets = [0] := by
  have stays (n : Nat) (le : n ≤ g.pglines.toNat) (f : TextStream) : scanLines g.nc n f = f := by
    induction n with
    | zero => rfl
    | succ n ih =>
      have narrow : ¬ 2 ≤ g.nc := fun room => idle ⟨room, by omega⟩
      rw [scanLines, fgets]
      by_cases none : g.nc ≤ 0
      · rw [if_pos none]
      · rw [if_neg none, if_pos (by omega)]
        exact ih (by omega)
  rw [TextLayout.newIFILE, maxPage, TextLayout.scanPages, TextLayout.text_next,
    stays _ le_rfl] at scanned
  cases scanned
  rfl

/-! ## Pagination -/

/-- Every text line is rendered on one page, in order, and every page has a text line: the lines of
the file are distributed to its pages, each of which is read as the rows of its lines. -/
def TextLayout.Paginated (g : TextLayout) (file : List UInt8) (offsets : List Nat) : Prop :=
  ∃ groups : List (List (List UInt8)), groups.flatten = lines lf file ∧ (∀ group ∈ groups, group ≠ []) ∧
    List.Forall₂ (fun offset group => ∃ n, ∀ fuel ≥ n, g.readPage fuel (g.nextipage file offset) =
      some ((group.flatMap (linePieces lf (maxLineLen - 1))).flatMap g.textRows)) offsets groups

/-- The file has text and no form feed.  Its lines fill pages of `pglines` rows, as many with the
buffer of the scanner as with that of `readline`, up to a page on which the scanner sees the end; a
scanner that reads nothing leaves all rows to one page. -/
def TextLayout.Fits (g : TextLayout) (file : List UInt8) : Prop :=
  Clean file ∧
    if 2 ≤ g.nc ∧ 0 < g.pglines then
      Filled lf (g.nc - 1).toNat (maxLineLen - 1) g.pglines.toNat (lines lf file)
    else
      file ≠ [] ∧ (0 ≤ g.pglines →
        ((lines lf file).map (rows (maxLineLen - 1))).sum ≤ g.pglines.toNat)

/-- The number of text lines that a page has room for. -/
def TextLayout.room (g : TextLayout) (file : List UInt8) : Nat :=
  if g.pglines < 0 then file.length else g.pglines.toNat

/-- The rows of a page of clean text. -/
theorem readPage_nextipage (g : TextLayout) {file : List UInt8} (clean : Clean file) (offset : Nat) :
    ∃ n, ∀ fuel ≥ n, g.readPage fuel (g.nextipage file offset) =
      some ((pieces lf (maxLineLen - 1) (g.room file) (file.drop offset)).flatMap g.textRows) := by
  have charh : (g.charh : Int) ≠ 0 := by
    have := g.charh_pos
    omega
  have lines : (g.nextipage file offset).lines = g.pglines * g.charh := by
    rw [TextLayout.nextipage, Int.mul_tdiv_cancel _ charh]
  have positive : (0 : Int) < g.charh := by omega
  refine readPage_clean g (g.room file) (g.nextipage file offset) le_rfl ?_
    (clean.of_subset (List.drop_subset offset file))
  rw [lines, TextLayout.room]
  split
  case isTrue negative =>
    right
    refine ⟨Int.mul_neg_of_neg_of_pos negative positive, ?_⟩
    show (file.drop offset).length ≤ file.length
    rw [List.length_drop]
    exact Nat.sub_le _ _
  case isFalse nonneg =>
    left
    push_cast
    rw [Int.toNat_of_nonneg (by omega)]

/-- Text lines are determined by their rows. -/
theorem textRows_inj (g : TextLayout) {as bs : List (List UInt8)}
    (same : as.flatMap g.textRows = bs.flatMap g.textRows) : as = bs := by
  have first (ps : List (List UInt8)) :
      ((ps.flatMap g.textRows).filter fun row => row.2 = 0).map Prod.fst = ps := by
    induction ps with
    | nil => rfl
    | cons p ps ih =>
      obtain ⟨c, charh⟩ : ∃ c, g.charh = c + 1 := ⟨g.charh - 1, by have := g.charh_pos; omega⟩
      have later : ((List.range c).map fun i => (p, ((i + 1 : Nat) : Int))).filter
          (fun row => row.2 = 0) = [] := by
        rw [List.filter_eq_nil_iff]
        intro row member
        obtain ⟨i, -, rfl⟩ := List.mem_map.mp member
        simp
        omega
      have rows : g.textRows p = (p, 0) :: (List.range c).map fun i => (p, ((i + 1 : Nat) : Int)) := by
        rw [TextLayout.textRows, charh, List.range_succ_eq_map, List.map_cons, List.map_map]
        rfl
      rw [List.flatMap_cons, rows, List.cons_append, List.filter_cons_of_pos (by simp),
        List.filter_append, later, List.nil_append, List.map_cons, ih]
  rw [← first as, same, first]

/-- A character in front of a line that is rendered is rendered. -/
theorem TextLayout.Paginated.clean {g : TextLayout} {file : List UInt8} {offsets : List Nat}
    (paginated : g.Paginated file offsets) : Clean file := by
  obtain ⟨groups, all, -, read⟩ := paginated
  have each : ∀ c ∈ file, c ≠ ff ∧ c ≠ 0 := by
    intro c member
    rw [← lines_flatten lf file] at member
    obtain ⟨l, line, inside⟩ := List.mem_flatten.mp member
    obtain ⟨rest, heads⟩ := (lines_lines lf file).heads_of_mem line
    rw [← linePieces_flatten (by decide : 0 < maxLineLen - 1) heads] at inside
    obtain ⟨p, text, here⟩ := List.mem_flatten.mp inside
    rw [← all] at line
    obtain ⟨group, page, line⟩ := List.mem_flatten.mp line
    obtain ⟨i, place, equal⟩ := List.mem_iff_getElem.mp page
    have length := read.length_eq
    obtain ⟨n, rows⟩ := (List.forall₂_iff_get.mp read).2 i (by omega) place
    simp only [List.get_eq_getElem, equal] at rows
    have row : (p, ((0 : Nat) : Int)) ∈
        (group.flatMap (linePieces lf (maxLineLen - 1))).flatMap g.textRows :=
      List.mem_flatMap.mpr ⟨p, List.mem_flatMap.mpr ⟨l, line, text⟩,
        List.mem_map.mpr ⟨0, List.mem_range.mpr g.charh_pos, rfl⟩⟩
    have clean : Clean p := readPage_rows (fun more => absurd more (lt_irrefl 0)) (rows n le_rfl) _ row
    constructor
    · rintro rfl
      exact clean.1 here
    · rintro rfl
      exact clean.2 here
  exact ⟨fun member => (each _ member).1 rfl, fun member => (each _ member).2 rfl⟩

/-- On clean text, the pages are those of a reader in pieces. -/
theorem paginated_iff_grouped {g : TextLayout} {file : List UInt8} (clean : Clean file)
    {offsets : List Nat} :
    g.Paginated file offsets ↔
      Grouped lf (maxLineLen - 1) (g.room file) file (offsets.map file.drop) := by
  have page (offset : Nat) (group : List (List UInt8)) :
      (∃ n, ∀ fuel ≥ n, g.readPage fuel (g.nextipage file offset) =
        some ((group.flatMap (linePieces lf (maxLineLen - 1))).flatMap g.textRows)) ↔
      pieces lf (maxLineLen - 1) (g.room file) (file.drop offset) =
        group.flatMap (linePieces lf (maxLineLen - 1)) := by
    obtain ⟨k, read⟩ := readPage_nextipage g clean offset
    constructor
    · rintro ⟨n, rows⟩
      have same := rows (max n k) (le_max_left n k)
      rw [read (max n k) (le_max_right n k), Option.some.injEq] at same
      exact textRows_inj g same
    · intro same
      rw [← same]
      exact ⟨k, read⟩
  simp only [TextLayout.Paginated, Grouped, page, List.forall₂_map_left_iff]

/-- The layout of a text file when no field is set. -/
def stdLayout : TextLayout := (⟨none, 0, 0, 0, 0⟩ : TextFields).text_first 1728 2287

end QFax.Efax

import Mathlib.Data.List.Range
import QFax.Efax.Pcx
import QFax.Efax.TextPages
import QFax.Efax.Tiff
import QFax.Lib.Unfold

/-!
# The page table

`newIFILE` scans the input files in turn.  It deduces the format of each from its first bytes, lets the
`first` and then the `next` function of the format describe one page after another, and goes on in a
file for as long as `f->next` is not zero.  Whatever the files hold, the scan stores into the entries of
the table one after another and ends after `MAXPAGE` of them.  It builds the table of the pages in the
cases of `page_table_iff`: the check after the increment takes the last entry for one too many, and
nothing sets `f->next` for FAX and PCX files.
-/

namespace QFax.Efax

open Unfold

/-! ## Formats -/

/-- The formats that `getformat` deduces. -/
inductive IFormat
  | pbm
  | fax
  | text
  | tiff
  | pcx
  | dcx
  deriving DecidableEq, Repr

/-- The size of the buffer that `getformat` scans. -/
def formatBytes : Nat := 128

/-- `getformat` for a buffer into which `n` bytes were read.  Which characters `isspace` and `isprint`
accept depends on the locale. -/
def getformat (printable : UInt8 → Bool) (p : List UInt8) (n : Nat) : Option IFormat :=
  let at' (i : Nat) := p.getD i 0
  if n < 2 then some .text
  else if at' 0 = 0 ∧ at' 1 &&& 0xe0 = 0 then some .fax
  else if at' 0 = 'P'.toUInt8 ∧ at' 1 = '4'.toUInt8 then some .pbm
  else if 128 ≤ n ∧ at' 0 = 0x0a ∧ at' 1 ∈ [2, 3, 5, (0 : UInt8)] ∧ at' 2 ≤ 1 ∧ at' 65 = 1 then
    some .pcx
  else if (at' 0 = 'M'.toUInt8 ∨ at' 1 = 'I'.toUInt8) ∧ at' 1 = at' 0 then some .tiff
  else if at' 0 = 0x3a ∧ at' 1 = 0xde ∧ at' 2 = 0x68 ∧ at' 3 = 0xb1 then some .dcx
  -- "90% printable" heuristic
  else if 9 * n < 10 * (p.take n).countP printable then some .text
  else none

/-- An input file; `none` where it cannot be opened. -/
structure InputFile where
  name : String
  content : Option (List UInt8)

/-- `fread` into the buffer of `getformat`: a short file leaves the bytes behind its own as they are. -/
def readStart (content buf : List UInt8) : List UInt8 :=
  content.take formatBytes ++ buf.drop content.length

/-- The number of bytes that were read. -/
def startBytes (content : List UInt8) : Nat := min formatBytes content.length

/-! ## Page descriptions -/

/-- The fields of `IFILE` that describe pages: the offset of the next one, the byte order, the fields
about text and the open file. -/
structure Scanner where
  next : Int
  bigend : Bool
  text : TextFields
  f : TextStream

/-- The layout of text on a page as `page_init` leaves it. -/
def Scanner.layout (s : Scanner) : TextLayout := s.text.text_first pageInit.w pageInit.h

/-- The fields of `IFILE` once `text_first` has set them. -/
def TextFields.set (f : TextFields) (g : TextLayout) : TextFields :=
  ⟨some (f.font.getD stdFont), g.charw, g.charh, g.lmargin, g.pglines⟩

/-- Scan for the first digit and skip comments; the flag says whether a comment is open. -/
def skipToDigit : Bool → List UInt8 → List UInt8
  | _, [] => []
  | true, c :: file => skipToDigit (c ≠ lf) file
  | false, c :: file => if isdigit c then c :: file else skipToDigit (c = '#'.toUInt8) file

/-- Get the number.  The character behind it is taken as well. -/
def getNumber (n : Int) : List UInt8 → Int × List UInt8
  | [] => (n, [])
  | c :: file =>
    if isdigit c then getNumber ((n * 10 + (c.toNat - '0'.toNat)).bmod (2 ^ 32)) file else (n, file)

/-- `pbmdim`. -/
def pbmdim (file : List UInt8) : Int × List UInt8 := getNumber 0 (skipToDigit false file)

/-- `pbm_first`. -/
def Scanner.pbm_first (content : List UInt8) (s : Scanner) : Option (Int × Scanner) :=
  let (w, rest) := pbmdim (content.drop 2)
  if w = 0 then none
  else
    let (h, rest) := pbmdim rest
    if h = 0 ∨ w % 8 ≠ 0 then none
    else some (content.length - rest.length, { s with next := 0 })

/-- `pcx_first` for the page that starts at an offset. -/
def Scanner.pcx_first (content : List UInt8) (start : Nat) (s : Scanner) : Option (Int × Scanner) :=
  some ((pcxFirst content start pageInit).offset, s)

/-- `tiff_next`. -/
def Scanner.tiff_next (content : List UInt8) (s : Scanner) : Option (Int × Scanner) := do
  let (page, next) ← tiffNext s.bigend content s.f.pos pageInit
  -- seek to next TIFF directory failed
  if next < 0 then none
  else some (page.offset, { s with next := next, f := openText content next.toNat })

/-- `tiff_first`.  A header that is cut short leaves no room for a directory, wherever the seek goes. -/
def Scanner.tiff_first (content : List UInt8) (s : Scanner) : Option (Int × Scanner) := do
  let bigend := content.headD 0 = 'M'.toUInt8
  let (_, rest) ← fread2 bigend (content.drop 2)
  let (next, _) ← fread4 bigend rest
  -- a seek that fails leaves the file behind its header
  let f := openText content (if next < 0 then 8 else next.toNat)
  Scanner.tiff_next content { s with bigend := bigend, next := next, f := f }

/-- `dcx_next`; the first argument is what a read that is cut short leaves in its two variables. -/
def Scanner.dcx_next (stale : Int × Int) (content : List UInt8) (s : Scanner) :
    Option (Int × Scanner) :=
  let at' := s.next.toNat
  let thisp := ((fread4 s.bigend (content.drop at')).map Prod.fst).getD stale.1
  let nextp := ((fread4 s.bigend (content.drop (at' + 4))).map Prod.fst).getD stale.2
  let s := { s with next := if nextp ≠ 0 then s.next + 4 else 0 }
  if thisp = 0 then none
  -- a seek that fails leaves the file behind what was read
  else s.pcx_first content (if thisp < 0 then max at' (min (at' + 8) content.length) else thisp.toNat)

/-- `dcx_first`. -/
def Scanner.dcx_first (stale : Int × Int) (content : List UInt8) (s : Scanner) :
    Option (Int × Scanner) :=
  Scanner.dcx_next stale content { s with bigend := false, next := 4 }

/-- `text_next`, on a page as `page_init` leaves it and with the fields that `text_first` has set, which
sets nothing when it is called again (`layout_set`). -/
def Scanner.text_next (s : Scanner) : Option (Int × Scanner) :=
  let (offset, next, f) := s.layout.text_next s.f
  some (offset, { s with next := next, f := f })

/-- `text_first`. -/
def Scanner.text_first (s : Scanner) : Option (Int × Scanner) :=
  Scanner.text_next { s with text := s.text.set s.layout }

/-- The functions `first` and `next` of a format: the offset of a page, or `none` on an error.  Where
there is no function the page stays as `page_init` leaves it. -/
def IFormat.describe (stale : Int × Int) (content : List UInt8) (fformat : IFormat) (first : Bool)
    (s : Scanner) : Option (Int × Scanner) :=
  match fformat, first with
  | .pbm, true => s.pbm_first content
  | .text, true => s.text_first
  | .text, false => s.text_next
  | .tiff, true => s.tiff_first content
  | .tiff, false => s.tiff_next content
  | .pcx, true => s.pcx_first content 0
  | .dcx, true => s.dcx_first stale content
  | .dcx, false => s.dcx_next stale content
  | .pbm, false | .fax, _ | .pcx, false => some (pageInit.offset, s)

/-! ## The scan -/

/-- `IFILE` while it is made: the entry of the current page, the memory from `pages` on with the name
and the offset of each entry, the entries that were stored into, and the fields about pages. -/
structure IFile where
  page : Nat
  lastpage : Int
  pages : Nat → String × Int
  stores : List Nat
  scanner : Scanner

/-- A page is described in its entry, and the next entry is the current one. -/
def IFile.record (f : IFile) (entry : String × Int) (s : Scanner) : IFile :=
  { f with
    page := f.page + 1
    pages := Function.update f.pages f.page entry
    stores := f.stores ++ [f.page]
    scanner := s }

/-- `page_init` for the current entry. -/
def IFile.page_init (f : IFile) (fname : String) : IFile :=
  { f with
    pages := Function.update f.pages f.page (fname, pageInit.offset)
    stores := f.stores ++ [f.page] }

/-- The loop over the pages of a file, from its first page or a later one on. -/
def IFile.scanPages (describe : Nat → Bool → Scanner → Option (Int × Scanner)) (fname : String)
    (first : Bool) (f : IFile) : Nat × IFile :=
  match describe f.page first f.scanner with
  | none => (2, f.page_init fname)
  | some (offset, s) =>
    let f' := f.record (fname, offset) s
    -- too many pages
    if _ : maxPage ≤ f.page + 1 then (2, f')
    else if s.next = 0 then (0, f')
    else f'.scanPages describe fname false
termination_by maxPage - f.page
decreasing_by
  dsimp only [IFile.record]
  omega

/-- Rewind a file. -/
def IFile.rewound (f : IFile) (content : List UInt8) : IFile :=
  { f with scanner := { f.scanner with f := openText content 0 } }

/-- Get information for all pages of a file; `stale` is what a read that is cut short leaves on a
page. -/
def IFile.scanFile (stale : Nat → Int × Int) (f : IFile) (fname : String) (content : List UInt8)
    (fformat : IFormat) : Nat × IFile :=
  (f.rewound content).scanPages (fun page => fformat.describe (stale page) content) fname true

/-- The loop over the files; `buf` is the buffer of `getformat`. -/
def IFile.scanFiles (printable : UInt8 → Bool) (stale : Nat → Int × Int) (f : IFile)
    (buf : List UInt8) :
    List InputFile → Nat × IFile
  | [] => (0, f)
  | file :: fnames =>
    match file.content with
    -- can't open file
    | none => (2, f)
    | some content =>
      let buf := readStart content buf
      match getformat printable buf (startBytes content) with
      -- can't get format of file
      | none => (2, f)
      | some fformat =>
        let (err, f) := f.scanFile stale file.name content fformat
        if err ≠ 0 then (err, f) else f.scanFiles printable stale buf fnames

/-- `newIFILE`. -/
def IFile.newIFILE (printable : UInt8 → Bool) (stale : Nat → Int × Int) (f : IFile) (buf : List UInt8)
    (fnames : List InputFile) : Nat × IFile :=
  let (err, f) := { f with page := 0, stores := [] }.scanFiles printable stale buf fnames
  (err, { f with lastpage := f.page - 1, page := 0 })

/-! ## The pages of a file -/

/-- The format that the bytes of a file say. -/
def fileFormat (printable : UInt8 → Bool) (content : List UInt8) : Option IFormat :=
  getformat printable (content.take formatBytes) (startBytes content)

/-- The directory at an offset of a TIFF file: the offset of its page, and the next directory. -/
def tiffDirectory (bigend : Bool) (content : List UInt8) (offset : Nat) :
    Option (Int × Option Nat) := do
  let (page, next) ← tiffNext bigend content offset pageInit
  if next < 0 then none else some (page.offset, if next = 0 then none else some next.toNat)

/-- The directory of a DCX file from an offset on: the offsets of its pages, up to a zero. -/
inductive DcxEntries (content : List UInt8) : Nat → List Int → Prop
  | nil {offset : Nat} {rest : List UInt8} :
    fread4 false (content.drop offset) = some (0, rest) → DcxEntries content offset []
  | cons {offset : Nat} {entry : Int} {rest : List UInt8} {entries : List Int} :
    fread4 false (content.drop offset) = some (entry, rest) → 0 < entry →
    DcxEntries content (offset + 4) entries → DcxEntries content offset (entry :: entries)

/-- A page of text, and what is behind it. -/
def TextLayout.textPage (g : TextLayout) (f : TextStream) : Option (Int × Option TextStream) :=
  let (offset, next, f) := g.text_next f
  some (offset, if next = 0 then none else some f)

/-- The offsets of the pages of a file of a format. -/
def FilePages (g : TextLayout) (content : List UInt8) (fformat : IFormat) (offsets : List Int) : Prop :=
  match fformat with
  | .fax => offsets = [0]
  | .pcx => offsets = [128]
  | .pbm => ∃ w h rest data, pbmdim (content.drop 2) = (w, rest) ∧ pbmdim rest = (h, data) ∧
      w ≠ 0 ∧ h ≠ 0 ∧ 8 ∣ w ∧ offsets = [(content.length - data.length : Int)]
  | .tiff => ∃ first rest,
      fread4 (content.headD 0 = 'M'.toUInt8) (content.drop 4) = some (first, rest) ∧
      0 ≤ first ∧ Unfolds (tiffDirectory (content.headD 0 = 'M'.toUInt8) content) first.toNat offsets
  | .dcx => ∃ entries, DcxEntries content 4 entries ∧ offsets = entries.map (· + 128)
  | .text => Unfolds g.textPage (openText content 0) offsets

/-- A readable file of a recognised format, and its pages. -/
def ReadableFile (printable : UInt8 → Bool) (g : TextLayout) (file : InputFile)
    (pages : List (String × Int)) : Prop :=
  ∃ content fformat offsets, file.content = some content ∧ fileFormat printable content = some fformat ∧
    FilePages g content fformat offsets ∧ pages = offsets.map fun offset => (file.name, offset)

/-- A call that returned no error and left the pages in the table, in order. -/
structure TableComplete (result : Nat × IFile) (pages : List (String × Int)) : Prop where
  noError : result.1 = 0
  count : result.2.lastpage + 1 = pages.length
  entries : ∀ k (lt : k < pages.length), result.2.pages k = pages[k]

/-- `f->next` is zero, or is set by the `first` function of the first file. -/
def NextSet (printable : UInt8 → Bool) (next : Int) (fnames : List InputFile) : Prop :=
  next = 0 ∨ ∀ file ∈ fnames.head?, ∀ content ∈ file.content,
    fileFormat printable content ≠ some .fax ∧ fileFormat printable content ≠ some .pcx

/-- The bytes that the files before have left in the buffer do not give a file another format. -/
def OwnFormats (printable : UInt8 → Bool) (buf : List UInt8) : List InputFile → Prop
  | [] => True
  | file :: fnames => ∀ content ∈ file.content,
    getformat printable (readStart content buf) (startBytes content) = fileFormat printable content ∧
      OwnFormats printable (readStart content buf) fnames

/-! ## Formats of short files -/

theorem readStart_getD (content buf : List UInt8) {i : Nat} (own : i < startBytes content) :
    (readStart content buf).getD i 0 = (content.take formatBytes).getD i 0 := by
  rw [startBytes] at own
  rw [readStart, List.getD_append _ _ _ _ (by rw [List.length_take]; omega)]

theorem readStart_take (content buf : List UInt8) :
    (readStart content buf).take (startBytes content) =
      (content.take formatBytes).take (startBytes content) := by
  rw [readStart, List.take_append_of_le_length (by rw [List.length_take, startBytes])]

/-- Only files of two or three bytes depend on the rest of the buffer, which can make them DCX files. -/
theorem getformat_readStart (printable : UInt8 → Bool) (content buf : List UInt8)
    (other : getformat printable (readStart content buf) (startBytes content) ≠
      fileFormat printable content) :
    content.length < 4 ∧
      getformat printable (readStart content buf) (startBytes content) = some .dcx ∧
      ∀ fformat ∈ fileFormat printable content, fformat = .text := by
  have own (i : Nat) (lt : i < startBytes content) := readStart_getD content buf lt
  rw [fileFormat] at other ⊢
  simp only [getformat, readStart_take] at other ⊢
  by_cases empty : startBytes content < 2
  · simp only [if_pos empty] at other
    exact absurd rfl other
  simp only [own 0 (by omega), own 1 (by omega), if_neg empty] at other ⊢
  by_cases short : startBytes content < 4
  · have length : content.length < 4 := by
      rw [startBytes, formatBytes] at short
      omega
    have absent : (content.take formatBytes).getD 3 0 = 0 :=
      List.getD_eq_default _ _ (by rw [List.length_take]; omega)
    have few : ¬ 128 ≤ startBytes content := by omega
    have apart : ¬ (0 : UInt8) = 0xb1 := by decide
    simp only [few, absent, apart, false_and, and_false, if_false] at other ⊢
    refine ⟨length, ?_⟩
    -- left are the buffers that hold what comes next in the header of a DCX file
    split_ifs at other ⊢ <;> try exact absurd rfl other
    · exact ⟨rfl, fun _ text => (Option.mem_some_iff.mp text).symm⟩
    · exact ⟨rfl, fun _ none => absurd none (Option.not_mem_none _)⟩
  · by_cases all : 128 ≤ startBytes content
    · simp only [own 2 (by omega), own 3 (by omega), own 65 (by omega)] at other
      exact absurd rfl other
    · simp only [all, false_and, if_false, own 2 (by omega), own 3 (by omega)] at other
      exact absurd rfl other

/-! ## The table grows page by page -/

/-- The entries in front of the current one. -/
def IFile.table (f : IFile) : List (String × Int) := (List.range f.page).map f.pages

/-- Entries behind the table do not belong to it. -/
theorem IFile.map_update (f : IFile) (entry : String × Int) :
    (List.range f.page).map (Function.update f.pages f.page entry) = f.table := by
  refine List.map_congr_left fun k lt => ?_
  exact Function.update_of_ne (List.mem_range.mp lt).ne entry f.pages

theorem IFile.table_record (f : IFile) (entry : String × Int) (s : Scanner) :
    (f.record entry s).table = f.table ++ [entry] := by
  have others := f.map_update entry
  rw [IFile.table, IFile.record, List.range_succ, List.map_append, others]
  simp

theorem IFile.table_page_init (f : IFile) (fname : String) : (f.page_init fname).table = f.table :=
  f.map_update _

theorem IFile.length_table (f : IFile) : f.table.length = f.page := by
  rw [IFile.table, List.length_map, List.length_range]

variable {describe : Nat → Bool → Scanner → Option (Int × Scanner)} {fname : String}

/-- What the loop over the pages of a file can do. -/
inductive Scans (describe : Nat → Bool → Scanner → Option (Int × Scanner)) (fname : String) :
    Bool → IFile → Nat × IFile → Prop
  | failed {first : Bool} {f : IFile} :
    describe f.page first f.scanner = none → Scans describe fname first f (2, f.page_init fname)
  | full {first : Bool} {f : IFile} {offset : Int} {s : Scanner} :
    describe f.page first f.scanner = some (offset, s) → maxPage ≤ f.page + 1 →
    Scans describe fname first f (2, f.record (fname, offset) s)
  | ended {first : Bool} {f : IFile} {offset : Int} {s : Scanner} :
    describe f.page first f.scanner = some (offset, s) → f.page + 1 < maxPage → s.next = 0 →
    Scans describe fname first f (0, f.record (fname, offset) s)
  | more {first : Bool} {f : IFile} {offset : Int} {s : Scanner} {r : Nat × IFile} :
    describe f.page first f.scanner = some (offset, s) → f.page + 1 < maxPage → s.next ≠ 0 →
    Scans describe fname false (f.record (fname, offset) s) r → Scans describe fname first f r

theorem scanPages_scans (first : Bool) (f : IFile) :
    Scans describe fname first f (f.scanPages describe fname first) := by
  rw [IFile.scanPages]
  cases found : describe f.page first f.scanner with
  | none => exact .failed found
  | some page =>
    obtain ⟨offset, s⟩ := page
    dsimp only
    by_cases full : maxPage ≤ f.page + 1
    · rw [dif_pos full]
      exact .full found full
    · rw [dif_neg full]
      by_cases ended : s.next = 0
      · rw [if_pos ended]
        exact .ended found (Nat.lt_of_not_le full) ended
      · rw [if_neg ended]
        exact .more found (Nat.lt_of_not_le full) ended (scanPages_scans false _)
termination_by maxPage - f.page
decreasing_by
  dsimp only [IFile.record]
  omega

/-- The entries were stored into one after another, up to the current one. -/
def IFile.Stored (f : IFile) : Prop := f.stores = List.range f.page ∧ f.page < maxPage

/-- One entry after another was stored into, and none outside the table. -/
def IFile.Within (f : IFile) : Prop := ∃ n ≤ maxPage, f.stores = List.range n

theorem IFile.Stored.within {f : IFile} (stored : f.Stored) : f.Within :=
  ⟨f.page, stored.2.le, stored.1⟩

theorem IFile.Stored.next {f : IFile} (stored : f.Stored) :
    f.stores ++ [f.page] = List.range (f.page + 1) := by
  rw [stored.1, List.range_succ]

variable {first : Bool} {f : IFile} {r : Nat × IFile}

/-- The loop over the pages of a file keeps to the table. -/
theorem Scans.stored (scans : Scans describe fname first f r) (stored : f.Stored) :
    r.2.Within ∧ (r.1 = 0 → r.2.Stored) := by
  induction scans with
  | failed _ => exact ⟨⟨_, stored.2, stored.next⟩, by rintro ⟨⟩⟩
  | full _ _ => exact ⟨⟨_, stored.2, stored.next⟩, by rintro ⟨⟩⟩
  | ended _ room _ =>
    have stored' := And.intro stored.next room
    exact ⟨⟨_, room.le, stored'.1⟩, fun _ => stored'⟩
  | more _ room _ _ ih => exact ih ⟨stored.next, room⟩

/-- What is in the table stays. -/
theorem Scans.table_prefix (scans : Scans describe fname first f r) : f.table <+: r.2.table := by
  induction scans with
  | @failed _ f _ => exact (f.table_page_init fname).symm ▸ List.prefix_rfl
  | full _ _ => exact IFile.table_record _ _ _ ▸ List.prefix_append _ _
  | ended _ _ _ => exact IFile.table_record _ _ _ ▸ List.prefix_append _ _
  | @more _ f offset s _ _ _ _ _ ih =>
    have grown : f.table <+: (f.record (fname, offset) s).table :=
      f.table_record (fname, offset) s ▸ List.prefix_append _ _
    exact grown.trans ih

/-- A file that is scanned without an error has a first page. -/
theorem Scans.first_page (scans : Scans describe fname first f r) (ok : r.1 = 0) :
    ∃ offset s, describe f.page first f.scanner = some (offset, s) ∧
      f.table ++ [(fname, offset)] <+: r.2.table := by
  cases scans with
  | failed _ => cases ok
  | full _ _ => cases ok
  | ended found _ _ => exact ⟨_, _, found, IFile.table_record _ _ _ ▸ List.prefix_rfl⟩
  | more found _ _ rest => exact ⟨_, _, found, IFile.table_record _ _ _ ▸ rest.table_prefix⟩

/-- A file ends without an error when nothing is left to be scanned. -/
theorem Scans.next_eq_zero (scans : Scans describe fname first f r) (ok : r.1 = 0) :
    r.2.scanner.next = 0 := by
  induction scans with
  | failed _ => cases ok
  | full _ _ => cases ok
  | ended _ _ zero => exact zero
  | more _ _ _ _ ih => exact ih ok

/-- A property of the fields about pages that every description keeps. -/
theorem Scans.keeps {P : Scanner → Prop}
    (keeps : ∀ page first s offset s', describe page first s = some (offset, s') → P s → P s')
    (scans : Scans describe fname first f r) (start : P f.scanner) : P r.2.scanner := by
  induction scans with
  | failed _ => exact start
  | full found _ => exact keeps _ _ _ _ _ found start
  | ended found _ _ => exact keeps _ _ _ _ _ found start
  | more found _ _ _ ih => exact ih (keeps _ _ _ _ _ found start)

/-- Where `f->next` is never set to zero the file does not end before the table is full. -/
theorem Scans.endless
    (keeps : ∀ page first s offset s', describe page first s = some (offset, s') →
      s.next ≠ 0 → s'.next ≠ 0)
    (scans : Scans describe fname first f r) (start : f.scanner.next ≠ 0) : r.1 ≠ 0 := by
  intro ok
  exact scans.keeps keeps start (scans.next_eq_zero ok)

/-- A step of the loop as a step along a chain: the state is the entry, whether the page is the first
one of its file, and the fields about pages. -/
def pageStep (describe : Nat → Bool → Scanner → Option (Int × Scanner)) :
    Nat × Bool × Scanner → Option (Int × Option (Nat × Bool × Scanner))
  | (page, first, s) =>
    (describe page first s).map fun (offset, s') =>
      (offset, if s'.next = 0 then none else some (page + 1, false, s'))

theorem pageStep_inv {page : Nat} {first : Bool} {s : Scanner} {offset : Int}
    {next : Option (Nat × Bool × Scanner)}
    (step : pageStep describe (page, first, s) = some (offset, next)) :
    ∃ s', describe page first s = some (offset, s') ∧
      next = if s'.next = 0 then none else some (page + 1, false, s') := by
  rw [pageStep, Option.map_eq_some_iff] at step
  obtain ⟨⟨_, s'⟩, found, same⟩ := step
  cases same
  exact ⟨s', found, rfl⟩

theorem pageStep_last {page : Nat} {first : Bool} {s s' : Scanner} {offset : Int}
    (found : describe page first s = some (offset, s')) (zero : s'.next = 0) :
    pageStep describe (page, first, s) = some (offset, none) := by
  rw [pageStep, found, Option.map_some]
  dsimp only
  rw [if_pos zero]

/-- The loop appends the pages of a chain to the table, if there is room for one more. -/
theorem Scans.unfolds (scans : Scans describe fname first f r) {offsets : List Int}
    (unfolds : Unfolds (pageStep describe) (f.page, first, f.scanner) offsets) :
    if f.page + offsets.length < maxPage then
      r.1 = 0 ∧ r.2.table = f.table ++ offsets.map fun offset => (fname, offset)
    else r.1 ≠ 0 := by
  induction scans generalizing offsets with
  | failed failed =>
    obtain ⟨_, _, step, _⟩ := unfolds.head
    obtain ⟨_, found, _⟩ := pageStep_inv step
    rw [failed] at found
    cases found
  | full _ full =>
    have some := List.length_pos_iff.mpr unfolds.ne_nil
    rw [if_neg (by omega)]
    exact Nat.succ_ne_zero 1
  | ended found room zero =>
    cases unfolds with
    | last step =>
      obtain ⟨_, found', _⟩ := pageStep_inv step
      rw [found] at found'
      cases found'
      rw [List.length_singleton, if_pos room]
      exact ⟨rfl, IFile.table_record _ _ _⟩
    | more step _ =>
      obtain ⟨_, found', next⟩ := pageStep_inv step
      rw [found] at found'
      cases found'
      rw [if_pos zero] at next
      cases next
  | more found room more _ ih =>
    cases unfolds with
    | last step =>
      obtain ⟨_, found', next⟩ := pageStep_inv step
      rw [found] at found'
      cases found'
      rw [if_neg more] at next
      cases next
    | more step rest =>
      obtain ⟨_, found', next⟩ := pageStep_inv step
      rw [found] at found'
      cases found'
      rw [if_neg more] at next
      cases next
      have appended := ih rest
      rw [IFile.table_record, List.append_assoc] at appended
      rw [List.length_cons, Nat.add_comm _ 1, ← Nat.add_assoc]
      exact appended

/-! ## The functions of the formats -/

theorem orDefault_again (n : Nat) {d : Nat} (pos : 0 < d) (e : Nat) :
    orDefault (orDefault n d) e = orDefault n d :=
  if_neg (orDefault_pos n pos).ne'

/-- Once the fields about text are set they say the same layout. -/
theorem text_first_set (f : TextFields) (w h : Int) :
    (f.set (f.text_first w h)).text_first w h = f.text_first w h := by
  cases f with
  | mk font charw charh lmargin pglines =>
    cases font with
    | none =>
      have charw_again := orDefault_again charw (by decide : 0 < 2 * stdFont.w) stdFont.w
      have charh_again := orDefault_again charh (by decide : 0 < 2 * stdFont.h) stdFont.h
      have lines : (if pglines = 0 then 66 else pglines) ≠ 0 := by split <;> omega
      simp [TextFields.set, TextFields.text_first, charw_again, charh_again, lines]
    | some font =>
      have charw_again := orDefault_again charw font.w_pos font.w
      have charh_again := orDefault_again charh font.h_pos font.h
      simp [TextFields.set, TextFields.text_first, charw_again, charh_again]
      grind

theorem layout_set (s : Scanner) : { s with text := s.text.set s.layout }.layout = s.layout :=
  text_first_set s.text _ _

section
variable {content : List UInt8} {s s' : Scanner} {offset : Int} {stale : Int × Int} {first : Bool}

theorem tiff_next_text (found : s.tiff_next content = some (offset, s')) : s'.text = s.text := by
  simp only [Scanner.tiff_next, Option.bind_eq_bind, Option.bind_eq_some_iff] at found
  obtain ⟨⟨page, next⟩, _, found⟩ := found
  dsimp only at found
  split at found
  · cases found
  · cases found
    rfl

theorem tiff_first_text (found : s.tiff_first content = some (offset, s')) : s'.text = s.text := by
  simp only [Scanner.tiff_first, Option.bind_eq_bind, Option.bind_eq_some_iff] at found
  obtain ⟨_, _, _, _, found⟩ := found
  have kept := tiff_next_text found
  exact kept

theorem dcx_next_text (found : s.dcx_next stale content = some (offset, s')) : s'.text = s.text := by
  simp only [Scanner.dcx_next] at found
  split at found
  · cases found
  · cases found
    rfl

theorem pbm_first_text (found : s.pbm_first content = some (offset, s')) : s'.text = s.text := by
  simp only [Scanner.pbm_first] at found
  split at found
  · cases found
  · split at found
    · cases found
    · cases found
      rfl

/-- Describing a page leaves the layout of text as it is. -/
theorem describe_layout {fformat : IFormat}
    (found : fformat.describe stale content first s = some (offset, s')) : s'.layout = s.layout := by
  have of_text (same : s'.text = s.text) : s'.layout = s.layout :=
    congrArg (fun text => TextFields.text_first text pageInit.w pageInit.h) same
  cases fformat <;> cases first
  case pbm.true => exact of_text (pbm_first_text found)
  case tiff.true => exact of_text (tiff_first_text found)
  case tiff.false => exact of_text (tiff_next_text found)
  case dcx.true => exact of_text (dcx_next_text (s := { s with bigend := false, next := 4 }) found)
  case dcx.false => exact of_text (dcx_next_text found)
  case text.true =>
    cases found
    exact layout_set s
  all_goals
    cases found
    rfl

/-- FAX and PCX files leave `f->next` as it is. -/
theorem describe_next {fformat : IFormat} (single : fformat = .fax ∨ fformat = .pcx)
    (found : fformat.describe stale content first s = some (offset, s')) : s' = s := by
  rcases single with rfl | rfl <;> cases first <;> cases found <;> rfl

theorem tiff_next_directory {later : Option Nat}
    (found : tiffDirectory s.bigend content s.f.pos = some (offset, later)) :
    ∃ next : Nat, later = (if next = 0 then none else some next) ∧
      s.tiff_next content = some (offset, { s with next := next, f := openText content next }) := by
  simp only [tiffDirectory, Option.bind_eq_bind, Option.bind_eq_some_iff] at found
  obtain ⟨⟨page, next⟩, read, found⟩ := found
  dsimp only at found
  split at found
  · cases found
  · rename_i reached
    cases found
    lift next to Nat using by omega
    refine ⟨next, by simp, ?_⟩
    rw [Scanner.tiff_next, read]
    simp

end

/-- The directories of a TIFF file are described one after another. -/
theorem tiff_unfolds {stale : Nat → Int × Int} {content : List UInt8} {offsets : List Int} {s : Scanner}
    (unfolds : Unfolds (tiffDirectory s.bigend content) s.f.pos offsets) (page : Nat) :
    Unfolds (pageStep fun page => IFormat.tiff.describe (stale page) content) (page, false, s)
      offsets := by
  have follows : Follows (tiffDirectory s.bigend content)
      (pageStep fun page => IFormat.tiff.describe (stale page) content)
      (fun offset state => state.2.1 = false ∧ state.2.2.bigend = s.bigend ∧
        state.2.2.f.pos = offset) := by
    rintro offset ⟨page, first, t⟩ x later ⟨rfl, same, rfl⟩ found
    rw [← same] at found
    obtain ⟨next, rfl, described⟩ := tiff_next_directory found
    have step : pageStep (fun page => IFormat.tiff.describe (stale page) content) (page, false, t) =
        some (x, if (next : Int) = 0 then none else
          some (page + 1, false, { t with next := next, f := openText content next })) := by
      rw [pageStep, IFormat.describe, described]
      rfl
    refine ⟨_, step, ?_⟩
    by_cases last : next = 0
    · rw [if_pos last, if_pos (by exact_mod_cast last)]
      exact .none
    · rw [if_neg last, if_neg (by exact_mod_cast last)]
      exact .some ⟨rfl, same, rfl⟩
  exact unfolds.simulate follows ⟨rfl, rfl, rfl⟩

/-- The pages of a text file are described one after another. -/
theorem text_unfolds {stale : Nat → Int × Int} {content : List UInt8} {offsets : List Int} {s : Scanner}
    (unfolds : Unfolds s.layout.textPage s.f offsets) (page : Nat) (first : Bool) :
    Unfolds (pageStep fun page => IFormat.text.describe (stale page) content) (page, first, s)
      offsets := by
  have follows : Follows s.layout.textPage
      (pageStep fun page => IFormat.text.describe (stale page) content)
      (fun f state => state.2.2.layout = s.layout ∧ state.2.2.f = f) := by
    rintro f ⟨page, first, t⟩ x later ⟨same, rfl⟩ found
    have parts : (((s.layout.text_next t.f).1 : Int),
        if (s.layout.text_next t.f).2.1 = 0 then none else some (s.layout.text_next t.f).2.2) =
        (x, later) := Option.some.inj found
    obtain ⟨rfl, rfl⟩ := Prod.mk.inj parts
    obtain ⟨t', described, kept, next, f⟩ : ∃ t', IFormat.text.describe (stale page) content first t =
        some (((s.layout.text_next t.f).1 : Int), t') ∧ t'.layout = s.layout ∧
          t'.next = (s.layout.text_next t.f).2.1 ∧ t'.f = (s.layout.text_next t.f).2.2 := by
      cases first with
      | false =>
        rw [← same]
        exact ⟨_, rfl, rfl, rfl, rfl⟩
      | true =>
        rw [← same, ← layout_set t]
        exact ⟨_, rfl, rfl, rfl, rfl⟩
    have step : pageStep (fun page => IFormat.text.describe (stale page) content) (page, first, t) =
        some (((s.layout.text_next t.f).1 : Int), if t'.next = 0 then none else
          some (page + 1, false, t')) := by
      rw [pageStep, described]
      rfl
    refine ⟨_, step, ?_⟩
    by_cases last : (s.layout.text_next t.f).2.1 = 0
    · rw [if_pos last, if_pos (by rw [next, last]; rfl)]
      exact .none
    · rw [if_neg last, if_neg (by rw [next]; exact_mod_cast last)]
      exact .some ⟨kept, f⟩
  exact unfolds.simulate follows ⟨rfl, rfl⟩

/-- `dcx_next` at an entry of the directory. -/
theorem dcx_next_entry {stale : Int × Int} {content rest rest' : List UInt8} {offset : Nat}
    {thisp nextp : Int}
    {s : Scanner} (little : s.bigend = false) (next : s.next = offset)
    (this : fread4 false (content.drop offset) = some (thisp, rest)) (pos : 0 < thisp)
    (behind : fread4 false (content.drop (offset + 4)) = some (nextp, rest')) :
    s.dcx_next stale content =
      some (thisp + 128, { s with next := if nextp ≠ 0 then s.next + 4 else 0 }) := by
  have offset_eq : s.next.toNat = offset := by omega
  have start : (thisp.toNat : Int) = thisp := by omega
  simp only [Scanner.dcx_next, offset_eq, little, this, behind, Option.map_some, Option.getD_some,
    if_neg pos.ne', if_neg (not_lt.mpr pos.le), Scanner.pcx_first, pcxFirst]
  rw [start]

/-- The entries of a DCX directory are described one after another. -/
theorem dcx_unfolds {stale : Nat → Int × Int} {content : List UInt8} {offset : Nat} {entry : Int}
    {entries : List Int} (directory : DcxEntries content offset (entry :: entries)) {s : Scanner}
    (little : s.bigend = false) (next : s.next = offset) (page : Nat) :
    Unfolds (pageStep fun page => IFormat.dcx.describe (stale page) content) (page, false, s)
      ((entry :: entries).map (· + 128)) := by
  induction entries generalizing offset entry s page with
  | nil =>
    rcases directory with _ | ⟨this, pos, ⟨behind⟩⟩
    refine .last ?_
    rw [pageStep, IFormat.describe, dcx_next_entry little next this pos behind]
    rfl
  | cons entry' entries ih =>
    rcases directory with _ | ⟨this, pos, later⟩
    have behind := later
    rcases behind with _ | ⟨behind, pos', _⟩
    have next' : s.next + 4 = (offset + 4 : Nat) := by omega
    have rest := ih later (s := { s with next := s.next + 4 }) little next' (page + 1)
    refine .more ?_ rest
    rw [pageStep, IFormat.describe, dcx_next_entry little next this pos behind, if_pos pos'.ne']
    have more : s.next + 4 ≠ 0 := by omega
    simp [more]

theorem tiff_first_eq {content rest : List UInt8} {next : Int}
    (header : fread4 (content.headD 0 = 'M'.toUInt8) (content.drop 4) = some (next, rest))
    (reached : 0 ≤ next) (s : Scanner) :
    s.tiff_first content = Scanner.tiff_next content { s with
      bigend := content.headD 0 = 'M'.toUInt8, next := next, f := openText content next.toNat } := by
  have long : 2 ≤ (content.drop 2).length := by
    by_contra short
    have few : ¬ 4 ≤ (content.drop 4).length := by
      rw [List.length_drop] at short ⊢
      omega
    rw [fread4, if_neg few] at header
    cases header
  rw [Scanner.tiff_first]
  simp only [fread2, if_pos long, List.drop_drop, header, Option.bind_eq_bind, Option.bind_some,
    if_neg (not_lt.mpr reached)]

/-- The functions of a format describe the pages of a file, where its first function sets `f->next`. -/
theorem filePages_unfolds {stale : Nat → Int × Int} {content : List UInt8} {fformat : IFormat}
    {offsets : List Int} {s : Scanner} (pages : FilePages s.layout content fformat offsets)
    (some : offsets ≠ []) (start : s.f = openText content 0)
    (sets : s.next = 0 ∨ (fformat ≠ .fax ∧ fformat ≠ .pcx)) (page : Nat) :
    Unfolds (pageStep fun page => fformat.describe (stale page) content) (page, true, s) offsets := by
  cases fformat with
  | fax =>
    have zero : s.next = 0 := sets.resolve_right fun both => both.1 rfl
    cases pages
    exact .last (pageStep_last rfl zero)
  | pcx =>
    have zero : s.next = 0 := sets.resolve_right fun both => both.2 rfl
    cases pages
    exact .last (pageStep_last rfl zero)
  | pbm =>
    obtain ⟨w, h, rest, data, width, height, w_ne, h_ne, whole, rfl⟩ := pages
    have good : ¬ (h = 0 ∨ w % 8 ≠ 0) := by omega
    have found : s.pbm_first content =
        Option.some ((content.length - data.length : Int), { s with next := 0 }) := by
      rw [Scanner.pbm_first, width]
      simp only [if_neg w_ne, height, if_neg good]
    exact .last (pageStep_last found rfl)
  | tiff =>
    obtain ⟨next, rest, header, reached, unfolds⟩ := pages
    refine (tiff_unfolds (s := { s with
      bigend := content.headD 0 = 'M'.toUInt8, next := next, f := openText content next.toNat })
      unfolds page).of_step_eq ?_
    rw [pageStep, pageStep, IFormat.describe, IFormat.describe, tiff_first_eq header reached s]
  | dcx =>
    obtain ⟨entries, directory, rfl⟩ := pages
    cases entries with
    | nil => exact absurd rfl some
    | cons entry entries =>
      have unfolds : Unfolds (pageStep fun page => IFormat.dcx.describe (stale page) content)
          (page, false, { s with bigend := false, next := 4 }) _ := dcx_unfolds directory rfl rfl page
      refine unfolds.of_step_eq ?_
      rfl
  | text =>
    have unfolds : Unfolds s.layout.textPage s.f offsets := start ▸ pages
    exact text_unfolds unfolds page true

/-- An empty DCX directory is an error. -/
theorem dcx_empty {stale : Int × Int} {content : List UInt8} (empty : DcxEntries content 4 [])
    (s : Scanner) :
    IFormat.dcx.describe stale content true s = none := by
  rcases empty with ⟨found⟩
  rw [IFormat.describe, Scanner.dcx_first, Scanner.dcx_next]
  simp [found]

/-- The first page of a text file starts with the file. -/
theorem text_head {g : TextLayout} {content : List UInt8} {offsets : List Int}
    (pages : FilePages g content .text offsets) : offsets.head? = some 0 := by
  obtain ⟨x, later, step, head⟩ := Unfolds.head pages
  cases step
  exact head

/-- What `dcx_first` finds in a file is not where a text starts. -/
theorem dcx_first_ne {stale : Int × Int} {content : List UInt8} {s s' : Scanner} {offset : Int}
    (found : IFormat.dcx.describe stale content true s = some (offset, s')) : offset ≠ 0 := by
  rw [IFormat.describe, Scanner.dcx_first, Scanner.dcx_next] at found
  dsimp only at found
  split at found
  · cases found
  · cases found
    rw [pcxFirst]
    dsimp only
    omega

/-! ## The files in turn -/

variable {printable : UInt8 → Bool} {stale : Nat → Int × Int}

theorem scanFile_scans (stale : Nat → Int × Int) (f : IFile) (fname : String) (content : List UInt8)
    (fformat : IFormat) :
    Scans (fun page => fformat.describe (stale page) content) fname true
      (f.rewound content) (f.scanFile stale fname content fformat) :=
  scanPages_scans true _

theorem scanFile_layout (stale : Nat → Int × Int) (f : IFile) (fname : String)
    (content : List UInt8) (fformat : IFormat) :
    (f.scanFile stale fname content fformat).2.scanner.layout = f.scanner.layout :=
  (scanFile_scans stale f fname content fformat).keeps (P := fun s => s.layout = f.scanner.layout)
    (fun _ _ _ _ _ found same => (describe_layout found).trans same) rfl

/-- The scan of all files keeps to the table, and what is in the table stays. -/
theorem scanFiles_within (fnames : List InputFile) (f : IFile) (stored : f.Stored) (buf : List UInt8) :
    (f.scanFiles printable stale buf fnames).2.Within ∧
      f.table <+: (f.scanFiles printable stale buf fnames).2.table := by
  induction fnames generalizing f buf with
  | nil => exact ⟨stored.within, List.prefix_rfl⟩
  | cons file fnames ih =>
    rw [IFile.scanFiles]
    split
    · exact ⟨stored.within, List.prefix_rfl⟩
    · rename_i content _
      dsimp only
      split
      · exact ⟨stored.within, List.prefix_rfl⟩
      · rename_i fformat _
        have scans := scanFile_scans stale f file.name content fformat
        obtain ⟨within, stored'⟩ := scans.stored stored
        have grown := scans.table_prefix
        split
        · exact ⟨within, grown⟩
        · rename_i ok
          obtain ⟨within', grown'⟩ := ih _ (stored' (not_not.mp ok)) (readStart content buf)
          exact ⟨within', grown.trans grown'⟩

/-- Only a DCX directory can be empty. -/
theorem filePages_nil {g : TextLayout} {content : List UInt8} {fformat : IFormat}
    (pages : FilePages g content fformat []) : fformat = .dcx ∧ DcxEntries content 4 [] := by
  cases fformat with
  | pbm =>
    obtain ⟨_, _, _, _, _, _, _, _, _, empty⟩ := pages
    cases empty
  | fax => cases pages
  | text => exact absurd rfl (Unfolds.ne_nil pages)
  | tiff =>
    obtain ⟨_, _, _, _, unfolds⟩ := pages
    exact absurd rfl unfolds.ne_nil
  | pcx => cases pages
  | dcx =>
    obtain ⟨entries, directory, empty⟩ := pages
    rw [List.map_eq_nil_iff.mp empty.symm] at directory
    exact ⟨rfl, directory⟩

/-- A file is scanned without an error when it has pages, they leave an entry free, and something sets
`f->next`; its pages are then appended to the table. -/
theorem scanFile_pages {f : IFile} {content : List UInt8} {fformat : IFormat} {offsets : List Int}
    (pages : FilePages f.scanner.layout content fformat offsets) (stale : Nat → Int × Int)
    (fname : String) :
    ((f.scanFile stale fname content fformat).1 = 0 ↔
      f.page + offsets.length < maxPage ∧ offsets ≠ [] ∧
        (f.scanner.next = 0 ∨ (fformat ≠ .fax ∧ fformat ≠ .pcx))) ∧
    ((f.scanFile stale fname content fformat).1 = 0 → (f.scanFile stale fname content fformat).2.table =
      f.table ++ offsets.map fun offset => (fname, offset)) := by
  have scans := scanFile_scans stale f fname content fformat
  generalize f.scanFile stale fname content fformat = r at scans
  by_cases some : offsets = []
  · subst some
    obtain ⟨rfl, empty⟩ := filePages_nil pages
    have failed : r.1 ≠ 0 := by
      cases scans with
      | failed _ => exact Nat.succ_ne_zero 1
      | full found _ | ended found _ _ | more found _ _ _ =>
        rw [dcx_empty empty] at found
        cases found
    exact ⟨iff_of_false failed fun all => all.2.1 rfl, fun ok => absurd ok failed⟩
  · by_cases sets : f.scanner.next = 0 ∨ (fformat ≠ .fax ∧ fformat ≠ .pcx)
    · have unfolds : Unfolds (pageStep fun page => fformat.describe (stale page) content)
          (f.page, true, (f.rewound content).scanner) offsets :=
        filePages_unfolds (s := (f.rewound content).scanner) pages some rfl sets f.page
      have outcome := scans.unfolds unfolds
      split at outcome
      · rename_i room
        exact ⟨iff_of_true outcome.1 ⟨room, some, sets⟩, fun _ => outcome.2⟩
      · rename_i full
        exact ⟨iff_of_false outcome fun all => full all.1, fun ok => absurd ok outcome⟩
    · rw [not_or] at sets
      have single : fformat = .fax ∨ fformat = .pcx := by
        by_contra other
        exact sets.2 (not_or.mp other)
      have failed : r.1 ≠ 0 :=
        scans.endless (fun _ _ _ _ _ found => (describe_next single found).symm ▸ id) sets.1
      exact ⟨iff_of_false failed fun all => absurd all.2.2 (not_or.mpr sets),
        fun ok => absurd ok failed⟩

section
variable {file : InputFile} {content : List UInt8} {fformat : IFormat}
  (opened : file.content = some content)
include opened

theorem nextSet_cons (own : fileFormat printable content = some fformat) (next : Int)
    (fnames : List InputFile) :
    NextSet printable next (file :: fnames) ↔ next = 0 ∨ (fformat ≠ .fax ∧ fformat ≠ .pcx) := by
  simp [NextSet, opened, own]

theorem ownFormats_cons (buf : List UInt8) (fnames : List InputFile) :
    OwnFormats printable buf (file :: fnames) ↔
      getformat printable (readStart content buf) (startBytes content) = fileFormat printable content ∧
        OwnFormats printable (readStart content buf) fnames := by
  simp [OwnFormats, opened]

theorem scanFiles_cons {buf : List UInt8}
    (found : getformat printable (readStart content buf) (startBytes content) = some fformat)
    (f : IFile) (fnames : List InputFile) :
    f.scanFiles printable stale buf (file :: fnames) =
      if (f.scanFile stale file.name content fformat).1 ≠ 0 then f.scanFile stale file.name content fformat
      else (f.scanFile stale file.name content fformat).2.scanFiles printable stale
        (readStart content buf) fnames := by
  rw [IFile.scanFiles, opened]
  simp only [found]

end

/-- A text that the bytes left in the buffer make a DCX file does not get its entry. -/
theorem scanFiles_stale {f : IFile} (stored : f.Stored) {file : InputFile} {content buf : List UInt8}
    (opened : file.content = some content)
    (found : getformat printable (readStart content buf) (startBytes content) = some .dcx)
    {offsets : List Int} (text : FilePages f.scanner.layout content .text offsets)
    (fnames : List InputFile) (later : List (String × Int)) :
    ¬ ((f.scanFiles printable stale buf (file :: fnames)).1 = 0 ∧
      (f.scanFiles printable stale buf (file :: fnames)).2.table =
        f.table ++ ((offsets.map fun offset => (file.name, offset)) ++ later)) := by
  rintro ⟨ok, table⟩
  have scans := scanFile_scans stale f file.name content .dcx
  rw [scanFiles_cons opened found] at ok table
  generalize f.scanFile stale file.name content .dcx = r at scans ok table
  by_cases failed : r.1 ≠ 0
  · rw [if_pos failed] at ok
    exact failed ok
  · rw [if_neg failed] at table
    rw [not_not] at failed
    obtain ⟨offset, s, described, first⟩ := scans.first_page failed
    have grown : r.2.table <+:
        (r.2.scanFiles printable stale (readStart content buf) fnames).2.table :=
      (scanFiles_within fnames r.2 ((scans.stored stored).2 failed) _).2
    have whole := first.trans grown
    obtain ⟨rest, rfl⟩ := List.head?_eq_some_iff.mp (text_head text)
    rw [table] at whole
    have same := (List.prefix_append_right_inj f.table).mp whole
    rw [List.map_cons, List.cons_append, List.cons_prefix_cons, Prod.mk.injEq] at same
    exact dcx_first_ne described same.1.2

/-- The files are scanned without an error and their pages appended to the table when the pages leave an
entry free, no directory is empty, something sets `f->next` for the first file, and each file has the
format that its own bytes say. -/
theorem scanFiles_iff {fnames : List InputFile} {pages : List (List (String × Int))} {f : IFile}
    (readable : List.Forall₂ (ReadableFile printable f.scanner.layout) fnames pages) (stored : f.Stored)
    (stale : Nat → Int × Int) (buf : List UInt8) :
    ((f.scanFiles printable stale buf fnames).1 = 0 ∧
        (f.scanFiles printable stale buf fnames).2.table = f.table ++ pages.flatten) ↔
      f.page + pages.flatten.length < maxPage ∧ [] ∉ pages ∧
        NextSet printable f.scanner.next fnames ∧ OwnFormats printable buf fnames := by
  generalize layout : f.scanner.layout = g at readable
  induction readable generalizing f buf with
  | nil => simpa [IFile.scanFiles, NextSet, OwnFormats] using stored.2
  | @cons file these fnames pages head rest ih =>
    obtain ⟨content, fformat, offsets, opened, own, found, rfl⟩ := head
    subst layout
    rw [nextSet_cons opened own, ownFormats_cons opened, List.flatten_cons]
    by_cases same : getformat printable (readStart content buf) (startBytes content) =
        fileFormat printable content
    · have scans := scanFile_scans stale f file.name content fformat
      obtain ⟨ok_iff, table⟩ := scanFile_pages found stale file.name
      have layout := scanFile_layout stale f file.name content fformat
      rw [scanFiles_cons opened (same.trans own)]
      generalize f.scanFile stale file.name content fformat = r at scans ok_iff table layout
      by_cases ok : r.1 = 0
      · obtain ⟨_, some, sets⟩ := ok_iff.mp ok
        have zero := scans.next_eq_zero ok
        have grown := table ok
        have page : r.2.page = f.page + offsets.length := by
          rw [← r.2.length_table, grown, List.length_append, f.length_table, List.length_map]
        have tail := ih ((scans.stored stored).2 ok) (readStart content buf) layout
        rw [if_neg (not_not.mpr ok)]
        rw [grown, List.append_assoc, page, Nat.add_assoc] at tail
        have filled : [] ≠ offsets.map fun offset => (file.name, offset) :=
          fun empty => some (List.map_eq_nil_iff.mp empty.symm)
        have set : NextSet printable r.2.scanner.next fnames := Or.inl zero
        rw [tail, List.length_append, List.length_map, List.mem_cons, not_or]
        constructor
        · rintro ⟨room, others, _, own'⟩
          exact ⟨room, ⟨filled, others⟩, sets, same, own'⟩
        · rintro ⟨room, ⟨_, others⟩, _, _, own'⟩
          exact ⟨room, others, set, own'⟩
      · rw [if_pos ok]
        refine iff_of_false (fun both => ok both.1) fun all => ok (ok_iff.mpr ?_)
        obtain ⟨room, filled, sets, _⟩ := all
        rw [List.length_append, List.length_map] at room
        refine ⟨by omega, fun empty => filled ?_, sets⟩
        rw [empty]
        exact List.mem_cons_self
    · obtain ⟨_, dcx, text⟩ := getformat_readStart printable content buf same
      cases text fformat own
      exact iff_of_false (scanFiles_stale stored opened dcx found fnames _) fun all => same all.2.2.2.1

/-! ## The table -/

theorem tableComplete_iff (err : Nat) (f : IFile) (pages : List (String × Int)) :
    TableComplete (err, { f with lastpage := f.page - 1, page := 0 }) pages ↔
      err = 0 ∧ f.table = pages := by
  constructor
  · rintro ⟨ok, count, entries⟩
    have length : f.page = pages.length := by
      dsimp only at count
      omega
    refine ⟨ok, List.ext_getElem (by rw [f.length_table, length]) fun k _ lt => ?_⟩
    rw [← entries k lt]
    simp [IFile.table]
  · rintro ⟨ok, rfl⟩
    refine ⟨ok, ?_, fun k lt => ?_⟩
    · rw [f.length_table]
      exact sub_add_cancel _ _
    · simp [IFile.table]

/-- `newIFILE` starts with an empty table. -/
theorem newIFILE_stored (f : IFile) : { f with page := 0, stores := [] }.Stored :=
  ⟨rfl, (by decide : 0 < maxPage)⟩

theorem newIFILE_tableComplete_iff {f : IFile} {fnames : List InputFile}
    {pages : List (List (String × Int))}
    (readable : List.Forall₂ (ReadableFile printable f.scanner.layout) fnames pages)
    (buf : List UInt8) :
    TableComplete (f.newIFILE printable stale buf fnames) pages.flatten ↔
      pages.flatten.length < maxPage ∧ [] ∉ pages ∧ NextSet printable f.scanner.next fnames ∧
        OwnFormats printable buf fnames := by
  have scanned := scanFiles_iff (f := { f with page := 0, stores := [] }) readable
    (newIFILE_stored f) stale buf
  rw [Nat.zero_add] at scanned
  exact (tableComplete_iff _ _ _).trans scanned

/-- Whatever the files hold, `newIFILE` stores into one entry after another and into none outside the
table.  For readable files of recognised formats it returns no error and leaves their pages in the table
exactly when the pages leave an entry free, no DCX directory is empty, `f->next` is zero or set by the
first file, and the bytes left in the buffer by the files before do not give a file another format. -/
theorem page_table_iff (printable : UInt8 → Bool) (stale : Nat → Int × Int) (f : IFile)
    (buf : List UInt8) (fnames : List InputFile) :
    (f.newIFILE printable stale buf fnames).2.Within ∧
      ∀ pages, List.Forall₂ (ReadableFile printable f.scanner.layout) fnames pages →
        (TableComplete (f.newIFILE printable stale buf fnames) pages.flatten ↔
          pages.flatten.length < maxPage ∧ [] ∉ pages ∧ NextSet printable f.scanner.next fnames ∧
            OwnFormats printable buf fnames) :=
  ⟨(scanFiles_within fnames _ (newIFILE_stored f) buf).1,
    fun _ readable => newIFILE_tableComplete_iff readable buf⟩

/-- `isspace` or `isprint` in the C locale. -/
def asciiPrintable (c : UInt8) : Bool := (9 ≤ c ∧ c ≤ 13) ∨ (32 ≤ c ∧ c ≤ 126)

/-- An `IFILE` that is zero, as a static variable is. -/
def zeroIFile : IFile := ⟨0, 0, fun _ => ("", 0), [], ⟨0, false, ⟨none, 0, 0, 0, 0⟩, ⟨[], 0, false⟩⟩⟩

/-- A FAX file of a page. -/
def faxFile : InputFile := ⟨"page", some [0, 0x10, 0, 0x10]⟩

theorem readableFile_faxFile (g : TextLayout) :
    ReadableFile asciiPrintable g faxFile [(faxFile.name, 0)] :=
  ⟨[0, 0x10, 0, 0x10], .fax, [0], rfl, by decide, rfl, rfl⟩

/-- As many one page files as the table has entries are too many. -/
theorem full_table_refused :
    ∃ pages, List.Forall₂ (ReadableFile asciiPrintable zeroIFile.scanner.layout)
      (List.replicate maxPage faxFile) pages ∧ pages.flatten.length ≤ maxPage ∧
        ¬ TableComplete
          (zeroIFile.newIFILE asciiPrintable (fun _ => (0, 0)) [] (List.replicate maxPage faxFile))
          pages.flatten := by
  have readable (n : Nat) : List.Forall₂ (ReadableFile asciiPrintable zeroIFile.scanner.layout)
      (List.replicate n faxFile) (List.replicate n [(faxFile.name, (0 : Int))]) := by
    induction n with
    | zero => exact .nil
    | succ n ih => exact .cons (readableFile_faxFile _) ih
  have length : (List.replicate maxPage [(faxFile.name, (0 : Int))]).flatten.length = maxPage := by
    simp
  refine ⟨_, readable maxPage, length.le, fun complete => ?_⟩
  have room := ((newIFILE_tableComplete_iff (readable maxPage) []).mp complete).1
  exact absurd length room.ne

/-- A text and a FAX page. -/
theorem page_table_iff_two :
    TableComplete
      (zeroIFile.newIFILE asciiPrintable (fun _ => (0, 0)) [] [⟨"text", some [104, 105, 10]⟩, faxFile])
      [("text", 0), ("page", 0)] := by
  have text : ReadableFile asciiPrintable zeroIFile.scanner.layout ⟨"text", some [104, 105, 10]⟩
      [("text", 0)] :=
    ⟨[104, 105, 10], .text, [0], rfl, by decide, .last rfl, rfl⟩
  refine ((page_table_iff asciiPrintable (fun _ => (0, 0)) zeroIFile []
    [⟨"text", some [104, 105, 10]⟩, faxFile]).2 [[("text", 0)], [("page", 0)]]
    (.cons text (.cons (readableFile_faxFile _) .nil))).mpr ⟨by decide, by decide, Or.inl rfl, ?_⟩
  simp only [OwnFormats, faxFile, Option.mem_some_iff, forall_eq', and_true]
  decide

end QFax.Efax

import Mathlib.Algebra.Order.Ring.Rat
import QFax.Efax.BitMap
import QFax.Efax.Encode
import QFax.Lib.ByteOrder

/-!
# Image files with a header

The output formats of `efaxlib.c` whose files start with a header that `nextopage` writes with the
page and writes again when the page is terminated: `O_TIFF_FAX`, `O_TIFF_RAW`, `O_PCX` and
`O_PCX_RAW`.  Every page goes to a file of its own.
-/

namespace QFax.Efax

open ByteOrder

/-- The output formats with a header. -/
inductive OFormat
  | tiffFax
  | tiffRaw
  | pcx
  | pcxRaw
  deriving DecidableEq, Repr

/-- `OFILE` for such a format: resolution and size as the caller sets them, the count of data bytes,
the encoder, whether a file is open and what it holds, and the files of the pages before. -/
structure ImageFile where
  format : OFormat
  xres : Rat
  yres : Rat
  w : Int
  h : Int
  bytes : Int
  e : Encoder
  isOpen : Bool
  data : List UInt8
  closed : List (List UInt8)

/-- `newOFILE`. -/
def newImageFile (format : OFormat) (xres yres : Rat) (w h : Int) : ImageFile :=
  ⟨format, xres, yres, w, h, 0, newEncoder, false, [], []⟩

/-- A float converted to an integer. -/
def truncate (x : Rat) : Int := x.num.tdiv x.den

/-! ## Headers -/

/-- `NTAGS`. -/
def nTags : Nat := 17

/-- `NRATIO`. -/
def nRatio : Nat := 2

/-- The offset of the directory data of a TIFF file. -/
def tdoff : Nat := 8 + 2 + nTags * 12 + 4

/-- The offset of the image data of a TIFF file. -/
def doff : Nat := tdoff + nRatio * 8

/-- `wtag`: a directory tag, with a long or a short value. -/
def wtag (bigendian : Bool) : Bool × Nat × Nat × Int × Int → List UInt8
  | (lng, tag, type, count, offset) =>
    store bigendian 2 tag ++ store bigendian 2 type ++ store bigendian 4 count ++
      if lng then store bigendian 4 offset else store bigendian 2 offset ++ store bigendian 2 0

/-- The compression code of a format. -/
def OFormat.compr : OFormat → Int
  | .tiffFax => 3
  | _ => 1

/-- The tags that `tiffinit` writes: long, tag, type, count, value. -/
def ImageFile.tags (f : ImageFile) : List (Bool × Nat × Nat × Int × Int) := [
  (true, 256, 4, 1, f.w),              -- width long
  (true, 257, 4, 1, f.h),              -- length long
  (false, 258, 3, 1, 1),               -- bits/sample short
  (false, 259, 3, 1, f.format.compr),  -- compression short
  (false, 262, 3, 1, 0),               -- photometric short
  (false, 266, 3, 1, 1),               -- fill order short
  (true, 273, 4, 1, doff),             -- strip offsets long
  (false, 274, 3, 1, 1),               -- orientation short
  (false, 277, 3, 1, 1),               -- samples/pixel short
  (true, 278, 4, 1, f.h),              -- rows/strip long
  (true, 279, 4, 1, f.bytes),          -- strip byte counts long
  (true, 282, 5, 1, tdoff),            -- xresolution ratio
  (true, 283, 5, 1, tdoff + 8),        -- yresolution ratio
  (false, 284, 3, 1, 1),               -- storage short
  (true, 292, 4, 1, 0),                -- g3options long
  (false, 296, 3, 1, 2),               -- resolution units short
  (false, 327, 3, 1, 0)]               -- clean fax short

/-- `tiffinit`: header and directory. -/
def ImageFile.tiffinit (bigendian : Bool) (f : ImageFile) : List UInt8 :=
  store bigendian 2 (if bigendian then 0x4d4d else 0x4949) ++ store bigendian 2 42 ++
    store bigendian 4 8 ++ store bigendian 2 nTags ++ f.tags.flatMap (wtag bigendian) ++
    -- offset to next directory, and the ratios
    store bigendian 4 0 ++
    store bigendian 4 (truncate (f.xres + 1 / 2)) ++ store bigendian 4 1 ++
    store bigendian 4 (truncate (f.yres + 1 / 2)) ++ store bigendian 4 1

/-- `fputi`. -/
def fputi (i : Int) : List UInt8 := store false 2 i

/-- The bytes of a scan line in a PCX file. -/
def pcxLineBytes (w : Int) : Int := (w + 15).tdiv 16 * 2

/-- `pcxinit`. -/
def ImageFile.pcxinit (f : ImageFile) : List UInt8 :=
  [0x0a, 3, 1, 1] ++ fputi 0 ++ fputi 0 ++ fputi (f.w - 1) ++ fputi (f.h - 1) ++
    fputi (truncate f.xres) ++ fputi (truncate f.yres) ++ List.replicate 48 0 ++
    [0, 1] ++ fputi (pcxLineBytes f.w) ++ List.replicate 60 0

/-- The header of a format. -/
def ImageFile.header (bigendian : Bool) (f : ImageFile) : List UInt8 :=
  match f.format with
  | .tiffFax | .tiffRaw => f.tiffinit bigendian
  | .pcx | .pcxRaw => f.pcxinit

/-- Write the header at the start of the file. -/
def ImageFile.rewind (bigendian : Bool) (f : ImageFile) : ImageFile :=
  { f with data := f.header bigendian ++ f.data.drop (f.header bigendian).length }

/-! ## Pages -/

/-- Terminate the current page: its return to control and its header. -/
def ImageFile.endPage (bigendian : Bool) (f : ImageFile) : ImageFile × Nat :=
  if f.isOpen then
    match f.format with
    | .tiffFax =>
      let (e, codes) := putRtc f.e
      let f := { f with e := e, data := f.data ++ codes, bytes := f.bytes + codes.length }
      (f.rewind bigendian, codes.length)
    | .tiffRaw | .pcx | .pcxRaw => (f.rewind bigendian, 0)
  else (f, 0)

/-- Open the file of the next page and write its header, and the EOL that starts a fax page. -/
def ImageFile.startPage (bigendian : Bool) (f : ImageFile) (nb : Nat) : ImageFile × Nat :=
  let f := { f with isOpen := true, data := f.header bigendian,
                    closed := if f.isOpen then f.closed ++ [f.data] else f.closed }
  match f.format with
  | .tiffFax =>
    let (e, codes) := putcode f.e eolCode eolBits
    ({ f with e := e, data := f.data ++ codes }, codes.length)
  | .tiffRaw | .pcx | .pcxRaw => (f, nb)

/-- `nextopage` when no operation on a file fails; `none` stands for the page number EOF. -/
def ImageFile.nextopage (bigendian : Bool) (f : ImageFile) (page : Option Nat) : ImageFile :=
  let (f, nb) := f.endPage bigendian
  let (f, nb) := if page.isSome then f.startPage bigendian nb else (f, nb)
  -- only count lines and bytes for some formats
  match f.format with
  | .tiffFax | .pcx | .pcxRaw => { f with h := 0, bytes := nb }
  | .tiffRaw => f

/-- The bytes that end a run of `pcxwrite`. -/
def pcxRun (n : Nat) (runc : UInt8) : List UInt8 :=
  if 1 < n ∨ runc &&& 0xc0 = 0xc0 then [UInt8.ofNat n ||| 0xc0, runc] else [runc]

/-- The loop of `pcxwrite`. -/
def pcxLoop (runc : UInt8) (n : Nat) : List UInt8 → List UInt8
  | [] => pcxRun n runc
  | c :: p =>
    if c = runc ∧ n < 63 then pcxLoop runc (n + 1) p
    else pcxRun n runc ++ pcxLoop c 1 p

/-- `pcxwrite` on the bytes of a line, of which there is at least one. -/
def pcxwrite : List UInt8 → List UInt8
  | [] => []
  | runc :: p => pcxLoop runc 1 p

/-- What `writeline` writes for a scan line, and how many bytes it counts. -/
def ImageFile.lineCodes (f : ImageFile) (runs : List Int) : Encoder × List UInt8 × Nat :=
  match f.format with
  | .tiffFax =>
    let (e, codes) := runtocode f.e runs
    let (e, tail) := putcode e eolCode eolBits
    (e, codes ++ tail, (codes ++ tail).length)
  | .tiffRaw | .pcxRaw => (f.e, runtobit runs, (runtobit runs).length)
  | .pcx => (f.e, pcxwrite (runtobit runs), (runtobit runs).length)

/-- `writeline`: output a scan line `no` times. -/
def ImageFile.writeline (f : ImageFile) (runs : List Int) : Nat → ImageFile
  | 0 => f
  | no + 1 =>
    let (e, buf, nb) := f.lineCodes runs
    ImageFile.writeline
      { f with e := e, data := f.data ++ buf, h := f.h + 1, bytes := f.bytes + nb } runs no

/-- Write scan lines, each a number of times. -/
def ImageFile.writelines (f : ImageFile) (lines : List (List Int × Nat)) : ImageFile :=
  lines.foldl (fun f line => f.writeline line.1 line.2) f

/-! ## Reading -/

/-- The page formats that `readline` tells apart, for the files above. -/
inductive PFormat
  | raw
  | fax
  | pcx
  deriving DecidableEq, Repr

/-- `PAGE`: what is known about a page of an input file. -/
structure PageInfo where
  offset : Int
  w : Int
  h : Int
  xres : Rat
  yres : Rat
  format : PFormat
  revbits : Bool
  blackIsZero : Bool
  deriving DecidableEq

/-- `page_init`. -/
def pageInit : PageInfo := ⟨0, 1728, 2287, 204145 / 1000, 19558 / 100, .fax, false, false⟩

/-! ## Headers are overwritten in place -/

theorem length_wtag (bigendian : Bool) (tag : Bool × Nat × Nat × Int × Int) :
    (wtag bigendian tag).length = 12 := by
  obtain ⟨lng, tag, type, count, offset⟩ := tag
  cases lng <;> simp [wtag]

theorem length_tags (bigendian : Bool) (tags : List (Bool × Nat × Nat × Int × Int)) :
    (tags.flatMap (wtag bigendian)).length = 12 * tags.length := by
  induction tags with
  | nil => rfl
  | cons tag tags ih =>
    rw [List.flatMap_cons, List.length_append, length_wtag, ih, List.length_cons]
    omega

theorem length_tiffinit (bigendian : Bool) (f : ImageFile) :
    (f.tiffinit bigendian).length = doff := by
  have count : f.tags.length = nTags := rfl
  simp only [ImageFile.tiffinit, List.length_append, length_store, length_tags, count]
  decide

theorem length_pcxinit (f : ImageFile) : f.pcxinit.length = 128 := by
  simp [ImageFile.pcxinit, fputi]

/-- The length of a header. -/
def OFormat.headerLength : OFormat → Nat
  | .tiffFax | .tiffRaw => doff
  | .pcx | .pcxRaw => 128

theorem length_header (bigendian : Bool) (f : ImageFile) :
    (f.header bigendian).length = f.format.headerLength := by
  unfold ImageFile.header OFormat.headerLength
  cases f.format with
  | tiffFax => exact length_tiffinit bigendian f
  | tiffRaw => exact length_tiffinit bigendian f
  | pcx => exact length_pcxinit f
  | pcxRaw => exact length_pcxinit f

/-- What the caller sets, the file that is open and those before it stay the same. -/
structure ImageFile.SamePage (f g : ImageFile) : Prop where
  format : g.format = f.format
  xres : g.xres = f.xres
  yres : g.yres = f.yres
  w : g.w = f.w
  isOpen : g.isOpen = f.isOpen
  closed : g.closed = f.closed

theorem ImageFile.SamePage.refl (f : ImageFile) : f.SamePage f := ⟨rfl, rfl, rfl, rfl, rfl, rfl⟩

theorem ImageFile.SamePage.trans {f g k : ImageFile} (fg : f.SamePage g) (gk : g.SamePage k) :
    f.SamePage k :=
  ⟨gk.format.trans fg.format, gk.xres.trans fg.xres, gk.yres.trans fg.yres, gk.w.trans fg.w,
    gk.isOpen.trans fg.isOpen, gk.closed.trans fg.closed⟩

/-- `n` lines were written as the bytes `body`. -/
structure ImageFile.Wrote (f g : ImageFile) (n : Nat) (body : List UInt8) : Prop where
  page : f.SamePage g
  data : g.data = f.data ++ body
  h : g.h = f.h + n
  bytes : f.format ≠ .pcx → g.bytes = f.bytes + body.length

theorem ImageFile.Wrote.trans {f g k : ImageFile} {m n : Nat} {as bs : List UInt8}
    (fg : f.Wrote g m as) (gk : g.Wrote k n bs) : f.Wrote k (m + n) (as ++ bs) := by
  refine ⟨fg.page.trans gk.page, ?_, ?_, ?_⟩
  · rw [gk.data, fg.data, List.append_assoc]
  · rw [gk.h, fg.h]
    push_cast
    omega
  · intro other
    rw [gk.bytes (by rwa [fg.page.format]), fg.bytes other, List.length_append]
    push_cast
    omega

theorem ImageFile.writeline_one (f : ImageFile) (runs : List Int) :
    f.Wrote (f.writeline runs 1) 1 (f.lineCodes runs).2.1 := by
  refine ⟨⟨rfl, rfl, rfl, rfl, rfl, rfl⟩, rfl, rfl, ?_⟩
  intro other
  show f.bytes + ((f.lineCodes runs).2.2 : Int) = _
  unfold ImageFile.lineCodes
  cases format : f.format with
  | pcx => exact absurd format other
  | tiffFax => rfl
  | tiffRaw => rfl
  | pcxRaw => rfl

theorem ImageFile.writeline_wrote (f : ImageFile) (runs : List Int) (no : Nat) :
    ∃ body, f.Wrote (f.writeline runs no) no body := by
  induction no generalizing f with
  | zero => exact ⟨[], .refl f, (List.append_nil _).symm, (Int.add_zero _).symm,
      fun _ => (Int.add_zero _).symm⟩
  | succ no ih =>
    obtain ⟨body, rest⟩ := ih (f.writeline runs 1)
    have both := (f.writeline_one runs).trans rest
    rw [Nat.add_comm 1 no] at both
    exact ⟨_, both⟩

/-- The number of scan lines that `writeline` emits. -/
def lineCount (lines : List (List Int × Nat)) : Nat := (lines.map Prod.snd).sum

theorem ImageFile.writelines_wrote (f : ImageFile) (lines : List (List Int × Nat)) :
    ∃ body, f.Wrote (f.writelines lines) (lineCount lines) body := by
  induction lines generalizing f with
  | nil => exact ⟨[], .refl f, (List.append_nil _).symm, (Int.add_zero _).symm,
      fun _ => (Int.add_zero _).symm⟩
  | cons line lines ih =>
    obtain ⟨first, wrote⟩ := f.writeline_wrote line.1 line.2
    obtain ⟨more, rest⟩ := ih (f.writeline line.1 line.2)
    refine ⟨first ++ more, ?_⟩
    have total : lineCount (line :: lines) = line.2 + lineCount lines := by
      rw [lineCount, List.map_cons, List.sum_cons]
      rfl
    rw [total]
    exact wrote.trans rest

/-- A page that was just started: its header, and the EOL of a fax page. -/
structure ImageFile.Started (f g : ImageFile) (header codes : List UInt8) : Prop where
  format : g.format = f.format
  xres : g.xres = f.xres
  yres : g.yres = f.yres
  w : g.w = f.w
  isOpen : g.isOpen = true
  data : g.data = header ++ codes
  size : header.length = f.format.headerLength
  fax : f.format ≠ .tiffFax → codes = []
  h : g.h = if f.format = .tiffRaw then f.h else 0
  bytes : g.bytes = if f.format = .tiffRaw then f.bytes else codes.length

/-- Terminating a page changes no size and no count of lines, and the count of bytes of a fax page
only. -/
theorem ImageFile.endPage_kept (bigendian : Bool) (f : ImageFile) :
    f.SamePage (f.endPage bigendian).1 ∧ (f.endPage bigendian).1.h = f.h ∧
      (f.format ≠ .tiffFax →
        (f.endPage bigendian).1.bytes = f.bytes ∧ (f.endPage bigendian).2 = 0) := by
  unfold ImageFile.endPage
  split
  case isFalse => exact ⟨.refl f, rfl, fun _ => ⟨rfl, rfl⟩⟩
  case isTrue =>
    cases format : f.format with
    | tiffFax => exact ⟨⟨format.symm ▸ rfl, rfl, rfl, rfl, rfl, rfl⟩, rfl,
      fun other => absurd rfl other⟩
    | tiffRaw => exact ⟨⟨format.symm ▸ rfl, rfl, rfl, rfl, rfl, rfl⟩, rfl, fun _ => ⟨rfl, rfl⟩⟩
    | pcx => exact ⟨⟨format.symm ▸ rfl, rfl, rfl, rfl, rfl, rfl⟩, rfl, fun _ => ⟨rfl, rfl⟩⟩
    | pcxRaw => exact ⟨⟨format.symm ▸ rfl, rfl, rfl, rfl, rfl, rfl⟩, rfl, fun _ => ⟨rfl, rfl⟩⟩

/-- Starting a page writes a header to a new file. -/
theorem ImageFile.startPage_started (bigendian : Bool) (f : ImageFile) (nb : Nat) :
    ∃ header codes, let g := (f.startPage bigendian nb).1
      g.format = f.format ∧ g.xres = f.xres ∧ g.yres = f.yres ∧ g.w = f.w ∧ g.isOpen = true ∧
      g.data = header ++ codes ∧ header.length = f.format.headerLength ∧
      (f.format ≠ .tiffFax → codes = []) ∧ g.h = f.h ∧ g.bytes = f.bytes ∧
      (f.startPage bigendian nb).2 = if f.format = .tiffFax then codes.length else nb := by
  have size := length_header bigendian f
  obtain ⟨format, xres, yres, w, h, bytes, e, isOpen, data, closed⟩ := f
  cases format with
  | tiffFax =>
    exact ⟨_, _, rfl, rfl, rfl, rfl, rfl, rfl, size, fun other => absurd rfl other, rfl, rfl, rfl⟩
  | tiffRaw =>
    exact ⟨_, [], rfl, rfl, rfl, rfl, rfl, (List.append_nil _).symm, size, fun _ => rfl, rfl, rfl, rfl⟩
  | pcx =>
    exact ⟨_, [], rfl, rfl, rfl, rfl, rfl, (List.append_nil _).symm, size, fun _ => rfl, rfl, rfl, rfl⟩
  | pcxRaw =>
    exact ⟨_, [], rfl, rfl, rfl, rfl, rfl, (List.append_nil _).symm, size, fun _ => rfl, rfl, rfl, rfl⟩

/-- A file is kept as it is when the page is terminated. -/
theorem ImageFile.nextopage_closed (bigendian : Bool) (f : ImageFile) (page : Nat) :
    (f.nextopage bigendian (some page)).closed =
      if f.isOpen then f.closed ++ [(f.endPage bigendian).1.data] else f.closed := by
  obtain ⟨kept, -⟩ := f.endPage_kept bigendian
  have unfolded : (f.nextopage bigendian (some page)).closed =
      ((f.endPage bigendian).1.startPage bigendian (f.endPage bigendian).2).1.closed := by
    unfold ImageFile.nextopage
    simp only [Option.isSome_some, if_true]
    split <;> rfl
  have started (g : ImageFile) (nb : Nat) : (g.startPage bigendian nb).1.closed =
      if g.isOpen then g.closed ++ [g.data] else g.closed := by
    obtain ⟨format, xres, yres, w, h, bytes, e, isOpen, data, closed⟩ := g
    cases format <;> rfl
  rw [unfolded, started, kept.isOpen, kept.closed]

theorem ImageFile.nextopage_eof (bigendian : Bool) (f : ImageFile) :
    (f.nextopage bigendian none).data = (f.endPage bigendian).1.data ∧
      (f.nextopage bigendian none).closed = f.closed := by
  obtain ⟨kept, -⟩ := f.endPage_kept bigendian
  rw [← kept.closed]
  unfold ImageFile.nextopage
  simp only [Option.isSome_none, Bool.false_eq_true, if_false]
  split <;> exact ⟨rfl, rfl⟩

/-- The counts that `nextopage` leaves. -/
theorem ImageFile.nextopage_started (bigendian : Bool) (f : ImageFile) (page : Nat) :
    ∃ header codes, f.Started (f.nextopage bigendian (some page)) header codes := by
  obtain ⟨kept, lines, counts⟩ := f.endPage_kept bigendian
  obtain ⟨header, codes, format, xres, yres, w, isOpen, data, size, fax, h, bytes, nb⟩ :=
    (f.endPage bigendian).1.startPage_started bigendian (f.endPage bigendian).2
  rw [kept.format] at format size fax nb
  have unfolded : f.nextopage bigendian (some page) =
      let g := ((f.endPage bigendian).1.startPage bigendian (f.endPage bigendian).2).1
      let nb := ((f.endPage bigendian).1.startPage bigendian (f.endPage bigendian).2).2
      match g.format with
      | .tiffFax | .pcx | .pcxRaw => { g with h := 0, bytes := nb }
      | .tiffRaw => g := rfl
  rw [unfolded]
  generalize (f.endPage bigendian).1.startPage bigendian (f.endPage bigendian).2 = g at *
  refine ⟨header, codes, ?_⟩
  cases which : f.format with
  | tiffRaw =>
    rw [which] at format size fax counts
    simp only [format]
    refine ⟨format.trans which.symm, xres.trans kept.xres, yres.trans kept.yres, w.trans kept.w,
      isOpen, data, which ▸ size, fun _ => fax (by decide), ?_, ?_⟩
    · rw [which, if_pos rfl, h, lines]
    · rw [which, if_pos rfl, bytes, (counts (by decide)).1]
  | tiffFax =>
    rw [which] at format size nb
    simp only [format]
    refine ⟨which.symm, xres.trans kept.xres, yres.trans kept.yres, w.trans kept.w,
      isOpen, data, which ▸ size, fun other => absurd which other, ?_, ?_⟩
    · rw [which, if_neg (by decide)]
    · rw [which, if_neg (by decide), nb, if_pos rfl]
  | pcx =>
    rw [which] at format size fax nb counts
    simp only [format]
    have empty := fax (by decide)
    refine ⟨which.symm, xres.trans kept.xres, yres.trans kept.yres, w.trans kept.w,
      isOpen, data, which ▸ size, fun _ => empty, ?_, ?_⟩
    · rw [which, if_neg (by decide)]
    · rw [which, if_neg (by decide), nb, if_neg (by decide), (counts (by decide)).2, empty]
      rfl
  | pcxRaw =>
    rw [which] at format size fax nb counts
    simp only [format]
    have empty := fax (by decide)
    refine ⟨which.symm, xres.trans kept.xres, yres.trans kept.yres, w.trans kept.w,
      isOpen, data, which ▸ size, fun _ => empty, ?_, ?_⟩
    · rw [which, if_neg (by decide)]
    · rw [which, if_neg (by decide), nb, if_neg (by decide), (counts (by decide)).2, empty]
      rfl

end QFax.Efax

import QFax.Efax.ImageFile

/-!
# TIFF pages

`tiffinit` writes the directory of a page from the counters of the output structure, and `tiff_first`
reads it.  The directory that is stored last describes the page when the counters started from zero
and the caller did not set the size of the next page too early (`headers_describe_iff`).
-/

namespace QFax.Efax

open ByteOrder

/-! ## Reading -/

/-- `fread2`. -/
def fread2 (bigend : Bool) (file : List UInt8) : Option (Nat × List UInt8) :=
  if 2 ≤ file.length then some (load bigend (file.take 2), file.drop 2) else none

/-- `fread4`, whose value is made from an `int`. -/
def fread4 (bigend : Bool) (file : List UInt8) : Option (Int × List UInt8) :=
  if 4 ≤ file.length then
    some ((load bigend (file.take 4) : Int).bmod (2 ^ 32), file.drop 4)
  else none

/-- A directory tag: its code, type, count and value. -/
structure Tag where
  tag : Nat
  type : Nat
  count : Int
  tv : Int
  deriving DecidableEq, Repr

/-- Read a directory tag. -/
def readTag (bigend : Bool) (file : List UInt8) : Option (Tag × List UInt8) := do
  let (tag, file) ← fread2 bigend file
  let (type, file) ← fread2 bigend file
  let (count, file) ← fread4 bigend file
  if type = 3 then
    -- left-aligned short
    let (a, file) ← fread2 bigend file
    let (_, file) ← fread2 bigend file
    some (⟨tag, type, count, a⟩, file)
  else
    -- long or offset to data
    let (tv, file) ← fread4 bigend file
    some (⟨tag, type, count, tv⟩, file)

/-- A float as a ratio in the directory data. -/
def ratioAt (bigend : Bool) (file : List UInt8) (offset : Int) : Option Rat :=
  if offset < 0 then none
  else do
    let (a, rest) ← fread4 bigend (file.drop offset.toNat)
    let (b, _) ← fread4 bigend rest
    some (a / if b ≠ 0 then b else 1)

/-- The float of a tag whose value is one. -/
def tagFloat (bigend : Bool) (file : List UInt8) (t : Tag) : Option Rat :=
  if t.type = 5 then ratioAt bigend file t.tv else some 0

/-- The `switch` of `tiff_next`: what a tag says about the page, or `none` on an error. -/
def setTag (page : PageInfo) (t : Tag) (ftv : Rat) : Option PageInfo :=
  match t.tag with
  | 256 => some { page with w := t.tv }
  | 257 => some { page with h := t.tv }
  | 259 =>
    if t.tv = 1 then some { page with format := .raw }
    else if t.tv = 3 then some { page with format := .fax }
    else none
  | 262 => some { page with blackIsZero := t.tv % 256 ≠ 0 }
  | 266 => some { page with revbits := t.tv = 2 }
  | 273 => if t.count ≠ 1 then none else some { page with offset := t.tv }
  | 282 => some { page with xres := ftv }
  | 283 => some { page with yres := ftv }
  | 292 => if t.tv % 2 ≠ 0 ∨ t.tv / 2 % 2 ≠ 0 then none else some page
  | 296 =>
    if t.tv = 3 then some { page with xres := page.xres * (254 / 100), yres := page.yres * (254 / 100) }
    else some page
  | _ => some page

/-- The loop of `tiff_next` over the tags; `whole` is the file and `file` its part from here on. -/
def readTags (bigend : Bool) (whole : List UInt8) :
    Nat → List UInt8 → PageInfo → Option (PageInfo × List UInt8)
  | 0, file, page => some (page, file)
  | ntag + 1, file, page => do
    let (t, file) ← readTag bigend file
    let ftv ← tagFloat bigend whole t
    let page ← setTag page t ftv
    readTags bigend whole ntag file page

/-- `tiff_next` at an offset of a file: the page and the offset of the next directory. -/
def tiffNext (bigend : Bool) (whole : List UInt8) (offset : Int) (page : PageInfo) :
    Option (PageInfo × Int) := do
  let (ntag, file) ← fread2 bigend (whole.drop offset.toNat)
  let (page, file) ← readTags bigend whole ntag file page
  let (next, _) ← fread4 bigend file
  -- missing offset to TIFF data
  if page.offset = 0 then none else some (page, next)

/-- `tiff_first`: the byte order and the offset of the directory come first. -/
def tiffFirst (file : List UInt8) (page : PageInfo) : Option (PageInfo × Int) := do
  let bigend := file.headD 0 = 'M'.toUInt8
  let (_, rest) ← fread2 bigend (file.drop 2)
  let (next, _) ← fread4 bigend rest
  tiffNext bigend file next page

/-- The tags of a directory. -/
def directoryTags (bigend : Bool) : Nat → List UInt8 → Option (List Tag)
  | 0, _ => some []
  | ntag + 1, file => do
    let (t, file) ← readTag bigend file
    let tags ← directoryTags bigend ntag file
    some (t :: tags)

/-- The directory of a file. -/
def directory (file : List UInt8) : Option (List Tag) := do
  let bigend := file.headD 0 = 'M'.toUInt8
  let (_, rest) ← fread2 bigend (file.drop 2)
  let (next, _) ← fread4 bigend rest
  let (ntag, rest) ← fread2 bigend (file.drop next.toNat)
  directoryTags bigend ntag rest

/-- The value of a tag. -/
def tagValue (tags : List Tag) (tag : Nat) : Option Int := (tags.find? (·.tag = tag)).map Tag.tv

/-! ## Tags are read as they were written -/

/-- The values of an `int`. -/
def IsInt (n : Int) : Prop := -2 ^ 31 ≤ n ∧ n < 2 ^ 31

theorem IsInt.bmod {n : Int} (int : IsInt n) : n.bmod (2 ^ 32) = n := by
  obtain ⟨lower, upper⟩ := int
  exact Int.bmod_eq_of_le (by omega) (by omega)

theorem fread2_store (big : Bool) {n : Nat} (lt : n < 65536) (rest : List UInt8) :
    fread2 big (store big 2 n ++ rest) = some (n, rest) := by
  have size : (store big 2 (n : Int)).length = 2 := length_store big 2 n
  rw [fread2, if_pos (by rw [List.length_append]; omega), List.take_left' size,
    List.drop_left' size, load_store_of_lt (by omega)]

theorem fread4_store (big : Bool) (n : Int) (rest : List UInt8) :
    fread4 big (store big 4 n ++ rest) = some (n.bmod (2 ^ 32), rest) := by
  have size : (store big 4 n).length = 4 := length_store big 4 n
  rw [fread4, if_pos (by rw [List.length_append]; omega), List.take_left' size,
    List.drop_left' size, load_store]
  have width : (256 : Int) ^ 4 = (2 ^ 32 : Nat) := by decide
  rw [width, Int.emod_bmod]

/-- A tag with a long value. -/
theorem readTag_long (big : Bool) {tag type : Nat} (lt : tag < 65536) (long : type < 65536)
    (ne : type ≠ 3) (count v : Int) (rest : List UInt8) :
    readTag big (wtag big (true, tag, type, count, v) ++ rest) =
      some (⟨tag, type, count.bmod (2 ^ 32), v.bmod (2 ^ 32)⟩, rest) := by
  simp only [wtag, if_true, List.append_assoc, readTag, fread2_store big lt, fread2_store big long,
    fread4_store, Option.bind_eq_bind, Option.bind_some, if_neg ne]

/-- A tag with a short value. -/
theorem readTag_short (big : Bool) {tag v : Nat} (lt : tag < 65536) (small : v < 65536)
    (count : Int) (rest : List UInt8) :
    readTag big (wtag big (false, tag, 3, count, v) ++ rest) =
      some (⟨tag, 3, count.bmod (2 ^ 32), v⟩, rest) := by
  have zero : fread2 big (store big 2 0 ++ rest) = some (0, rest) :=
    fread2_store big (by decide : 0 < 65536) rest
  simp only [wtag, Bool.false_eq_true, if_false, List.append_assoc, readTag, fread2_store big lt,
    fread2_store big (by decide : 3 < 65536), fread4_store, Option.bind_eq_bind, Option.bind_some,
    if_true, fread2_store big small, zero]

theorem fread4_some (big : Bool) (file : List UInt8) (enough : 4 ≤ file.length) :
    ∃ n, fread4 big file = some (n, file.drop 4) := by
  rw [fread4, if_pos enough]
  exact ⟨_, rfl⟩

/-- Directory data that is in the file can be read. -/
theorem ratioAt_some (big : Bool) {file : List UInt8} {offset : Nat}
    (enough : offset + 8 ≤ file.length) : ∃ q, ratioAt big file offset = some q := by
  obtain ⟨a, first⟩ := fread4_some big (file.drop offset) (by rw [List.length_drop]; omega)
  obtain ⟨b, second⟩ := fread4_some big ((file.drop offset).drop 4)
    (by rw [List.length_drop, List.length_drop]; omega)
  refine ⟨a / if b ≠ 0 then b else 1, ?_⟩
  rw [ratioAt, if_neg (by omega), Int.toNat_natCast, first]
  simp only [Option.bind_eq_bind, Option.bind_some, second]

/-! ## The directory of a page -/

variable {f : ImageFile}

/-- The counters of the output structure are values of an `int`. -/
structure ImageFile.Ints (f : ImageFile) : Prop where
  w : IsInt f.w
  h : IsInt f.h
  bytes : IsInt f.bytes

/-- The tag that a reader finds where one was written. -/
def asRead : Bool × Nat × Nat × Int × Int → Tag
  | (_, tag, type, count, v) => ⟨tag, type, count, v⟩

/-- A written tag that is read as it was written, with its directory data. -/
def Readable (big : Bool) (whole : List UInt8) (t : Bool × Nat × Nat × Int × Int) : Prop :=
  (∀ rest, readTag big (wtag big t ++ rest) = some (asRead t, rest)) ∧
    ∃ q, tagFloat big whole (asRead t) = some q

section Tags

variable (big : Bool) (whole : List UInt8) {tag : Nat}

theorem readable_long (lt : tag < 65536) {v : Int} (int : IsInt v) :
    Readable big whole (true, tag, 4, 1, v) := by
  refine ⟨fun rest => ?_, 0, rfl⟩
  rw [readTag_long big lt (by decide) (by decide), int.bmod]
  rfl

theorem readable_short (lt : tag < 65536) {v : Int} (nonneg : 0 ≤ v) (small : v < 65536) :
    Readable big whole (false, tag, 3, 1, v) := by
  refine ⟨fun rest => ?_, 0, rfl⟩
  lift v to Nat using nonneg
  rw [readTag_short big lt (by exact_mod_cast small)]
  rfl

theorem readable_ratio (lt : tag < 65536) {v : Nat} (small : v < 65536)
    (enough : v + 8 ≤ whole.length) : Readable big whole (true, tag, 5, 1, v) := by
  have int : IsInt v := ⟨by omega, by omega⟩
  refine ⟨fun rest => ?_, ratioAt_some big enough⟩
  rw [readTag_long big lt (by decide) (by decide), int.bmod]
  rfl

/-- The loop over readable tags. -/
theorem readTags_readable {tags : List (Bool × Nat × Nat × Int × Int)}
    (readable : ∀ t ∈ tags, Readable big whole t) (rest : List UInt8) (page : PageInfo) :
    readTags big whole tags.length (tags.flatMap (wtag big) ++ rest) page =
      ((tags.map asRead).foldlM (fun page t => (tagFloat big whole t).bind (setTag page t)) page).map
        fun page => (page, rest) := by
  induction tags generalizing page with
  | nil => rfl
  | cons t tags ih =>
    obtain ⟨read, q, float⟩ := readable t List.mem_cons_self
    rw [List.flatMap_cons, List.append_assoc, List.length_cons, readTags, read]
    simp only [Option.bind_eq_bind, Option.bind_some, float, List.map_cons, List.foldlM_cons]
    cases setTag page (asRead t) q with
    | none => rfl
    | some page => exact ih (fun t member => readable t (List.mem_cons_of_mem _ member)) page

/-- The tags of a directory are the readable ones that were written. -/
theorem directoryTags_readable {tags : List (Bool × Nat × Nat × Int × Int)}
    (readable : ∀ t ∈ tags, Readable big whole t) (rest : List UInt8) :
    directoryTags big tags.length (tags.flatMap (wtag big) ++ rest) = some (tags.map asRead) := by
  induction tags with
  | nil => rfl
  | cons t tags ih =>
    rw [List.flatMap_cons, List.append_assoc, List.length_cons, directoryTags,
      (readable t List.mem_cons_self).1]
    simp only [Option.bind_eq_bind, Option.bind_some,
      ih fun t member => readable t (List.mem_cons_of_mem _ member), List.map_cons]

end Tags

/-- The tags of a page are readable when its counters are values of an `int`. -/
theorem ImageFile.tags_readable (big : Bool) (ints : f.Ints) {whole : List UInt8}
    (enough : doff ≤ whole.length) : ∀ t ∈ f.tags, Readable big whole t := by
  have long (tag : Nat) (lt : tag < 65536) {v : Int} (int : IsInt v) :=
    readable_long big whole lt int
  have short (tag : Nat) (lt : tag < 65536) (v : Nat) (small : v < 65536) :
      Readable big whole (false, tag, 3, 1, v) :=
    readable_short big whole lt (by omega) (by exact_mod_cast small)
  have compr : Readable big whole (false, 259, 3, 1, f.format.compr) := by
    cases f.format with
    | tiffFax => exact short 259 (by decide) 3 (by decide)
    | tiffRaw => exact short 259 (by decide) 1 (by decide)
    | pcx => exact short 259 (by decide) 1 (by decide)
    | pcxRaw => exact short 259 (by decide) 1 (by decide)
  have constant {n : Int} (int : -2 ^ 31 ≤ n ∧ n < 2 ^ 31) : IsInt n := int
  simp only [ImageFile.tags, List.forall_mem_cons]
  exact ⟨long 256 (by decide) ints.w, long 257 (by decide) ints.h, short 258 (by decide) 1 (by decide),
    compr, short 262 (by decide) 0 (by decide), short 266 (by decide) 1 (by decide),
    long 273 (by decide) (constant (by decide)), short 274 (by decide) 1 (by decide),
    short 277 (by decide) 1 (by decide), long 278 (by decide) ints.h, long 279 (by decide) ints.bytes,
    readable_ratio big whole (by decide) (by decide) (le_trans (by decide) enough),
    readable_ratio big whole (by decide) (by decide) (le_trans (by decide : tdoff + 8 + 8 ≤
      doff) enough),
    short 284 (by decide) 1 (by decide), long 292 (by decide) (constant (by decide)),
    short 296 (by decide) 2 (by decide), short 327 (by decide) 0 (by decide), by simp⟩

/-- A file that starts with a header: byte order, the offset of the directory, and the directory. -/
theorem tiffinit_parts (big : Bool) (f : ImageFile) (image : List UInt8) :
    ∃ tail, (decide ((f.tiffinit big ++ image).headD 0 = 'M'.toUInt8) = big) ∧
      (f.tiffinit big ++ image).drop 2 = store big 2 (42 : Nat) ++
        (store big 4 8 ++ (f.tiffinit big ++ image).drop 8) ∧
      (f.tiffinit big ++ image).drop 8 = store big 2 (nTags : Nat) ++
        (f.tags.flatMap (wtag big) ++ (store big 4 0 ++ tail)) := by
  refine ⟨store big 4 (truncate (f.xres + 1 / 2)) ++ (store big 4 1 ++
    (store big 4 (truncate (f.yres + 1 / 2)) ++ (store big 4 1 ++ image))), ?_⟩
  unfold ImageFile.tiffinit
  simp only [List.append_assoc]
  cases big with
  | false => exact ⟨rfl, rfl, rfl⟩
  | true => exact ⟨rfl, rfl, rfl⟩

theorem tiffFirst_tiffinit (big : Bool) (ints : f.Ints) (image : List UInt8) :
    ∃ page, tiffFirst (f.tiffinit big ++ image) pageInit = some (page, 0) ∧ page.w = f.w ∧
      page.h = f.h ∧ page.offset = doff ∧
      page.format = if f.format = .tiffFax then .fax else .raw := by
  have enough : doff ≤ (f.tiffinit big ++ image).length := by
    rw [List.length_append, length_tiffinit]
    exact Nat.le_add_right doff _
  obtain ⟨tail, order, start, directory⟩ := tiffinit_parts big f image
  have eight : (8 : Int).bmod (2 ^ 32) = 8 := by decide
  have zero : (0 : Int).bmod (2 ^ 32) = 0 := by decide
  unfold tiffFirst
  simp only [order, start, fread2_store big (by decide : 42 < 65536), fread4_store, eight,
    Option.bind_eq_bind, Option.bind_some]
  unfold tiffNext
  have offset : (8 : Int).toNat = 8 := rfl
  have count : nTags = f.tags.length := rfl
  rw [offset, directory, fread2_store big (by decide : nTags < 65536)]
  simp only [Option.bind_eq_bind, Option.bind_some]
  rw [count, readTags_readable big _ (f.tags_readable big ints enough)]
  have readable := f.tags_readable big ints enough
  generalize f.tiffinit big ++ image = whole at *
  obtain ⟨xratio, hx⟩ := (readable (true, 282, 5, 1, tdoff) (by simp [ImageFile.tags])).2
  obtain ⟨yratio, hy⟩ := (readable (true, 283, 5, 1, tdoff + 8) (by simp [ImageFile.tags])).2
  have format (page : PageInfo) : (tagFloat big whole ⟨259, 3, 1, f.format.compr⟩).bind
      (setTag page ⟨259, 3, 1, f.format.compr⟩) =
        some { page with format := if f.format = .tiffFax then .fax else .raw } := by
    cases f.format <;> rfl
  have fold : (f.tags.map asRead).foldlM
      (fun page t => (tagFloat big whole t).bind (setTag page t)) pageInit =
      some { pageInit with
        w := f.w, h := f.h, format := if f.format = .tiffFax then .fax else .raw, offset := doff,
        xres := xratio, yres := yratio } := by
    simp only [asRead] at hx hy
    simp only [ImageFile.tags, List.map_cons, List.map_nil, asRead, List.foldlM_cons,
      List.foldlM_nil, hx, hy, format]
    rfl
  rw [fold]
  simp only [Option.map_some, Option.bind_some, fread4_store, zero]
  exact ⟨_, rfl, rfl, rfl, rfl, rfl⟩

theorem directory_tiffinit (big : Bool) (ints : f.Ints) (image : List UInt8) :
    directory (f.tiffinit big ++ image) = some (f.tags.map asRead) := by
  have enough : doff ≤ (f.tiffinit big ++ image).length := by
    rw [List.length_append, length_tiffinit]
    exact Nat.le_add_right doff _
  have readable := f.tags_readable big ints enough
  obtain ⟨tail, order, start, content⟩ := tiffinit_parts big f image
  have eight : (8 : Int).bmod (2 ^ 32) = 8 := by decide
  have offset : (8 : Int).toNat = 8 := rfl
  have count : nTags = f.tags.length := rfl
  unfold directory
  simp only [order, start, fread2_store big (by decide : 42 < 65536), fread4_store, eight,
    Option.bind_eq_bind, Option.bind_some]
  rw [offset, content, fread2_store big (by decide : nTags < 65536)]
  simp only [Option.bind_some]
  rw [count, directoryTags_readable big _ readable]

/-! ## Pages -/

/-- What a caller assigns to the output structure. -/
structure Setup where
  xres : Rat
  yres : Rat
  w : Int
  h : Int

/-- The assignments of a caller, if there are any. -/
def ImageFile.setup (f : ImageFile) : Option Setup → ImageFile
  | some s => { f with xres := s.xres, yres := s.yres, w := s.w, h := s.h }
  | none => f

/-- A page as its caller writes it: what is assigned before `nextopage` starts the page (as in
`efix.c`) and after it (as in `efax.c`), and the calls of `writeline`. -/
structure TiffPage where
  before : Option Setup
  after : Option Setup
  lines : List (List Int × Nat)

/-- `nextopage` and the lines of a page. -/
def ImageFile.startTiffPage (bigendian : Bool) (f : ImageFile) (k : Nat) (page : TiffPage) :
    ImageFile :=
  (((f.setup page.before).nextopage bigendian (some k)).setup page.after).writelines page.lines

/-- A sequence of pages from number `k` on, up to `nextopage (EOF)`. -/
def ImageFile.writeTiffPages (bigendian : Bool) : ImageFile → Nat → List TiffPage → ImageFile
  | f, _, [] => f.nextopage bigendian none
  | f, k, page :: pages =>
    ImageFile.writeTiffPages bigendian (f.startTiffPage bigendian k page) (k + 1) pages

/-- The files of the pages. -/
def ImageFile.files (f : ImageFile) : List (List UInt8) := f.closed ++ [f.data]

/-- The header that is stored in the file of a page describes the page, and so does what `tiff_first`
finds there. -/
structure Describes (format : OFormat) (page : TiffPage) (file : List UInt8) : Prop where
  stored : ∃ tags w, directory file = some tags ∧ tagValue tags 256 = some w ∧
    (∀ line ∈ page.lines, w = line.1.sum) ∧
    tagValue tags 257 = some (lineCount page.lines : Int) ∧
    tagValue tags 278 = some (lineCount page.lines : Int) ∧
    tagValue tags 279 = some ((file.drop doff).length : Int)
  found : ∃ info, tiffFirst file pageInit = some (info, 0) ∧
    (∀ line ∈ page.lines, info.w = line.1.sum) ∧ info.h = lineCount page.lines ∧
    info.format = (if format = .tiffFax then .fax else .raw) ∧ info.offset = doff

/-- The formats of TIFF files. -/
def OFormat.IsTiff (format : OFormat) : Prop := format = .tiffFax ∨ format = .tiffRaw

/-- A page that is being written: as many bytes are behind the header as were counted, but for
`extra`. -/
structure ImageFile.InPage (f : ImageFile) (extra : Int) : Prop where
  tiff : f.format.IsTiff
  isOpen : f.isOpen = true
  data : ∃ header image, f.data = header ++ image ∧ header.length = doff ∧
    f.bytes = extra + image.length

/-- The last header of a page. -/
theorem ImageFile.InPage.endPage {extra : Int} (inPage : f.InPage extra) (big : Bool) :
    ∃ image, (f.endPage big).1.data = (f.endPage big).1.tiffinit big ++ image ∧
      (f.endPage big).1.bytes = extra + image.length := by
  obtain ⟨tiff, isOpen, header, image, data, size, bytes⟩ := inPage
  have rewind (g : ImageFile) (tiff : g.format.IsTiff) (image : List UInt8)
      (data : g.data = header ++ image) :
      (g.rewind big).data = (g.rewind big).tiffinit big ++ image := by
    have same : g.header big = g.tiffinit big := by
      unfold ImageFile.header
      rcases tiff with fax | raw
      · rw [fax]
      · rw [raw]
    show g.header big ++ g.data.drop (g.header big).length = g.tiffinit big ++ image
    rw [same, length_tiffinit, data, List.drop_left' size]
  unfold ImageFile.endPage
  rw [if_pos isOpen]
  rcases tiff with fax | raw
  · simp only [fax]
    refine ⟨image ++ (putRtc f.e).2, rewind _ (Or.inl rfl) _ ?_, ?_⟩
    · show f.data ++ (putRtc f.e).2 = _
      rw [data, List.append_assoc]
    · show f.bytes + ((putRtc f.e).2.length : Int) = _
      rw [bytes, List.length_append]
      push_cast
      omega
  · simp only [raw]
    exact ⟨image, rewind f (Or.inr raw) image data, bytes⟩

theorem ImageFile.setup_inPage {extra : Int} (inPage : f.InPage extra) (s : Option Setup) :
    (f.setup s).InPage extra := by
  obtain ⟨tiff, isOpen, data⟩ := inPage
  cases s with
  | none => exact ⟨tiff, isOpen, data⟩
  | some s => exact ⟨tiff, isOpen, data⟩

/-- The last header describes a page exactly when the counters do. -/
theorem ImageFile.InPage.describes_iff {extra : Int} (inPage : f.InPage extra) (big : Bool)
    (ints : (f.endPage big).1.Ints) (page : TiffPage) :
    Describes f.format page (f.endPage big).1.data ↔
      (∀ line ∈ page.lines, f.w = line.1.sum) ∧ f.h = lineCount page.lines ∧ extra = 0 := by
  obtain ⟨image, data, bytes⟩ := inPage.endPage big
  obtain ⟨kept, h, -⟩ := f.endPage_kept big
  obtain ⟨info, first, infoW, infoH, offset, format⟩ :=
    tiffFirst_tiffinit big ints image
  have tags := directory_tiffinit big ints image
  have behind : ((f.endPage big).1.tiffinit big ++ image).drop doff = image :=
    List.drop_left' (length_tiffinit big _)
  rw [data]
  rw [kept.w] at infoW
  rw [h] at infoH
  rw [kept.format] at format
  constructor
  · rintro ⟨⟨found, w, stored, -, -, -, -, count⟩, info', first', width, height, -, -⟩
    obtain rfl := Option.some.inj (tags.symm.trans stored)
    obtain ⟨rfl, -⟩ := Prod.mk.inj (Option.some.inj (first.symm.trans first'))
    have counted : (f.endPage big).1.bytes = image.length := by
      rw [behind] at count
      exact Option.some.inj count
    exact ⟨fun line member => infoW.symm.trans (width line member), infoH.symm.trans height, by omega⟩
  · rintro ⟨width, height, rfl⟩
    refine ⟨⟨_, f.w, tags, ?_, width, ?_, ?_, ?_⟩, info, first, ?_, ?_, format, offset⟩
    · rw [← kept.w]
      rfl
    · rw [← height, ← h]
      rfl
    · rw [← height, ← h]
      rfl
    · rw [behind, ← Int.zero_add (image.length : Int), ← bytes]
      rfl
    · exact fun line member => infoW.trans (width line member)
    · exact infoH.trans height

/-! ## Runs -/

/-- What the caller assigns before the next page is started, which is when this one is terminated. -/
def nextSetup (pages : List TiffPage) : Option Setup := pages.head?.bind TiffPage.before

/-- The number that the lines of a page are counted from. -/
def linesFrom (f : ImageFile) : Option Setup → Int
  | some s => s.h
  | none => if f.format = .tiffRaw then f.h else 0

/-- The number that the bytes of a page are counted from. -/
def bytesFrom (f : ImageFile) : Int := if f.format = .tiffRaw then f.bytes else 0

/-- The number of lines is right when the page is terminated. -/
def LinesRight (f : ImageFile) (page : TiffPage) : Option Setup → Prop
  | some s => s.h = lineCount page.lines
  | none => linesFrom f page.after = 0

/-- The counters are right when the page is terminated, `f` being the output structure when
`nextopage` starts the page: the width is that of the lines, the lines were counted from zero or the
caller has set their number, and the bytes were counted from zero. -/
def GoodPage (f : ImageFile) (page : TiffPage) (next : Option Setup) : Prop :=
  (∀ line ∈ page.lines, ((f.setup page.after).setup next).w = line.1.sum) ∧
    LinesRight f page next ∧ bytesFrom f = 0

/-- Every page of a run is good. -/
def GoodPages (bigendian : Bool) : ImageFile → Nat → List TiffPage → Prop
  | _, _, [] => True
  | f, k, page :: pages =>
    GoodPage (f.setup page.before) page (nextSetup pages) ∧
      GoodPages bigendian (f.startTiffPage bigendian k page) (k + 1) pages

/-- No counter leaves the range of an `int` in a run. -/
def IntCounts (bigendian : Bool) : ImageFile → Nat → List TiffPage → Prop
  | _, _, [] => True
  | f, k, page :: pages =>
    (((f.startTiffPage bigendian k page).setup (nextSetup pages)).endPage bigendian).1.Ints ∧
      IntCounts bigendian (f.startTiffPage bigendian k page) (k + 1) pages

theorem ImageFile.setup_format (f : ImageFile) (s : Option Setup) : (f.setup s).format = f.format := by
  cases s <;> rfl

/-- A page after its lines. -/
theorem ImageFile.startTiffPage_inPage (big : Bool) (tiff : f.format.IsTiff) (k : Nat)
    (page : TiffPage) :
    (f.startTiffPage big k page).InPage
        (bytesFrom (f.setup page.before)) ∧
      (f.startTiffPage big k page).format = f.format ∧
      (f.startTiffPage big k page).w = ((f.setup page.before).setup page.after).w ∧
      (f.startTiffPage big k page).h =
        linesFrom (f.setup page.before) page.after + lineCount page.lines := by
  obtain ⟨header, codes, started⟩ := (f.setup page.before).nextopage_started big k
  have same := f.setup_format page.before
  generalize eq : (f.setup page.before).nextopage big (some k) = g at started
  obtain ⟨body, wrote⟩ := (g.setup page.after).writelines_wrote page.lines
  have whole : f.startTiffPage big k page = (g.setup page.after).writelines page.lines := by
    rw [ImageFile.startTiffPage, eq]
  rw [whole]
  have format : (g.setup page.after).format = f.format :=
    (g.setup_format page.after).trans (started.format.trans same)
  have notPcx : (g.setup page.after).format ≠ .pcx := by
    rw [format]
    rcases tiff with fax | raw
    · rw [fax]; decide
    · rw [raw]; decide
  have kept : (g.setup page.after).data = g.data ∧ (g.setup page.after).bytes = g.bytes ∧
      (g.setup page.after).isOpen = g.isOpen := by
    cases page.after with
    | none => exact ⟨rfl, rfl, rfl⟩
    | some s => exact ⟨rfl, rfl, rfl⟩
  obtain ⟨data, bytes, isOpen⟩ := kept
  refine ⟨⟨?_, ?_, header, codes ++ body, ?_, ?_, ?_⟩, ?_, ?_, ?_⟩
  · rw [wrote.page.format, format]
    exact tiff
  · rw [wrote.page.isOpen, isOpen, started.isOpen]
  · rw [wrote.data, data, started.data, List.append_assoc]
  · rw [started.size, same]
    rcases tiff with fax | raw
    · rw [fax]; rfl
    · rw [raw]; rfl
  · rw [wrote.bytes notPcx, bytes, started.bytes, bytesFrom, List.length_append]
    split
    case isTrue raw =>
      rw [started.fax (by rw [raw]; decide), List.length_nil, Nat.zero_add]
    case isFalse =>
      push_cast
      omega
  · rw [wrote.page.format, format]
  · rw [wrote.page.w]
    cases page.after with
    | none => exact started.w
    | some s => rfl
  · rw [wrote.h]
    congr 1
    cases page.after with
    | none => exact started.h
    | some s => rfl

/-- The header of a page is right exactly when the page is good. -/
theorem describes_iff_goodPage (big : Bool) (tiff : f.format.IsTiff) (k : Nat) (page : TiffPage)
    (next : Option Setup)
    (ints : (((f.startTiffPage big k page).setup next).endPage big).1.Ints) :
    Describes f.format page (((f.startTiffPage big k page).setup next).endPage big).1.data ↔
      GoodPage (f.setup page.before) page next := by
  obtain ⟨inPage, format, w, h⟩ := f.startTiffPage_inPage big tiff k page
  have counters := (ImageFile.setup_inPage inPage next).describes_iff big ints page
  rw [ImageFile.setup_format, format] at counters
  have width : ((f.startTiffPage big k page).setup next).w =
      (((f.setup page.before).setup page.after).setup next).w := by
    cases next with
    | none => exact w
    | some s => rfl
  have height : ((f.startTiffPage big k page).setup next).h = lineCount page.lines ↔
      LinesRight (f.setup page.before) page next := by
    cases next with
    | some s => exact Iff.rfl
    | none =>
      show (f.startTiffPage big k page).h = _ ↔ linesFrom (f.setup page.before) page.after = 0
      rw [h]
      omega
  rw [counters, GoodPage, width, height]

/-- The files of the pages from a page that is being written on. -/
def laterFiles (bigendian : Bool) : ImageFile → Nat → List TiffPage → List (List UInt8)
  | f, _, [] => [(f.endPage bigendian).1.data]
  | f, k, page :: pages =>
    ((f.setup page.before).endPage bigendian).1.data ::
      laterFiles bigendian (f.startTiffPage bigendian k page) (k + 1) pages

theorem ImageFile.setup_file (f : ImageFile) (s : Option Setup) :
    (f.setup s).closed = f.closed ∧ (f.setup s).isOpen = f.isOpen := by
  cases s <;> exact ⟨rfl, rfl⟩

theorem ImageFile.startTiffPage_closed (big : Bool) (f : ImageFile) (k : Nat) (page : TiffPage) :
    (f.startTiffPage big k page).closed =
      if f.isOpen then f.closed ++ [((f.setup page.before).endPage big).1.data] else f.closed := by
  obtain ⟨body, wrote⟩ :=
    (((f.setup page.before).nextopage big (some k)).setup page.after).writelines_wrote page.lines
  rw [ImageFile.startTiffPage, wrote.page.closed, (ImageFile.setup_file _ _).1,
    ImageFile.nextopage_closed, (f.setup_file page.before).1, (f.setup_file page.before).2]

/-- The files of a run: those before, and one for every page from here on. -/
theorem files_writeTiffPages (big : Bool) {extra : Int} (inPage : f.InPage extra) (k : Nat)
    (pages : List TiffPage) :
    (f.writeTiffPages big k pages).files = f.closed ++ laterFiles big f k pages := by
  induction pages generalizing f k extra with
  | nil =>
    obtain ⟨data, closed⟩ := f.nextopage_eof big
    rw [ImageFile.writeTiffPages, ImageFile.files, data, closed]
    rfl
  | cons page pages ih =>
    have closed := f.startTiffPage_closed big k page
    rw [inPage.isOpen, if_pos rfl] at closed
    obtain ⟨next, -⟩ := f.startTiffPage_inPage big inPage.tiff k page
    rw [ImageFile.writeTiffPages, ih next (k + 1), closed, laterFiles, List.append_assoc]
    rfl

/-- The files of a run whose first page is `page`. -/
theorem describes_iff_goodPages (big : Bool) (tiff : f.format.IsTiff) (k : Nat) (page : TiffPage)
    (pages : List TiffPage) (ints : IntCounts big f k (page :: pages)) :
    List.Forall₂ (Describes f.format) (page :: pages)
        (laterFiles big (f.startTiffPage big k page) (k + 1) pages) ↔
      GoodPages big f k (page :: pages) := by
  induction pages generalizing f k page with
  | nil =>
    obtain ⟨ints, -⟩ := ints
    rw [laterFiles, List.forall₂_cons, GoodPages, GoodPages]
    have one := describes_iff_goodPage big tiff k page none ints
    exact and_congr one (by simp)
  | cons page' pages ih =>
    obtain ⟨ints, more⟩ := ints
    obtain ⟨inPage, format, -⟩ := f.startTiffPage_inPage big tiff k page
    rw [laterFiles, List.forall₂_cons, GoodPages]
    have one := describes_iff_goodPage big tiff k page page'.before ints
    have rest := ih (format ▸ tiff) (k + 1) page' more
    rw [format] at rest
    exact and_congr one rest

/-- In a run of pages from a new output structure, every header that is stored last describes its
page exactly when every page is good. -/
theorem headers_describe_iff (big : Bool) {format : OFormat} (tiff : format.IsTiff) (xres yres : Rat)
    (w h : Int) {pages : List TiffPage} (some_page : pages ≠ [])
    (ints : IntCounts big (newImageFile format xres yres w h) 0 pages) :
    List.Forall₂ (Describes format) pages
        ((newImageFile format xres yres w h).writeTiffPages big 0 pages).files ↔
      GoodPages big (newImageFile format xres yres w h) 0 pages := by
  obtain ⟨page, pages, rfl⟩ := List.exists_cons_of_ne_nil some_page
  obtain ⟨inPage, -⟩ := (newImageFile format xres yres w h).startTiffPage_inPage big tiff 0 page
  rw [ImageFile.writeTiffPages, files_writeTiffPages big inPage]
  have none_before : ((newImageFile format xres yres w h).startTiffPage big 0 page).closed = [] :=
    ImageFile.startTiffPage_closed big _ 0 page
  rw [none_before, List.nil_append]
  exact describes_iff_goodPages big tiff 0 page pages ints

/-- A page of one line, set up as `efix.c` does, is stored uncompressed with twice its length. -/
theorem raw_page_counted_twice :
    ¬ List.Forall₂ (Describes .tiffRaw) [⟨some ⟨204, 98, 8, 1⟩, none, [([8], 1)]⟩]
      ((newImageFile .tiffRaw 0 0 0 0).writeTiffPages false 0
        [⟨some ⟨204, 98, 8, 1⟩, none, [([8], 1)]⟩]).files := by
  intro described
  obtain ⟨inPage, -⟩ := (newImageFile .tiffRaw 0 0 0 0).startTiffPage_inPage false (Or.inr rfl) 0
    ⟨some ⟨204, 98, 8, 1⟩, none, [([8], 1)]⟩
  have ints : IntCounts false (newImageFile .tiffRaw 0 0 0 0) 0
      [⟨some ⟨204, 98, 8, 1⟩, none, [([8], 1)]⟩] :=
    ⟨⟨⟨by decide +kernel, by decide +kernel⟩, ⟨by decide +kernel, by decide +kernel⟩,
      ⟨by decide +kernel, by decide +kernel⟩⟩, trivial⟩
  rw [ImageFile.writeTiffPages, files_writeTiffPages false inPage,
    ImageFile.startTiffPage_closed] at described
  obtain ⟨⟨-, lines, -⟩, -⟩ := (describes_iff_goodPages false (Or.inr rfl) 0 _ [] ints).mp described
  exact absurd lines (by decide : (1 : Int) ≠ 0)

/-- Two fax pages of different widths, set up as `efax.c` does. -/
def twoPages : List TiffPage := [
  ⟨none, some ⟨204, 98, 8, 0⟩, [([8], 1)]⟩,
  ⟨none, some ⟨204, 196, 16, 0⟩, [([4, 12], 2)]⟩]

theorem headers_describe_iff_two :
    List.Forall₂ (Describes .tiffFax) twoPages
      ((newImageFile .tiffFax 0 0 0 0).writeTiffPages false 0 twoPages).files := by
  have ints : IntCounts false (newImageFile .tiffFax 0 0 0 0) 0 twoPages :=
    ⟨⟨⟨by decide +kernel, by decide +kernel⟩, ⟨by decide +kernel, by decide +kernel⟩,
        ⟨by decide +kernel, by decide +kernel⟩⟩,
      ⟨⟨by decide +kernel, by decide +kernel⟩, ⟨by decide +kernel, by decide +kernel⟩,
        ⟨by decide +kernel, by decide +kernel⟩⟩, trivial⟩
  refine (headers_describe_iff false (Or.inl rfl) 0 0 0 0 (by simp [twoPages]) ints).mpr ?_
  exact ⟨⟨by simp [ImageFile.setup, nextSetup], rfl, rfl⟩,
    ⟨by simp [ImageFile.setup, nextSetup], rfl, rfl⟩, trivial⟩

end QFax.Efax

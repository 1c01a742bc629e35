import QFax.Efax.Rows

/-!
# T.4 coded pages in a file

The writer of `efaxlib.c` for the format `O_FAX` (`newOFILE`, `nextopage`, `writeline`) and the
reader of such a file (`fax_reset`, `readruns`).  A page that was written is read back line by line,
at every alignment of its code words.
-/

namespace QFax.Efax

open Bits

/-! ## Writing -/

/-- `OFILE`, the fields that the format `O_FAX` uses: whether there is a file name pattern, whether
a file is open, the encoder, the counts of lines and bytes; and the bytes in the current file. -/
structure OFile where
  fname : Bool
  isOpen : Bool
  e : Encoder
  h : Int
  bytes : Int
  data : List UInt8
  deriving DecidableEq, Repr

/-- `newOFILE`. -/
def newOFile (fname : Bool) (h : Int) : OFile := ⟨fname, false, newEncoder, h, 0, []⟩

/-- Terminate the current page: a return to control. -/
def OFile.endPage (f : OFile) : OFile :=
  if f.isOpen then
    let (e, codes) := putRtc f.e
    { f with e := e, data := f.data ++ codes, bytes := codes.length }
  else { f with bytes := 0 }

/-- Open the file of the next page, or go on with standard output, and write the EOL that starts a
page. -/
def OFile.startPage (f : OFile) : OFile :=
  let (e, codes) := putcode f.e eolCode eolBits
  let data := if f.fname then [] else f.data
  { f with isOpen := true, e := e, data := data ++ codes, bytes := codes.length }

/-- `nextopage` when no operation on a file fails; `none` stands for the page number EOF. -/
def OFile.nextopage (f : OFile) (page : Option Nat) : OFile :=
  let f := f.endPage
  let f := if page.isSome then f.startPage else f
  { f with h := 0 }

/-- `writeline`: output a scan line `no` times. -/
def OFile.writeline (f : OFile) (runs : List Int) : Nat → OFile
  | 0 => f
  | no + 1 =>
    let (e, codes) := runtocode f.e runs
    let (e, tail) := putcode e eolCode eolBits
    let buf := codes ++ tail
    OFile.writeline
      { f with e := e, data := f.data ++ buf, h := f.h + 1, bytes := f.bytes + buf.length } runs no

/-- Write every scan line once. -/
def OFile.writelines (f : OFile) (lines : List (List Int)) : OFile :=
  lines.foldl (fun f runs => f.writeline runs 1) f

/-- A page: opened, written line by line and closed. -/
def OFile.writePage (f : OFile) (page : Nat) (lines : List (List Int)) : OFile :=
  ((f.nextopage (some page)).writelines lines).nextopage none

/-! ## Reading -/

/-- `fgetc`: the next byte of a file, or `-1` at its end. -/
def fgetc : List UInt8 → Int × List UInt8
  | [] => (-1, [])
  | b :: bs => (b.toNat, bs)

/-- Read a file from a new decoder up to a negative return value, as `fax_reset` and then `readruns`
do: the rows and the last one.  The number bounds the rows and the lookups of each. -/
def readPage (fuel : Nat) (file : List UInt8) : Option (List Row × Row) :=
  (readRows fgetc fuel fuel newDecoder file).map fun (rows, last, _) => (rows, last)

theorem fgetc_delivers : Delivers fgetc Eq where
  byte := by
    rintro s b bs rfl
    exact ⟨rfl, rfl⟩
  done := by
    rintro s rfl
    exact ⟨by decide, rfl⟩

/-! ## The bits of a page -/

/-- What is in the current file and still in the encoder. -/
structure OFile.Wrote (f : OFile) (bits : List Bool) : Prop where
  isOpen : f.isOpen = true
  ready : f.e.Ready
  content : bytesBits f.data ++ f.e.pend = bits

/-- A page can be started in a file of its own: the encoder keeps nothing back, or will have been
flushed into the file before. -/
structure OFile.Ready (f : OFile) : Prop where
  ready : f.e.Ready
  idle : f.isOpen = false → f.e.pend = []
  own : f.fname = true ∨ f.isOpen = false ∧ f.data = []

theorem newOFile_ready (fname : Bool) (h : Int) : (newOFile fname h).Ready :=
  ⟨newEncoder_ready, fun _ => newEncoder_pend, Or.inr ⟨rfl, rfl⟩⟩

/-- Ending a page flushes the encoder. -/
theorem OFile.Ready.endPage {f : OFile} (ready : f.Ready) :
    f.endPage.e.Ready ∧ f.endPage.e.pend = [] ∧ (f.fname = true ∨ f.endPage.data = []) := by
  obtain ⟨ready, idle, own⟩ := ready
  unfold OFile.endPage
  cases opened : f.isOpen with
  | false =>
    refine ⟨ready, idle opened, ?_⟩
    rcases own with own | ⟨-, empty⟩
    · exact Or.inl own
    · exact Or.inr empty
  | true =>
    obtain ⟨-, -, -, -, ready', flushed⟩ := putRtc_bits ready
    refine ⟨ready', flushed, ?_⟩
    rcases own with own | ⟨closed, -⟩
    · exact Or.inl own
    · rw [opened] at closed
      cases closed

theorem OFile.Ready.nextopage {f : OFile} (ready : f.Ready) (page : Nat) :
    (f.nextopage (some page)).Wrote eol := by
  obtain ⟨ready', flushed, own⟩ := ready.endPage
  obtain ⟨bits, ready''⟩ := putcode_eol ready'
  rw [flushed, List.nil_append] at bits
  have fname : f.endPage.fname = f.fname := by
    unfold OFile.endPage
    split <;> rfl
  have empty : (if f.endPage.fname then [] else f.endPage.data) = [] := by
    rw [fname]
    rcases own with own | own
    · rw [own]
      rfl
    · rw [own]
      split <;> rfl
  refine ⟨rfl, ready'', ?_⟩
  show bytesBits ((if f.endPage.fname then [] else f.endPage.data) ++
    (putcode f.endPage.e eolCode eolBits).2) ++ (putcode f.endPage.e eolCode eolBits).1.pend = eol
  rw [empty, List.nil_append]
  exact bits.symm

theorem OFile.Wrote.writeline {f : OFile} {bits : List Bool} (wrote : f.Wrote bits)
    {runs : List Int} (line : ScanLine runs) :
    (f.writeline runs 1).Wrote (bits ++ (lineBits runs ++ eol)) := by
  obtain ⟨isOpen, ready, content⟩ := wrote
  have room := lineBits_room line.nonneg line.width line.words
  obtain ⟨coded, ready'⟩ := runtocode_bits ready runs (by omega)
  obtain ⟨ended, ready''⟩ := putcode_eol ready'
  refine ⟨isOpen, ready'', ?_⟩
  show bytesBits (f.data ++ ((runtocode f.e runs).2 ++
      (putcode (runtocode f.e runs).1 eolCode eolBits).2)) ++
    (putcode (runtocode f.e runs).1 eolCode eolBits).1.pend = bits ++ (lineBits runs ++ eol)
  calc
    _ = bytesBits f.data ++ (bytesBits (runtocode f.e runs).2 ++
          (bytesBits (putcode (runtocode f.e runs).1 eolCode eolBits).2 ++
            (putcode (runtocode f.e runs).1 eolCode eolBits).1.pend)) := by
      simp only [bytesBits_append, List.append_assoc]
    _ = bytesBits f.data ++ (f.e.pend ++ lineBits runs ++ eol) := by
      rw [← ended, coded]
      simp only [List.append_assoc]
    _ = bits ++ (lineBits runs ++ eol) := by
      rw [← content]
      simp only [List.append_assoc]

/-- The scan lines of a page with the zeros of the EOL that follows each. -/
def pageRows (lines : List (List Int)) : List (List Int × Nat) := lines.map fun runs => (runs, 11)

theorem OFile.Wrote.writelines {f : OFile} {bits : List Bool} (wrote : f.Wrote bits)
    {lines : List (List Int)} (valid : ∀ runs ∈ lines, ScanLine runs) :
    (f.writelines lines).Wrote (bits ++ rowsBits (pageRows lines)) := by
  induction lines generalizing f bits with
  | nil =>
    rw [pageRows, List.map_nil, rowsBits_nil, List.append_nil]
    exact wrote
  | cons runs lines ih =>
    have here := wrote.writeline (valid runs List.mem_cons_self)
    have later := ih here fun r hr => valid r (List.mem_cons_of_mem runs hr)
    have split : bits ++ rowsBits (pageRows (runs :: lines)) =
        bits ++ (lineBits runs ++ eol) ++ rowsBits (pageRows lines) := by
      rw [pageRows, List.map_cons, rowsBits_cons, ← List.append_assoc]
      rfl
    rw [split]
    exact later

/-- Closing a page adds a return to control. -/
theorem OFile.Wrote.close {f : OFile} {bits : List Bool} (wrote : f.Wrote bits) :
    ∃ z tail, RtcEnd z tail ∧ bytesBits (f.nextopage none).data =
      bits ++ ((List.replicate 4 eol).flatten ++ (List.replicate z false ++ true :: tail)) := by
  obtain ⟨isOpen, ready, content⟩ := wrote
  obtain ⟨z, tail, written, ends, -⟩ := putRtc_bits ready
  have data : (f.nextopage none).data = f.data ++ (putRtc f.e).2 := by
    show f.endPage.data = f.data ++ (putRtc f.e).2
    rw [OFile.endPage, isOpen]
    rfl
  refine ⟨z, tail, ?_, ?_⟩
  · rcases ends with ⟨lower, upper, none, -⟩ | ⟨zeros, one, -⟩
    · exact Or.inl ⟨lower, upper, none⟩
    · exact Or.inr ⟨zeros, one⟩
  · rw [data, bytesBits_append, written, ← content]
    simp only [List.append_assoc]

/-- The bits of a page file. -/
theorem OFile.Ready.writePage {f : OFile} (ready : f.Ready) (page : Nat) {lines : List (List Int)}
    (valid : ∀ runs ∈ lines, ScanLine runs) :
    ∃ z tail, RtcEnd z tail ∧ bytesBits (f.writePage page lines).data =
      eol ++ (rowsBits (pageRows lines) ++
        ((List.replicate 4 eol).flatten ++ (List.replicate z false ++ true :: tail))) := by
  obtain ⟨z, tail, ends, bits⟩ := ((ready.nextopage page).writelines valid).close
  refine ⟨z, tail, ends, ?_⟩
  rw [OFile.writePage, bits, List.append_assoc]

/-! ## Reading a page back -/

/-- What one page file yields to any reader of its bytes. -/
theorem reads_page {σ : Type} {get : σ → Int × σ} {R : σ → List UInt8 → Prop} {src : σ}
    (delivers : Delivers get R) {lines : List (List Int)}
    (valid : ∀ runs ∈ lines, ScanLine runs ∧ 0 < runs.sum) {z : Nat} {tail : List Bool}
    (ends : RtcEnd z tail)
    (ready : newDecoder.Ready R src (eol ++ (rowsBits (pageRows lines) ++
      ((List.replicate 4 eol).flatten ++ (List.replicate z false ++ true :: tail))))) :
    ∃ k, Reads get newDecoder src
      (plainRow [] :: lines.map plainRow ++ List.replicate k (plainRow [])) fun _ _ => True := by
  have rows : lines.map plainRow = (pageRows lines).map fun line => plainRow line.1 := by
    rw [pageRows, List.map_map]
    rfl
  have valid' : ∀ line ∈ pageRows lines, ScanLine line.1 ∧ 0 < line.1.sum ∧ 11 ≤ line.2 := by
    intro line member
    obtain ⟨runs, member', rfl⟩ := List.mem_map.mp member
    obtain ⟨scan, pels⟩ := valid runs member'
    exact ⟨scan, pels, le_rfl⟩
  have start : eol ++ (rowsBits (pageRows lines) ++ ((List.replicate 4 eol).flatten ++
      (List.replicate z false ++ true :: tail))) = List.replicate 11 false ++ true ::
      (rowsBits (pageRows lines) ++ ((List.replicate 4 eol).flatten ++
        (List.replicate z false ++ true :: tail))) := rfl
  have long : 8 ≤ ((List.replicate 4 eol).flatten ++
      (List.replicate z false ++ true :: tail)).length := by
    have eols : (List.replicate 4 eol).flatten.length = 48 := rfl
    rw [List.length_append, eols]
    omega
  rw [start] at ready
  rw [rows]
  by_cases blank : lines = []
  · subst blank
    refine ⟨3, ?_⟩
    apply reads_eol delivers le_rfl (by rw [List.length_append]; omega) (by decide) ready
    intro d src' ready' eolcnt
    have few : 8 ≤ (List.replicate z false ++ true :: tail).length := by
      rw [List.length_append, List.length_replicate, List.length_cons]
      rcases ends with ⟨lower, -⟩ | ⟨zeros, -⟩ <;> omega
    have read := reads_rtc_blank delivers few eolcnt ready'
    obtain ⟨k, last, src'', negative, -, run⟩ := read
    exact ⟨k, last, src'', negative, trivial, run⟩
  · refine ⟨4, ?_⟩
    apply reads_eol delivers le_rfl (by rw [List.length_append]; omega) (by decide) ready
    intro d src' ready' eolcnt
    apply reads_lines delivers valid' long ready'
    intro d' src'' ready'' eolcnt'
    have fresh : d'.eolcnt = 0 := by
      rw [eolcnt', if_neg (by simpa [pageRows] using blank)]
    obtain ⟨k, last, src''', negative, -, run⟩ := reads_rtc delivers ends fresh ready''
    exact ⟨k, last, src''', negative, trivial, run⟩

/-- The T.4 page round trip.  Reading a page file returns the empty line of its first EOL, every
scan line with its runs and its pel count, and empty lines up to a negative value. -/
theorem readPage_writePage {f : OFile} (ready : f.Ready) (page : Nat) {lines : List (List Int)}
    (valid : ∀ runs ∈ lines, ScanLine runs ∧ 0 < runs.sum) :
    ∃ k n last, last.nr < 0 ∧ ∀ fuel ≥ n, readPage fuel (f.writePage page lines).data =
      some (plainRow [] :: lines.map plainRow ++ List.replicate k (plainRow []), last) := by
  obtain ⟨z, tail, ends, bits⟩ := ready.writePage page fun runs hr => (valid runs hr).1
  have start : newDecoder.Ready Eq (f.writePage page lines).data _ := newDecoder_ready rfl
  rw [bits] at start
  obtain ⟨k, n, last, src', negative, -, run⟩ := reads_page fgetc_delivers valid ends start
  refine ⟨k, max n (lines.length + k + 2), last, negative, fun fuel le => ?_⟩
  have read := run fuel fuel (by omega) (by
    rw [List.length_append, List.length_cons, List.length_map, List.length_replicate]
    omega)
  rw [readPage, read]
  rfl

/-- Two lines, one of them with runs of length zero. -/
theorem readPage_writePage_two : ∃ k n last, last.nr < 0 ∧ ∀ fuel ≥ n,
    readPage fuel ((newOFile true 0).writePage 0 [[1728], [0, 3, 0, 2623]]).data =
      some (plainRow [] :: [⟨1, [1728], 1728⟩, ⟨4, [0, 3, 0, 2623], 2626⟩] ++
        List.replicate k (plainRow []), last) :=
  readPage_writePage (newOFile_ready true 0) 0 (by
    intro runs member
    simp only [List.mem_cons, List.not_mem_nil, or_false] at member
    rcases member with rfl | rfl
    · exact ⟨⟨by decide, by decide, by decide, by decide⟩, by decide⟩
    · exact ⟨⟨by decide, by decide, by decide, by decide⟩, by decide⟩)

end QFax.Efax

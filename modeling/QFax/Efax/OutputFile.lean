import QFax.Efax.Class1

/-!
# The output files of a reception

`nextopage` ends the page in the open file and opens the file of the next page; `wrpage` also removes the
file that was opened last.  What the C library returns for the calls made in them is an input.
-/

namespace QFax.Efax

/-! ## File names -/

/-- `%03d`. -/
def padded (n : Nat) : List Char :=
  List.replicate (3 - (Nat.toDigits 10 n).length) '0' ++ Nat.toDigits 10 n

/-- The name of the file for a page.  The pattern ends in `.%03d`; what stands before this may contain
the page number as well. -/
def pageName (stem : Nat → List Char) (page : Nat) : List Char :=
  stem page ++ '.' :: padded (page + 1)

theorem ofDigitChars_padded (n : Nat) : Nat.ofDigitChars 10 (padded n) 0 = n := by
  unfold padded
  rw [Nat.ofDigitChars_append, Nat.ofDigitChars_replicate_zero, Nat.mul_zero,
    Nat.ofDigitChars_toDigits (by decide) (by decide)]

theorem dot_notMem_padded (n : Nat) : '.' ∉ padded n := by
  unfold padded
  rw [List.mem_append]
  rintro (zero | digit)
  · exact absurd (List.eq_of_mem_replicate zero) (by decide)
  · exact absurd (Nat.isDigit_of_mem_toDigits (by decide) (by decide) digit) (by decide)

/-- What follows the last dot of a name. -/
def extension (name : List Char) : List Char := (name.reverse.takeWhile (· ≠ '.')).reverse

theorem extension_pageName (stem : Nat → List Char) (page : Nat) :
    extension (pageName stem page) = padded (page + 1) := by
  have digits : ∀ c ∈ (padded (page + 1)).reverse, decide (c ≠ '.') = true := by
    intro c mem
    refine decide_eq_true fun dot => dot_notMem_padded (page + 1) ?_
    rw [← dot]
    exact List.mem_reverse.1 mem
  unfold extension pageName
  rw [List.reverse_append, List.reverse_cons, List.append_assoc, List.takeWhile_append_of_pos digits]
  simp

/-- Different pages have different files. -/
theorem pageName_inj {stem : Nat → List Char} {page page' : Nat}
    (same : pageName stem page = pageName stem page') : page = page' := by
  have extensions := congrArg (fun name => Nat.ofDigitChars 10 (extension name) 0) same
  simp only [extension_pageName, ofDigitChars_padded] at extensions
  omega

/-! ## The open file -/

/-- What happens to the files: one is opened and empty then, it gets scan lines, a page in it is
complete, the end of the page and the header are written, or it is removed. -/
inductive FileEvent
  | opened (name : List Char)
  | wrote (name : List Char)
  | completed (name : List Char)
  | ended (name : List Char)
  | removed (name : List Char)
  deriving DecidableEq, Repr

/-- A `FILE`: the file it was opened for and its error indicator. -/
structure FileStream where
  file : List Char
  error : Bool
  deriving DecidableEq, Repr

/-- The fields of `OFILE` for the file names; `stream` stands for `f`. -/
structure OutputFile where
  fname : Nat → List Char
  stream : Option FileStream
  cfname : List Char

/-- What the calls on files return: whether writing the lines, the end of a page or a header fails, and
whether a file can be opened and removed. -/
structure FileResults where
  linesFail : Bool
  endFails : Bool
  opens : Bool
  headerFails : Bool
  removes : Bool

/-- All calls succeed. -/
def FileResults.fine : FileResults := ⟨false, false, true, false, true⟩

/-- The outcome of a function that works on the output file. -/
structure Paging where
  err : Nat
  outf : OutputFile
  events : List FileEvent

namespace OutputFile

/-- `newOFILE`; `cfname` is not initialised. -/
def new (fname : Nat → List Char) (cfname : List Char) : OutputFile := ⟨fname, none, cfname⟩

/-- Terminate the page in the open file.  The error indicator stays set. -/
def endPage (r : FileResults) (f : OutputFile) : Paging :=
  match f.stream with
  | none => ⟨0, f, []⟩
  | some stream =>
    let error := stream.error || r.endFails
    ⟨if error then 2 else 0, { f with stream := some { stream with error := error } },
      [.ended stream.file]⟩

/-- Open the file of a page, or open it again, and write its header. -/
def openPage (r : FileResults) (page : Nat) (f : OutputFile) : Paging :=
  let cfname := pageName f.fname page
  if r.opens then
    ⟨if r.headerFails then 2 else 0,
      { f with stream := some ⟨cfname, r.headerFails⟩, cfname := cfname }, [.opened cfname]⟩
  else ⟨2, { f with stream := none, cfname := cfname }, []⟩

/-- `nextopage`. -/
def nextopage (r : FileResults) (page : Int) (f : OutputFile) : Paging :=
  let ended := f.endPage r
  if ended.err = 0 ∧ 0 ≤ page then
    let next := ended.outf.openPage r page.toNat
    { next with events := ended.events ++ next.events }
  else ended

/-- `wrpage`. -/
def wrpage (r : FileResults) (page : Int) (f : OutputFile) : Paging :=
  let next := f.nextopage r page
  if next.err = 0 ∧ page = -1 then
    if r.removes then { next with events := next.events ++ [.removed next.outf.cfname] }
    else { next with err := 2 }
  else next

/-- The lines that `receive_data` writes. -/
def writeLines (r : FileResults) (f : OutputFile) : OutputFile :=
  { f with stream := f.stream.map fun stream => { stream with error := stream.error || r.linesFail } }

variable {f : OutputFile}

/-- A failed write to the open file keeps it and its name. -/
structure Failed (f f' : OutputFile) : Prop where
  stream : ∃ s, f.stream = some s ∧ f'.stream = some ⟨s.file, true⟩
  cfname : f'.cfname = f.cfname

/-- The open file, if there is one, has the name in `cfname`. -/
def Named (f : OutputFile) : Prop := ∀ s, f.stream = some s → s.file = f.cfname

theorem Failed.named {f' : OutputFile} (failed : Failed f f') (named : f.Named) : f'.Named := by
  obtain ⟨⟨s, before, after⟩, cfname⟩ := failed
  intro s' eq
  rw [after] at eq
  rw [cfname, ← Option.some.inj eq]
  exact named s before

/-- The end of the page: it fails, or only adds to the file. -/
theorem endPage_cases (r : FileResults) (f : OutputFile) :
    (f.endPage r).outf.fname = f.fname ∧ (∀ e ∈ (f.endPage r).events, ∃ name, e = .ended name) ∧
      ((f.endPage r).err ≠ 0 ∧ Failed f (f.endPage r).outf ∨
        (f.endPage r).err = 0 ∧ (f.endPage r).outf = f ∧ ∀ s, f.stream = some s → s.error = false) := by
  obtain ⟨fname, stream, cfname⟩ := f
  unfold endPage
  cases stream with
  | none => exact ⟨rfl, fun _ mem => absurd mem List.not_mem_nil,
    .inr ⟨rfl, rfl, fun _ eq => nomatch eq⟩⟩
  | some s =>
    refine ⟨rfl, fun e mem => ⟨s.file, List.mem_singleton.1 mem⟩, ?_⟩
    dsimp only
    cases error : s.error || r.endFails with
    | true => exact .inl ⟨Nat.succ_ne_zero 1, ⟨s, rfl, rfl⟩, rfl⟩
    | false =>
      have none : s.error = false := (Bool.or_eq_false_iff.1 error).1
      refine .inr ⟨rfl, ?_, fun s' eq => Option.some.inj eq ▸ none⟩
      rw [← none]

theorem wrpage_natCast (r : FileResults) (page : Nat) (f : OutputFile) :
    f.wrpage r page = f.nextopage r page :=
  if_neg fun last => by omega

/-- `wrpage` for a page: the end of the page before it fails, or the file of this page is opened, which
may fail as well. -/
theorem wrpage_page (r : FileResults) (page : Nat) (f : OutputFile) :
    (f.wrpage r page).outf.fname = f.fname ∧
      ((f.wrpage r page).err ≠ 0 ∧ Failed f (f.wrpage r page).outf ∧
          (∀ e ∈ (f.wrpage r page).events, ∃ name, e = .ended name) ∨
        (f.wrpage r page).outf.cfname = pageName f.fname page ∧ (f.wrpage r page).outf.Named ∧
          ((f.wrpage r page).err = 0 → (f.wrpage r page).outf.stream ≠ none) ∧
          ∀ e ∈ (f.wrpage r page).events,
            (∃ name, e = .ended name) ∨ e = .opened (pageName f.fname page)) := by
  rw [wrpage_natCast]
  obtain ⟨fname, events, ⟨failed, stream⟩ | ⟨fine, same, -⟩⟩ := endPage_cases r f
  · have next : f.nextopage r page = f.endPage r := if_neg fun ok => failed ok.1
    rw [next]
    exact ⟨fname, .inl ⟨failed, stream, events⟩⟩
  · have next : f.nextopage r page =
        { f.openPage r page with events := (f.endPage r).events ++ (f.openPage r page).events } := by
      unfold nextopage
      dsimp only
      rw [if_pos ⟨fine, Int.natCast_nonneg page⟩, same, Int.toNat_natCast]
    rw [next]
    unfold openPage
    dsimp only
    cases r.opens with
    | true =>
      refine ⟨rfl, .inr ⟨rfl, fun s eq => congrArg FileStream.file (Option.some.inj eq).symm,
        fun _ => Option.some_ne_none _, ?_⟩⟩
      intro e mem
      rcases List.mem_append.1 mem with ended | opened
      · exact .inl (events e ended)
      · exact .inr (List.mem_singleton.1 opened)
    | false =>
      refine ⟨rfl, .inr ⟨rfl, fun s eq => (nomatch eq), fun ok => (nomatch ok), fun e mem => ?_⟩⟩
      rw [if_neg Bool.false_ne_true, List.append_nil] at mem
      exact .inl (events e mem)

/-- `wrpage (outf, -1)` removes the file opened last unless the page in it cannot be ended. -/
theorem wrpage_last (r : FileResults) (f : OutputFile) :
    (f.wrpage r (-1)).outf.fname = f.fname ∧
      (Failed f (f.wrpage r (-1)).outf ∧ (∀ e ∈ (f.wrpage r (-1)).events, ∃ name, e = .ended name) ∨
        (f.wrpage r (-1)).outf = f ∧ (∀ s, f.stream = some s → s.error = false) ∧
          ∀ e ∈ (f.wrpage r (-1)).events, (∃ name, e = .ended name) ∨ e = .removed f.cfname) := by
  have next : f.nextopage r (-1) = f.endPage r := by
    unfold nextopage
    rw [if_neg fun ok => absurd ok.2 (by decide)]
  obtain ⟨fname, events, ⟨failed, stream⟩ | ⟨fine, same, clear⟩⟩ := endPage_cases r f
  · have kept : f.wrpage r (-1) = f.endPage r := by
      unfold wrpage
      rw [next]
      exact if_neg fun ok => failed ok.1
    rw [kept]
    exact ⟨fname, .inl ⟨stream, events⟩⟩
  · unfold wrpage
    dsimp only
    rw [next, if_pos ⟨fine, rfl⟩]
    cases r.removes with
    | true =>
      refine ⟨fname, .inr ⟨same, clear, fun e mem => ?_⟩⟩
      rcases List.mem_append.1 mem with ended | removed
      · exact .inl (events e ended)
      · rw [same] at removed
        exact .inr (List.mem_singleton.1 removed)
    | false => exact ⟨fname, .inr ⟨same, clear, fun e mem => .inl (events e mem)⟩⟩

end OutputFile

end QFax.Efax

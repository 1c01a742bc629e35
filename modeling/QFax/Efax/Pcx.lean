import Mathlib.Data.List.Chain
import QFax.Efax.ImageFile
import QFax.Efax.LineForms

/-!
# PCX pages

`pcxwrite` writes the bytes of a scan line as runs; `readpcx` drops the data byte behind a run count
and takes the byte after it.  A page is read back when no line needs a run count and `readline` asks
for as many bytes as a line has (`pcx_round_trip_iff`).
-/

namespace QFax.Efax

open Bits ByteOrder

/-! ## Reading -/

/-- A byte that announces a run: both top bits are set. -/
def IsCount (c : UInt8) : Prop := c &&& 0xc0 = 0xc0

instance (c : UInt8) : Decidable (IsCount c) := inferInstanceAs (Decidable (_ = _))

/-- `readpcx`: the bytes stored and those left in the file, or `none` when the read failed. -/
def readpcx (len : Nat) (file : List UInt8) : Option (List UInt8 × List UInt8) :=
  if len = 0 then some ([], file)
  else
    match file with
    | [] => none
    | c :: file =>
      if IsCount c then
        -- a run count; the byte behind it is read and dropped
        match file with
        | _ :: c' :: file =>
          let n := (c &&& 0x3f).toNat
          (readpcx (len - n) file).map fun (p, rest) => (List.replicate (min n len) c' ++ p, rest)
        | _ => none
      else
        (readpcx (len - 1) file).map fun (p, rest) => (c :: p, rest)
termination_by file.length

/-- `fgetc` at an offset. -/
def fgetcAt (file : List UInt8) (offset : Nat) : Int :=
  match file[offset]? with
  | some c => c.toNat
  | none => -1

/-- `fgeti` at an offset. -/
def fgeti (file : List UInt8) (offset : Nat) : Int :=
  fgetcAt file offset + fgetcAt file (offset + 1) * 256

/-- `pcx_first`: the page that starts at an offset of a file. -/
def pcxFirst (file : List UInt8) (start : Nat) (page : PageInfo) : PageInfo :=
  let xmin := fgeti file (start + 4)
  let ymin := fgeti file (start + 6)
  let xmax := fgeti file (start + 8)
  let ymax := fgeti file (start + 10)
  { page with
    w := xmax - xmin + 1
    h := ymax - ymin + 1
    xres := fgeti file (start + 12)
    yres := fgeti file (start + 14)
    offset := start + 128
    format := .pcx }

/-- `xinvert`. -/
def xinvert : List Int → List Int
  | 0 :: runs => runs
  | runs => 0 :: runs

/-- `readline` on a PCX page: runs, width, the lines left and the rest of the file, or `none` at the
end of the page. -/
def readlinePcx (page : PageInfo) (lines : Int) (file : List UInt8) :
    Option ((List Int × Int) × Int × List UInt8) :=
  if lines ≠ 0 then
    match readpcx (pcxLineBytes page.w).toNat file with
    | none => none
    | some (bits, file) =>
      let runs := bittorun bits
      some ((if page.blackIsZero then xinvert runs else runs, page.w),
        if 0 < lines then lines - 1 else lines, file)
  else none

/-- Read lines up to the end of the page; the first argument bounds them. -/
def readPcxLines (page : PageInfo) : Nat → Int → List UInt8 → Option (List (List Int × Int))
  | 0, _, _ => none
  | fuel + 1, lines, file =>
    match readlinePcx page lines file with
    | none => some []
    | some (row, lines, file) => (readPcxLines page fuel lines file).map (row :: ·)

/-- Open a PCX file, as `nextipage` does, and read its page. -/
def readPcxPage (fuel : Nat) (file : List UInt8) : Option (List (List Int × Int)) :=
  let page := pcxFirst file 0 pageInit
  readPcxLines page fuel page.h (file.drop page.offset.toNat)

/-! ## Tokens -/

/-- A run of `pcxwrite` is announced by a count. -/
def Counted (n : Nat) (v : UInt8) : Prop := 1 < n ∨ IsCount v

/-- The runs that `pcxwrite` makes of a line whose first `n` bytes are `runc`. -/
def pcxRuns (runc : UInt8) (n : Nat) : List UInt8 → List (Nat × UInt8)
  | [] => [(n, runc)]
  | c :: p =>
    if c = runc ∧ n < 63 then pcxRuns runc (n + 1) p else (n, runc) :: pcxRuns c 1 p

/-- The bytes that runs are written as. -/
def codeBytes (ts : List (Nat × UInt8)) : List UInt8 := ts.flatMap fun (n, v) => pcxRun n v

/-- The bytes that runs stand for. -/
def expand (ts : List (Nat × UInt8)) : List UInt8 := ts.flatMap fun (n, v) => List.replicate n v

/-- Two neighbouring runs with one value: the first is as long as a run can be. -/
def Split (s t : Nat × UInt8) : Prop := s.2 = t.2 → s.1 = 63

/-- Runs as `pcxwrite` makes them. -/
structure PcxRuns (ts : List (Nat × UInt8)) : Prop where
  short : ∀ t ∈ ts, 1 ≤ t.1 ∧ t.1 ≤ 63
  split : ts.IsChain Split

theorem pcxLoop_eq (runc : UInt8) (n : Nat) (p : List UInt8) :
    pcxLoop runc n p = codeBytes (pcxRuns runc n p) := by
  induction p generalizing runc n with
  | nil => simp [pcxLoop, pcxRuns, codeBytes]
  | cons c p ih =>
    rw [pcxLoop, pcxRuns]
    split
    · exact ih runc (n + 1)
    · rw [ih c 1]
      rfl

theorem expand_pcxRuns (runc : UInt8) (n : Nat) (p : List UInt8) :
    expand (pcxRuns runc n p) = List.replicate n runc ++ p := by
  induction p generalizing runc n with
  | nil => simp [pcxRuns, expand]
  | cons c p ih =>
    rw [pcxRuns]
    split
    case isTrue same =>
      rw [ih runc (n + 1), same.1, List.replicate_succ', List.append_assoc, List.singleton_append]
    case isFalse =>
      have rest := ih c 1
      rw [List.replicate_one, List.singleton_append] at rest
      rw [← rest]
      rfl

/-- The first run has the first value. -/
theorem pcxRuns_head (runc : UInt8) (n : Nat) (p : List UInt8) :
    ∃ m ts, pcxRuns runc n p = (m, runc) :: ts := by
  induction p generalizing n with
  | nil => exact ⟨n, [], rfl⟩
  | cons c p ih =>
    rw [pcxRuns]
    split
    · exact ih (n + 1)
    · exact ⟨n, _, rfl⟩

theorem pcxRuns_runs (runc : UInt8) {n : Nat} (pos : 1 ≤ n) (le : n ≤ 63) (p : List UInt8) :
    PcxRuns (pcxRuns runc n p) := by
  induction p generalizing runc n with
  | nil => exact ⟨by simpa [pcxRuns] using ⟨pos, le⟩, List.IsChain.singleton _⟩
  | cons c p ih =>
    rw [pcxRuns]
    split
    case isTrue same => exact ih runc (by omega) (by omega)
    case isFalse differs =>
      obtain ⟨short, split⟩ := ih c le_rfl (by decide)
      obtain ⟨m, ts, head⟩ := pcxRuns_head c 1 p
      rw [head] at short split ⊢
      constructor
      · intro t member
        rcases List.mem_cons.mp member with rfl | member
        · exact ⟨pos, le⟩
        · exact short t member
      · refine List.IsChain.cons_cons ?_ split
        intro same
        show n = 63
        have full : ¬ n < 63 := fun lt => differs ⟨same.symm, lt⟩
        omega

theorem PcxRuns.tail {t : Nat × UInt8} {ts : List (Nat × UInt8)} (runs : PcxRuns (t :: ts)) :
    PcxRuns ts :=
  ⟨fun s member => runs.short s (List.mem_cons_of_mem t member), runs.split.tail⟩

theorem PcxRuns.head {t : Nat × UInt8} {ts : List (Nat × UInt8)} (runs : PcxRuns (t :: ts)) :
    1 ≤ t.1 ∧ t.1 ≤ 63 :=
  runs.short t List.mem_cons_self

theorem isCount_code {n : Nat} (le : n ≤ 63) :
    IsCount (UInt8.ofNat n ||| 0xc0) ∧ ((UInt8.ofNat n ||| 0xc0) &&& 0x3f).toNat = n := by
  have all : ∀ n : Fin 64, IsCount (UInt8.ofNat n ||| 0xc0) ∧
      ((UInt8.ofNat n ||| 0xc0) &&& 0x3f).toNat = n := by decide
  exact all ⟨n, by omega⟩

theorem runCount_le (c : UInt8) : (c &&& 0x3f).toNat ≤ 63 := by
  rw [UInt8.toNat_and]
  exact Nat.and_le_right

theorem pcxRun_counted {n : Nat} {v : UInt8} (counted : Counted n v) :
    pcxRun n v = [UInt8.ofNat n ||| 0xc0, v] :=
  if_pos counted

theorem pcxRun_single {n : Nat} {v : UInt8} (single : ¬ Counted n v) : pcxRun n v = [v] :=
  if_neg single

/-! ## One step of the reader -/

theorem readpcx_zero (file : List UInt8) : readpcx 0 file = some ([], file) := by
  rw [readpcx.eq_def, if_pos rfl]

theorem readpcx_byte {c : UInt8} (single : ¬ IsCount c) (len : Nat) (file : List UInt8) :
    readpcx (len + 1) (c :: file) = (readpcx len file).map fun (p, rest) => (c :: p, rest) := by
  rw [readpcx.eq_def, if_neg (Nat.succ_ne_zero len)]
  exact if_neg single

theorem readpcx_count {c : UInt8} (count : IsCount c) {len : Nat} (pos : len ≠ 0)
    (x c' : UInt8) (file : List UInt8) :
    readpcx len (c :: x :: c' :: file) =
      (readpcx (len - (c &&& 0x3f).toNat) file).map fun (p, rest) =>
        (List.replicate (min (c &&& 0x3f).toNat len) c' ++ p, rest) := by
  rw [readpcx.eq_def, if_neg pos]
  exact if_pos count

/-- What is left of a file is no longer than the file, and shorter when a byte was asked for. -/
theorem readpcx_rest {len : Nat} {file p rest : List UInt8}
    (read : readpcx len file = some (p, rest)) :
    p.length = len ∧ rest.length ≤ file.length ∧ (len ≠ 0 → rest.length < file.length) := by
  induction size : file.length using Nat.strong_induction_on generalizing len file p with
  | _ k ih =>
    subst size
    rcases Nat.eq_zero_or_pos len with rfl | pos
    · rw [readpcx_zero] at read
      obtain ⟨rfl, rfl⟩ : [] = p ∧ file = rest := by simpa using read
      exact ⟨rfl, le_rfl, fun pos => absurd rfl pos⟩
    · rw [readpcx.eq_def, if_neg (by omega)] at read
      split at read
      case h_1 => cases read
      case h_2 c file =>
        split at read
        case isTrue count =>
          split at read
          case h_2 => cases read
          case h_1 x c' file =>
            obtain ⟨⟨p', rest'⟩, inner, same⟩ := Option.map_eq_some_iff.mp read
            obtain ⟨rfl, rfl⟩ := Prod.mk.inj same
            obtain ⟨length, le, -⟩ := ih file.length (by simp; omega) inner rfl
            rw [List.length_append, List.length_replicate, length, List.length_cons,
              List.length_cons, List.length_cons]
            omega
        case isFalse single =>
          obtain ⟨⟨p', rest'⟩, inner, same⟩ := Option.map_eq_some_iff.mp read
          obtain ⟨rfl, rfl⟩ := Prod.mk.inj same
          obtain ⟨length, le, -⟩ := ih file.length (by simp) inner rfl
          rw [List.length_cons, List.length_cons, length]
          omega

/-- A byte that is no count was stored as it is. -/
theorem readpcx_byte_inv {c : UInt8} (single : ¬ IsCount c) {d file rest : List UInt8}
    (ne : d ≠ []) (read : readpcx d.length (c :: file) = some (d, rest)) :
    ∃ d', d = c :: d' ∧ readpcx d'.length file = some (d', rest) := by
  obtain ⟨first, d', rfl⟩ := List.exists_cons_of_ne_nil ne
  rw [List.length_cons, readpcx_byte single] at read
  obtain ⟨⟨p, rest'⟩, inner, same⟩ := Option.map_eq_some_iff.mp read
  obtain ⟨head, rfl⟩ := Prod.mk.inj same
  obtain ⟨rfl, rfl⟩ := List.cons.inj head
  exact ⟨p, rfl, inner⟩

/-- A count was followed by two bytes, and copies of the second were stored. -/
theorem readpcx_count_inv {c : UInt8} (count : IsCount c) {d file rest : List UInt8}
    (ne : d ≠ []) (read : readpcx d.length (c :: file) = some (d, rest)) :
    ∃ x c' file' d', file = x :: c' :: file' ∧
      d = List.replicate (min (c &&& 0x3f).toNat d.length) c' ++ d' ∧
      readpcx d'.length file' = some (d', rest) := by
  have pos : d.length ≠ 0 := by rw [Ne, List.length_eq_zero_iff]; exact ne
  match file with
  | [] =>
    rw [readpcx.eq_def, if_neg pos] at read
    cases (if_pos count).symm.trans read
  | [x] =>
    rw [readpcx.eq_def, if_neg pos] at read
    cases (if_pos count).symm.trans read
  | x :: c' :: file' =>
    rw [readpcx_count count pos] at read
    obtain ⟨⟨p, rest'⟩, inner, same⟩ := Option.map_eq_some_iff.mp read
    obtain ⟨stored, rfl⟩ := Prod.mk.inj same
    obtain ⟨length, -⟩ := readpcx_rest inner
    rw [← length] at inner
    exact ⟨x, c', file', p, rfl, stored.symm, inner⟩

/-! ## Behind the writer -/

/-- Between two runs, with bytes in front of theirs still to be stored, the reader does not end with
the line. -/
def Behind (rest : List UInt8) (ts : List (Nat × UInt8)) : Prop :=
  ∀ pend, pend ≠ [] → readpcx (pend ++ expand ts).length (codeBytes ts ++ rest) ≠
    some (pend ++ expand ts, rest)

/-- Behind the count of a run of `v`, the reader does not end with the line. -/
def Inside (rest : List UInt8) (m : Nat) (v : UInt8) (ts : List (Nat × UInt8)) : Prop :=
  ∀ pend, readpcx (pend ++ List.replicate m v ++ expand ts).length (v :: codeBytes ts ++ rest) ≠
    some (pend ++ List.replicate m v ++ expand ts, rest)

theorem expand_nil : expand [] = [] := rfl

theorem expand_cons (n : Nat) (v : UInt8) (ts : List (Nat × UInt8)) :
    expand ((n, v) :: ts) = List.replicate n v ++ expand ts := rfl

theorem codeBytes_cons (n : Nat) (v : UInt8) (ts : List (Nat × UInt8)) :
    codeBytes ((n, v) :: ts) = pcxRun n v ++ codeBytes ts := rfl

/-- Copies stored from within `a` leave the rest of `a` to be stored. -/
theorem left_of_stored {a b d' : List UInt8} {j : Nat} {y : UInt8}
    (stored : a ++ b = List.replicate j y ++ d') (le : j ≤ a.length) : d' = a.drop j ++ b := by
  have dropped := congrArg (List.drop j) stored
  rw [List.drop_append_of_le_length le, List.drop_left' List.length_replicate] at dropped
  exact dropped.symm

theorem length_append_replicate (a : List UInt8) (n : Nat) (v : UInt8) :
    (a ++ List.replicate n v).length = a.length + n := by
  rw [List.length_append, List.length_replicate]

theorem drop_ne_nil {a : List UInt8} {j : Nat} (lt : j < a.length) : a.drop j ≠ [] := by
  intro empty
  have length := congrArg List.length empty
  rw [List.length_drop, List.length_nil] at length
  omega

/-- Copies stored from within bytes in front of the runs leave some of these to be stored. -/
theorem Behind.not_stored {rest : List UInt8} {ts : List (Nat × UInt8)} (behind : Behind rest ts)
    {a d' : List UInt8} {j : Nat} {y : UInt8} (stored : a ++ expand ts = List.replicate j y ++ d')
    (lt : j < a.length) : readpcx d'.length (codeBytes ts ++ rest) ≠ some (d', rest) := by
  rw [left_of_stored stored lt.le]
  exact behind _ (drop_ne_nil lt)

theorem Inside.not_stored {rest : List UInt8} {m : Nat} {v : UInt8} {ts : List (Nat × UInt8)}
    (inside : Inside rest m v ts) {a d' : List UInt8} {j : Nat} {y : UInt8}
    (stored : a ++ (List.replicate m v ++ expand ts) = List.replicate j y ++ d')
    (le : j ≤ a.length) : readpcx d'.length (v :: codeBytes ts ++ rest) ≠ some (d', rest) := by
  rw [left_of_stored stored le, ← List.append_assoc]
  exact inside _

/-- The reader reads beyond a line only when it takes bytes of the next one. -/
theorem not_beyond (len : Nat) {file rest d : List UInt8} (lt : file.length < rest.length) :
    readpcx len file ≠ some (d, rest) := by
  intro read
  have le := (readpcx_rest read).2.1
  omega

/-- A count at the start of a run. -/
theorem counted_step {rest : List UInt8} {n : Nat} {v : UInt8} {ts : List (Nat × UInt8)}
    (runs : PcxRuns ((n, v) :: ts)) (counted : Counted n v)
    (behind : ∀ ts', PcxRuns ts' → ts'.length < ts.length → Behind rest ts')
    (inside : ∀ m w ts', PcxRuns ((m, w) :: ts') → Counted m w → ts'.length < ts.length →
      Inside rest m w ts') (pend : List UInt8) :
    readpcx (pend ++ expand ((n, v) :: ts)).length (codeBytes ((n, v) :: ts) ++ rest) ≠
      some (pend ++ expand ((n, v) :: ts), rest) := by
  obtain ⟨pos, le⟩ : 1 ≤ n ∧ n ≤ 63 := runs.head
  obtain ⟨isCount, value⟩ := isCount_code le
  intro read
  rw [codeBytes_cons, pcxRun_counted counted, expand_cons] at read
  have copies : (List.replicate n v).length = n := List.length_replicate
  have ne : pend ++ (List.replicate n v ++ expand ts) ≠ [] := by
    intro empty
    have length := congrArg List.length empty
    rw [List.length_append, List.length_append, copies, List.length_nil] at length
    omega
  obtain ⟨x, y, file, d', follow, stored, inner⟩ := readpcx_count_inv isCount ne read
  rw [value, List.length_append, List.length_append, copies,
    Nat.min_eq_left (by omega)] at stored
  obtain ⟨-, next⟩ := List.cons.inj follow
  rw [← List.append_assoc] at stored
  cases ts with
  | nil =>
    -- the byte stored is one of the next line
    have shorter : file.length < rest.length := by
      have lengths := congrArg List.length next
      rw [List.length_cons] at lengths
      simp [codeBytes] at lengths
      omega
    exact not_beyond _ shorter inner
  | cons t ts =>
    obtain ⟨k, w⟩ := t
    rw [codeBytes_cons, expand_cons] at *
    by_cases more : Counted k w
    · -- it is the count of the next run
      rw [pcxRun_counted more] at next
      obtain ⟨-, rfl⟩ := List.cons.inj next
      have within : n ≤ (pend ++ List.replicate n v).length := by
        rw [List.length_append, copies]
        omega
      exact (inside k w ts runs.tail more (Nat.lt_succ_self _)).not_stored stored within inner
    · -- it is the next byte of the line
      have single : k = 1 := by
        have first := runs.tail.head.1
        have one : ¬ 1 < k := fun lt => more (Or.inl lt)
        omega
      rw [pcxRun_single more] at next
      obtain ⟨-, rfl⟩ := List.cons.inj next
      rw [single, ← List.append_assoc] at stored
      have size : n < (pend ++ List.replicate n v ++ List.replicate 1 w).length := by
        rw [List.length_append, List.length_append, copies, List.length_replicate]
        omega
      exact (behind ts runs.tail.tail (Nat.lt_succ_self _)).not_stored stored size inner

/-- Copies of one value, no more than a run count can say, end within the run they start in. -/
theorem stored_within {m : Nat} {v : UInt8} {ts : List (Nat × UInt8)} (runs : PcxRuns ((m, v) :: ts))
    {pend d' : List UInt8} {j : Nat} {y : UInt8} (le : j ≤ 63)
    (stored : pend ++ List.replicate m v ++ expand ts = List.replicate j y ++ d') :
    j ≤ (pend ++ List.replicate m v).length := by
  obtain ⟨pos, -⟩ : 1 ≤ m ∧ m ≤ 63 := runs.head
  by_contra beyond
  have size : (pend ++ List.replicate m v).length = pend.length + m :=
    length_append_replicate pend m v
  have value (i : Nat) (lt : i < j) :
      (pend ++ List.replicate m v ++ expand ts)[i]? = some y := by
    rw [stored, List.getElem?_append_left (by rwa [List.length_replicate]),
      List.getElem?_replicate_of_lt lt]
  have run := value pend.length (by omega)
  rw [List.getElem?_append_left (by omega), List.getElem?_append_right le_rfl, Nat.sub_self,
    List.getElem?_replicate_of_lt (by omega)] at run
  have behind := value (pend ++ List.replicate m v).length (by omega)
  rw [List.getElem?_append_right le_rfl, Nat.sub_self] at behind
  cases ts with
  | nil => cases behind
  | cons t ts =>
    obtain ⟨k, w⟩ := t
    have some : 1 ≤ k := runs.tail.head.1
    rw [expand_cons, List.getElem?_append_left (by rw [List.length_replicate]; omega),
      List.getElem?_replicate_of_lt (by omega)] at behind
    -- two runs of one value: the first has all the copies there can be
    have same : v = w := (Option.some.inj run).trans (Option.some.inj behind).symm
    have full : m = 63 := (List.isChain_cons_cons.mp runs.split).1 same
    omega

/-- Copies are stored, and a byte of the line that is stored as it is gets dropped. -/
theorem dropped_step {rest : List UInt8} {w : UInt8} {ts : List (Nat × UInt8)}
    (runs : PcxRuns ts) {a d' file : List UInt8} {j : Nat} {y z : UInt8}
    (behind : ∀ ts', PcxRuns ts' → ts'.length < ts.length → Behind rest ts')
    (inside : ∀ k w ts', PcxRuns ((k, w) :: ts') → Counted k w → ts'.length < ts.length →
      Inside rest k w ts')
    (stored : a ++ (List.replicate 1 w ++ expand ts) = List.replicate j z ++ d') (le : j ≤ a.length)
    (follow : codeBytes ts ++ rest = y :: file) : readpcx d'.length file ≠ some (d', rest) := by
  cases ts with
  | nil =>
    have lengths := congrArg List.length follow
    refine not_beyond d'.length ?_
    simp only [codeBytes, List.flatMap_nil, List.nil_append, List.length_cons] at lengths
    omega
  | cons t ts =>
    obtain ⟨l, u⟩ := t
    rw [codeBytes_cons] at follow
    rw [expand_cons, ← List.append_assoc] at stored
    obtain ⟨pos, -⟩ : 1 ≤ l ∧ l ≤ 63 := runs.head
    have longer : (a ++ List.replicate 1 w).length = a.length + 1 := length_append_replicate _ 1 w
    by_cases counted : Counted l u
    · rw [pcxRun_counted counted] at follow
      obtain ⟨-, rfl⟩ := List.cons.inj follow
      exact (inside l u ts runs counted (Nat.lt_succ_self _)).not_stored stored (by omega)
    · rw [pcxRun_single counted] at follow
      obtain ⟨-, rfl⟩ := List.cons.inj follow
      rw [← List.append_assoc] at stored
      have long : j < (a ++ List.replicate 1 w ++ List.replicate l u).length := by
        rw [length_append_replicate]
        omega
      exact (behind ts runs.tail (Nat.lt_succ_self _)).not_stored stored long

/-- The value of a run, read as the start of something new. -/
theorem value_step {rest : List UInt8} {m : Nat} {v : UInt8} {ts : List (Nat × UInt8)}
    (runs : PcxRuns ((m, v) :: ts)) (counted : Counted m v)
    (behind : ∀ ts', PcxRuns ts' → ts'.length ≤ ts.length → Behind rest ts')
    (inside : ∀ k w ts', PcxRuns ((k, w) :: ts') → Counted k w → ts'.length < ts.length →
      Inside rest k w ts') : Inside rest m v ts := by
  intro pend read
  obtain ⟨pos, le⟩ : 1 ≤ m ∧ m ≤ 63 := runs.head
  have size : (pend ++ List.replicate m v).length = pend.length + m :=
    length_append_replicate pend m v
  have ne : pend ++ List.replicate m v ++ expand ts ≠ [] := by
    intro empty
    have length := congrArg List.length empty
    rw [List.length_append, size, List.length_nil] at length
    omega
  rw [List.cons_append] at read
  by_cases isCount : IsCount v
  · -- the value is taken for a count
    obtain ⟨x, y, file, d', follow, stored, inner⟩ := readpcx_count_inv isCount ne read
    have within := stored_within runs ((Nat.min_le_left _ _).trans (runCount_le v)) stored
    generalize min (v &&& 0x3f).toNat (pend ++ List.replicate m v ++ expand ts).length = j
      at stored within
    cases ts with
    | nil =>
      have lengths := congrArg List.length follow
      refine not_beyond d'.length ?_ inner
      simp only [codeBytes, List.flatMap_nil, List.nil_append, List.length_cons] at lengths
      omega
    | cons t ts =>
      obtain ⟨k, w⟩ := t
      rw [codeBytes_cons] at follow
      rw [expand_cons] at stored
      obtain ⟨kPos, -⟩ : 1 ≤ k ∧ k ≤ 63 := runs.tail.head
      by_cases more : Counted k w
      · -- the next run, with its count dropped
        rw [pcxRun_counted more] at follow
        obtain ⟨-, follow⟩ := List.cons.inj follow
        obtain ⟨-, rfl⟩ := List.cons.inj follow
        rw [← List.append_assoc] at stored
        have long : j < (pend ++ List.replicate m v ++ List.replicate k w).length := by
          rw [length_append_replicate]
          omega
        exact (behind ts runs.tail.tail (Nat.le_succ _)).not_stored stored long inner
      · -- the next byte dropped
        rw [pcxRun_single more] at follow
        obtain ⟨-, follow⟩ := List.cons.inj follow
        have one : k = 1 := by
          have no : ¬ 1 < k := fun lt => more (Or.inl lt)
          omega
        rw [one] at stored
        exact dropped_step runs.tail.tail
          (fun ts' runs' less => behind ts' runs' (less.le.trans (Nat.le_succ _)))
          (fun k w ts' runs' counted' less =>
            inside k w ts' runs' counted' (less.trans (Nat.lt_succ_self _)))
          stored within follow inner
  · -- the value is stored once; its run is longer
    obtain ⟨d', stored, inner⟩ := readpcx_byte_inv isCount ne read
    have long : 1 < (pend ++ List.replicate m v).length := by
      rcases counted with longer | isCount'
      · omega
      · exact absurd isCount' isCount
    have once : pend ++ List.replicate m v ++ expand ts = List.replicate 1 v ++ d' := stored
    exact (behind ts runs.tail le_rfl).not_stored once long inner

/-- A byte of the line that is stored as it is does not make up for bytes in front of it. -/
theorem single_step {rest : List UInt8} {n : Nat} {v : UInt8} {ts : List (Nat × UInt8)}
    (runs : PcxRuns ((n, v) :: ts)) (single : ¬ Counted n v) (behind : Behind rest ts) :
    Behind rest ((n, v) :: ts) := by
  intro pend ne read
  have one : n = 1 := by
    have pos : 1 ≤ n := runs.head.1
    have no : ¬ 1 < n := fun lt => single (Or.inl lt)
    omega
  subst one
  rw [codeBytes_cons, pcxRun_single single, expand_cons, ← List.append_assoc] at read
  have size : 1 < (pend ++ List.replicate 1 v).length := by
    have pos := List.length_pos_of_ne_nil ne
    rw [List.length_append, List.length_replicate]
    omega
  obtain ⟨d', stored, inner⟩ := readpcx_byte_inv (fun count => single (Or.inr count))
    (by intro empty; simp at empty) read
  have left := left_of_stored (j := 1) (y := v) stored size.le
  rw [left] at inner
  exact behind _ (drop_ne_nil size) inner

/-- The reader stays behind. -/
theorem stays_behind (rest : List UInt8) (k : Nat) :
    (∀ ts, PcxRuns ts → ts.length ≤ k → Behind rest ts) ∧
      (∀ m v ts, PcxRuns ((m, v) :: ts) → Counted m v → ts.length ≤ k → Inside rest m v ts) := by
  induction k with
  | zero =>
    have between (ts) (short : ts.length ≤ 0) : Behind rest ts := by
      obtain rfl := List.length_eq_zero_iff.mp (Nat.le_zero.mp short)
      intro pend ne read
      rw [expand_nil, List.append_nil] at read
      exact Nat.lt_irrefl _ ((readpcx_rest read).2.2 (by rwa [Ne, List.length_eq_zero_iff]))
    refine ⟨fun ts _ short => between ts short, fun m v ts runs counted short => ?_⟩
    refine value_step runs counted (fun ts' _ le => between ts' (by omega)) ?_
    intro k w ts' _ _ lt
    omega
  | succ k ih =>
    obtain ⟨behind, inside⟩ := ih
    have between : ∀ ts, PcxRuns ts → ts.length ≤ k + 1 → Behind rest ts := by
      intro ts runs short
      cases ts with
      | nil => exact behind [] runs (Nat.zero_le k)
      | cons t ts =>
        obtain ⟨n, v⟩ := t
        rw [List.length_cons] at short
        by_cases counted : Counted n v
        · intro pend _
          exact counted_step runs counted (fun ts' runs' lt => behind ts' runs' (by omega))
            (fun m w ts' runs' more lt => inside m w ts' runs' more (by omega)) pend
        · exact single_step runs counted (behind ts runs.tail (by omega))
    refine ⟨between, fun m v ts runs counted short => ?_⟩
    exact value_step runs counted (fun ts' runs' le => between ts' runs' (by omega))
      (fun l w ts' runs' more lt => inside l w ts' runs' more (by omega))

/-- A line with a count is not read back with the bytes that were written for it. -/
theorem counted_not_read (rest : List UInt8) {ts : List (Nat × UInt8)} (runs : PcxRuns ts)
    (some_counted : ∃ t ∈ ts, Counted t.1 t.2) :
    readpcx (expand ts).length (codeBytes ts ++ rest) ≠ some (expand ts, rest) := by
  induction ts with
  | nil =>
    obtain ⟨t, member, -⟩ := some_counted
    cases member
  | cons t ts ih =>
    obtain ⟨n, v⟩ := t
    obtain ⟨behind, inside⟩ := stays_behind rest ts.length
    by_cases counted : Counted n v
    · exact counted_step runs counted (fun ts' runs' lt => behind ts' runs' lt.le)
        (fun m w ts' runs' more lt => inside m w ts' runs' more lt.le) []
    · intro read
      have one : n = 1 := by
        have pos : 1 ≤ n := runs.head.1
        have no : ¬ 1 < n := fun lt => counted (Or.inl lt)
        omega
      subst one
      rw [codeBytes_cons, pcxRun_single counted, expand_cons] at read
      obtain ⟨d', stored, inner⟩ := readpcx_byte_inv (fun count => counted (Or.inr count))
        (by intro empty; simp at empty) read
      obtain ⟨-, rfl⟩ := List.cons.inj stored
      refine ih runs.tail ?_ inner
      obtain ⟨t, member, more⟩ := some_counted
      rcases List.mem_cons.mp member with rfl | member
      · exact absurd more counted
      · exact ⟨t, member, more⟩

/-- No byte of a line needs a run count: neighbours differ and none has both top bits set. -/
def NoRunCode (p : List UInt8) : Prop := p.IsChain (· ≠ ·) ∧ ∀ c ∈ p, ¬ IsCount c

/-- Without counts a line is written as it is. -/
theorem uncounted_bytes {ts : List (Nat × UInt8)} (runs : PcxRuns ts)
    (uncounted : ∀ t ∈ ts, ¬ Counted t.1 t.2) :
    codeBytes ts = expand ts ∧ NoRunCode (expand ts) := by
  induction ts with
  | nil => exact ⟨rfl, List.IsChain.nil, by simp [expand]⟩
  | cons t ts ih =>
    obtain ⟨n, v⟩ := t
    have single : ¬ Counted n v := uncounted _ List.mem_cons_self
    have one : n = 1 := by
      have pos : 1 ≤ n := runs.head.1
      have no : ¬ 1 < n := fun lt => single (Or.inl lt)
      omega
    subst one
    obtain ⟨same, chain, bytes⟩ := ih runs.tail fun t member =>
      uncounted t (List.mem_cons_of_mem _ member)
    rw [codeBytes_cons, expand_cons, pcxRun_single single, same]
    refine ⟨rfl, ?_, ?_⟩
    · cases ts with
      | nil => exact List.IsChain.singleton v
      | cons t ts =>
        obtain ⟨k, w⟩ := t
        obtain ⟨j, rfl⟩ : ∃ j, k = j + 1 := ⟨k - 1, by have := runs.tail.head.1; omega⟩
        refine List.IsChain.cons_cons ?_ chain
        intro equal
        have full : 1 = 63 := (List.isChain_cons_cons.mp runs.split).1 equal
        omega
    · intro c member
      rcases List.mem_cons.mp member with rfl | member
      · exact fun count => single (Or.inr count)
      · exact bytes c member

/-- Such a line makes no counts. -/
theorem pcxRuns_uncounted {runc : UInt8} {p : List UInt8} (plain : NoRunCode (runc :: p)) :
    ∀ t ∈ pcxRuns runc 1 p, ¬ Counted t.1 t.2 := by
  induction p generalizing runc with
  | nil =>
    intro t member
    obtain rfl := List.mem_singleton.mp member
    rintro (longer | count)
    · exact absurd longer (Nat.lt_irrefl 1)
    · exact plain.2 runc List.mem_cons_self count
  | cons c p ih =>
    obtain ⟨chain, bytes⟩ := plain
    obtain ⟨differ, chain⟩ := List.isChain_cons_cons.mp chain
    rw [pcxRuns, if_neg fun same => differ same.1.symm]
    intro t member
    rcases List.mem_cons.mp member with rfl | member
    · rintro (longer | count)
      · exact absurd longer (Nat.lt_irrefl 1)
      · exact bytes runc List.mem_cons_self count
    · exact ih ⟨chain, fun d member => bytes d (List.mem_cons_of_mem _ member)⟩ t member

/-- Plain bytes are read as they are. -/
theorem readpcx_plain {p : List UInt8} (plain : ∀ c ∈ p, ¬ IsCount c) (rest : List UInt8) :
    readpcx p.length (p ++ rest) = some (p, rest) := by
  induction p with
  | nil => exact readpcx_zero rest
  | cons c p ih =>
    rw [List.length_cons, List.cons_append, readpcx_byte (plain c List.mem_cons_self),
      ih fun d member => plain d (List.mem_cons_of_mem c member)]
    rfl

/-- A line is read back with the bytes written for it exactly when it needs no run count. -/
theorem readpcx_pcxwrite_iff {p : List UInt8} (ne : p ≠ []) (rest : List UInt8) :
    readpcx p.length (pcxwrite p ++ rest) = some (p, rest) ↔ NoRunCode p := by
  obtain ⟨runc, p, rfl⟩ := List.exists_cons_of_ne_nil ne
  have runs := pcxRuns_runs runc le_rfl (by decide : 1 ≤ 63) p
  have bytes : expand (pcxRuns runc 1 p) = runc :: p := expand_pcxRuns runc 1 p
  rw [pcxwrite, pcxLoop_eq]
  constructor
  · intro read
    have uncounted : ∀ t ∈ pcxRuns runc 1 p, ¬ Counted t.1 t.2 := by
      intro t member counted
      refine counted_not_read rest runs ⟨t, member, counted⟩ ?_
      rwa [bytes]
    rw [← bytes]
    exact (uncounted_bytes runs uncounted).2
  · intro plain
    rw [(uncounted_bytes runs (pcxRuns_uncounted plain)).1, bytes]
    exact readpcx_plain plain.2 rest

/-! ## Pages -/

/-- A page: opened, written line by line and closed. -/
def ImageFile.writePage (bigendian : Bool) (f : ImageFile) (page : Nat) (lines : List (List Int)) :
    ImageFile :=
  ((f.nextopage bigendian (some page)).writelines (lines.map fun runs => (runs, 1))).nextopage
    bigendian none

/-- The image data of a PCX page. -/
def pcxData (lines : List (List Int)) : List UInt8 :=
  lines.flatMap fun runs => pcxwrite (runtobit runs)

/-- The page in a file is the lines that were written, with their width, and nothing else. -/
def ReadsBack (w : Int) (lines : List (List Int)) (file : List UInt8) : Prop :=
  ∃ n rows, (∀ fuel ≥ n, readPcxPage fuel file = some rows) ∧
    List.Forall₂ (fun row line => (∀ r ∈ row.1, 0 ≤ r) ∧ pels .white row.1 = pels .white line ∧
      row.2 = w) rows lines

/-- `readpcx` gets the bytes of every line from those written for it, and no others. -/
def Survive (w : Int) (lines : List (List Int)) : Prop :=
  ∀ before line after, lines = before ++ line :: after →
    readpcx (pcxLineBytes w).toNat (pcxwrite (runtobit line) ++ pcxData after) =
      some (runtobit line, pcxData after)

/-- A scan line of a page of width `w`. -/
structure PageLine (w : Int) (runs : List Int) : Prop where
  nonneg : ∀ r ∈ runs, 0 ≤ r
  sum : runs.sum = w

theorem PageLine.bytes {w : Int} {runs : List Int} (line : PageLine w runs) (whole : 8 ∣ w) :
    bytesBits (runtobit runs) = pels .white runs ∧ ((runtobit runs).length : Int) * 8 = w := by
  have length := length_pels .white line.nonneg
  rw [line.sum] at length
  obtain ⟨same, size⟩ := pels_runtobit (by omega : (pels .white runs).length = 8 * (w / 8).toNat)
  exact ⟨same, by omega⟩

theorem ImageFile.writelines_pcx {f : ImageFile} (pcx : f.format = .pcx) (lines : List (List Int)) :
    (f.writelines (lines.map fun runs => (runs, 1))).data = f.data ++ pcxData lines := by
  induction lines generalizing f with
  | nil => exact (List.append_nil _).symm
  | cons runs lines ih =>
    have one := f.writeline_one runs
    have codes : (f.lineCodes runs).2.1 = pcxwrite (runtobit runs) := by
      rw [ImageFile.lineCodes, pcx]
    rw [List.map_cons, ImageFile.writelines, List.foldl_cons]
    have rest := ih (one.page.format.trans pcx)
    rw [ImageFile.writelines] at rest
    rw [rest, one.data, codes, List.append_assoc]
    rfl

theorem lineCount_once (lines : List (List Int)) :
    lineCount (lines.map fun runs => (runs, 1)) = lines.length := by
  induction lines with
  | nil => rfl
  | cons runs lines ih =>
    rw [lineCount] at ih
    rw [lineCount, List.map_cons, List.map_cons, List.sum_cons, ih, List.length_cons, Nat.add_comm]

/-- The file of a page: a header with its width and height, and its lines. -/
theorem ImageFile.writePage_pcx {f : ImageFile} (pcx : f.format = .pcx) (bigendian : Bool)
    (page : Nat) (lines : List (List Int)) :
    ∃ g : ImageFile, (f.writePage bigendian page lines).data = g.pcxinit ++ pcxData lines ∧
      g.w = f.w ∧ g.h = lines.length := by
  obtain ⟨header, codes, started⟩ := f.nextopage_started bigendian page
  obtain ⟨body, wrote⟩ :=
    (f.nextopage bigendian (some page)).writelines_wrote (lines.map fun runs => (runs, 1))
  have content := ImageFile.writelines_pcx (started.format.trans pcx) lines
  refine ⟨(f.nextopage bigendian (some page)).writelines (lines.map fun runs => (runs, 1)), ?_,
    wrote.page.w.trans started.w, ?_⟩
  · have format := wrote.page.format.trans (started.format.trans pcx)
    have opened := wrote.page.isOpen.trans started.isOpen
    rw [started.data, started.fax (by rw [pcx]; decide), List.append_nil] at content
    have size : header.length = 128 := by rw [started.size, pcx]; rfl
    unfold ImageFile.writePage
    generalize (f.nextopage bigendian (some page)).writelines (lines.map fun runs => (runs, 1)) = g
      at *
    have closed : (g.nextopage bigendian none).data = g.pcxinit ++ g.data.drop 128 := by
      obtain ⟨format', xres, yres, w, h, bytes, e, isOpen, data, closed⟩ := g
      obtain rfl : format' = .pcx := format
      obtain rfl : isOpen = true := opened
      rw [← length_pcxinit ⟨.pcx, xres, yres, w, h, bytes, e, true, data, closed⟩]
      rfl
    rw [closed, content, List.drop_left' size]
  · rw [wrote.h, started.h, if_neg (by rw [pcx]; decide), lineCount_once]
    exact Int.zero_add _

theorem fgeti_store (as bs : List UInt8) (n : Int) :
    fgeti (as ++ store false 2 n ++ bs) as.length = n % 65536 := by
  have low : (as ++ store false 2 n ++ bs)[as.length]? =
      some (UInt8.ofNat (n % 65536).toNat) := by
    rw [List.append_assoc, List.getElem?_append_right le_rfl, Nat.sub_self]
    rfl
  have high : (as ++ store false 2 n ++ bs)[as.length + 1]? =
      some (UInt8.ofNat ((n % 65536).toNat / 256)) := by
    rw [List.append_assoc, List.getElem?_append_right (Nat.le_add_right _ 1),
      Nat.add_sub_cancel_left]
    rfl
  rw [fgeti, fgetcAt, fgetcAt, low, high]
  simp only [UInt8.toNat_ofNat']
  have nonneg : 0 ≤ n % 65536 := Int.emod_nonneg n (by decide)
  have upper : n % 65536 < 65536 := Int.emod_lt_of_pos n (by decide)
  omega

/-- The page of a file that starts with a header. -/
theorem pcxFirst_pcxinit (g : ImageFile) (body : List UInt8) :
    (pcxFirst (g.pcxinit ++ body) 0 pageInit).w = (g.w - 1) % 65536 + 1 ∧
      (pcxFirst (g.pcxinit ++ body) 0 pageInit).h = (g.h - 1) % 65536 + 1 ∧
      (pcxFirst (g.pcxinit ++ body) 0 pageInit).offset.toNat = 128 ∧
      (pcxFirst (g.pcxinit ++ body) 0 pageInit).blackIsZero = false := by
  have field (n : Int) (as bs : List UInt8) (offset : Nat) (file : g.pcxinit ++ body =
      as ++ store false 2 n ++ bs) (at_ : as.length = offset) :
      fgeti (g.pcxinit ++ body) offset = n % 65536 := by
    rw [file, ← at_]
    exact fgeti_store as bs n
  have xmin := field 0 [0x0a, 3, 1, 1] _ 4 rfl rfl
  have ymin := field 0 ([0x0a, 3, 1, 1] ++ fputi 0) _ 6 rfl rfl
  have xmax := field (g.w - 1) ([0x0a, 3, 1, 1] ++ fputi 0 ++ fputi 0) _ 8 rfl rfl
  have ymax := field (g.h - 1) ([0x0a, 3, 1, 1] ++ fputi 0 ++ fputi 0 ++ fputi (g.w - 1)) _ 10
    rfl (by simp [fputi])
  refine ⟨?_, ?_, rfl, rfl⟩
  · show fgeti (g.pcxinit ++ body) 8 - fgeti (g.pcxinit ++ body) 4 + 1 = _
    rw [xmin, xmax]
    omega
  · show fgeti (g.pcxinit ++ body) 10 - fgeti (g.pcxinit ++ body) 6 + 1 = _
    rw [ymin, ymax]
    omega

theorem pcxLineBytes_eq {w : Int} (pos : 0 < w) : pcxLineBytes w = (w + 15) / 16 * 2 := by
  rw [pcxLineBytes, Int.tdiv_eq_ediv_of_nonneg (by omega)]

/-- A page ends with its file. -/
theorem readlinePcx_nil {page : PageInfo} (pos : 0 < page.w) (left : Int) :
    readlinePcx page left [] = none := by
  rw [readlinePcx]
  split
  case isFalse => rfl
  case isTrue =>
    have asked := pcxLineBytes_eq pos
    have failed : readpcx (pcxLineBytes page.w).toNat [] = none := by
      rw [readpcx.eq_def, if_neg (by omega)]
    rw [failed]

/-- Lines without run counts are read one by one, and then the page ends. -/
theorem readPcxLines_plain {page : PageInfo} {w : Int} (width : page.w = w) (pos : 0 < w)
    (upper : w ≤ 8184) (whole : 16 ∣ w) (white : page.blackIsZero = false)
    {lines : List (List Int)} (each : ∀ line ∈ lines, PageLine w line)
    (plain : ∀ line ∈ lines, NoRunCode (runtobit line)) {left : Int}
    (counter : left = lines.length ∨ lines = [] ∧ left ≠ 0) {fuel : Nat}
    (enough : lines.length < fuel) :
    readPcxLines page fuel left (pcxData lines) =
      some (lines.map fun line => (bittorun (runtobit line), w)) := by
  have asked : pcxLineBytes w ≠ 0 ∧ (pcxLineBytes w).toNat * 8 = w.toNat := by
    rw [pcxLineBytes_eq pos]
    omega
  induction lines generalizing left fuel with
  | nil =>
    obtain ⟨fuel, rfl⟩ : ∃ k, fuel = k + 1 := ⟨fuel - 1, by simp at enough; omega⟩
    rw [readPcxLines]
    have ended : readlinePcx page left (pcxData []) = none := readlinePcx_nil (by omega) left
    rw [ended]
    rfl
  | cons line lines ih =>
    obtain ⟨fuel, rfl⟩ : ∃ k, fuel = k + 1 := ⟨fuel - 1, by simp at enough; omega⟩
    have first := (each line List.mem_cons_self).bytes (dvd_trans (by decide) whole)
    have length : (runtobit line).length = (pcxLineBytes w).toNat := by omega
    have ne : runtobit line ≠ [] := by
      intro empty
      rw [empty, List.length_nil] at first
      omega
    have read := (readpcx_pcxwrite_iff ne (pcxData lines)).mpr (plain line List.mem_cons_self)
    rw [length] at read
    have counted : left = lines.length + 1 := by
      rcases counter with counter | ⟨empty, -⟩
      · simpa using counter
      · cases empty
    have one : readlinePcx page left (pcxData (line :: lines)) =
        some ((bittorun (runtobit line), w), (lines.length : Int), pcxData lines) := by
      rw [counted, readlinePcx, if_pos (by omega), width]
      have stream : pcxData (line :: lines) = pcxwrite (runtobit line) ++ pcxData lines := rfl
      rw [stream, read]
      simp only [white, Bool.false_eq_true, if_false]
      rw [if_pos (by omega), Int.add_sub_cancel]
    rw [readPcxLines, one]
    simp only
    rw [ih (fun l member => each l (List.mem_cons_of_mem _ member))
      (fun l member => plain l (List.mem_cons_of_mem _ member)) (Or.inl rfl)
      (by simpa using enough)]
    rfl

/-- Every line is read back with its own bytes exactly when as many bytes are asked for as a line
has and no line needs a run count. -/
theorem survive_iff {w : Int} (pos : 0 < w) (whole : 8 ∣ w) {lines : List (List Int)}
    (each : ∀ line ∈ lines, PageLine w line) :
    Survive w lines ↔ ∀ line ∈ lines, 16 ∣ w ∧ NoRunCode (runtobit line) := by
  have words := pcxLineBytes_eq pos
  have filled (line) (member : line ∈ lines) : runtobit line ≠ [] := by
    have size := ((each line member).bytes whole).2
    intro empty
    rw [empty, List.length_nil] at size
    omega
  constructor
  · intro recovers line member
    obtain ⟨before, after, parts⟩ := List.append_of_mem member
    have read := recovers before line after parts
    have length := (readpcx_rest read).1
    have size := ((each line member).bytes whole).2
    rw [← length] at read
    exact ⟨by omega, (readpcx_pcxwrite_iff (filled line member) (pcxData after)).mp read⟩
  · intro plain before line after parts
    have member : line ∈ lines := by rw [parts]; simp
    obtain ⟨multiple, noRun⟩ := plain line member
    have size := ((each line member).bytes whole).2
    have length : (runtobit line).length = (pcxLineBytes w).toNat := by omega
    rw [← length]
    exact (readpcx_pcxwrite_iff (filled line member) (pcxData after)).mpr noRun

/-- A page of scan lines of whole bytes is read back, and every line with its own bytes, exactly when
there is no line, or the width is a number of 16-bit words and no line needs a run count. -/
theorem pcx_round_trip_iff (bigendian : Bool) {f : ImageFile} (pcx : f.format = .pcx) (page : Nat)
    (pos : 0 < f.w) (whole : 8 ∣ f.w) (upper : f.w ≤ 8184) {lines : List (List Int)}
    (each : ∀ line ∈ lines, PageLine f.w line) (few : lines.length ≤ 32767) :
    (ReadsBack f.w lines (f.writePage bigendian page lines).data ∧ Survive f.w lines) ↔
      lines = [] ∨ (16 ∣ f.w ∧ ∀ line ∈ lines, NoRunCode (runtobit line)) := by
  constructor
  · rintro ⟨-, recovers⟩
    have asked := (survive_iff pos whole each).mp recovers
    by_cases none : lines = []
    · exact Or.inl none
    · obtain ⟨first, member⟩ := List.exists_mem_of_ne_nil lines none
      exact Or.inr ⟨(asked first member).1, fun line member => (asked line member).2⟩
  · intro condition
    obtain ⟨g, data, width, height⟩ := ImageFile.writePage_pcx pcx bigendian page lines
    obtain ⟨pageWidth, pageHeight, offset, white⟩ := pcxFirst_pcxinit g (pcxData lines)
    have same : (pcxFirst (g.pcxinit ++ pcxData lines) 0 pageInit).w = f.w := by
      rw [pageWidth, width]
      omega
    have image : (g.pcxinit ++ pcxData lines).drop 128 = pcxData lines :=
      List.drop_left' (length_pcxinit g)
    rcases condition with rfl | ⟨words, plain⟩
    · refine ⟨⟨1, [], ?_, List.Forall₂.nil⟩, ?_⟩
      · intro fuel enough
        obtain ⟨fuel, rfl⟩ : ∃ k, fuel = k + 1 := ⟨fuel - 1, by omega⟩
        rw [readPcxPage, data, offset, image, readPcxLines]
        have ended := readlinePcx_nil (by omega : 0 < (pcxFirst (g.pcxinit ++ pcxData []) 0
          pageInit).w) (pcxFirst (g.pcxinit ++ pcxData []) 0 pageInit).h
        have empty : pcxData [] = [] := rfl
        rw [empty] at ended ⊢
        rw [ended]
      · intro before line after parts
        cases before <;> cases parts
    · refine ⟨⟨lines.length + 1, lines.map fun line => (bittorun (runtobit line), f.w), ?_, ?_⟩, ?_⟩
      · intro fuel enough
        rw [readPcxPage, data, offset, image]
        refine readPcxLines_plain same pos upper words white each plain ?_ (by omega)
        rw [pageHeight, height]
        rcases lines with _ | ⟨line, lines⟩
        · exact Or.inr ⟨rfl, by decide⟩
        · left
          rw [List.length_cons] at few ⊢
          omega
      · rw [List.forall₂_map_left_iff, List.forall₂_same]
        intro line member
        obtain ⟨bits, size⟩ := (each line member).bytes whole
        obtain ⟨nonneg, runs⟩ := pels_bittorun (by omega : (runtobit line).length ≤ 4095)
        exact ⟨nonneg, runs.trans bits, rfl⟩
      · exact (survive_iff pos whole each).mpr fun line member => ⟨words, plain line member⟩

/-- A page of one white line of 16 pels is read back without the line. -/
theorem white_line_lost :
    ¬ (ReadsBack 16 [[16]] ((newImageFile .pcx 204 98 16 0).writePage false 0 [[16]]).data ∧
      Survive 16 [[16]]) := by
  rintro ⟨⟨n, rows, reads, same⟩, -⟩
  obtain ⟨g, data, width, -⟩ :=
    ImageFile.writePage_pcx (f := newImageFile .pcx 204 98 16 0) rfl false 0 [[16]]
  obtain ⟨pageWidth, -, offset, -⟩ := pcxFirst_pcxinit g (pcxData [[16]])
  have read := reads (n + 1) (Nat.le_succ n)
  have image : (g.pcxinit ++ pcxData [[16]]).drop 128 = [0xc2, 0x00] :=
    (List.drop_left' (length_pcxinit g)).trans (by decide)
  have failed : readpcx 2 [0xc2, 0x00] = none := by
    rw [readpcx.eq_def]
    rfl
  have asked : (pcxLineBytes (pcxFirst (g.pcxinit ++ pcxData [[16]]) 0 pageInit).w).toNat = 2 := by
    rw [pageWidth, width]
    rfl
  have ended (left : Int) :
      readlinePcx (pcxFirst (g.pcxinit ++ pcxData [[16]]) 0 pageInit) left [0xc2, 0x00] = none := by
    rw [readlinePcx, asked, failed]
    split <;> rfl
  rw [readPcxPage, data, offset, image, readPcxLines, ended] at read
  obtain rfl := Option.some.inj read
  cases same

/-- A page whose line is a white byte and one with a black pel. -/
theorem pcx_round_trip_iff_pel :
    ReadsBack 16 [[9, 1, 6]] ((newImageFile .pcx 204 98 16 0).writePage false 0 [[9, 1, 6]]).data ∧
      Survive 16 [[9, 1, 6]] :=
  (pcx_round_trip_iff false (f := newImageFile .pcx 204 98 16 0) rfl 0 (by decide) (by decide)
    (by decide) (fun line (member : line ∈ [[9, 1, 6]]) => by
      obtain rfl := List.mem_singleton.mp member
      exact ⟨by decide, by decide⟩)
    (by decide)).mpr
    (Or.inr ⟨by decide, fun line member => by
      obtain rfl := List.mem_singleton.mp member
      have bytes : runtobit [9, 1, 6] = [0x00, 0x40] := by decide
      rw [bytes]
      exact ⟨by decide, by decide +kernel⟩⟩)

end QFax.Efax

import QFax.Efax.SendData

/-!
# Receiving the data of a page

`receive_data` reads rows up to a negative value and writes those with pels, padded or truncated to
the page width, to the output file.  Fed with what `send_data` sends, it writes exactly the lines
that were encoded; but it only reports success when the last EOL of the return to control ends a
byte, since it looks nine bits ahead for that EOL.
-/

namespace QFax.Efax

open Bits

variable {σ : Type}

/-- What `receive_data` has written, and its count of reception errors. -/
structure Received where
  lines : List (List Int)
  nerr : Int
  deriving DecidableEq, Repr

/-- Write a row to the output file.  The row of the first EOL and rows without pels are skipped. -/
def storeRow (pwidth : Int) (line : Nat) (r : Received) (row : Row) : Received :=
  if row.nr > 0 ∧ row.pels > 0 ∧ line ≠ 0 then
    if row.pels ≠ pwidth then
      ⟨r.lines ++ [xpad row.runs (pwidth - row.pels)], r.nerr + 1⟩
    else { r with lines := r.lines ++ [row.runs] }
  else r

/-- The loop of `receive_data` from row number `line` on; `ferror line` says whether the output file
has an error after that row.  It ends with the error code, what was received, and the last return
value of `readfaxruns`.  The numbers bound the lookups of a row and the rows. -/
def receiveRows (get : σ → Int × σ) (pwidth : Int) (ferror : Nat → Bool) (fuel : Nat) :
    Nat → Nat → Int → Received → Decoder → σ → Option (Int × Received × Int × σ)
  | 0, _, _, _, _, _ => none
  | n + 1, line, err, r, d, src =>
    match readRow get fuel d src with
    | none => none
    | some (row, d, src) =>
      if row.nr < 0 then some (err, r, row.nr, src)
      else
        receiveRows get pwidth ferror fuel n (line + 1) (if ferror line then 2 else err)
          (storeRow pwidth line r row) d src

/-- Wait for DLE ETX after a return to control. -/
def waitEnd (get : σ → Int × σ) : Nat → σ → Option σ
  | 0, _ => none
  | n + 1, src =>
    let (c, src) := get src
    if c ≥ 0 then waitEnd get n src else some src

/-- `receive_data` on an open output file: its return value, what was received, and what is left of
the source. -/
def receiveData (get : σ → Int × σ) (session : Cap) (ferror : Nat → Bool) (fuel : Nat) (nerr : Int)
    (src : σ) : Option (Int × Received × σ) :=
  match receiveRows get (pageWidth (session .wd)) ferror fuel fuel 0 0 ⟨[], nerr⟩ newDecoder src with
  | none => none
  | some (err, r, nr, src) =>
    if nr = -1 then (waitEnd get fuel src).map fun src => (err, r, src) else some (1, r, src)

/-! ## From rows to lines -/

/-- Write rows from number `line` on. -/
def storeRows (pwidth : Int) : Nat → Received → List Row → Received
  | _, r, [] => r
  | line, r, row :: rows => storeRows pwidth (line + 1) (storeRow pwidth line r row) rows

/-- The loop reads what `readRows` reads. -/
theorem receiveRows_of_readRows {get : σ → Int × σ} {fuel n : Nat} {d : Decoder} {src src' : σ}
    {rows : List Row} {last : Row} (read : readRows get fuel n d src = some (rows, last, src'))
    (pwidth : Int) (line : Nat) (r : Received) :
    receiveRows get pwidth (fun _ => false) fuel n line 0 r d src =
      some (0, storeRows pwidth line r rows, last.nr, src') := by
  induction n generalizing d src rows line r with
  | zero => cases read
  | succ n ih =>
    rw [readRows] at read
    rw [receiveRows]
    cases one : readRow get fuel d src with
    | none =>
      rw [one] at read
      cases read
    | some out =>
      obtain ⟨row, d', src''⟩ := out
      rw [one] at read
      simp only at read ⊢
      split at read
      case isTrue negative =>
        cases read
        rw [if_pos negative]
        rfl
      case isFalse nonneg =>
        obtain ⟨⟨rows', last', src₃⟩, later, pair⟩ := Option.map_eq_some_iff.mp read
        cases pair
        rw [if_neg nonneg]
        exact ih later (line + 1) _

/-- Lines of the page width are written as they are. -/
theorem storeRows_lines {pwidth : Int} (pels : 0 < pwidth) {lines : List (List Int)}
    (width : ∀ runs ∈ lines, runs.sum = pwidth) {line : Nat} (later : line ≠ 0) (r : Received)
    (rows : List Row) : storeRows pwidth line r (lines.map plainRow ++ rows) =
      storeRows pwidth (line + lines.length) ⟨r.lines ++ lines, r.nerr⟩ rows := by
  induction lines generalizing line r with
  | nil =>
    rw [List.append_nil]
    rfl
  | cons runs lines ih =>
    have sum := width runs List.mem_cons_self
    have some : runs.length ≠ 0 := by
      intro none
      rw [List.eq_nil_of_length_eq_zero none, List.sum_nil] at sum
      omega
    have nr : (plainRow runs).nr > 0 := by
      show (runs.length : Int) > 0
      omega
    have pels' : (plainRow runs).pels > 0 := by
      show runs.sum > 0
      omega
    have same : ¬ (plainRow runs).pels ≠ pwidth := by
      simpa [plainRow] using sum
    have here : storeRow pwidth line r (plainRow runs) = ⟨r.lines ++ [runs], r.nerr⟩ := by
      rw [storeRow, if_pos ⟨nr, pels', later⟩, if_neg same]
      rfl
    have step : storeRows pwidth line r ((runs :: lines).map plainRow ++ rows) =
        storeRows pwidth (line + 1) (storeRow pwidth line r (plainRow runs))
          (lines.map plainRow ++ rows) := rfl
    rw [step, here, ih (fun l hl => width l (List.mem_cons_of_mem runs hl)) (Nat.succ_ne_zero line)]
    congr 1
    · rw [List.length_cons]
      omega
    · simp only [List.append_assoc, List.singleton_append]

/-- Rows without runs are not written. -/
theorem storeRows_blank (pwidth : Int) (line n : Nat) (r : Received) :
    storeRows pwidth line r (List.replicate n (plainRow [])) = r := by
  induction n generalizing line with
  | zero => rfl
  | succ n ih => exact ih (line + 1)

/-- Waiting for the end of a source that delivers finitely many bytes. -/
theorem waitEnd_done {get : σ → Int × σ} {R : σ → List UInt8 → Prop} (delivers : Delivers get R)
    {data : List UInt8} {src : σ} (related : R src data) :
    ∃ src', ∀ fuel > data.length, waitEnd get fuel src = some src' := by
  induction data generalizing src with
  | nil =>
    obtain ⟨negative, -⟩ := delivers.done related
    refine ⟨(get src).2, fun fuel pos => ?_⟩
    obtain ⟨n, rfl⟩ : ∃ n, fuel = n + 1 := ⟨fuel - 1, by simp at pos; omega⟩
    have stop : ¬ (get src).1 ≥ 0 := by omega
    simp only [waitEnd, if_neg stop]
  | cons b bs ih =>
    obtain ⟨value, related'⟩ := delivers.byte related
    obtain ⟨src', run⟩ := ih related'
    refine ⟨src', fun fuel pos => ?_⟩
    rw [List.length_cons] at pos
    obtain ⟨n, rfl⟩ : ∃ n, fuel = n + 1 := ⟨fuel - 1, by omega⟩
    have more : (get src).1 ≥ 0 := by omega
    simp only [waitEnd, if_pos more]
    exact run n (by omega)

/-! ## A page from one modem to the other -/

/-- A page goes from `send_data` to `receive_data`: the lines that were encoded are written, no error
is counted, and the return value says whether the code bits and their EOLs fill whole bytes. -/
theorem SendJob.Valid.receiveData {j : SendJob} (valid : j.Valid) {page : List (List Int)}
    (input : ∀ runs ∈ page, InputLine runs) {lines : List (List Int)}
    (encoded : j.encoded page = some lines)
    (words : ∀ runs ∈ lines, (lineCodes .white runs).length < maxRuns) (order : BitOrder)
    (nerr : Int) :
    ∃ bufs n src', j.sendData page = some bufs ∧ ∀ fuel ≥ n,
      receiveData (tgetd order) j.session (fun _ => false) fuel nerr (modemStream order bufs) =
        some (if codeBits lines % 8 = 0 then 0 else 1, ⟨lines, nerr⟩, src') := by
  obtain ⟨bufs, rows, z, tail, sent, rows', some, sentRows, sums, ends, aligned, bits⟩ :=
    valid.sendData_bits input encoded words
  have delivers := tgetd_delivers order
  have start := newDecoder_ready (modemStream_stream order bufs)
  rw [bits] at start
  have eols : (List.replicate 4 eol).flatten.length = 48 := rfl
  have long : 8 ≤ ((List.replicate 4 eol).flatten ++
      (List.replicate z false ++ true :: tail)).length := by
    rw [List.length_append, eols]
    omega
  have read : Reads (tgetd order) newDecoder (modemStream order bufs)
      (plainRow [] :: (rows.map (fun row => plainRow row.1) ++ List.replicate 4 (plainRow [])))
      fun last src' => last = ⟨if tail = [] then -2 else -1, [], 0⟩ ∧
        (tail ≠ [] → ∃ data, Stream order src' data) := by
    apply reads_eol delivers (by decide) (by rw [List.length_append]; omega) (by decide) start
    intro d src' ready eolcnt
    apply reads_lines delivers
      (fun row member => ⟨(sentRows row member).line, (sentRows row member).pels,
        (sentRows row member).zeros⟩) long ready
    intro d' src'' ready' eolcnt'
    rw [if_neg some] at eolcnt'
    exact reads_rtc delivers ends eolcnt' ready'
  obtain ⟨k, last, src', -, ⟨rfl, more⟩, run⟩ := read
  have stored : storeRows j.pwidth 0 ⟨[], nerr⟩ (plainRow [] ::
      (rows.map (fun row => plainRow row.1) ++ List.replicate 4 (plainRow []))) = ⟨lines, nerr⟩ := by
    have map : rows.map (fun row => plainRow row.1) = lines.map plainRow := by
      rw [← rows', List.map_map]
      rfl
    have step : storeRows j.pwidth 0 ⟨[], nerr⟩ (plainRow [] ::
        (lines.map plainRow ++ List.replicate 4 (plainRow []))) =
        storeRows j.pwidth 1 ⟨[], nerr⟩ (lines.map plainRow ++ List.replicate 4 (plainRow [])) := rfl
    rw [map, step, storeRows_lines valid.lower sums (by decide), storeRows_blank, List.nil_append]
  have loop : ∀ fuel ≥ max k (rows.length + 6),
      receiveRows (tgetd order) (pageWidth (j.session .wd)) (fun _ => false) fuel fuel 0 0 ⟨[], nerr⟩
        newDecoder (modemStream order bufs) =
          .some (0, ⟨lines, nerr⟩, if tail = [] then -2 else -1, src') := by
    intro fuel le
    have rowsRead := run fuel fuel (by omega) (by
      rw [List.length_cons, List.length_append, List.length_map, List.length_replicate]
      omega)
    rw [receiveRows_of_readRows rowsRead]
    exact congrArg (fun r => Option.some (0, r, _, src')) stored
  by_cases odd : tail = []
  · refine ⟨bufs, max k (rows.length + 6), src', sent, fun fuel le => ?_⟩
    rw [QFax.Efax.receiveData, loop fuel le, if_pos odd, if_neg (aligned.mp odd)]
    rfl
  · obtain ⟨data, related⟩ := more odd
    obtain ⟨src'', done⟩ := waitEnd_done delivers related
    refine ⟨bufs, max (max k (rows.length + 6)) (data.length + 1), src'', sent, fun fuel le => ?_⟩
    have even : codeBits lines % 8 = 0 := by
      by_contra no
      exact odd (aligned.mpr no)
    rw [QFax.Efax.receiveData, loop fuel (by omega), if_neg odd, if_pos even]
    simp only [if_true, done fuel (by omega), Option.map_some]

/-- The page arrives: for what `send_data` sends, `receive_data` in the same session and bit order
returns 0, leaves the error count as it was and writes exactly `lines`. -/
def SendJob.Arrives (j : SendJob) (page lines : List (List Int)) (order : BitOrder) (nerr : Int) :
    Prop :=
  ∃ bufs n src', j.sendData page = some bufs ∧ ∀ fuel ≥ n,
    QFax.Efax.receiveData (tgetd order) j.session (fun _ => false) fuel nerr
      (modemStream order bufs) = some (0, ⟨lines, nerr⟩, src')

/-- With code bits that do not fill whole bytes, `receive_data` returns 1. -/
theorem SendJob.Valid.not_arrives {j : SendJob} (valid : j.Valid) {page : List (List Int)}
    (input : ∀ runs ∈ page, InputLine runs) {lines : List (List Int)}
    (encoded : j.encoded page = some lines)
    (words : ∀ runs ∈ lines, (lineCodes .white runs).length < maxRuns) {order : BitOrder} {nerr : Int}
    (odd : codeBits lines % 8 ≠ 0) : ¬ j.Arrives page lines order nerr := by
  rintro ⟨bufs, n, src', sent, run⟩
  obtain ⟨bufs', n', src'', sent', run'⟩ := valid.receiveData input encoded words order nerr
  rw [sent, Option.some.injEq] at sent'
  subst sent'
  have zero := run (max n n') (by omega)
  have one := run' (max n n') (by omega)
  rw [zero, if_neg odd] at one
  cases one

/-- A session at 9600 bps and 196 lpi on both sides, with a blank header. -/
def blankJob : SendJob := ⟨defCap, defCap, fun _ => [100]⟩

theorem blankJob_valid : blankJob.Valid := by
  refine ⟨fun i => ⟨?_, by show [(100 : Int)].sum ≤ 32767; decide⟩, by decide, by decide⟩
  intro r member
  rw [List.mem_singleton.mp member]
  decide

theorem blank_input : ∀ runs ∈ [[(1728 : Int)]], InputLine runs := by
  intro runs member
  rw [List.mem_singleton.mp member]
  exact ⟨by decide, by decide⟩

theorem blank_words (n : Nat) :
    ∀ runs ∈ List.replicate n [(1728 : Int)], (lineCodes .white runs).length < maxRuns := by
  intro runs member
  rw [(List.mem_replicate.mp member).2]
  decide

end QFax.Efax

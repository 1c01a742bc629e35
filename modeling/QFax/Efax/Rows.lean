import QFax.Efax.Decode

/-!
# Rows and pages

`readRow` on a window that holds a scan line and an EOL returns the line (`readRow_line`); reading
rows up to a negative return value returns the lines of a page and the empty lines of its return to
control (`reads_page`).
-/

namespace QFax.Efax

open Bits

variable {σ : Type} {get : σ → Int × σ} {R : σ → List UInt8 → Prop} {rest : List Bool}
  {d : Decoder} {src : σ}

/-- A scan line that one code buffer and one run buffer can hold. -/
structure ScanLine (runs : List Int) : Prop where
  nonneg : ∀ r ∈ runs, 0 ≤ r
  short : ∀ r ∈ runs, r ≤ maxRunLen
  width : runs.sum ≤ 32767
  words : (lineCodes .white runs).length < maxRuns

theorem scanLine_nil : ScanLine [] := ⟨by simp, by simp, by simp, by decide⟩

/-! ## One row -/

/-- The window that a row reader restores. -/
def Decoder.window (d : Decoder) (src : σ) : Window σ := ⟨src, d.x, d.shift, -1⟩

/-- Between two rows: the white table is current, and the bits left are `bits`. -/
structure Decoder.Ready (R : σ → List UInt8 → Prop) (d : Decoder) (src : σ) (bits : List Bool) :
    Prop where
  tab : d.tab = .tw1
  holds : (d.window src).Holds R bits

theorem newDecoder_ready {data : List UInt8} (related : R src data) :
    newDecoder.Ready R src (bytesBits data) :=
  ⟨rfl, le_rfl, by show (-9 : Int) ≤ 7; decide, data, related, rfl⟩

theorem length_flatMap_runVals (c : Colour) (runs : List Int) :
    (runs.flatMap runVals).length = (lineCodes c runs).length := by
  induction runs generalizing c with
  | nil => rfl
  | cons run runs ih =>
    rw [List.flatMap_cons, List.length_append, length_runVals c, ih c.other, lineCodes,
      List.length_append]

/-- What `readRow` returns for a scan line that was read to its EOL. -/
def lineRow (eolcnt : Nat) (runs : List Int) : Row :=
  ⟨if runs.sum = 0 ∧ rtcEol ≤ eolcnt + 1 then -1 else runs.length, runs, runs.sum⟩

/-- The EOLs counted after a scan line. -/
def eolsAfter (eolcnt : Nat) (runs : List Int) : Nat := if runs.sum ≠ 0 then 0 else eolcnt + 1

/-- The codes of a whole row. -/
theorem readCodes_line (delivers : Delivers get R) {runs : List Int} (line : ScanLine runs)
    {bits : List Bool} (left : 9 ≤ bits.length) (ready : d.Ready R src (lineBits runs ++ bits)) :
    ∃ k w' c, Window.Holds R w' bits ∧ ∀ n, readCodes get (n + k) (d.window src) d.tab [] =
      readCodes get n w' (Colour.first c) (runs.flatMap runVals) := by
  have room : (runs.flatMap runVals).length < maxRuns := by
    rw [length_flatMap_runVals .white]
    exact line.words
  obtain ⟨k, w', c, holds, run⟩ := decode_runs [] delivers .white line.nonneg line.short
    ready.holds left (by simpa using Nat.le_of_lt room)
  exact ⟨k, w', c, holds, fun n => by rw [ready.tab]; exact run n⟩

/-- From the codes of a row to its runs. -/
theorem readRow_of_readCodes {runs : List Int} (line : ScanLine runs) {fuel : Nat} {w' : Window σ}
    (codes : readCodes get fuel (d.window src) d.tab [] =
      some (w', .tw1, runs.flatMap runVals ++ [-1])) :
    readRow get fuel d src = some (
      if w'.c < 0 then ⟨-2, runs, runs.sum⟩ else lineRow d.eolcnt runs,
      ⟨w'.x, w'.shift, .tw1, eolsAfter d.eolcnt runs⟩, w'.src) := by
  have window : readCodes get fuel ⟨src, d.x, d.shift, -1⟩ d.tab [] =
      some (w', .tw1, runs.flatMap runVals ++ [-1]) := codes
  have len : rowLen runs = runs.sum := rowLen_eq line.nonneg line.width
  unfold readRow
  rw [window]
  simp only [List.dropLast_concat, combine_flatMap line.nonneg, len, lineRow, eolsAfter]
  by_cases read : w'.c < 0
  · simp only [read, if_true]
    rfl
  · by_cases empty : runs.sum = 0
    · by_cases enough : rtcEol ≤ d.eolcnt + 1
      · simp [read, empty, enough]
      · simp [read, empty, enough]
    · simp [read, empty]

/-- A row that is followed by an EOL and at least a byte. -/
theorem readRow_line (delivers : Delivers get R) {runs : List Int} (line : ScanLine runs) {z : Nat}
    (zeros : 11 ≤ z) (left : 8 ≤ rest.length)
    (ready : d.Ready R src (lineBits runs ++ (List.replicate z false ++ true :: rest))) :
    ∃ k d' src', d'.Ready R src' rest ∧ d'.eolcnt = eolsAfter d.eolcnt runs ∧
      ∀ n, readRow get (n + k) d src = some (lineRow d.eolcnt runs, d', src') := by
  obtain ⟨k₁, w₁, c, holds₁, run₁⟩ := readCodes_line delivers line (by simp; omega) ready
  have room : (runs.flatMap runVals).length < maxRuns := by
    rw [length_flatMap_runVals .white]
    exact line.words
  obtain ⟨k₂, w₂, holds₂, read, run₂⟩ := decode_eol _ delivers c zeros holds₁ left room
  refine ⟨k₂ + k₁, ⟨w₂.x, w₂.shift, .tw1, eolsAfter d.eolcnt runs⟩, w₂.src,
    ⟨rfl, holds₂.lower, holds₂.upper, holds₂.content⟩, rfl, fun n => ?_⟩
  have codes := run₁ (n + k₂)
  rw [run₂] at codes
  rw [← Nat.add_assoc, readRow_of_readCodes line codes, if_neg (by omega)]

/-- The last EOL of a return to control that ends the data. -/
theorem readRow_end (delivers : Delivers get R) {z : Nat} (lower : 12 ≤ z) (upper : z ≤ 18)
    (ready : d.Ready R src (List.replicate z false ++ [true])) :
    ∃ k d' src', ∀ n, readRow get (n + k) d src = some (⟨-2, [], 0⟩, d', src') := by
  obtain ⟨k, w', negative, run⟩ := decode_eol_end [] delivers .white lower upper
    ready.holds (by decide)
  refine ⟨k, ⟨w'.x, w'.shift, .tw1, eolsAfter d.eolcnt []⟩, w'.src, fun n => ?_⟩
  have codes : readCodes get (n + k) (d.window src) d.tab [] =
      some (w', .tw1, [].flatMap runVals ++ [-1]) := by
    rw [ready.tab]
    exact run n
  rw [readRow_of_readCodes scanLine_nil codes, if_pos negative]
  rfl

/-! ## Many rows -/

/-- Read rows up to a negative return value: the rows before it and the last one.  The first number
bounds the lookups of a row, the second one the rows. -/
def readRows (get : σ → Int × σ) (fuel : Nat) :
    Nat → Decoder → σ → Option (List Row × Row × σ)
  | 0, _, _ => none
  | n + 1, d, src =>
    match readRow get fuel d src with
    | none => none
    | some (row, d, src) =>
      if row.nr < 0 then some ([], row, src)
      else (readRows get fuel n d src).map fun (rows, last, src) => (row :: rows, last, src)

/-- With enough fuel, reading ends with these rows and a last row that satisfies `Q`. -/
def Reads (get : σ → Int × σ) (d : Decoder) (src : σ) (rows : List Row) (Q : Row → σ → Prop) :
    Prop :=
  ∃ k last src', last.nr < 0 ∧ Q last src' ∧ ∀ fuel n, k ≤ fuel → rows.length < n →
    readRows get fuel n d src = some (rows, last, src')

variable {Q : Row → σ → Prop} {rows : List Row}

/-- A last row. -/
theorem Reads.stop {row : Row} {d' : Decoder} {src' : σ} {k : Nat} (negative : row.nr < 0)
    (holds : Q row src') (read : ∀ n, readRow get (n + k) d src = some (row, d', src')) :
    Reads get d src [] Q := by
  refine ⟨k, row, src', negative, holds, fun fuel n le pos => ?_⟩
  obtain ⟨m, rfl⟩ : ∃ m, n = m + 1 := ⟨n - 1, by simp at pos; omega⟩
  have here := read (fuel - k)
  rw [Nat.sub_add_cancel le] at here
  simp only [readRows, here, if_pos negative]

/-- One more row before the rest. -/
theorem Reads.cons {row : Row} {d' : Decoder} {src' : σ} {k : Nat} (nonneg : 0 ≤ row.nr)
    (read : ∀ n, readRow get (n + k) d src = some (row, d', src'))
    (tail : Reads get d' src' rows Q) : Reads get d src (row :: rows) Q := by
  obtain ⟨k', last, final, negative, holds, run⟩ := tail
  refine ⟨max k k', last, final, negative, holds, fun fuel n le lt => ?_⟩
  obtain ⟨m, rfl⟩ : ∃ m, n = m + 1 := ⟨n - 1, by simp at lt; omega⟩
  have here := read (fuel - k)
  rw [Nat.sub_add_cancel (by omega)] at here
  have later := run fuel m (by omega) (by simpa using lt)
  have nonneg' : ¬ row.nr < 0 := by omega
  simp only [readRows, here, later, if_neg nonneg', Option.map_some]

/-! ## Pages -/

/-- The bits of scan lines, each one followed by its number of zeros and a one. -/
def rowsBits (lines : List (List Int × Nat)) : List Bool :=
  lines.flatMap fun line => lineBits line.1 ++ (List.replicate line.2 false ++ [true])

@[simp] theorem rowsBits_nil : rowsBits [] = [] := rfl

@[simp] theorem rowsBits_cons (line : List Int × Nat) (lines : List (List Int × Nat)) :
    rowsBits (line :: lines) =
      lineBits line.1 ++ (List.replicate line.2 false ++ [true]) ++ rowsBits lines := rfl

/-- The row of a line that is not blank, or of a blank line outside a return to control. -/
def plainRow (runs : List Int) : Row := ⟨runs.length, runs, runs.sum⟩

/-- Lines with pels in front of rows that are read in any case. -/
theorem reads_lines (delivers : Delivers get R) {lines : List (List Int × Nat)}
    (valid : ∀ line ∈ lines, ScanLine line.1 ∧ 0 < line.1.sum ∧ 11 ≤ line.2)
    (left : 8 ≤ rest.length) (ready : d.Ready R src (rowsBits lines ++ rest))
    (tail : ∀ d' src', Decoder.Ready R d' src' rest →
      d'.eolcnt = (if lines = [] then d.eolcnt else 0) → Reads get d' src' rows Q) :
    Reads get d src (lines.map (fun line => plainRow line.1) ++ rows) Q := by
  induction lines generalizing d src with
  | nil => exact tail d src ready rfl
  | cons line lines ih =>
    obtain ⟨valid', pels, zeros⟩ := valid line List.mem_cons_self
    have more : 8 ≤ (rowsBits lines ++ rest).length := by
      rw [List.length_append]
      omega
    have split : rowsBits (line :: lines) ++ rest = lineBits line.1 ++
        (List.replicate line.2 false ++ true :: (rowsBits lines ++ rest)) := by
      simp only [rowsBits_cons, List.append_assoc, List.cons_append, List.nil_append]
    rw [split] at ready
    obtain ⟨k, d', src', ready', eolcnt, run⟩ := readRow_line delivers valid' zeros more ready
    have row : lineRow d.eolcnt line.1 = plainRow line.1 := by
      rw [lineRow, if_neg fun h => absurd h.1 (by omega)]
      rfl
    have reset : d'.eolcnt = 0 := by
      rw [eolcnt, eolsAfter, if_pos (by omega)]
    rw [row] at run
    rw [List.map_cons, List.cons_append]
    refine Reads.cons (Int.natCast_nonneg _) run ?_
    apply ih (fun l hl => valid l (List.mem_cons_of_mem line hl)) ready'
    intro d'' src'' ready'' eolcnt''
    apply tail d'' src'' ready''
    rw [eolcnt'', reset, if_neg (List.cons_ne_nil line lines)]
    split <;> rfl

/-- An EOL that does not complete a return to control is a row without runs. -/
theorem reads_eol (delivers : Delivers get R) {z : Nat} (zeros : 11 ≤ z) (left : 8 ≤ rest.length)
    (few : d.eolcnt + 1 < rtcEol)
    (ready : d.Ready R src (List.replicate z false ++ true :: rest))
    (tail : ∀ d' src', Decoder.Ready R d' src' rest → d'.eolcnt = d.eolcnt + 1 →
      Reads get d' src' rows Q) :
    Reads get d src (plainRow [] :: rows) Q := by
  obtain ⟨k, d', src', ready', eolcnt, run⟩ := readRow_line delivers scanLine_nil zeros left ready
  have row : lineRow d.eolcnt [] = plainRow [] := by
    rw [lineRow, if_neg fun h => absurd h.2 (by omega)]
    rfl
  rw [row] at run
  exact Reads.cons le_rfl run (tail d' src' ready' eolcnt)

/-- The EOL that completes a return to control. -/
theorem reads_rtcEnd (delivers : Delivers get R) {z : Nat} (zeros : 11 ≤ z)
    (left : 8 ≤ rest.length) (enough : rtcEol ≤ d.eolcnt + 1)
    (ready : d.Ready R src (List.replicate z false ++ true :: rest))
    (final : ∀ d' src', Decoder.Ready R d' src' rest → Q ⟨-1, [], 0⟩ src') :
    Reads get d src [] Q := by
  obtain ⟨k, d', src', ready', -, run⟩ := readRow_line delivers scanLine_nil zeros left ready
  have row : lineRow d.eolcnt [] = ⟨-1, [], 0⟩ := by
    rw [lineRow, if_pos ⟨rfl, enough⟩]
    rfl
  rw [row] at run
  exact Reads.stop (by decide) (final d' src' ready') run

/-- EOLs that do not complete a return to control. -/
theorem reads_eols (delivers : Delivers get R) {n : Nat} (left : 8 ≤ rest.length)
    (few : d.eolcnt + n < rtcEol)
    (ready : d.Ready R src ((List.replicate n eol).flatten ++ rest))
    (tail : ∀ d' src', Decoder.Ready R d' src' rest → d'.eolcnt = d.eolcnt + n →
      Reads get d' src' rows Q) :
    Reads get d src (List.replicate n (plainRow []) ++ rows) Q := by
  induction n generalizing d src with
  | zero => exact tail d src ready rfl
  | succ n ih =>
    have split : (List.replicate (n + 1) eol).flatten ++ rest =
        List.replicate 11 false ++ true :: ((List.replicate n eol).flatten ++ rest) := by
      rw [List.replicate_succ, List.flatten_cons, eol_eq]
      simp only [List.append_assoc, List.cons_append, List.nil_append]
    rw [split] at ready
    rw [List.replicate_succ, List.cons_append]
    apply reads_eol delivers le_rfl (by rw [List.length_append]; omega) (by omega) ready
    intro d' src' ready' eolcnt
    apply ih (by omega) ready'
    intro d'' src'' ready'' eolcnt'
    exact tail d'' src'' ready'' (by omega)

/-- The end of a return to control: zeros and a one at the end of the data, or one more byte. -/
def RtcEnd (z : Nat) (tail : List Bool) : Prop :=
  12 ≤ z ∧ z ≤ 18 ∧ tail = [] ∨ z = 11 ∧ tail = toBits 8 1

/-- A return to control after a line with pels. -/
theorem reads_rtc (delivers : Delivers get R) {z : Nat} {tail : List Bool} (ends : RtcEnd z tail)
    (fresh : d.eolcnt = 0)
    (ready : d.Ready R src
      ((List.replicate 4 eol).flatten ++ (List.replicate z false ++ true :: tail))) :
    Reads get d src (List.replicate 4 (plainRow [])) fun last src' =>
      last = ⟨if tail = [] then -2 else -1, [], 0⟩ ∧ (tail ≠ [] → ∃ data, R src' data) := by
  have zeros : 11 ≤ z := by rcases ends with ends | ends <;> omega
  rw [← List.append_nil (List.replicate 4 (plainRow []))]
  apply reads_eols delivers (by simp; omega) (by rw [fresh]; decide) ready
  intro d' src' ready' eolcnt
  rcases ends with ⟨lower, upper, rfl⟩ | ⟨-, rfl⟩
  · obtain ⟨k, d'', src'', run⟩ := readRow_end delivers lower upper ready'
    exact Reads.stop (by decide) ⟨rfl, fun some => absurd rfl some⟩ run
  · apply reads_rtcEnd delivers zeros le_rfl (by rw [eolcnt, fresh]; decide) ready'
    intro d'' src'' ready''
    obtain ⟨data, related, -⟩ := ready''.holds.content
    exact ⟨rfl, fun _ => ⟨data, related⟩⟩

/-- A return to control right after the EOL that starts a page ends with its fourth EOL. -/
theorem reads_rtc_blank (delivers : Delivers get R) (left : 8 ≤ rest.length)
    (one : d.eolcnt = 1)
    (ready : d.Ready R src ((List.replicate 4 eol).flatten ++ rest)) :
    Reads get d src (List.replicate 3 (plainRow [])) fun last _ => last = ⟨-1, [], 0⟩ := by
  have split : (List.replicate 4 eol).flatten ++ rest = (List.replicate 3 eol).flatten ++
      (List.replicate 11 false ++ true :: rest) := rfl
  rw [split] at ready
  rw [← List.append_nil (List.replicate 3 (plainRow []))]
  apply reads_eols delivers (by simp) (by rw [one]; decide) ready
  intro d' src' ready' eolcnt
  exact reads_rtcEnd delivers le_rfl left (by rw [eolcnt, one]; decide) ready' fun _ _ _ => rfl

end QFax.Efax

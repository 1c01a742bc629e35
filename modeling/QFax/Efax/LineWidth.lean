import QFax.Efax.ReceiveData

/-!
# The width of received lines

`receive_data` pads or truncates a row by the difference between the page width and the pel count of
`readfaxruns`.  That count is summed in a `short`: a row of at least `2 ^ 16` pels is compared by what
is left of its width, and is written wider than the page (`received_width_iff`).  The codes of every
line that is written fit the buffer of `writeline`, also those of a line that is too wide.
-/

namespace QFax.Efax

open Bits

variable {σ : Type} {get : σ → Int × σ}

/-! ## Runs of the loop -/

/-- The loop of `receive_data` in front of a row. -/
structure ReceiveState (σ : Type) where
  line : Nat
  received : Received
  d : Decoder
  src : σ

/-- The states that the loop reaches, each with the codes of the rows before it.  The rows end at the
first negative value of `readfaxruns`. -/
inductive Receives (get : σ → Int × σ) (pwidth nerr : Int) (src : σ) :
    List (List Int) → ReceiveState σ → Prop
  | start : Receives get pwidth nerr src [] ⟨0, ⟨[], nerr⟩, newDecoder, src⟩
  | row {rows : List (List Int)} {s : ReceiveState σ} {fuel : Nat} {w : Window σ} {tab : TabName}
    {codes : List Int} {row : Row} {d : Decoder} {src' : σ} :
    Receives get pwidth nerr src rows s →
    readCodes get fuel ⟨s.src, s.d.x, s.d.shift, -1⟩ s.d.tab [] = some (w, tab, codes) →
    readRow get fuel s.d s.src = some (row, d, src') → 0 ≤ row.nr →
    Receives get pwidth nerr src (rows ++ [codes])
      ⟨s.line + 1, storeRow pwidth s.line s.received row, d, src'⟩

/-- A row is read from its codes, and its value is the number of runs only if the last character was
read. -/
theorem readRow_codes {fuel : Nat} {d d' : Decoder} {src src' : σ} {row : Row}
    (read : readRow get fuel d src = some (row, d', src')) :
    ∃ w tab codes, readCodes get fuel ⟨src, d.x, d.shift, -1⟩ d.tab [] = some (w, tab, codes) ∧
      row.runs = combine codes.dropLast ∧ row.pels = rowLen row.runs ∧ d'.shift = w.shift ∧
      src' = w.src ∧ (row.nr = row.runs.length ∧ 0 ≤ w.c ∨ row.nr = -1 ∨ row.nr = -2) := by
  unfold readRow at read
  split at read
  case h_1 => cases read
  case h_2 w tab codes stored =>
    cases read
    refine ⟨w, tab, codes, stored, rfl, rfl, rfl, rfl, ?_⟩
    have error (p : Prop) [Decidable p] (n : Int) :
        (if (if p then (-1 : Int) else 0) ≠ 0 then if p then -1 else 0 else n) =
          if p then -1 else n := by
      by_cases hp : p <;> simp [hp]
    dsimp only
    by_cases done : w.c < 0
    · rw [if_pos done, if_pos (by decide)]
      exact Or.inr (Or.inr rfl)
    · rw [if_neg done, error]
      generalize (if rowLen (combine codes.dropLast) ≠ 0 then 0 else d.eolcnt + 1) = eolcnt
      split
      · exact Or.inr (Or.inl rfl)
      · exact Or.inl ⟨rfl, not_lt.mp done⟩

/-- A row that is not the last one counts its runs. -/
theorem readRow_count {fuel : Nat} {d d' : Decoder} {src src' : σ} {row : Row}
    (read : readRow get fuel d src = some (row, d', src')) (nonneg : 0 ≤ row.nr) :
    row.nr = row.runs.length := by
  obtain ⟨-, -, -, -, -, -, -, -, ⟨count, -⟩ | rtc | done⟩ := readRow_codes read
  · exact count
  · omega
  · omega

/-- What `receive_data` has written when it returns is reached by its loop. -/
theorem receiveRows_receives {pwidth nerr : Int} {src₀ : σ} {ferror : Nat → Bool} {fuel n : Nat}
    {rows : List (List Int)} {s : ReceiveState σ} (run : Receives get pwidth nerr src₀ rows s)
    {err err' nr : Int} {r : Received} {src' : σ}
    (done : receiveRows get pwidth ferror fuel n s.line err s.received s.d s.src =
      some (err', r, nr, src')) :
    ∃ rows' s', Receives get pwidth nerr src₀ rows' s' ∧ s'.received = r := by
  induction n generalizing rows s err with
  | zero => cases done
  | succ n ih =>
    rw [receiveRows] at done
    cases one : readRow get fuel s.d s.src with
    | none =>
      rw [one] at done
      cases done
    | some out =>
      obtain ⟨row, d, src⟩ := out
      rw [one] at done
      dsimp only at done
      split at done
      case isTrue =>
        cases done
        exact ⟨rows, s, run, rfl⟩
      case isFalse nonneg =>
        obtain ⟨w, tab, codes, stored, -⟩ := readRow_codes one
        exact ih (run.row stored one (by omega)) done

theorem receiveData_receives {session : Cap} {ferror : Nat → Bool} {fuel : Nat} {nerr err : Int}
    {src src' : σ} {r : Received}
    (done : receiveData get session ferror fuel nerr src = some (err, r, src')) :
    ∃ rows s, Receives get (pageWidth (session .wd)) nerr src rows s ∧ s.received = r := by
  unfold receiveData at done
  cases loop : receiveRows get (pageWidth (session .wd)) ferror fuel fuel 0 0 ⟨[], nerr⟩ newDecoder
      src with
  | none =>
    rw [loop] at done
    cases done
  | some out =>
    obtain ⟨err', r', nr, src₁⟩ := out
    have same : r' = r := by
      rw [loop] at done
      dsimp only at done
      split at done
      · obtain ⟨src₂, -, equal⟩ := Option.map_eq_some_iff.mp done
        cases equal
        rfl
      · cases done
        rfl
    subst same
    exact receiveRows_receives .start loop

/-! ## The codes of a row -/

/-- The codes stored for a row: run lengths plus one, at most 2560 pels each, before the last one. -/
theorem readCodes_bounds {fuel : Nat} {w w' : Window σ} {tab tab' : TabName}
    {codes codes' : List Int} (before : ∀ c ∈ codes, 1 ≤ c ∧ c ≤ 2561)
    (room : codes.length ≤ maxRuns)
    (read : readCodes get fuel w tab codes = some (w', tab', codes')) :
    (∀ c ∈ codes'.dropLast, 1 ≤ c ∧ c ≤ 2561) ∧ codes'.length ≤ maxRuns := by
  induction fuel generalizing w tab codes with
  | zero => cases read
  | succ n ih =>
    have stores : (w.lookup get tab).2.Stores := dtabs_stores _ _
    rw [readCodes] at read
    generalize w.lookup get tab = found at read stores
    obtain ⟨w₁, t⟩ := found
    dsimp only at read stores
    have room' : (if codes.length < maxRuns then codes ++ [t.code] else codes).length ≤ maxRuns := by
      split
      · rw [List.length_append, List.length_singleton]
        omega
      · exact room
    split at read
    case isTrue => exact ih before room read
    case isFalse some =>
      split at read
      case isTrue last =>
        cases read
        refine ⟨fun c member => before c ?_, room'⟩
        split at member
        · rwa [List.dropLast_concat] at member
        · exact List.dropLast_subset codes member
      case isFalse more =>
        refine ih (fun c member => ?_) room' read
        split at member
        · rcases List.mem_append.mp member with member | member
          · exact before c member
          · rw [List.mem_singleton.mp member]
            rcases stores with eol | run
            · exact absurd eol more
            · omega
        · exact before c member

theorem combine_bounds {codes : List Int} (bounds : ∀ c ∈ codes, 1 ≤ c ∧ c ≤ 2561) :
    ∀ r ∈ combine codes, 0 ≤ r ∧ r ≤ 5120 := by
  fun_induction combine codes with
  | case1 => simp
  | case2 c =>
    have first := bounds c List.mem_cons_self
    intro r member
    rw [List.mem_singleton.mp member]
    omega
  | case3 c d codes long ih =>
    have first := bounds c List.mem_cons_self
    have second := bounds d (by simp)
    intro r member
    rcases List.mem_cons.mp member with rfl | member
    · omega
    · exact ih (fun e later => bounds e (by simp [later])) r member
  | case4 c d codes short ih =>
    have first := bounds c List.mem_cons_self
    intro r member
    rcases List.mem_cons.mp member with rfl | member
    · omega
    · exact ih (fun e later => bounds e (List.mem_cons_of_mem c later)) r member

/-- The pels that the codes stored for a row stand for, the last one left out. -/
def codePels (codes : List Int) : Int := (codes.dropLast.map (· - 1)).sum

theorem combine_sum (codes : List Int) : (combine codes).sum = (codes.map (· - 1)).sum := by
  fun_induction combine codes with
  | case1 => rfl
  | case2 c => rfl
  | case3 c d codes long ih =>
    rw [List.sum_cons, ih, List.map_cons, List.map_cons, List.sum_cons, List.sum_cons]
    omega
  | case4 c d codes short ih =>
    rw [List.sum_cons, ih]
    simp only [List.map_cons, List.sum_cons]

/-- The pel count of a row is its width modulo `2 ^ 16`. -/
theorem rowLen_eq_toShort (runs : List Int) : rowLen runs = toShort runs.sum := by
  have loop (runs : List Int) (len : Int) : runs.foldl (fun len run => toShort (len + run))
      (toShort len) = toShort (len + runs.sum) := by
    induction runs generalizing len with
    | nil => rw [List.foldl_nil, List.sum_nil, Int.add_zero]
    | cons run runs ih =>
      have wrapped : toShort (toShort len + run) = toShort (len + run) := by
        rw [toShort, toShort, toShort, Int.bmod_add_bmod]
      rw [List.foldl_cons, wrapped, ih, List.sum_cons, Int.add_assoc]
  exact (loop runs 0).trans (by rw [Int.zero_add])

/-! ## Code words -/

theorem length_runVals_le (run : Int) : (runVals run).length ≤ 2 := by
  unfold runVals
  split <;> simp

/-- Only a make-up code at the end of the row is written with more code words than were read. -/
theorem combine_words (codes : List Int) :
    ((combine codes).flatMap runVals).length ≤ codes.length + 1 := by
  fun_induction combine codes with
  | case1 => simp
  | case2 c =>
    have words := length_runVals_le (c - 1)
    rw [List.flatMap_singleton, List.length_singleton]
    omega
  | case3 c d codes long ih =>
    have words := length_runVals_le (c + d - 2)
    rw [List.flatMap_cons, List.length_append, List.length_cons, List.length_cons]
    omega
  | case4 c d codes short ih =>
    have words : runVals (c - 1) = [c - 1 + 1] := if_neg (by omega)
    rw [List.flatMap_cons, List.length_append, words, List.length_singleton, List.length_cons]
    omega

theorem dropPels_suffix (runs : List Int) (pad : Int) : (dropPels runs pad).1 <:+ runs := by
  induction runs generalizing pad with
  | nil => exact List.suffix_refl _
  | cons run runs ih =>
    rw [dropPels]
    split
    · exact (ih _).trans (List.suffix_cons run runs)
    · exact List.suffix_refl _

/-- `xpad` keeps some runs at the front and stores one more. -/
theorem xpad_front (runs : List Int) (pad : Int) :
    ∃ front last, front <+: runs ∧ xpad runs pad = front ++ [last] := by
  unfold xpad
  split
  · refine ⟨_, _, ?_, rfl⟩
    have suffix := List.reverse_prefix.mpr (dropPels_suffix runs.reverse pad)
    rwa [List.reverse_reverse] at suffix
  · split
    · exact ⟨_, _, List.dropLast_prefix runs, rfl⟩
    · exact ⟨runs, _, List.prefix_refl runs, rfl⟩

theorem xpad_words (runs : List Int) (pad : Int) :
    ((xpad runs pad).flatMap runVals).length ≤ (runs.flatMap runVals).length + 2 := by
  obtain ⟨front, last, ⟨rest, whole⟩, split⟩ := xpad_front runs pad
  have words := length_runVals_le last
  rw [split, ← whole, List.flatMap_append, List.flatMap_append, List.flatMap_singleton,
    List.length_append, List.length_append]
  omega

/-- The longest code words: white and black, terminating and make-up. -/
theorem code_longest {i : Nat} (lt : i < 104) :
    (Colour.white.code i).bits ≤ (if i < 64 then 8 else 12) ∧
      (Colour.black.code i).bits ≤ if i < 64 then 12 else 13 := by
  have all : ∀ i < 104, (Colour.white.code i).bits ≤ (if i < 64 then 8 else 12) ∧
      (Colour.black.code i).bits ≤ if i < 64 then 12 else 13 := by
    decide +kernel
  exact all i lt

/-- What a run of black may have more than 45 quarters of a bit for each code word, the run of white
before it has less. -/
def Colour.excess : Colour → Nat
  | .white => 0
  | .black => 10

theorem runCodes_longest (c : Colour) {run : Int} (nonneg : 0 ≤ run) :
    4 * (wordsBits (runCodes c run)).length + c.other.excess ≤
      45 * (runCodes c run).length + c.excess := by
  unfold runCodes
  split
  · have rlen : (if run > maxRunLen then maxRunLen else run) ≤ 2623 ∧
        63 < (if run > maxRunLen then maxRunLen else run) := by
      unfold maxRunLen
      split <;> omega
    generalize (if run > maxRunLen then maxRunLen else run) = r at rlen
    have makeup := code_longest (i := (63 + r / 64).toNat) (by omega)
    have rest := code_longest (i := (r % 64).toNat) (by omega)
    rw [if_neg (by omega), if_neg (by omega)] at makeup
    rw [if_pos (by omega), if_pos (by omega)] at rest
    simp only [wordsBits_cons, wordsBits_nil, List.length_append, T4Tab.word, length_toBits,
      List.length_nil, List.length_cons]
    cases c <;> simp only [Colour.other, Colour.excess] <;> omega
  · have rest := code_longest (i := (run % 64).toNat) (by omega)
    rw [if_pos (by omega), if_pos (by omega)] at rest
    simp only [wordsBits_cons, wordsBits_nil, List.length_append, T4Tab.word, length_toBits,
      List.length_nil, List.length_cons]
    cases c <;> simp only [Colour.other, Colour.excess] <;> omega

/-- Each pair of runs takes at most 45 bits for its four code words. -/
theorem lineCodes_longest (c : Colour) {runs : List Int} (nonneg : ∀ r ∈ runs, 0 ≤ r) :
    4 * (wordsBits (lineCodes c runs)).length ≤ 45 * (lineCodes c runs).length + c.excess := by
  induction runs generalizing c with
  | nil => simp [lineCodes]
  | cons run runs ih =>
    have here := runCodes_longest c (nonneg run List.mem_cons_self)
    have later := ih c.other fun r hr => nonneg r (List.mem_cons_of_mem run hr)
    rw [lineCodes, wordsBits_append, List.length_append, List.length_append]
    omega

/-- The bytes that `writeline` stores for a line and its EOL. -/
def lineBytes (e : Encoder) (runs : List Int) : List UInt8 :=
  (runtocode e runs).2 ++ (putcode (runtocode e runs).1 eolCode eolBits).2

/-- Two code words more than a row can have still leave room for them and the EOL. -/
theorem lineBytes_room {runs : List Int} (nonneg : ∀ r ∈ runs, 0 ≤ r)
    (words : (runs.flatMap runVals).length ≤ maxRuns + 2) {e : Encoder} (ready : e.Ready) :
    (lineBytes e runs).length ≤ maxCodes ∧
      (putcode (runtocode e runs).1 eolCode eolBits).1.Ready := by
  have size := lineCodes_longest .white nonneg
  have excess : Colour.white.excess = 0 := rfl
  rw [length_flatMap_runVals .white] at words
  have room : (lineBits runs).length + 19 ≤ 8 * maxCodes := by
    unfold lineBits maxCodes
    unfold maxRuns at words ⊢
    omega
  obtain ⟨line, ready'⟩ := runtocode_bits ready runs (by omega)
  obtain ⟨last, final⟩ := putcode_eol ready'
  have kept := ready.length_pend_lt
  have lineSize := congrArg List.length line
  have lastSize := congrArg List.length last
  rw [List.length_append, List.length_append, length_bytesBits] at lineSize lastSize
  rw [length_eol] at lastSize
  refine ⟨?_, final⟩
  rw [lineBytes, List.length_append]
  omega

/-! ## The lines that are written -/

/-- A line as `writeline` should get it: no negative run, the page width, and codes that fit its
buffer whatever the encoder keeps back. -/
structure PageWide (pwidth : Int) (runs : List Int) : Prop where
  nonneg : ∀ r ∈ runs, 0 ≤ r
  width : runs.sum = pwidth
  room : ∀ e : Encoder, e.Ready → (lineBytes e runs).length ≤ maxCodes

/-- The codes of a row stand for more pels than a `short` can count, of which it keeps a positive
number. -/
def Overlong (codes : List Int) : Prop :=
  65536 ≤ codePels codes ∧ 0 < codePels codes % 65536 ∧ codePels codes % 65536 ≤ 32767

/-- A row is written, with the width of the page when it is not overlong, and with what a `short`
lost of its width besides when it is. -/
theorem storeRow_width {pwidth : Int} (page : 0 ≤ pwidth ∧ pwidth ≤ 2432) {line : Nat}
    (later : line ≠ 0) (r : Received) {row : Row} {codes : List Int}
    (bounds : ∀ c ∈ codes.dropLast, 1 ≤ c ∧ c ≤ 2561) (few : codes.length ≤ maxRuns)
    (runs : row.runs = combine codes.dropLast) (pels : row.pels = rowLen (combine codes.dropLast))
    (nr : row.nr = (combine codes.dropLast).length) :
    ((storeRow pwidth line r row).lines = r.lines ∧ ¬ Overlong codes) ∨
      ∃ stored, (storeRow pwidth line r row).lines = r.lines ++ [stored] ∧
        (PageWide pwidth stored ↔ ¬ Overlong codes) := by
  have each := combine_bounds bounds
  have nonneg : ∀ run ∈ combine codes.dropLast, 0 ≤ run := fun run member => (each run member).1
  have total : (combine codes.dropLast).sum = codePels codes := combine_sum codes.dropLast
  have pos : 0 ≤ codePels codes := total ▸ List.sum_nonneg nonneg
  have count : row.pels = (codePels codes).bmod 65536 := by
    rw [pels, rowLen_eq_toShort, total]
    rfl
  have wrapped := Int.bmod_def (codePels codes) 65536
  by_cases written : row.nr > 0 ∧ row.pels > 0
  · right
    have words := combine_words codes.dropLast
    have size : maxRuns = 8192 := rfl
    rw [List.length_dropLast] at words
    have upper : row.pels ≤ 32767 ∧ row.pels ≤ codePels codes ∧
        (row.pels = codePels codes ↔ ¬ Overlong codes) := by
      unfold Overlong
      omega
    have lower : 0 ≤ (combine codes.dropLast).sum + (pwidth - row.pels) := by omega
    have padded := xpad_sum_of_short nonneg (m := 5120) (by omega)
      (fun run member => (each run member).2) lower (by omega)
    have stored : ∃ stored, (storeRow pwidth line r row).lines = r.lines ++ [stored] ∧
        (∀ run ∈ stored, 0 ≤ run) ∧ stored.sum = codePels codes + (pwidth - row.pels) ∧
        (stored.flatMap runVals).length ≤ maxRuns + 2 := by
      rw [storeRow, if_pos ⟨written.1, written.2, later⟩]
      split
      case isTrue differs =>
        refine ⟨_, rfl, ?_⟩
        have more := xpad_words (combine codes.dropLast) (pwidth - row.pels)
        rw [runs]
        exact ⟨padded.1, by rw [padded.2, total], by omega⟩
      case isFalse same =>
        refine ⟨_, rfl, ?_⟩
        rw [runs]
        exact ⟨nonneg, by omega, by omega⟩
    obtain ⟨stored, lines, nonneg', sum, words'⟩ := stored
    refine ⟨stored, lines, fun wide => ?_, fun short => ⟨nonneg', ?_, fun e ready => ?_⟩⟩
    · have width := wide.width
      exact upper.2.2.mp (by omega)
    · have same := upper.2.2.mpr short
      omega
    · exact (lineBytes_room nonneg' words' ready).1
  · left
    have skipped : storeRow pwidth line r row = r := by
      rw [storeRow, if_neg fun all => written ⟨all.1, all.2.1⟩]
    refine ⟨by rw [skipped], fun overlong => written ⟨?_, ?_⟩⟩
    · obtain ⟨wide, -⟩ := overlong
      rw [nr]
      rcases List.eq_nil_or_concat' (combine codes.dropLast) with none | ⟨front, last, some⟩
      · rw [none, List.sum_nil] at total
        omega
      · rw [some, List.length_append, List.length_singleton]
        omega
    · unfold Overlong at overlong
      omega

theorem pageWidth_bounds (i : Int) : 0 ≤ pageWidth i ∧ pageWidth i ≤ 2432 := by
  unfold pageWidth entry
  rw [List.getD_eq_getElem?_getD]
  cases found : [(1728 : Int), 2048, 2432, 1216, 864][i.toNat]? with
  | none => exact ⟨le_rfl, by decide⟩
  | some width =>
    have member := List.mem_of_getElem? found
    simp only [List.mem_cons, List.not_mem_nil, or_false] at member
    rw [Option.getD_some]
    omega

/-- Every line passed to `writeline` has the page width and codes that fit its buffer, if and only if
none of the rows behind the first EOL is overlong. -/
theorem received_width_iff {session : Cap} {nerr : Int} {src : σ} {rows : List (List Int)}
    {s : ReceiveState σ} (run : Receives get (pageWidth (session .wd)) nerr src rows s) :
    (∀ runs ∈ s.received.lines, PageWide (pageWidth (session .wd)) runs) ↔
      ∀ codes ∈ rows.tail, ¬ Overlong codes := by
  have invariant : s.line = rows.length ∧ (s.line = 0 → s.received.lines = []) ∧
      ((∀ runs ∈ s.received.lines, PageWide (pageWidth (session .wd)) runs) ↔
        ∀ codes ∈ rows.tail, ¬ Overlong codes) := by
    induction run with
    | start => simp
    | @row rows s fuel w tab codes row d src' before read one nonneg ih =>
      obtain ⟨count, none, iff⟩ := ih
      have bounds := readCodes_bounds (by simp) (by simp) read
      obtain ⟨w', tab', codes', read', runs, pels, -⟩ := readRow_codes one
      obtain rfl : codes = codes' := by
        rw [read] at read'
        cases read'
        rfl
      refine ⟨by simp [count], fun first => absurd first (Nat.succ_ne_zero s.line), ?_⟩
      by_cases first : s.line = 0
      · -- the row of the first EOL is not written
        have empty : rows = [] := List.eq_nil_of_length_eq_zero (by omega)
        have skipped : storeRow (pageWidth (session .wd)) s.line s.received row = s.received := by
          rw [storeRow, if_neg fun all => all.2.2 first]
        simp [skipped, none first, empty]
      · have behind : (rows ++ [codes]).tail = rows.tail ++ [codes] :=
          List.tail_append_of_ne_nil fun empty => first (by rw [count, empty, List.length_nil])
        rw [behind]
        simp only [List.mem_append, List.mem_singleton, or_imp, forall_and, forall_eq, ← iff]
        rcases storeRow_width (pageWidth_bounds (session .wd)) first s.received bounds.1 bounds.2 runs
          (runs ▸ pels) (runs ▸ readRow_count one nonneg) with ⟨lines, fine⟩ | ⟨stored, lines, wide⟩
        · rw [lines]
          exact ⟨fun all => ⟨all, fine⟩, fun all => all.1⟩
        · rw [lines]
          simp only [List.mem_append, List.mem_singleton, or_imp, forall_and, forall_eq, wide]
  exact invariant.2.2

/-- A page of one line, whose 25 runs have 65575 pels. -/
def overlongPage : List UInt8 :=
  let (e, first) := putcode newEncoder eolCode eolBits
  let (e, line) := runtocode e (List.replicate 25 2623)
  let (e, last) := putcode e eolCode eolBits
  first ++ line ++ last ++ (putRtc e).2 ++ [0]

theorem overlongPage_received :
    receiveData (tgetd .normalbits) defCap (fun _ => false) 400 0
      (modemStream .normalbits [overlongPage]) =
        some (0, ⟨[List.replicate 24 2623 ++ [4312]], 1⟩, []) := by
  decide +kernel

theorem not_pageWide : ¬ PageWide (pageWidth (defCap .wd)) (List.replicate 24 2623 ++ [4312]) := by
  intro wide
  have width := wide.width
  revert width
  decide

/-- The line is counted as 39 pels and padded to 67264. -/
theorem received_line_wide :
    ∃ r src', receiveData (tgetd .normalbits) defCap (fun _ => false) 400 0
        (modemStream .normalbits [overlongPage]) = some (0, r, src') ∧
      ¬ ∀ runs ∈ r.lines, PageWide (pageWidth (defCap .wd)) runs :=
  ⟨_, _, overlongPage_received, fun all => not_pageWide (all _ List.mem_cons_self)⟩

theorem received_width_iff_overlongPage :
    ∃ rows s, Receives (tgetd .normalbits) (pageWidth (defCap .wd)) 0
        (modemStream .normalbits [overlongPage]) rows s ∧
      s.received.lines.map List.sum = [67264] ∧
      ((∀ runs ∈ s.received.lines, PageWide (pageWidth (defCap .wd)) runs) ↔
        ∀ codes ∈ rows.tail, ¬ Overlong codes) := by
  obtain ⟨rows, s, run, same⟩ := receiveData_receives overlongPage_received
  exact ⟨rows, s, run, by rw [same]; decide, received_width_iff run⟩

end QFax.Efax

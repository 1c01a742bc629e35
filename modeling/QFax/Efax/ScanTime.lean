import QFax.Efax.SendData

/-!
# The minimum scan line time

`send_data` pads a line with FILL until the buffer has `minlen` bytes.  The bits that were in the buffer
and in the encoder before the line are counted, the bits that stay in the encoder are not.  Whether a
line takes the scan time that was negotiated depends on the code bits of the line and of those before
it (`scan_time_iff`).
-/

namespace QFax.Efax

open Bits

/-- The bytes that the modem sends in the minimum scan line time, times 1000. -/
def SendJob.scanTime (j : SendJob) : Int := cps (j.session .br) * mst (j.session .st)

/-- The bits of a row, from the first code to the last bit of the EOL. -/
def rowLength (row : List Int × Nat) : Nat := (rowsBits [row]).length

/-- A line with some code bits, and some bits in front of it, takes the time: it is long enough without
FILL, or there is FILL and the bits before and behind the bytes that are counted make up for the part
of the time that `minlen` leaves out. -/
def LongEnough (time : Int) (ahead codes : Nat) : Prop :=
  8 * time ≤ 1000 * (codes + eolBits) ∨
    (((ahead + codes) / 8 : Nat) + 1 < time / 1000 ∧
      8 * (time % 1000) ≤ 1000 * (((ahead + codes) % 8 : Nat) + 4 - ahead))

instance (time : Int) (ahead codes : Nat) : Decidable (LongEnough time ahead codes) :=
  inferInstanceAs (Decidable (_ ∨ _))

/-- All lines take the time. -/
def AllLongEnough (time : Int) (ahead : Nat) : List (List Int) → Prop
  | [] => True
  | runs :: lines =>
    let codes := (lineBits runs).length
    LongEnough time ahead codes ∧ AllLongEnough time ((ahead + codes + eolBits) % 8) lines

/-- A decision, line by line. -/
def decideAllLongEnough (time : Int) : (ahead : Nat) → (lines : List (List Int)) →
    Decidable (AllLongEnough time ahead lines)
  | _, [] => isTrue trivial
  | ahead, runs :: lines =>
    let codes := (lineBits runs).length
    let := decideAllLongEnough time ((ahead + codes + eolBits) % 8) lines
    inferInstanceAs (Decidable (LongEnough time ahead codes ∧ _))

instance (time : Int) (ahead : Nat) (lines : List (List Int)) :
    Decidable (AllLongEnough time ahead lines) := decideAllLongEnough time ahead lines

theorem rowLength_eq (row : List Int × Nat) : rowLength row = (lineBits row.1).length + row.2 + 1 := by
  rw [rowLength, rowsBits_cons, rowsBits_nil, List.append_nil, List.length_append, List.length_append,
    List.length_replicate, List.length_singleton, Nat.add_assoc]

theorem entry_cases (table : List Int) (i : Int) : entry table i = 0 ∨ entry table i ∈ table := by
  unfold entry
  rcases Nat.lt_or_ge i.toNat table.length with inside | outside
  · rw [List.getD_eq_getElem _ _ inside]
    exact .inr (List.getElem_mem inside)
  · exact .inl (List.getD_eq_default _ _ outside)

/-- The scan time is none, or at least a byte. -/
theorem SendJob.scanTime_cases (j : SendJob) : j.scanTime = 0 ∨ 1000 ≤ j.scanTime := by
  have rates : ∀ r ∈ [(300 : Int), 600, 900, 1200, 1500, 1800, 900, 1200], 300 ≤ r := by decide
  have times : ∀ t ∈ [(0 : Int), 5, 10, 10, 20, 20, 40, 40], t = 0 ∨ 5 ≤ t := by decide
  unfold SendJob.scanTime
  rcases entry_cases _ (j.session .br) with none | rate
  · exact .inl (by rw [cps, none, Int.zero_mul])
  have fast : 300 ≤ cps (j.session .br) := rates _ rate
  have time : mst (j.session .st) = 0 ∨ 5 ≤ mst (j.session .st) := by
    rcases entry_cases _ (j.session .st) with none | time
    · exact .inl none
    · exact times _ time
  rcases time with none | slow
  · exact .inl (by rw [none, Int.mul_zero])
  · have product := Int.mul_le_mul fast slow (by decide) (by omega)
    exact .inr (le_trans (by decide) product)

/-- `minlen` is a byte less than the time. -/
theorem SendJob.minlen_eq {j : SendJob} (time : 1000 ≤ j.scanTime) :
    j.minlen = j.scanTime / 1000 - 1 := by
  have back : cps (j.session .br) * mst (j.session .st) - 1500 + 500 = j.scanTime - 1000 := by
    unfold SendJob.scanTime
    omega
  rw [SendJob.minlen, back, Int.tdiv_eq_ediv_of_nonneg (by omega)]
  omega

/-- A row takes its time if and only if its line is long enough. -/
theorem SendJob.row_time_iff (j : SendJob) (ahead : Nat) (runs : List Int) :
    8 * j.scanTime ≤ 1000 * rowLength (runs, 8 * fillBytes j.minlen ahead (lineBits runs).length + 11) ↔
      LongEnough j.scanTime ahead (lineBits runs).length := by
  rw [rowLength_eq]
  unfold LongEnough fillBytes eolBits
  dsimp only
  rcases j.scanTime_cases with none | some
  · rw [none]
    omega
  · rw [SendJob.minlen_eq some]
    omega

theorem SendJob.rows_time_iff (j : SendJob) (ahead : Nat) (lines : List (List Int)) :
    (∀ row ∈ sentRows j.minlen ahead lines, 8 * j.scanTime ≤ 1000 * rowLength row) ↔
      AllLongEnough j.scanTime ahead lines := by
  induction lines generalizing ahead with
  | nil => exact iff_of_true (fun row member => absurd member List.not_mem_nil) trivial
  | cons runs lines ih =>
    rw [sentRows, List.forall_mem_cons, AllLongEnough, j.row_time_iff, ih]

/-- The lines of a page are sent as rows, each of which takes the minimum scan line time if and only if
its line is long enough where it is sent. -/
theorem scan_time_iff {j : SendJob} (valid : j.Valid) {page : List (List Int)}
    (input : ∀ runs ∈ page, InputLine runs) {lines : List (List Int)}
    (encoded : j.encoded page = some lines)
    (words : ∀ runs ∈ lines, (lineCodes .white runs).length < maxRuns) :
    let rows := sentRows j.minlen 268 lines
    (∃ bufs rest, j.sendData page = some bufs ∧ rows.map Prod.fst = lines ∧
      bytesBits bufs.flatten = List.replicate 267 false ++ true :: (rowsBits rows ++ rest)) ∧
    ((∀ row ∈ rows, 8 * j.scanTime ≤ 1000 * rowLength row) ↔ AllLongEnough j.scanTime 268 lines) := by
  obtain ⟨bufs, z, tail, sent, -, -, -, -, bits⟩ := valid.sendData_rows input encoded words
  exact ⟨⟨bufs, _, sent, sentRows_lines j.minlen 268 lines, bits⟩, j.rows_time_iff 268 lines⟩

/-- A session of some rate and minimum scan time, with a blank header. -/
def timedJob (br st : Int) : SendJob := ⟨defCap, Cap.of 1 br 0 2 0 0 0 st, fun _ => [100]⟩

theorem timedJob_valid (br st : Int) : (timedJob br st).Valid := by
  have header : InputLine [100] := ⟨by decide, by decide⟩
  have width : (timedJob br st).pwidth = 1728 := rfl
  exact ⟨fun _ => header, by rw [width]; decide, by rw [width]; decide⟩

theorem blank_top_words :
    ∀ runs ∈ List.replicate 20 [(1728 : Int)], (lineCodes .white runs).length < maxRuns := by
  intro runs member
  rw [(List.mem_replicate.mp member).2]
  decide

/-- The blank lines at the top take 10 ms at 2400 bps. -/
theorem scan_time_slow :
    (timedJob 0 2).encoded [] = some (List.replicate 20 [1728]) ∧
      ∀ row ∈ sentRows (timedJob 0 2).minlen 268 (List.replicate 20 [1728]),
        8 * (timedJob 0 2).scanTime ≤ 1000 * rowLength row := by
  have encoded : (timedJob 0 2).encoded [] = some (List.replicate 20 [1728]) := by decide +kernel
  have input : ∀ runs ∈ ([] : List (List Int)), InputLine runs := by
    intro runs member
    cases member
  exact ⟨encoded,
    (scan_time_iff (timedJob_valid 0 2) input encoded blank_top_words).2.mpr (by decide +kernel)⟩

/-- At 7200 bps and 5 ms a line has to take 36 bits.  The eighth line starts after seven bits of the
line before, and is sent in 29. -/
theorem scan_time_missed :
    (timedJob 2 1).encoded [] = some (List.replicate 20 [1728]) ∧
      (sentRows (timedJob 2 1).minlen 268 (List.replicate 20 [1728]))[7]? = some ([1728], 11) ∧
      rowLength ([1728], 11) = 29 ∧ 8 * (timedJob 2 1).scanTime = 1000 * 36 ∧
      1000 * (rowLength ([1728], 11) : Int) < 8 * (timedJob 2 1).scanTime := by
  decide +kernel

end QFax.Efax

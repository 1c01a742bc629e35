import Mathlib.Data.List.Basic
import Mathlib.Data.List.TakeDrop

/-!
# PostScript output

`pswrite` codes the bytes of a scan line as copies from the line before, runs and data, written in
hexadecimal.  The procedure `readbuf` of the prologue `PSBEGIN` reads them back into a string that it
keeps between lines.
-/

namespace QFax.Efax

/-! ## Hexadecimal -/

/-- `hexchars`. -/
def hexchars : List Char := "0123456789abcdef".toList

/-- `hexputc` on some bytes: two digits each, with a newline behind every 32nd byte; `nhexout` counts
the bytes. -/
def hexText (nhexout : Nat) : List UInt8 → List Char
  | [] => []
  | c :: cs =>
    hexchars.getD (c >>> 4).toNat ' ' :: hexchars.getD (c &&& 0x0f).toNat ' ' ::
      (if nhexout &&& 31 = 31 then ['\n'] else []) ++ hexText (nhexout + 1) cs

/-- The value of a hexadecimal digit. -/
def hexValue (c : Char) : Option Nat :=
  if '0' ≤ c ∧ c ≤ '9' then some (c.toNat - '0'.toNat)
  else if 'a' ≤ c ∧ c ≤ 'f' then some (c.toNat - 'a'.toNat + 10)
  else if 'A' ≤ c ∧ c ≤ 'F' then some (c.toNat - 'A'.toNat + 10)
  else none

/-- Two digits for each byte. -/
def pairDigits : List Nat → List UInt8
  | hi :: lo :: digits => UInt8.ofNat (16 * hi + lo) :: pairDigits digits
  | _ => []

/-- The bytes that `readhexstring` reads from a text: characters that are no digits are skipped. -/
def readhex (text : List Char) : List UInt8 := pairDigits (text.filterMap hexValue)

/-! ## Writing -/

/-- `hexputs`: data bytes behind their number. -/
def hexputs (p : List UInt8) : List UInt8 :=
  if 0 < p.length then UInt8.ofNat p.length :: p.map (· ^^^ 0xff) else []

/-- The number of bytes, at most `k`, from which on two lines are the same. -/
def copyLength : Nat → List UInt8 → List UInt8 → Nat
  | k + 1, b :: bs, o :: os => if b = o then copyLength k bs os + 1 else 0
  | _, _, _ => 0

/-- The number of bytes, at most `k`, that have a value. -/
def runLength (v : UInt8) : Nat → List UInt8 → Nat
  | k + 1, b :: bs => if b = v then runLength v k bs + 1 else 0
  | _, _ => 0

/-- The bytes that may be copied from the line before, which the first line has not. -/
def copiesFrom (pslines : Nat) (buf last : List UInt8) : Nat :=
  if pslines ≠ 0 then copyLength 127 buf last else 0

/-- The main loop of `pswrite`: the bytes from `l` to `i`, those of the line from `i` on, and those of
the line before. -/
def psLoop (pslines : Nat) (data : List UInt8) : List UInt8 → List UInt8 → List UInt8
  | [], _ => hexputs data
  | b :: rest, last =>
    if 2 < copiesFrom pslines (b :: rest) last then
      -- skip
      hexputs data ++ UInt8.ofNat (copiesFrom pslines (b :: rest) last + 127) ::
        psLoop pslines [] ((b :: rest).drop (copiesFrom pslines (b :: rest) last))
          (last.drop (copiesFrom pslines (b :: rest) last))
    else if 4 < runLength b 255 (b :: rest) then
      -- run
      hexputs data ++ 255 :: UInt8.ofNat (runLength b 255 (b :: rest)) :: (b ^^^ 0xff) ::
        psLoop pslines [] ((b :: rest).drop (runLength b 255 (b :: rest)))
          (last.drop (runLength b 255 (b :: rest)))
    else if 127 ≤ data.length then
      -- maximum data length
      hexputs data ++ psLoop pslines [] (b :: rest) last
    else
      -- data
      psLoop pslines (data ++ [b]) rest (last.drop 1)
termination_by buf => (buf.length, data.length)
decreasing_by
  · refine Prod.Lex.left _ _ ?_
    rw [List.length_drop, List.length_cons]
    omega
  · refine Prod.Lex.left _ _ ?_
    rw [List.length_drop, List.length_cons]
    omega
  · refine Prod.Lex.right _ ?_
    rw [List.length_nil]
    omega
  · exact Prod.Lex.left _ _ (Nat.lt_succ_self _)

/-- `pswrite` on a line: the bytes written in hexadecimal. -/
def pswrite (pslines : Nat) (last buf : List UInt8) : List UInt8 :=
  if pslines ≠ 0 ∧ copyLength buf.length buf last = buf.length then [0]
  else psLoop pslines [] buf last

/-- The lines of a page. -/
def pswriteLines : Nat → List UInt8 → List (List UInt8) → List UInt8
  | _, _, [] => []
  | pslines, last, buf :: lines => pswrite pslines last buf ++ pswriteLines (pslines + 1) buf lines

/-! ## Reading -/

/-- Replace the bytes of a string from an index on. -/
def putInterval (buf : List UInt8) (index : Nat) (s : List UInt8) : List UInt8 :=
  buf.take index ++ s ++ buf.drop (index + s.length)

/-- The loop of `readbuf`: the index at its end, the string and the bytes that follow.  Reading beyond
the end of the file or storing beyond the end of the string has no result. -/
def readbufLoop (index : Nat) (buf : List UInt8) : List UInt8 → Option (Nat × List UInt8 × List UInt8)
  | [] => if buf.length ≤ index then some (index, buf, []) else none
  | c :: file =>
    if buf.length ≤ index then some (index, buf, c :: file)
    else if c.toNat ≤ 127 then
      if c = 0 then readbufLoop (index + buf.length) buf file
      else if file.length < c.toNat ∨ buf.length < index + c.toNat then none
      else readbufLoop (index + c.toNat) (putInterval buf index (file.take c.toNat))
        (file.drop c.toNat)
    else if c = 255 then
      match file with
      | run_length :: value :: file =>
        if buf.length < index + run_length.toNat then none
        else readbufLoop (index + run_length.toNat)
          (putInterval buf index (List.replicate run_length.toNat value)) file
      | _ => none
    else readbufLoop (index + (c.toNat - 127)) buf file
termination_by file => file.length
decreasing_by
  all_goals
    simp only [List.length_cons, List.length_drop]
    omega

/-- `readbuf` for a number of lines: index and string for each, and the bytes that follow. -/
def readLines : Nat → List UInt8 → List UInt8 → Option (List (Nat × List UInt8) × List UInt8)
  | 0, _, file => some ([], file)
  | n + 1, buf, file => do
    let (index, buf, file) ← readbufLoop 0 buf file
    let (lines, file) ← readLines n buf file
    some ((index, buf) :: lines, file)

/-! ## Digits -/

theorem hexValue_hexchars {d : Nat} (lt : d < 16) : hexValue (hexchars.getD d ' ') = some d := by
  have all : ∀ d : Fin 16, hexValue (hexchars.getD d ' ') = some (d : Nat) := by decide
  exact all ⟨d, lt⟩

theorem nibbles (c : UInt8) : (c >>> 4).toNat < 16 ∧ (c &&& 0x0f).toNat < 16 ∧
    UInt8.ofNat (16 * (c >>> 4).toNat + (c &&& 0x0f).toNat) = c := by
  have all : ∀ n : Fin 256, (UInt8.ofFin n >>> 4).toNat < 16 ∧ (UInt8.ofFin n &&& 0x0f).toNat < 16 ∧
      UInt8.ofNat (16 * (UInt8.ofFin n >>> 4).toNat + (UInt8.ofFin n &&& 0x0f).toNat) =
        UInt8.ofFin n := by decide +kernel
  exact all c.toFin

/-- The digits read back are the bytes written, wherever the newlines are. -/
theorem readhex_hexText (nhexout : Nat) (cs : List UInt8) (text : List Char) :
    readhex (hexText nhexout cs ++ text) = cs ++ readhex text := by
  induction cs generalizing nhexout with
  | nil => rfl
  | cons c cs ih =>
    obtain ⟨hi, lo, byte⟩ := nibbles c
    have hi' := hexValue_hexchars hi
    have lo' := hexValue_hexchars lo
    have newline : ∀ rest : List Char,
        ((if nhexout &&& 31 = 31 then ['\n'] else []) ++ rest).filterMap hexValue =
          rest.filterMap hexValue := by
      intro rest
      split <;> rfl
    have tail := ih (nhexout + 1)
    unfold readhex at tail ⊢
    simp only [hexText, List.cons_append, List.append_assoc]
    rw [List.filterMap_cons_some hi', List.filterMap_cons_some lo', newline, pairDigits, tail, byte]

/-! ## The codes of a line -/

theorem copyLength_le (k : Nat) (bs os : List UInt8) : copyLength k bs os ≤ k := by
  fun_induction copyLength k bs os <;> omega

theorem take_copyLength (k : Nat) (bs os : List UInt8) :
    bs.take (copyLength k bs os) = os.take (copyLength k bs os) := by
  fun_induction copyLength k bs os with
  | case1 k bs o os ih => rw [List.take_succ_cons, List.take_succ_cons, ih]
  | case2 => rfl
  | case3 => rfl

theorem copyLength_le_length (k : Nat) (bs os : List UInt8) : copyLength k bs os ≤ bs.length := by
  fun_induction copyLength k bs os with
  | case1 k bs o os ih => exact Nat.succ_le_succ ih
  | case2 => exact Nat.zero_le _
  | case3 => exact Nat.zero_le _

theorem runLength_le (v : UInt8) (k : Nat) (bs : List UInt8) : runLength v k bs ≤ k := by
  fun_induction runLength v k bs <;> omega

theorem take_runLength (v : UInt8) (k : Nat) (bs : List UInt8) :
    bs.take (runLength v k bs) = List.replicate (runLength v k bs) v := by
  fun_induction runLength v k bs with
  | case1 k bs ih => rw [List.take_succ_cons, ih, List.replicate_succ]
  | case2 => rfl
  | case3 => rfl

theorem runLength_le_length (v : UInt8) (k : Nat) (bs : List UInt8) :
    runLength v k bs ≤ bs.length := by
  fun_induction runLength v k bs with
  | case1 k bs ih => exact Nat.succ_le_succ ih
  | case2 => exact Nat.zero_le _
  | case3 => exact Nat.zero_le _

/-- Where bytes are copied there is a line before, and it has these bytes. -/
theorem copiesFrom_spec {pslines : Nat} {buf last : List UInt8}
    (some : 2 < copiesFrom pslines buf last) :
    pslines ≠ 0 ∧ copiesFrom pslines buf last ≤ 127 ∧
      copiesFrom pslines buf last ≤ buf.length ∧
      buf.take (copiesFrom pslines buf last) = last.take (copiesFrom pslines buf last) := by
  unfold copiesFrom at some ⊢
  split at some
  case isTrue copied =>
    rw [if_pos copied]
    exact ⟨copied, copyLength_le .., copyLength_le_length .., take_copyLength ..⟩
  case isFalse => cases some

/-- A line as it is stored in the string. -/
def inverted (p : List UInt8) : List UInt8 := p.map (· ^^^ 0xff)

@[simp] theorem length_inverted (p : List UInt8) : (inverted p).length = p.length := List.length_map _

@[simp] theorem inverted_nil : inverted [] = [] := rfl

theorem inverted_append (p q : List UInt8) : inverted (p ++ q) = inverted p ++ inverted q :=
  List.map_append

theorem inverted_take_drop (n : Nat) (p : List UInt8) :
    inverted (p.take n) ++ inverted (p.drop n) = inverted p := by
  rw [← inverted_append, List.take_append_drop]

section Codes

variable {index : Nat} {buf : List UInt8} {file : List UInt8}

theorem readbufLoop_full (full : buf.length ≤ index) :
    readbufLoop index buf file = some (index, buf, file) := by
  cases file <;> rw [readbufLoop.eq_def] <;> exact if_pos full

theorem putInterval_nil : putInterval buf index [] = buf := by
  simp [putInterval]

/-- Data codes put the bytes into the string. -/
theorem readbufLoop_data {data : List UInt8} (few : data.length ≤ 127)
    (fits : index + data.length ≤ buf.length) :
    readbufLoop index buf (hexputs data ++ file) =
      readbufLoop (index + data.length) (putInterval buf index (inverted data)) file := by
  rw [hexputs]
  split
  case isFalse none =>
    obtain rfl : data = [] := List.length_eq_zero_iff.mp (Nat.eq_zero_of_not_pos none)
    rw [List.nil_append, List.length_nil, Nat.add_zero]
    exact congrArg (readbufLoop index · file) putInterval_nil.symm
  case isTrue some =>
    have number : (UInt8.ofNat data.length).toNat = data.length := by
      rw [UInt8.toNat_ofNat', Nat.mod_eq_of_lt (by omega)]
    have nonzero : UInt8.ofNat data.length ≠ 0 := by
      intro zero
      rw [zero] at number
      exact absurd number (by simp; omega)
    rw [List.cons_append, readbufLoop.eq_def]
    dsimp only
    rw [number, if_neg (by omega), if_pos few, if_neg nonzero,
      if_neg (by rw [List.length_append, List.length_map]; omega),
      List.take_left' (List.length_map _), List.drop_left' (List.length_map _)]
    rfl

/-- Copy codes leave the string as it is. -/
theorem readbufLoop_copy {copies : Nat} (some : 0 < copies) (few : copies ≤ 127)
    (fits : index + copies ≤ buf.length) :
    readbufLoop index buf (UInt8.ofNat (copies + 127) :: file) =
      readbufLoop (index + copies) buf file := by
  have number : (UInt8.ofNat (copies + 127)).toNat = copies + 127 := by
    rw [UInt8.toNat_ofNat', Nat.mod_eq_of_lt (by omega)]
  have short : UInt8.ofNat (copies + 127) ≠ 255 := by
    intro last
    rw [last] at number
    exact absurd number (by show (255 : Nat) ≠ _; omega)
  rw [readbufLoop.eq_def]
  dsimp only
  rw [number, if_neg (by omega), if_neg (by omega), if_neg short, Nat.add_sub_cancel]

/-- Run codes put a number of equal bytes into the string. -/
theorem readbufLoop_run {run : Nat} (value : UInt8) (some : 0 < run) (few : run ≤ 255)
    (fits : index + run ≤ buf.length) :
    readbufLoop index buf (255 :: UInt8.ofNat run :: value :: file) =
      readbufLoop (index + run) (putInterval buf index (List.replicate run value)) file := by
  have number : (UInt8.ofNat run).toNat = run := by
    rw [UInt8.toNat_ofNat', Nat.mod_eq_of_lt (by omega)]
  rw [readbufLoop.eq_def]
  dsimp only
  rw [number, if_neg (by omega), if_neg (by decide), if_pos rfl, if_neg (by omega)]

/-- The code 0 keeps the whole string. -/
theorem readbufLoop_keep (filled : 0 < buf.length) :
    readbufLoop 0 buf (0 :: file) = some (buf.length, buf, file) := by
  rw [readbufLoop.eq_def]
  dsimp only
  rw [if_neg (by omega), if_pos (by decide), if_pos rfl, Nat.zero_add]
  exact readbufLoop_full (Nat.le_refl _)

end Codes

theorem putInterval_append {done x y s : List UInt8} (length : x.length = s.length) :
    putInterval (done ++ x ++ y) done.length s = done ++ s ++ y := by
  rw [putInterval, List.append_assoc done x y, List.take_left, ← length, ← List.append_assoc done x y,
    List.drop_left' (List.length_append)]

/-- Data codes, in a string that is right up to where they start. -/
theorem readbufLoop_putData {data done x y : List UInt8} (few : data.length ≤ 127)
    (waiting : x.length = data.length) (codes file : List UInt8) :
    readbufLoop done.length (done ++ x ++ y) (hexputs data ++ codes ++ file) =
      readbufLoop (done ++ inverted data).length (done ++ inverted data ++ y) (codes ++ file) := by
  rw [List.append_assoc (hexputs data), readbufLoop_data few (by simp only [List.length_append]; omega),
    putInterval_append (by rw [length_inverted, waiting]), List.length_append, length_inverted]

/-- The first bytes of a line and the others. -/
theorem inverted_split (n : Nat) (done buf : List UInt8) :
    done ++ inverted buf = done ++ inverted (buf.take n) ++ inverted (buf.drop n) := by
  rw [List.append_assoc, inverted_take_drop]

/-- The codes from `l` on, read into a string that is right up to `l` and, where lines are copied,
holds the line before from `i` on, make the rest of the string right. -/
theorem readbufLoop_psLoop (pslines : Nat) {data buf last done x y whole : List UInt8}
    (few : data.length ≤ 127) (waiting : x.length = data.length) (ahead : y.length = buf.length)
    (kept : pslines ≠ 0 → y = inverted last) (all : whole = done ++ inverted data ++ inverted buf)
    (file : List UInt8) :
    readbufLoop done.length (done ++ x ++ y) (psLoop pslines data buf last ++ file) =
      some (whole.length, whole, file) := by
  induction data, buf, last using psLoop.induct pslines generalizing done x y with
  | case1 data last =>
    obtain rfl : y = [] := List.length_eq_zero_iff.mp ahead
    have full : (done ++ inverted data ++ []).length ≤ (done ++ inverted data).length := by simp
    rw [psLoop, ← List.append_nil (hexputs data), readbufLoop_putData few waiting,
      readbufLoop_full full, all, inverted_nil, List.append_nil, List.nil_append]
  | case2 data b rest last skip ih =>
    obtain ⟨copied, few', inside, same⟩ := copiesFrom_spec skip
    rw [psLoop, if_pos skip, readbufLoop_putData few waiting]
    generalize copiesFrom pslines (b :: rest) last = m at skip few' inside same ih ⊢
    have old : y.take m = inverted ((b :: rest).take m) := by
      rw [kept copied, same, inverted, inverted, List.map_take]
    have here : (done ++ inverted data ++ y.take m).length = (done ++ inverted data).length + m := by
      rw [List.length_append, List.length_take, Nat.min_eq_left (ahead ▸ inside)]
    have ahead' : (y.drop m).length = ((b :: rest).drop m).length := by
      rw [List.length_drop, List.length_drop, ahead]
    have next := @ih (done ++ inverted data ++ y.take m) [] (y.drop m) (Nat.zero_le _) rfl ahead'
      (fun copied => by rw [kept copied, inverted, inverted, List.map_drop])
      (by rw [all, old, inverted_split m, inverted_nil, List.append_nil])
    rw [List.append_nil, List.append_assoc _ _ (y.drop m), List.take_append_drop, here] at next
    rw [List.cons_append, readbufLoop_copy (by omega) few' (by rw [@List.length_append _ _ y]; omega)]
    exact next
  | case3 data b rest last noSkip long ih =>
    have few' := runLength_le b 255 (b :: rest)
    have inside := runLength_le_length b 255 (b :: rest)
    have same := take_runLength b 255 (b :: rest)
    rw [psLoop, if_neg noSkip, if_pos long, readbufLoop_putData few waiting]
    generalize runLength b 255 (b :: rest) = m at long few' inside same ih ⊢
    have run : inverted ((b :: rest).take m) = List.replicate m (b ^^^ 0xff) := by
      rw [same, inverted, List.map_replicate]
    have here : (done ++ inverted data ++ List.replicate m (b ^^^ 0xff)).length =
        (done ++ inverted data).length + m := by
      rw [List.length_append, List.length_replicate]
    have next := @ih (done ++ inverted data ++ List.replicate m (b ^^^ 0xff)) [] (y.drop m)
      (Nat.zero_le _) rfl (by rw [List.length_drop, List.length_drop, ahead])
      (fun copied => by rw [kept copied, inverted, inverted, List.map_drop])
      (by rw [all, ← run, inverted_split m, inverted_nil, List.append_nil])
    rw [List.append_nil, here] at next
    have put : putInterval (done ++ inverted data ++ y) (done ++ inverted data).length
        (List.replicate m (b ^^^ 0xff)) =
          done ++ inverted data ++ List.replicate m (b ^^^ 0xff) ++ y.drop m := by
      have sizes : (y.take m).length = (List.replicate m (b ^^^ 0xff)).length := by
        rw [List.length_take, List.length_replicate, Nat.min_eq_left (ahead ▸ inside)]
      have parts := @putInterval_append (done ++ inverted data) _ (y.drop m) _ sizes
      rwa [List.append_assoc _ (y.take m), List.take_append_drop] at parts
    rw [List.cons_append, List.cons_append, List.cons_append,
      readbufLoop_run _ (by omega) few' (by rw [@List.length_append _ _ y]; omega), put]
    exact next
  | case4 data b rest last noSkip noRun full ih =>
    rw [psLoop, if_neg noSkip, if_neg noRun, if_pos full, readbufLoop_putData few waiting]
    have next := @ih (done ++ inverted data) [] y (Nat.zero_le _) rfl ahead kept
      (by rw [all, inverted_nil, List.append_nil])
    rwa [List.append_nil] at next
  | case5 data b rest last noSkip noRun room ih =>
    rw [psLoop, if_neg noSkip, if_neg noRun, if_neg room]
    obtain ⟨c, y, rfl⟩ : ∃ c y', y = c :: y' :=
      List.exists_cons_of_length_pos (by rw [ahead]; exact Nat.succ_pos _)
    have next := @ih done (x ++ [c]) y (by simp; omega) (by simp [waiting])
      (Nat.succ.inj ahead) (fun copied => by
        have old := congrArg (List.drop 1) (kept copied)
        rwa [inverted, ← List.map_drop] at old)
      (by rw [all]; simp [inverted])
    rwa [← List.append_assoc, List.append_assoc (done ++ x)] at next

theorem readbufLoop_pswrite {pslines : Nat} {last line buf : List UInt8} (positive : 0 < line.length)
    (sized : buf.length = line.length) (kept : pslines ≠ 0 → buf = inverted last)
    (file : List UInt8) : readbufLoop 0 buf (pswrite pslines last line ++ file) =
      some (line.length, inverted line, file) := by
  unfold pswrite
  split
  case isTrue repeated =>
    obtain ⟨copied, whole⟩ := repeated
    have same := take_copyLength line.length line last
    have before := kept copied
    have length : last.length = line.length := by rw [← sized, before, length_inverted]
    rw [whole, List.take_length, ← length, List.take_length] at same
    rw [List.singleton_append, readbufLoop_keep (sized ▸ positive), sized, before, same]
  case isFalse =>
    have read : readbufLoop 0 buf (psLoop pslines [] line last ++ file) =
        some ((inverted line).length, inverted line, file) :=
      @readbufLoop_psLoop pslines [] line last [] [] buf _ (Nat.zero_le _) rfl sized kept rfl file
    rwa [length_inverted] at read

/-- The lines of a page, read into the string that the lines before have left. -/
theorem readLines_pswriteLines {n : Nat} (positive : 0 < n) {lines : List (List UInt8)}
    (sized : ∀ line ∈ lines, line.length = n) {pslines : Nat} {last buf : List UInt8}
    (string : buf.length = n) (kept : pslines ≠ 0 → buf = inverted last) (file : List UInt8) :
    readLines lines.length buf (pswriteLines pslines last lines ++ file) =
      some (lines.map fun line => (n, inverted line), file) := by
  induction lines generalizing pslines last buf with
  | nil => rfl
  | cons line lines ih =>
    obtain ⟨length, sized⟩ := List.forall_mem_cons.mp sized
    have first := readbufLoop_pswrite (by rw [length]; exact positive) (by rw [string, length]) kept
      (pswriteLines (pslines + 1) line lines ++ file)
    have later := @ih sized (pslines + 1) line (inverted line)
      (by rw [length_inverted, length]) fun _ => rfl
    rw [pswriteLines, List.append_assoc, List.length_cons, readLines, first]
    simp only [Option.bind_eq_bind, Option.bind_some, later, length, List.map_cons]

/-- `readbuf` gets the complement of every line back from the text that `pswrite` writes for a page,
and the codes of each line fill the string exactly, whatever the static line and the string held
before. -/
theorem ps_round_trip {n : Nat} (positive : 0 < n) (lines : List (List UInt8))
    (sized : ∀ line ∈ lines, line.length = n) (last buf : List UInt8) (string : buf.length = n)
    (nhexout : Nat) (text : List Char) :
    readLines lines.length buf (readhex (hexText nhexout (pswriteLines 0 last lines) ++ text)) =
      some (lines.map fun line => (n, line.map (· ^^^ 0xff)), readhex text) := by
  rw [readhex_hexText]
  exact readLines_pswriteLines positive sized string (fun first => absurd rfl first) _

/-- Lines of ten bytes, with runs, data and a repeated line. -/
def tenByteLines : List (List UInt8) :=
  [List.replicate 10 0xff, [1, 2] ++ List.replicate 8 0xff, [1, 2] ++ List.replicate 8 0xff]

theorem ps_round_trip_three :
    readLines tenByteLines.length (List.replicate 10 0)
      (readhex (hexText 30 (pswriteLines 0 [] tenByteLines) ++ [])) =
    some (tenByteLines.map fun line => (10, line.map (· ^^^ 0xff)), readhex []) :=
  ps_round_trip (by decide) tenByteLines (by decide) [] _ rfl 30 []

end QFax.Efax

import Mathlib.Data.List.Infix
import QFax.Efax.TextPages

/-!
# Modem responses

`cmd` packs the lines that the modem sends while it waits into a buffer of `MAXRESPB` bytes, for as long
as they fit, and `sresponse` walks over them to find what follows the last line that starts with a
string.  The lines are stored as they come in.  The search does not skip blanks: what it finds starts
with them, and where only blanks follow it stops at the null of the line instead of going on to the next
one (`responses_iff`).
-/

namespace QFax.Efax

/-! ## Lines -/

/-- `MAXRESPB`. -/
def maxRespB : Nat := 1024

/-- `CMDBUFSIZE`. -/
def cmdBufSize : Nat := 256

/-- `INT_MAX`. -/
def intMax : Nat := 2 ^ 31 - 1

/-- The control characters of a locale, which are those of ASCII as far as that goes. -/
structure CharClass where
  iscntrl : UInt8 → Bool
  ascii : ∀ c < 128, iscntrl c = decide (c < 32 ∨ c = 127)

theorem CharClass.lf (cc : CharClass) : cc.iscntrl lf = true := cc.ascii 10 (by decide)

theorem CharClass.cr (cc : CharClass) : cc.iscntrl 13 = true := cc.ascii 13 (by decide)

theorem CharClass.nul (cc : CharClass) : cc.iscntrl 0 = true := cc.ascii 0 (by decide)

/-- The loop of `tgets` with the characters that are stored so far.  The input is what `tgetc` returns,
`none` for `EOF`; behind its end nothing more comes in. -/
def tgetsLoop (cc : CharClass) (len : Nat) (s : List UInt8) :
    List (Option UInt8) → Option (List UInt8) × List (Option UInt8)
  | [] => (none, [])
  | none :: input => (none, input)
  | some c :: input =>
    if s ≠ [] ∧ c = lf then (some (s.take (len - 1)), input)
    else tgetsLoop cc len (if ¬ cc.iscntrl c ∧ s.length < len then s ++ [c] else s) input

/-- `tgets`: a line, or `none` when no more characters come in, and the rest of the input. -/
def tgets (cc : CharClass) (len : Nat) (input : List (Option UInt8)) :
    Option (List UInt8) × List (Option UInt8) :=
  tgetsLoop cc len [] input

theorem tgetsLoop_length (cc : CharClass) (len : Nat) (s : List UInt8) (input : List (Option UInt8)) :
    (tgetsLoop cc len s input).2.length ≤ input.length - 1 := by
  induction input generalizing s with
  | nil => exact Nat.le_refl 0
  | cons c input ih =>
    cases c with
    | none => exact le_refl input.length
    | some c =>
      rw [tgetsLoop]
      split
      · exact le_refl input.length
      · exact (ih _).trans (Nat.sub_le _ _)

theorem tgets_shorter {cc : CharClass} {len : Nat} {input rest : List (Option UInt8)}
    {line : List UInt8}
    (read : tgets cc len input = (some line, rest)) : rest.length < input.length := by
  have shorter := tgetsLoop_length cc len [] input
  rw [← tgets, read] at shorter
  cases input with
  | nil => cases read
  | cons c input =>
    rw [List.length_cons] at shorter ⊢
    dsimp only at shorter
    omega

/-! ## Commands -/

/-- The characters of a string. -/
def chars (s : String) : List UInt8 := s.toList.map Char.toUInt8

/-- `prompts`. -/
def prompts : List (List UInt8) :=
  ["OOK", "-CONNECT FAX", "CCONNECT", "NNO CARRIER", "EERROR", "NNO DIALTONE", "BBUSY", "NNO ANSWER",
    "M+FCERROR", "VVCON", "DDATA"].map chars

/-- `strtabmatch`. -/
def strtabmatch (s : List UInt8) : List (List UInt8) → Option (List UInt8)
  | [] => none
  | p :: table =>
    if p.drop 1 <+: s then if p.head? = some '-'.toUInt8 then none else some p
    else strtabmatch s table

/-- The bytes from `responses` to `lresponse`, and `resplen`. -/
structure Responses where
  resplen : Nat
  bytes : List UInt8

/-- A line is counted, and stored where it fits; `none` when the count overflows, which is undefined. -/
def Responses.offer (r : Responses) (buf : List UInt8) : Option Responses :=
  let resplen := r.resplen + (buf.length + 1)
  if intMax < resplen then none
  else if resplen ≤ maxRespB then some ⟨resplen, r.bytes ++ (buf ++ [0])⟩
  else some ⟨resplen, r.bytes⟩

/-- Collect unexpected responses. -/
def drain (cc : CharClass) (input : List (Option UInt8)) : List (Option UInt8) :=
  match _ : tgets cc cmdBufSize input with
  | (none, input) => input
  | (some _, input) => drain cc input
termination_by input.length
decreasing_by exact tgets_shorter ‹_›

theorem drain_length (cc : CharClass) (input : List (Option UInt8)) :
    (drain cc input).length ≤ input.length := by
  rw [drain]
  split
  · rename_i read
    have shorter := tgetsLoop_length cc cmdBufSize [] input
    rw [← tgets, read] at shorter
    exact shorter.trans (Nat.sub_le _ _)
  · rename_i read
    have shorter := tgets_shorter read
    exact (drain_length cc _).trans shorter.le
termination_by input.length

/-- Send the command, if there is one, once nothing more comes in. -/
def retry (cc : CharClass) (command : Bool) (input : List (Option UInt8)) : List (Option UInt8) :=
  if command then drain cc input else input

theorem retry_length (cc : CharClass) (command : Bool) (input : List (Option UInt8)) :
    (retry cc command input).length ≤ input.length := by
  rw [retry]
  split
  · exact drain_length cc input
  · exact le_rfl

/-- Wait for a prompt: its first character or `EOF`, the responses and the rest of the input. -/
def waitPrompt (cc : CharClass) (command : Bool) (r : Responses) (input : List (Option UInt8)) :
    Option (Int × Responses × List (Option UInt8)) :=
  match _ : tgets cc cmdBufSize input with
  | (none, input) => some (-1, r, input)
  | (some buf, input) => do
    let r ← r.offer buf
    match strtabmatch buf prompts with
    | some p => some ((p.headD 0).toNat, r, input)
    | none =>
      if buf = chars "RING" then waitPrompt cc command r (retry cc command input)
      else waitPrompt cc command r input
termination_by input.length
decreasing_by
  · exact (retry_length _ _ _).trans_lt (tgets_shorter ‹_›)
  · exact tgets_shorter ‹_›

/-- `cmd`: its result, the responses and the rest of the input. -/
def cmd (cc : CharClass) (command : Bool) (t : Int) (input : List (Option UInt8)) :
    Option (Int × Responses × List (Option UInt8)) :=
  let input := retry cc command input
  if t = 0 then some (0, ⟨0, []⟩, input) else waitPrompt cc command ⟨0, []⟩ input

/-! ## The search -/

/-- The white space that is passed before a number. -/
def isspace (c : UInt8) : Bool := c = 32 ∨ (9 ≤ c ∧ c ≤ 13)

/-- The value of digits. -/
def digitsValue (digits : List UInt8) : Nat :=
  digits.foldl (fun n c => 10 * n + (c.toNat - '0'.toNat)) 0

/-- `sscanf` for one integer in decimal format. -/
def scanInt (s : List UInt8) : Option Int :=
  let s := s.dropWhile isspace
  let negative := s.head? = some '-'.toUInt8
  let digits := (if negative ∨ s.head? = some '+'.toUInt8 then s.drop 1 else s).takeWhile isdigit
  if digits = [] then none
  else some (if negative then -(digitsValue digits : Int) else digitsValue digits)

/-- The characters that `sresponse` counts as blank. -/
def isBlank (c : UInt8) : Bool := c = 32 ∨ c = 13 ∨ c = 10

/-- The loop of `sresponse` from a line on: its offset, the memory from there to `lresponse`, and the
offset and the number that were found so far. -/
def sresponseLoop (s : List UInt8) (p : Nat) (mem : List UInt8) (found : Option Nat × Option Int) :
    Option Nat × Option Int :=
  if _ : mem = [] then found
  else
    let lenp := (cString mem).length
    let found :=
      if s <+: cString mem then
        let r := mem.drop s.length
        let lenr := (cString r).length
        let skip := if ((cString r).takeWhile isBlank).length = lenr ∧ s.length + lenr < mem.length
          then lenr else 0
        (some (p + s.length + skip), (scanInt (cString (r.drop skip))).or found.2)
      else found
    sresponseLoop s (p + (lenp + 1)) (mem.drop (lenp + 1)) found
termination_by mem.length
decreasing_by
  have some := List.length_pos_iff.mpr ‹mem ≠ []›
  rw [List.length_drop]
  omega

/-- `sresponse`: the offset of what it returns, and the number that it leaves in `*ip`. -/
def sresponse (s mem : List UInt8) : Option Nat × Option Int := sresponseLoop s 0 mem (none, none)

/-! ## What is stored -/

/-- Lines as strings, one after another. -/
def pack (lines : List (List UInt8)) : List UInt8 := lines.flatMap (· ++ [0])

/-- The lines that fit into a buffer, up to the first that does not. -/
def fitting (room : Nat) : List (List UInt8) → List (List UInt8)
  | [] => []
  | line :: lines =>
    if line.length + 1 ≤ room then line :: fitting (room - (line.length + 1)) lines else []

/-- The lines that come in while the call waits. -/
def waitLines (cc : CharClass) (command : Bool) (input : List (Option UInt8)) : List (List UInt8) :=
  match _ : tgets cc cmdBufSize input with
  | (none, _) => []
  | (some buf, input) =>
    buf :: match strtabmatch buf prompts with
      | some _ => []
      | none =>
        if buf = chars "RING" then waitLines cc command (retry cc command input)
        else waitLines cc command input
termination_by input.length
decreasing_by
  · exact (retry_length _ _ _).trans_lt (tgets_shorter ‹_›)
  · exact tgets_shorter ‹_›

/-- The lines that come in while the call waits, for a command and a time to wait. -/
def heard (cc : CharClass) (command : Bool) (t : Int) (input : List (Option UInt8)) :
    List (List UInt8) :=
  if t = 0 then [] else waitLines cc command (retry cc command input)

/-- A line feed or the end of a wait comes in front of what is left of the input, or nothing does. -/
def AtLine (input rest : List (Option UInt8)) : Prop :=
  rest = [] ∨ ∃ before, input = before ++ rest ∧
    (before = [] ∨ before.getLast? = some none ∨ before.getLast? = some (some lf))

/-- A line of the input: the printable characters up to a line feed, as many as the buffer holds. -/
def LineOf (cc : CharClass) (input : List (Option UInt8)) (line : List UInt8) : Prop :=
  ∃ (text : List UInt8) (rest : List (Option UInt8)),
    AtLine input (text.map some ++ some lf :: rest) ∧ lf ∉ text ∧
      line = (text.filter fun c => !cc.iscntrl c).take (cmdBufSize - 1)

/-- What `tgets` stores: printable characters, at least one of them. -/
structure CharClass.Line (cc : CharClass) (line : List UInt8) : Prop where
  some : line ≠ []
  printable : ∀ c ∈ line, ¬ cc.iscntrl c

theorem CharClass.Line.nul {cc : CharClass} {line : List UInt8} (whole : cc.Line line) : 0 ∉ line :=
  fun member => whole.printable 0 member cc.nul

/-- The only blanks of a line are spaces. -/
theorem CharClass.Line.blank {cc : CharClass} {line : List UInt8} (whole : cc.Line line) (c : UInt8)
    (member : c ∈ line) (blank : isBlank c) : c = 32 := by
  rw [isBlank, decide_eq_true_eq] at blank
  rcases blank with rfl | rfl | rfl
  · rfl
  · exact absurd cc.cr (whole.printable 13 member)
  · exact absurd cc.lf (whole.printable 10 member)

variable {cc : CharClass} {command : Bool} {t : Int}

/-- A character in front of the end of a list does not move the end. -/
theorem getLast?_cons_of_some {α : Type} {x y : α} {l : List α} (last : l.getLast? = some y) :
    (x :: l).getLast? = some y := by
  rw [List.getLast?_cons, last, Option.getD_some]

/-- What `tgets` takes of the input: what comes up to the line feed in front of the line, the characters
of the line and its own line feed. -/
theorem tgetsLoop_some {len : Nat} {s : List UInt8} {input rest : List (Option UInt8)}
    {line : List UInt8}
    (read : tgetsLoop cc len s input = (some line, rest)) :
    ∃ (before : List (Option UInt8)) (text : List UInt8),
      input = before ++ (text.map some ++ some lf :: rest) ∧
      (before = [] ∨ (s = [] ∧ before.getLast? = some (some lf))) ∧ lf ∉ text ∧
      s ++ (text.filter fun c => !cc.iscntrl c) ≠ [] ∧
      line = (s ++ text.filter fun c => !cc.iscntrl c).take (len - 1) := by
  induction input generalizing s with
  | nil => cases read
  | cons c input ih =>
    cases c with
    | none => cases read
    | some c =>
      rw [tgetsLoop] at read
      by_cases ended : s ≠ [] ∧ c = lf
      · obtain ⟨some, rfl⟩ := ended
        rw [if_pos ⟨some, rfl⟩] at read
        cases read
        exact ⟨[], [], rfl, Or.inl rfl, List.not_mem_nil, by simpa using some, by simp⟩
      · rw [if_neg ended] at read
        obtain ⟨before, text, rfl, first, whole, some, rfl⟩ := ih read
        by_cases feed : c = lf
        · subst feed
          have empty : s = [] := by
            by_contra some
            exact ended ⟨some, rfl⟩
          have kept : ¬ (¬ cc.iscntrl lf ∧ s.length < len) := fun both => both.1 cc.lf
          rw [if_neg kept] at some ⊢
          refine ⟨.some lf :: before, text, rfl, Or.inr ⟨empty, ?_⟩, whole, some, rfl⟩
          rcases first with rfl | ⟨_, last⟩
          · rfl
          · exact getLast?_cons_of_some last
        · rcases first with rfl | ⟨empty, last⟩
          · refine ⟨[], c :: text, rfl, Or.inl rfl, ?_, ?_⟩
            · rw [List.mem_cons, not_or]
              exact ⟨Ne.symm feed, whole⟩
            · by_cases control : cc.iscntrl c
              · rw [if_neg (fun both => both.1 control)] at some ⊢
                rw [List.filter_cons_of_neg (by simpa using control)]
                exact ⟨some, rfl⟩
              · rw [List.filter_cons_of_pos (by simpa using control)]
                by_cases room : s.length < len
                · rw [if_pos ⟨control, room⟩, List.append_assoc, List.singleton_append]
                  exact ⟨by simp, rfl⟩
                · rw [if_neg (fun both => room both.2)]
                  refine ⟨by simp, ?_⟩
                  rw [List.take_append_of_le_length (by omega),
                    List.take_append_of_le_length (by omega)]
          · split at empty
            · exact absurd empty (by simp)
            · rename_i kept
              rw [if_neg kept] at some ⊢
              exact ⟨.some c :: before, text, rfl, Or.inr ⟨empty, getLast?_cons_of_some last⟩, whole,
                some, rfl⟩

theorem AtLine.start (input : List (Option UInt8)) : AtLine input input :=
  Or.inr ⟨[], rfl, Or.inl rfl⟩

theorem AtLine.next {input before rest : List (Option UInt8)} (start : AtLine input (before ++ rest))
    (last : before = [] ∨ before.getLast? = some none ∨ before.getLast? = some (some lf)) :
    AtLine input rest := by
  by_cases empty : before = []
  · rwa [empty] at start
  · rcases start with ended | ⟨front, rfl, _⟩
    · exact absurd (List.append_eq_nil_iff.mp ended).1 empty
    · refine Or.inr ⟨front ++ before, (List.append_assoc _ _ _).symm, Or.inr ?_⟩
      rw [List.getLast?_append_of_ne_nil _ empty]
      exact last.resolve_left empty

/-- A line that `tgets` returns. -/
theorem tgets_line {input from' rest : List (Option UInt8)} {line : List UInt8}
    (start : AtLine input from') (read : tgets cc cmdBufSize from' = (some line, rest)) :
    cc.Line line ∧ LineOf cc input line ∧ AtLine input rest := by
  obtain ⟨before, text, rfl, first, whole, some, rfl⟩ := tgetsLoop_some read
  rw [List.nil_append] at some ⊢
  have behind := start.next (first.imp_right fun both => Or.inr both.2)
  refine ⟨⟨?_, ?_⟩, ⟨text, rest, behind, whole, rfl⟩, ?_⟩
  · rw [Ne, List.take_eq_nil_iff, not_or]
    exact ⟨by decide, some⟩
  · intro c member
    simpa using (List.mem_filter.mp (List.mem_of_mem_take member)).2
  · rw [← List.singleton_append, ← List.append_assoc] at behind
    refine behind.next (Or.inr (Or.inr ?_))
    rw [List.getLast?_append_of_ne_nil _ (List.cons_ne_nil _ _)]
    rfl

/-- The end of a wait. -/
theorem tgetsLoop_none {len : Nat} {s : List UInt8} {input rest : List (Option UInt8)}
    (read : tgetsLoop cc len s input = (none, rest)) :
    rest = [] ∨ ∃ before, input = before ++ rest ∧ before.getLast? = some none := by
  induction input generalizing s with
  | nil =>
    cases read
    exact Or.inl rfl
  | cons c input ih =>
    cases c with
    | none =>
      cases read
      exact Or.inr ⟨[none], rfl, rfl⟩
    | some c =>
      rw [tgetsLoop] at read
      split at read
      · cases read
      · rcases ih read with empty | ⟨before, rfl, last⟩
        · exact Or.inl empty
        · exact Or.inr ⟨some c :: before, rfl, getLast?_cons_of_some last⟩

theorem drain_atLine {input from' : List (Option UInt8)} (start : AtLine input from') :
    AtLine input (drain cc from') := by
  rw [drain]
  split
  · rename_i read
    rcases tgetsLoop_none read with empty | ⟨before, rfl, last⟩
    · exact Or.inl empty
    · exact start.next (Or.inr (Or.inl last))
  · rename_i read
    have shorter := tgets_shorter read
    exact drain_atLine (tgets_line start read).2.2
termination_by from'.length

theorem retry_atLine {input from' : List (Option UInt8)} (start : AtLine input from') :
    AtLine input (retry cc command from') := by
  rw [retry]
  split
  · exact drain_atLine start
  · exact start

/-- The lines that come in are lines of the input. -/
theorem waitLines_line {input from' : List (Option UInt8)} (start : AtLine input from') :
    ∀ line ∈ waitLines cc command from', cc.Line line ∧ LineOf cc input line := by
  rw [waitLines]
  split
  · exact fun _ member => absurd member List.not_mem_nil
  · rename_i buf rest read
    obtain ⟨whole, found, behind⟩ := tgets_line start read
    have shorter := tgets_shorter read
    have kept := retry_length cc command rest
    intro line member
    rcases List.mem_cons.mp member with rfl | member
    · exact ⟨whole, found⟩
    · split at member
      · exact absurd member List.not_mem_nil
      · split at member
        · exact waitLines_line (retry_atLine behind) line member
        · exact waitLines_line behind line member
termination_by from'.length

theorem heard_line (cc : CharClass) (command : Bool) (t : Int) (input : List (Option UInt8)) :
    ∀ line ∈ heard cc command t input, cc.Line line ∧ LineOf cc input line := by
  rw [heard]
  split
  · exact fun _ member => absurd member List.not_mem_nil
  · exact waitLines_line (retry_atLine (.start input))

/-- A call offers the lines that come in while it waits, one after another. -/
theorem waitPrompt_offers (r : Responses) (input : List (Option UInt8)) :
    (waitPrompt cc command r input).map (fun result => result.2.1) =
      (waitLines cc command input).foldlM Responses.offer r := by
  rw [waitPrompt, waitLines]
  split
  · rfl
  · rename_i buf rest read
    have shorter := tgets_shorter read
    have kept := retry_length cc command rest
    rw [List.foldlM_cons]
    cases r.offer buf with
    | none => rfl
    | some r' =>
      simp only [Option.bind_eq_bind, Option.bind_some]
      cases strtabmatch buf prompts with
      | some p => rfl
      | none =>
        dsimp only
        split
        · exact waitPrompt_offers r' _
        · exact waitPrompt_offers r' _
termination_by input.length

theorem pack_cons (line : List UInt8) (lines : List (List UInt8)) :
    pack (line :: lines) = line ++ 0 :: pack lines := by
  rw [pack, List.flatMap_cons, List.append_assoc, List.singleton_append, pack]

theorem length_pack_cons (line : List UInt8) (lines : List (List UInt8)) :
    (pack (line :: lines)).length = line.length + 1 + (pack lines).length := by
  rw [pack_cons, List.length_append, List.length_cons]
  omega

theorem length_pack_fitting (room : Nat) (lines : List (List UInt8)) :
    (pack (fitting room lines)).length ≤ room := by
  induction lines generalizing room with
  | nil => exact Nat.zero_le room
  | cons line lines ih =>
    rw [fitting]
    split
    · rw [length_pack_cons]
      have := ih (room - (line.length + 1))
      omega
    · exact Nat.zero_le room

theorem fitting_zero (lines : List (List UInt8)) : fitting 0 lines = [] := by
  cases lines with
  | nil => rfl
  | cons line lines => exact if_neg (Nat.not_succ_le_zero _)

/-- Lines are stored for as long as all that were offered fit. -/
theorem offers (lines : List (List UInt8)) (r : Responses) (bound : r.resplen ≤ intMax) :
    lines.foldlM Responses.offer r =
      if r.resplen + (pack lines).length ≤ intMax then
        some ⟨r.resplen + (pack lines).length, r.bytes ++ pack (fitting (maxRespB - r.resplen) lines)⟩
      else none := by
  induction lines generalizing r with
  | nil => simp [fitting, pack, bound]
  | cons line lines ih =>
    rw [List.foldlM_cons, Responses.offer, length_pack_cons, fitting,
      ← Nat.add_assoc r.resplen (line.length + 1)]
    by_cases undefined : intMax < r.resplen + (line.length + 1)
    · rw [if_pos undefined, if_neg (by omega)]
      rfl
    · rw [if_neg undefined]
      by_cases fits : r.resplen + (line.length + 1) ≤ maxRespB
      · have room : line.length + 1 ≤ maxRespB - r.resplen := by omega
        rw [if_pos fits, if_pos room, pack_cons]
        refine (ih _ (Nat.le_of_not_lt undefined)).trans ?_
        dsimp only
        rw [Nat.sub_sub]
        simp only [List.append_assoc, List.singleton_append]
      · have full : ¬ line.length + 1 ≤ maxRespB - r.resplen := by omega
        have none_left : maxRespB - (r.resplen + (line.length + 1)) = 0 := by omega
        rw [if_neg fits, if_neg full]
        refine (ih _ (Nat.le_of_not_lt undefined)).trans ?_
        dsimp only
        rw [none_left, fitting_zero]

/-- A call stores the lines that it hears for as long as they fit, unless their count overflows. -/
theorem cmd_responses (cc : CharClass) (command : Bool) (t : Int) (input : List (Option UInt8)) :
    (cmd cc command t input).map (fun result => result.2.1.bytes) =
      if (pack (heard cc command t input)).length ≤ intMax then
        some (pack (fitting maxRespB (heard cc command t input)))
      else none := by
  rw [cmd, heard]
  split
  · rfl
  · have stored := (@waitPrompt_offers cc command ⟨0, []⟩
      (retry cc command input)).trans (offers _ _ (Nat.zero_le intMax))
    rw [Nat.zero_add, List.nil_append, Nat.sub_zero] at stored
    rw [← Function.comp_def Responses.bytes, ← Option.map_map, stored]
    split <;> rfl

/-! ## What is found -/

/-- The first character of stored lines that is no blank, as an offset into their bytes. -/
def textAt (lines : List (List UInt8)) : Option Nat := (pack lines).findIdx? fun c => c ≠ 0 ∧ c ≠ 32

/-- The last line that starts with a string, between the lines in front of it and behind it. -/
structure LastMatch (s : List UInt8) (lines before : List (List UInt8)) (line : List UInt8)
    (after : List (List UInt8)) : Prop where
  parts : lines = before ++ line :: after
  starts : s <+: line
  last : ∀ other ∈ after, ¬ s <+: other

/-- What a search has to give: nothing if no line starts with the string; otherwise the first character
that is no blank behind the string in the last such line or in the lines behind it, and the number that
is there.  Where there is no such character there is no number either. -/
structure FindsField (s : List UInt8) (lines : List (List UInt8))
    (found : Option Nat × Option Int) : Prop where
  missing : (∀ line ∈ lines, ¬ s <+: line) → found = (none, none)
  present : ∀ before line after, LastMatch s lines before line after → found.1 ≠ none ∧
    match textAt (line.drop s.length :: after) with
    | some i => found.1 = some ((pack before).length + s.length + i) ∧
        found.2 = scanInt (cString ((pack (line.drop s.length :: after)).drop i))
    | none => found.2 = none

/-- Directly behind the string in the last line that starts with it comes a character that is no blank,
or none comes at all; and when there is no number, the lines in front that start with the string have
none either. -/
def FieldFollows (s : List UInt8) (lines : List (List UInt8)) : Prop :=
  ∀ before line after, LastMatch s lines before line after →
    ((∃ c ∈ (line.drop s.length).head?, c ≠ 32) ∨
        ∀ other ∈ line.drop s.length :: after, ∀ c ∈ other, c = 32) ∧
      (scanInt (line.drop s.length) = none →
        ∀ other ∈ before, s <+: other → scanInt (other.drop s.length) = none)

theorem cString_line {line : List UInt8} (nul : 0 ∉ line) (rest : List UInt8) :
    cString (line ++ 0 :: rest) = line := by
  rw [cString, List.takeWhile_append_of_pos, List.takeWhile_cons_of_neg, List.append_nil]
  · simp
  · intro c member
    exact decide_eq_true fun (zero : c = 0) => nul (zero ▸ member)

/-- Blanks hold no number. -/
theorem scanInt_blank {s : List UInt8} (blank : ∀ c ∈ s, isBlank c) : scanInt s = none := by
  have spaces : s.dropWhile isspace = [] := by
    rw [List.dropWhile_eq_nil_iff]
    intro c member
    have := blank c member
    simp only [isBlank, isspace, decide_eq_true_eq] at this ⊢
    rcases this with rfl | rfl | rfl <;> decide
  rw [scanInt, spaces]
  rfl

theorem takeWhile_length_iff {p : UInt8 → Bool} {s : List UInt8} :
    (s.takeWhile p).length = s.length ↔ ∀ c ∈ s, p c :=
  ⟨fun same => List.takeWhile_eq_self_iff.mp ((List.takeWhile_prefix p).eq_of_length same),
    fun all => congrArg List.length (List.takeWhile_eq_self_iff.mpr all)⟩

/-- Where the search stops behind the string: at the end of the line if only blanks follow. -/
def stop (rest : List UInt8) : Nat := if rest.all isBlank then rest.length else 0

theorem stop_blank {rest : List UInt8} (blank : ∀ c ∈ rest, isBlank c) : stop rest = rest.length :=
  if_pos (List.all_eq_true.mpr blank)

theorem stop_text {rest : List UInt8} (text : ¬ ∀ c ∈ rest, isBlank c) : stop rest = 0 :=
  if_neg fun blank => text (List.all_eq_true.mp blank)

/-- A step of the search. -/
def searchStep (s : List UInt8) (p : Nat) (line : List UInt8) (found : Option Nat × Option Int) :
    Option Nat × Option Int :=
  if s <+: line then
    (some (p + s.length + stop (line.drop s.length)), (scanInt (line.drop s.length)).or found.2)
  else found

theorem sresponseLoop_nil (s : List UInt8) (p : Nat) (found : Option Nat × Option Int) :
    sresponseLoop s p (pack []) found = found := by
  rw [sresponseLoop]
  exact dif_pos rfl

/-- The search goes from line to line. -/
theorem sresponseLoop_cons (s : List UInt8) (p : Nat) {line : List UInt8} (nul : 0 ∉ line)
    (lines : List (List UInt8)) (found : Option Nat × Option Int) :
    sresponseLoop s p (pack (line :: lines)) found =
      sresponseLoop s (p + (line.length + 1)) (pack lines) (searchStep s p line found) := by
  have some : pack (line :: lines) ≠ [] := by simp [pack_cons]
  have behind : (pack (line :: lines)).drop (line.length + 1) = pack lines := by
    rw [pack_cons, List.drop_append]
    simp
  rw [sresponseLoop, dif_neg some]
  rw [pack_cons] at behind ⊢
  simp only [cString_line nul, behind]
  congr 1
  rw [searchStep]
  by_cases starts : s <+: line
  · rw [if_pos starts, if_pos starts]
    have field : (line ++ 0 :: pack lines).drop s.length = line.drop s.length ++ 0 :: pack lines :=
      List.drop_append_of_le_length starts.length_le
    have nul' : 0 ∉ line.drop s.length := fun member => nul (List.mem_of_mem_drop member)
    have inside : s.length + (line.drop s.length).length < (line ++ 0 :: pack lines).length := by
      have := starts.length_le
      rw [List.length_append, List.length_drop, List.length_cons]
      omega
    rw [field, cString_line nul']
    simp only [inside, and_true, takeWhile_length_iff]
    by_cases blank : ∀ c ∈ line.drop s.length, isBlank c
    · rw [stop_blank blank, if_pos blank, List.drop_left, scanInt_blank blank]
      rfl
    · rw [stop_text blank, if_neg blank, List.drop_zero, cString_line nul']
  · rw [if_neg starts, if_neg starts]

/-- Lines that do not start with the string are passed. -/
theorem sresponseLoop_others {s : List UInt8} {p : Nat} {lines : List (List UInt8)}
    (whole : ∀ line ∈ lines, 0 ∉ line) (others : ∀ line ∈ lines, ¬ s <+: line)
    (found : Option Nat × Option Int) : sresponseLoop s p (pack lines) found = found := by
  induction lines generalizing p with
  | nil => exact sresponseLoop_nil s p found
  | cons line lines ih =>
    rw [sresponseLoop_cons s p (whole line List.mem_cons_self), searchStep,
      if_neg (others line List.mem_cons_self)]
    exact ih (fun _ member => whole _ (List.mem_cons_of_mem _ member))
      fun _ member => others _ (List.mem_cons_of_mem _ member)

/-- The number that the lines in front leave in `*ip`. -/
def earlier (s : List UInt8) (lines : List (List UInt8)) (value : Option Int) : Option Int :=
  lines.foldl (fun value line => if s <+: line then (scanInt (line.drop s.length)).or value else value) value

theorem earlier_eq_none {s : List UInt8} (lines : List (List UInt8)) (value : Option Int) :
    earlier s lines value = none ↔
      value = none ∧ ∀ line ∈ lines, s <+: line → scanInt (line.drop s.length) = none := by
  induction lines generalizing value with
  | nil => simp [earlier]
  | cons line lines ih =>
    rw [earlier, List.foldl_cons, ← earlier, ih, List.forall_mem_cons]
    by_cases starts : s <+: line
    · rw [if_pos starts, Option.or_eq_none_iff, imp_iff_right starts, and_assoc, and_left_comm]
    · rw [if_neg starts]
      simp only [starts, false_imp_iff, true_and]

/-- The search comes to a line with what the lines in front have left. -/
theorem sresponseLoop_append {s : List UInt8} {p : Nat} {before : List (List UInt8)}
    (whole : ∀ line ∈ before, 0 ∉ line) (lines : List (List UInt8)) (found : Option Nat × Option Int) :
    ∃ r, sresponseLoop s p (pack (before ++ lines)) found =
      sresponseLoop s (p + (pack before).length) (pack lines) (r, earlier s before found.2) := by
  induction before generalizing p found with
  | nil => exact ⟨found.1, rfl⟩
  | cons line before ih =>
    obtain ⟨r, rest⟩ := ih (fun _ member => whole _ (List.mem_cons_of_mem _ member))
      (p := p + (line.length + 1)) (searchStep s p line found)
    refine ⟨r, ?_⟩
    have value : (searchStep s p line found).2 =
        if s <+: line then (scanInt (line.drop s.length)).or found.2 else found.2 := by
      rw [searchStep]
      split <;> rfl
    rw [List.cons_append, sresponseLoop_cons s p (whole line List.mem_cons_self), rest,
      length_pack_cons,
      value, Nat.add_assoc]
    rfl

/-- What is found is at the last line that starts with the string. -/
theorem sresponse_last {s : List UInt8} {lines before after : List (List UInt8)} {line : List UInt8}
    (whole : ∀ line ∈ lines, 0 ∉ line) (found : LastMatch s lines before line after) :
    sresponse s (pack lines) =
      (some ((pack before).length + s.length + stop (line.drop s.length)),
        (scanInt (line.drop s.length)).or (earlier s before none)) := by
  obtain ⟨rfl, starts, last⟩ := found
  rw [List.forall_mem_append, List.forall_mem_cons] at whole
  obtain ⟨front, nul, behind⟩ := whole
  obtain ⟨r, rest⟩ := sresponseLoop_append (s := s) (p := 0) front (line :: after) (none, none)
  rw [sresponse, rest, sresponseLoop_cons s _ nul, sresponseLoop_others behind last, searchStep,
    if_pos starts, Nat.zero_add]

theorem mem_pack {c : UInt8} {lines : List (List UInt8)} (member : c ∈ pack lines) :
    c = 0 ∨ ∃ line ∈ lines, c ∈ line := by
  obtain ⟨line, stored, member⟩ := List.mem_flatMap.mp member
  rcases List.mem_append.mp member with inside | last
  · exact Or.inr ⟨line, stored, inside⟩
  · exact Or.inl (List.mem_singleton.mp last)

theorem textAt_eq_none {lines : List (List UInt8)} (whole : ∀ line ∈ lines, 0 ∉ line) :
    textAt lines = none ↔ ∀ line ∈ lines, ∀ c ∈ line, c = 32 := by
  rw [textAt, List.findIdx?_eq_none_iff]
  constructor
  · intro blank line stored c member
    have inside : c ∈ pack lines :=
      List.mem_flatMap.mpr ⟨line, stored, List.mem_append_left _ member⟩
    have nul : c ≠ 0 := fun zero => whole line stored (zero ▸ member)
    by_contra other
    exact of_decide_eq_false (blank c inside) ⟨nul, other⟩
  · intro blank c member
    rcases mem_pack member with rfl | ⟨line, stored, inside⟩
    · rfl
    · rw [blank line stored c inside]
      rfl

/-- Where a blank follows the string, the search does not stop at the text. -/
theorem textAt_ne_stop {rest : List UInt8} {after : List (List UInt8)}
    (blank : ∀ c ∈ rest.head?, c = 32) : textAt (rest :: after) ≠ some (stop rest) := by
  intro found
  obtain ⟨c, stopped, text⟩ : ∃ c, (pack (rest :: after))[stop rest]? = some c ∧ c ≠ 0 ∧ c ≠ 32 := by
    obtain ⟨inside, text, _⟩ := List.findIdx?_eq_some_iff_getElem.mp found
    exact ⟨_, List.getElem?_eq_getElem inside, of_decide_eq_true text⟩
  have nul : (pack (rest :: after))[rest.length]? = some 0 := by
    rw [pack_cons, List.getElem?_append_right le_rfl, Nat.sub_self, List.getElem?_cons_zero]
  by_cases empty : ∀ c ∈ rest, isBlank c
  · rw [stop_blank empty, nul] at stopped
    exact text.1 (Option.some.inj stopped).symm
  · rw [stop_text empty] at stopped
    cases rest with
    | nil => exact absurd (fun _ member => absurd member List.not_mem_nil) empty
    | cons first rest =>
      rw [pack_cons, List.cons_append, List.getElem?_cons_zero] at stopped
      exact text.2 ((Option.some.inj stopped).symm.trans (blank first rfl))

/-- Text directly behind the string is found there. -/
theorem textAt_first {c : UInt8} (nul : c ≠ 0) (text : c ≠ 32) (rest : List UInt8)
    (after : List (List UInt8)) : textAt ((c :: rest) :: after) = some 0 := by
  rw [textAt, pack_cons, List.cons_append, List.findIdx?_cons,
    if_pos (decide_eq_true (And.intro nul text))]

/-- A number of the lines in front is left only where the last line has none. -/
theorem or_earlier_eq_iff (s : List UInt8) (before : List (List UInt8)) (value : Option Int) :
    value.or (earlier s before none) = value ↔
      (value = none → ∀ other ∈ before, s <+: other → scanInt (other.drop s.length) = none) := by
  have front := earlier_eq_none (s := s) before none
  simp only [true_and] at front
  rw [← front]
  cases value with
  | none => simp
  | some v => simp

/-- What the search gives for the last line that starts with the string. -/
theorem lastMatch_iff {s : List UInt8} {lines : List (List UInt8)}
    (whole : ∀ line ∈ lines, cc.Line line)
    {before : List (List UInt8)} {line : List UInt8} {after : List (List UInt8)}
    (found : LastMatch s lines before line after) :
    ((sresponse s (pack lines)).1 ≠ none ∧
      match textAt (line.drop s.length :: after) with
      | some i => (sresponse s (pack lines)).1 = some ((pack before).length + s.length + i) ∧
          (sresponse s (pack lines)).2 =
            scanInt (cString ((pack (line.drop s.length :: after)).drop i))
      | none => (sresponse s (pack lines)).2 = none) ↔
    ((∃ c ∈ (line.drop s.length).head?, c ≠ 32) ∨
        ∀ other ∈ line.drop s.length :: after, ∀ c ∈ other, c = 32) ∧
      (scanInt (line.drop s.length) = none →
        ∀ other ∈ before, s <+: other → scanInt (other.drop s.length) = none) := by
  have nul : ∀ line ∈ lines, 0 ∉ line := fun line stored => (whole line stored).nul
  have stored : ∀ other ∈ line :: after, other ∈ lines := fun other member => by
    rw [found.parts]
    exact List.mem_append_right _ member
  have after_nul : ∀ other ∈ line.drop s.length :: after, 0 ∉ other := by
    rw [List.forall_mem_cons]
    exact ⟨fun member => nul line (stored line List.mem_cons_self) (List.mem_of_mem_drop member),
      fun other behind => nul other (stored other (List.mem_cons_of_mem _ behind))⟩
  have space : ∀ c ∈ line.drop s.length, isBlank c → c = 32 := fun c member =>
    (whole line (stored line List.mem_cons_self)).blank c (List.mem_of_mem_drop member)
  have number := or_earlier_eq_iff s before (scanInt (line.drop s.length))
  rw [sresponse_last nul found]
  generalize line.drop s.length = rest at after_nul number space
  by_cases blank : ∀ other ∈ rest :: after, ∀ c ∈ other, c = 32
  · have none : scanInt rest = none := scanInt_blank fun c member => by
      rw [blank rest List.mem_cons_self c member]
      rfl
    rw [none] at number
    rw [(textAt_eq_none after_nul).mpr blank, none]
    exact ⟨fun both => ⟨Or.inr blank, number.mp both.2⟩,
      fun both => ⟨Option.some_ne_none _, number.mpr both.2⟩⟩
  · by_cases text : ∃ c ∈ rest.head?, c ≠ 32
    · obtain ⟨c, first, other⟩ := text
      obtain ⟨rest, rfl⟩ := List.head?_eq_some_iff.mp first
      have printable : ¬ isBlank c := fun blank => other (space c List.mem_cons_self blank)
      have none_blank : ¬ ∀ c' ∈ c :: rest, isBlank c' :=
        fun all => printable (all c List.mem_cons_self)
      have c_ne : c ≠ 0 := fun zero => after_nul _ List.mem_cons_self (zero ▸ List.mem_cons_self)
      rw [textAt_first c_ne other, stop_text none_blank]
      dsimp only
      rw [List.drop_zero, pack_cons, cString_line (after_nul _ List.mem_cons_self), number]
      exact ⟨fun all => ⟨Or.inl ⟨c, first, other⟩, all.2.2⟩,
        fun both => ⟨Option.some_ne_none _, rfl, both.2⟩⟩
    · have head : ∀ c ∈ rest.head?, c = 32 := by
        intro c first
        by_contra other
        exact text ⟨c, first, other⟩
      have passed : textAt (rest :: after) ≠ some (stop rest) := textAt_ne_stop head
      cases found_text : textAt (rest :: after) with
      | none => exact absurd ((textAt_eq_none after_nul).mp found_text) blank
      | some i =>
        refine iff_of_false (fun all => passed ?_) fun both => both.1.elim text blank
        have place := Option.some.inj all.2.1
        rw [found_text, Nat.add_left_cancel place]

/-- The search finds what it has to exactly when no blank comes in front of it. -/
theorem findsField_iff {s : List UInt8} {lines : List (List UInt8)}
    (whole : ∀ line ∈ lines, cc.Line line) :
    FindsField s lines (sresponse s (pack lines)) ↔ FieldFollows s lines := by
  have nul : ∀ line ∈ lines, 0 ∉ line := fun line stored => (whole line stored).nul
  constructor
  · intro finds before line after found
    exact (lastMatch_iff whole found).mp (finds.present before line after found)
  · intro follows
    refine ⟨fun others => ?_, fun before line after found => ?_⟩
    · exact sresponseLoop_others nul others (none, none)
    · exact (lastMatch_iff whole found).mpr (follows before line after found)

/-! ## Responses -/

/-- The control characters of ASCII. -/
def asciiClass : CharClass := ⟨fun c => c < 32 ∨ c = 127, fun _ _ => rfl⟩

/-- A modem that sends the number of a hang-up report on a line of its own. -/
def hangUp : List (Option UInt8) := (chars "+FHNG:\n25\nOK\n").map some

end QFax.Efax

import QFax.Efax.OutputFile
import QFax.Efax.PageOrder

/-!
# Received pages and their files

`c1sndrcv` postpones the end of a page until the next command and removes the file opened last when it
returns.  At every label the open file belongs to page `rxpage`, unless the page before it waits to be
ended or could not be ended; so no file with a complete page is opened again, written or removed.
-/

namespace QFax.Efax

open Machine Call

/-- A call with its output file. -/
structure Reception where
  call : Call
  outf : OutputFile

namespace Call

/-- The page for which a step calls `wrpage`. -/
def wrpageCall (s : Call) : Option Int :=
  match s.pc with
  | .r => if s.err = 0 then some s.rxpage else none
  | .f => if s.writepending then some s.rxpage else none
  | .b => if 0 < s.rxpage then some (-1) else none
  | _ => none

/-- The counter of pages and the postponed `wrpage` are unchanged. -/
structure SamePages (s s' : Call) : Prop where
  rxpage : s'.rxpage = s.rxpage
  writepending : s'.writepending = s.writepending

variable {cfg : Config} {s : Call}

theorem samePages_takeCommand : SamePages s s.takeCommand := by
  obtain ⟨pc, err, eq⟩ := takeCommand_form s
  rw [eq]
  exact ⟨rfl, rfl⟩

/-- Only `F` and `re_getdata` change them. -/
theorem samePages_step (cfg : Config) (s : Call) (input : Input)
    (away : s.pc ≠ .f ∧ s.pc ≠ .reGetdata) :
    SamePages s (step cfg input s).1 := by
  cases label : s.pc with
  | f => exact absurd label away.1
  | reGetdata => exact absurd label away.2
  | t =>
    simp only [step, label, stepT]
    split
    · exact ⟨rfl, rfl⟩
    · split <;> exact ⟨rfl, rfl⟩
  | a =>
    simp only [step, label, stepA]
    split <;> exact ⟨rfl, rfl⟩
  | d | i =>
    simp only [step, label, stepD, stepI]
    split <;> exact ⟨rfl, rfl⟩
  | d2 =>
    obtain ⟨pc, err, tries, frame, fif, remote, eq⟩ := stepD2_form cfg s input
    simp only [step, label, eq]
    exact ⟨rfl, rfl⟩
  | sendppm =>
    simp only [step, label, stepSendppm]
    split
    · exact ⟨rfl, rfl⟩
    · unfold answerPpm
      split <;> exact ⟨rfl, rfl⟩
  | rLoop =>
    simp only [step, label, stepRLoop]
    split
    · dsimp only
      split <;> exact ⟨rfl, rfl⟩
    · exact ⟨rfl, rfl⟩
  | f2 =>
    simp only [step, label, stepF2]
    split <;> exact ⟨rfl, rfl⟩
  | _ =>
    simp only [step, label]
    exact ⟨rfl, rfl⟩

/-- `F` ends the page that waits, if there is one; an error leads to `C`. -/
theorem stepF_pages (s : Call) (input : Input) :
    (s.stepF input).1.rxpage = s.rxpage ∧ (s.stepF input).1.writepending = false ∧
      (s.writepending → input.wrpage ≠ 0 → (s.stepF input).1.pc = .c) := by
  unfold stepF
  dsimp only
  split
  · rename_i pending
    have closed : ((s.awaitCommand input).closePage input).err = input.wrpage := rfl
    split
    · exact ⟨rfl, rfl, fun _ _ => rfl⟩
    · rename_i fine
      have taken : SamePages ((s.awaitCommand input).closePage input) _ := samePages_takeCommand
      exact ⟨taken.rxpage, taken.writepending, fun _ failed => absurd (closed ▸ failed) fine⟩
  · rename_i idle
    have taken : SamePages (s.awaitCommand input) _ := samePages_takeCommand
    exact ⟨taken.rxpage, taken.writepending.trans (Bool.eq_false_iff.2 idle),
      fun pending => absurd pending idle⟩

/-- `re_getdata` counts a complete page and leaves its end to `F`. -/
theorem stepReGetdata_pages (cfg : Config) (s : Call) (input : Input) :
    (s.stepReGetdata cfg input).1.pc = .f ∧ input.command ∧ input.receiveData = 0 ∧
        (s.stepReGetdata cfg input).1.rxpage = s.rxpage + 1 ∧
        (s.stepReGetdata cfg input).1.writepending = true ∨
      (input.command = false ∨ input.receiveData ≠ 0) ∧ SamePages s (s.stepReGetdata cfg input).1 := by
  unfold stepReGetdata
  split
  · rename_i idle
    exact .inr ⟨.inl (Bool.eq_false_iff.2 idle), rfl, rfl⟩
  · rename_i connected
    have connected : input.command = true := of_not_not connected
    dsimp only
    split
    · rename_i done
      exact .inl ⟨rfl, connected, done, rfl, rfl⟩
    · rename_i more
      exact .inr ⟨.inr (by rw [more]; exact Nat.one_ne_zero), rfl, rfl⟩
    · rename_i failed _
      exact .inr ⟨.inr failed, rfl, rfl⟩

end Call

namespace Reception

/-- The call of `wrpage` in a step, if there is one. -/
def paging (r : FileResults) (s : Reception) : Paging :=
  match s.call.wrpageCall with
  | some page => s.outf.wrpage r page
  | none => ⟨0, s.outf, []⟩

/-- What `receive_data` does to the open file. -/
def receivedEvents (f : OutputFile) : Event → List FileEvent
  | .received ret _ =>
    match f.stream with
    | some stream => .wrote stream.file :: if ret = 0 then [.completed stream.file] else []
    | none => []
  | _ => []

/-- One label of `c1sndrcv`: the calls of `wrpage` and `receive_data` work on the output file. -/
def step (cfg : Config) : Step Reception (Input × FileResults) FileEvent := fun (input, r) s =>
  let after := s.paging r
  let (call, events) := s.call.step cfg { input with wrpage := after.err }
  (⟨call, if s.call.pc = .reGetdata ∧ input.command then after.outf.writeLines r else after.outf⟩,
    after.events ++ events.flatMap (receivedEvents after.outf))

/-- `c1sndrcv` on entry, with the output file of `main`. -/
def start (cfg : Config) (loc : Cap) (good : Bool) (stem : Nat → List Char) (cfname : List Char) :
    Reception :=
  ⟨.start cfg loc good, .new stem cfname⟩

end Reception

/-- What may happen to a file after the events before: one with a complete page is not opened again,
written or removed. -/
def KeepsPages (before : List FileEvent) : FileEvent → Prop
  | .opened name | .wrote name | .removed name => .completed name ∉ before
  | .completed _ | .ended _ => True

instance (before : List FileEvent) : ∀ e, Decidable (KeepsPages before e)
  | .opened _ | .wrote _ | .removed _ => inferInstanceAs (Decidable (_ ∉ _))
  | .completed _ | .ended _ => .isTrue trivial

/-- The labels at which data comes next; the output file is open there. -/
def Label.TakesData : Label → Prop
  | .f | .f2 | .getdata | .reGetdata => True
  | _ => False

/-- The page in the file opened last: the one counted last while its end waits, and else the next. -/
def Call.filePage (s : Call) : Nat := if s.writepending then s.rxpage - 1 else s.rxpage

/-- The complete pages are those counted, and the file opened last belongs to the page after them unless
the last of them waits to be ended or could not be ended. -/
structure Intact (h : List FileEvent) (s : Reception) : Prop where
  counted : ∀ name, .completed name ∈ h → ∃ page < s.call.rxpage, name = pageName s.outf.fname page
  waits : s.call.writepending → s.call.pc = .f ∧ 0 < s.call.rxpage
  named : s.outf.Named
  opened : s.call.pc.TakesData ∨ s.call.pc = .rLoop ∧ s.call.err = 0 → s.outf.stream ≠ none
  current : 0 < s.call.rxpage ∨ s.outf.stream ≠ none →
    s.outf.cfname = pageName s.outf.fname s.call.filePage ∨
      s.call.pc.Ends ∧ ∃ stream, s.outf.stream = some stream ∧ stream.error

variable {cfg : Config} {h es : List FileEvent} {s : Reception} {input : Input} {r : FileResults}

/-- No complete page is in the file of a page not yet counted. -/
theorem Intact.notCompleted (inv : Intact h s) {page : Nat} (after : s.call.rxpage ≤ page) :
    .completed (pageName s.outf.fname page) ∉ h := by
  intro mem
  obtain ⟨page', before, same⟩ := inv.counted _ mem
  have := pageName_inj same
  omega

/-- Where no page waits, the file opened last has no complete page, or it cannot be ended. -/
theorem Intact.cfname (inv : Intact h s) (away : s.call.pc ≠ .f)
    (opened : 0 < s.call.rxpage ∨ s.outf.stream ≠ none) :
    .completed s.outf.cfname ∉ h ∨ s.call.pc.Ends ∧ ∃ stream, s.outf.stream = some stream ∧
      stream.error := by
  have idle : ¬ s.call.writepending := fun pending => away (inv.waits pending).1
  refine (inv.current opened).imp_left fun name => ?_
  rw [name, filePage, if_neg idle]
  exact inv.notCompleted (Nat.le_refl _)

/-- Events among which no page is completed, each allowed by the history. -/
structure Harmless (h es : List FileEvent) : Prop where
  keeps : ∀ e ∈ es, KeepsPages h e
  noPage : ∀ name, .completed name ∉ es

/-- What is not completed before and among harmless events stays so. -/
theorem Harmless.always (harmless : Harmless h es) (all : Always KeepsPages h) :
    Always KeepsPages (h ++ es) := by
  induction es generalizing h with
  | nil => rwa [List.append_nil]
  | cons e es ih =>
    have first : KeepsPages h e := harmless.keeps e List.mem_cons_self
    rw [List.append_cons]
    refine ih ⟨fun e' later => ?_, fun name mem => harmless.noPage name (List.mem_cons_of_mem e mem)⟩
      (always_snoc.2 ⟨all, first⟩)
    have kept := harmless.keeps e' (List.mem_cons_of_mem e later)
    have same : ∀ name, .completed name ∉ h → .completed name ∉ h ++ [e] := by
      intro name none mem
      rcases List.mem_append.1 mem with before | now
      · exact none before
      · exact harmless.noPage name (List.mem_singleton.1 now ▸ List.mem_cons_self)
    cases e' with
    | opened name | wrote name | removed name => exact same name kept
    | completed | ended => trivial

theorem Harmless.counted (harmless : Harmless h es) (inv : Intact h s) (name : List Char)
    (mem : .completed name ∈ h ++ es) : ∃ page < s.call.rxpage, name = pageName s.outf.fname page := by
  rcases List.mem_append.1 mem with before | now
  · exact inv.counted name before
  · exact absurd now (harmless.noPage name)

theorem Intact.append (inv : Intact h s) (harmless : Harmless h es) : Intact (h ++ es) s :=
  { inv with counted := harmless.counted inv }

/-- The events of `wrpage` for a page that is not complete are harmless. -/
theorem harmless_wrpage (inv : Intact h s) {page : Nat} (after : s.call.rxpage ≤ page)
    (events : ∀ e ∈ es, (∃ name, e = .ended name) ∨ e = .opened (pageName s.outf.fname page)) :
    Harmless h es := by
  refine ⟨fun e mem => ?_, fun name mem => ?_⟩
  · rcases events e mem with ⟨name, rfl⟩ | rfl
    · trivial
    · exact inv.notCompleted after
  · rcases events _ mem with ⟨name', eq⟩ | eq <;> cases eq

/-- Away from `re_getdata` the output file changes only by `wrpage`. -/
theorem step_paging (away : s.call.pc ≠ .reGetdata) :
    s.step cfg (input, r) =
      (⟨(s.call.step cfg { input with wrpage := (s.paging r).err }).1, (s.paging r).outf⟩,
        (s.paging r).events) := by
  have none : ∀ e ∈ (s.call.step cfg { input with wrpage := (s.paging r).err }).2,
      Reception.receivedEvents (s.paging r).outf e = [] := by
    intro e mem
    have origin := step_events _ mem
    cases e with
    | received => exact absurd (List.mem_singleton.1 origin) away
    | _ => rfl
  have outf : (s.step cfg (input, r)).1.outf = (s.paging r).outf :=
    if_neg fun receives => away receives.1
  have events : (s.step cfg (input, r)).2 = (s.paging r).events :=
    (congrArg (_ ++ ·) (List.flatMap_eq_nil_iff.2 none)).trans (List.append_nil _)
  rw [← outf, ← events]
  rfl

theorem paging_none (none : s.call.wrpageCall = none) : s.paging r = ⟨0, s.outf, []⟩ := by
  rw [Reception.paging, none]

theorem paging_some {page : Int} (call : s.call.wrpageCall = some page) :
    s.paging r = s.outf.wrpage r page := by
  rw [Reception.paging, call]

/-- A call whose pages and file are those of another. -/
theorem Intact.keep {call : Call} (inv : Intact h s) (same : SamePages s.call call)
    (away : s.call.pc ≠ .f)
    (receives : call.pc.TakesData ∨ call.pc = .rLoop ∧ call.err = 0 →
      s.call.pc.TakesData ∨ s.call.pc = .rLoop ∧ s.call.err = 0)
    (ends : s.call.pc.Ends → call.pc.Ends) : Intact h ⟨call, s.outf⟩ where
  counted name mem := by
    rw [same.rxpage]
    exact inv.counted name mem
  waits pending := absurd (inv.waits (same.writepending ▸ pending)).1 away
  named := inv.named
  opened at_ := inv.opened (receives at_)
  current opened := by
    have page : call.filePage = s.call.filePage := by
      unfold filePage
      rw [same.rxpage, same.writepending]
    rw [same.rxpage] at opened
    rw [page]
    exact (inv.current opened).imp_right fun failed => ⟨ends failed.1, failed.2⟩

/-- The labels from which data can come next. -/
theorem receives_step (s : Call) (input : Input) (away : s.pc ≠ .r)
    (next : (s.step cfg input).1.pc.TakesData ∨ (s.step cfg input).1.pc = .rLoop ∧
      (s.step cfg input).1.err = 0) :
    s.pc.TakesData ∨ s.pc = .rLoop ∧ s.err = 0 := by
  by_cases label : s.pc = .rLoop
  · refine .inr ⟨label, of_not_not fun failed => ?_⟩
    have leaves : (s.step cfg input).1 = s.goto .c := by
      simp only [step, label, stepRLoop]
      rw [if_neg fun open_ => failed open_.1, if_pos failed]
    rw [leaves] at next
    rcases next with receives | ⟨again, -⟩
    · exact receives
    · cases again
  · have jumps : ∀ l : Label, l ≠ .r → l ≠ .rLoop → ∀ l' ∈ l.targets,
        l'.TakesData ∨ l' = .rLoop → l.TakesData := by
      intro l
      cases l <;> simp [Label.targets, Label.TakesData]
    exact .inl (jumps s.pc away label _ (step_targets input) (next.imp_right fun loop => loop.1))

/-- A step that neither calls `wrpage` nor receives data. -/
theorem saved_quiet (inv : Intact h s) (all : Always KeepsPages h)
    (away : s.call.pc ∉ [Label.r, .f, .b, .reGetdata]) :
    Always KeepsPages (h ++ (s.step cfg (input, r)).2) ∧
      Intact (h ++ (s.step cfg (input, r)).2) (s.step cfg (input, r)).1 := by
  simp only [List.mem_cons, List.not_mem_nil, or_false, not_or] at away
  obtain ⟨notR, notF, notB, notData⟩ := away
  have none : s.call.wrpageCall = none := by
    unfold wrpageCall
    split
    case h_4 => rfl
    all_goals contradiction
  rw [step_paging notData, paging_none none, List.append_nil]
  exact ⟨all, inv.keep (samePages_step cfg s.call _ ⟨notF, notData⟩) notF
    (receives_step s.call _ notR) ends_step⟩

/-- The file of the page that comes next is opened. -/
theorem saved_wrpage {call : Call} (inv : Intact h s) (all : Always KeepsPages h)
    (goesOn : ¬ s.call.pc.Ends) (rxpage : call.rxpage = s.call.rxpage)
    (idle : call.writepending = false)
    (opens : call.pc.TakesData ∨ call.pc = .rLoop ∧
      call.err = 0 → (s.outf.wrpage r s.call.rxpage).err = 0)
    (ends : s.call.writepending → (s.outf.wrpage r s.call.rxpage).err ≠ 0 → call.pc.Ends) :
    Always KeepsPages (h ++ (s.outf.wrpage r s.call.rxpage).events) ∧
      Intact (h ++ (s.outf.wrpage r s.call.rxpage).events) ⟨call,
        (s.outf.wrpage r s.call.rxpage).outf⟩ := by
  have page : call.filePage = s.call.rxpage := by
    rw [filePage, idle, if_neg Bool.false_ne_true, rxpage]
  obtain ⟨fname, ⟨err, failed, events⟩ | ⟨cfname, named, opened, events⟩⟩ :=
    s.outf.wrpage_page r s.call.rxpage
  · have harmless := harmless_wrpage inv (Nat.le_refl _) fun e mem => .inl (events e mem)
    refine ⟨harmless.always all, ?_, fun pending => ?_, failed.named inv.named,
      fun at_ => absurd (opens at_) err,
      fun _ => ?_⟩
    · rw [rxpage, fname]
      exact harmless.counted inv
    · rw [idle] at pending
      cases pending
    · obtain ⟨⟨stream, before, after⟩, same⟩ := failed
      cases waits : s.call.writepending with
      | true => exact .inr ⟨ends waits err, _, after, rfl⟩
      | false =>
        have name := (inv.current (.inr (before ▸ Option.some_ne_none stream))).resolve_right
          fun failed =>
          goesOn failed.1
        rw [filePage, waits, if_neg Bool.false_ne_true] at name
        refine .inl ?_
        rw [page, same, fname]
        exact name
  · have harmless := harmless_wrpage inv (Nat.le_refl _) events
    refine ⟨harmless.always all, ?_, fun pending => ?_, named, fun at_ => opened (opens at_),
      fun _ => .inl ?_⟩
    · rw [rxpage, fname]
      exact harmless.counted inv
    · rw [idle] at pending
      cases pending
    · rw [page, fname]
      exact cfname

/-- `R` opens the file of the page that comes next. -/
theorem saved_r (inv : Intact h s) (all : Always KeepsPages h) (label : s.call.pc = .r) :
    Always KeepsPages (h ++ (s.step cfg (input, r)).2) ∧
      Intact (h ++ (s.step cfg (input, r)).2) (s.step cfg (input, r)).1 := by
  have away : s.call.pc ≠ .f := by rw [label]; decide
  have noEnd : ¬ s.call.pc.Ends := by rw [label]; exact id
  have pages := samePages_step cfg s.call { input with wrpage :=
    (s.paging r).err } ⟨away, by rw [label]; decide⟩
  have pc : (s.call.step cfg { input with wrpage := (s.paging r).err }).1.pc = .rLoop := by
    simp only [step, label, stepR]
  have err : (s.call.step cfg { input with wrpage := (s.paging r).err }).1.err =
      unlessErr s.call.err (s.paging r).err := by
    simp only [step, label, stepR]
  rw [step_paging (by rw [label]; decide)]
  by_cases fine : s.call.err = 0
  · have call : s.call.wrpageCall = some s.call.rxpage := by simp [wrpageCall, label, fine]
    have idle : s.call.writepending = false :=
      Bool.eq_false_iff.2 fun pending => away (inv.waits pending).1
    rw [paging_some call] at pages pc err ⊢
    refine saved_wrpage inv all noEnd pages.rxpage (pages.writepending.trans idle) ?_ fun pending => ?_
    · rintro (receives | ⟨-, ok⟩)
      · rw [pc] at receives
        exact receives.elim
      · exact (unlessErr_eq_zero.1 (err ▸ ok)).2
    · rw [idle] at pending
      cases pending
  · have none : s.call.wrpageCall = none := by simp [wrpageCall, label, fine]
    rw [paging_none none] at pages pc err ⊢
    rw [List.append_nil]
    refine ⟨all, inv.keep pages away ?_ fun ends => absurd ends noEnd⟩
    rintro (receives | ⟨-, ok⟩)
    · rw [pc] at receives
      exact receives.elim
    · exact absurd (unlessErr_eq_zero.1 (err ▸ ok)).1 fine

/-- `F` ends the page that waits. -/
theorem saved_f (inv : Intact h s) (all : Always KeepsPages h) (label : s.call.pc = .f) :
    Always KeepsPages (h ++ (s.step cfg (input, r)).2) ∧
      Intact (h ++ (s.step cfg (input, r)).2) (s.step cfg (input, r)).1 := by
  have noEnd : ¬ s.call.pc.Ends := by rw [label]; exact id
  obtain ⟨rxpage, idle, failed⟩ := stepF_pages s.call { input with wrpage := (s.paging r).err }
  have notLoop : (s.call.step cfg { input with wrpage := (s.paging r).err }).1.pc ≠ .rLoop := by
    intro loop
    have target : (s.call.step cfg { input with wrpage :=
      (s.paging r).err }).1.pc ∈ s.call.pc.targets :=
      step_targets _
    rw [loop, label] at target
    exact absurd target (by decide)
  have step : (s.call.step cfg { input with wrpage := (s.paging r).err }).1 =
      (s.call.stepF { input with wrpage := (s.paging r).err }).1 := by
    simp only [Call.step, label]
  rw [step_paging (by rw [label]; decide)]
  rw [step] at notLoop ⊢
  cases pending : s.call.writepending with
  | true =>
    have call : s.call.wrpageCall = some s.call.rxpage := by simp [wrpageCall, label, pending]
    rw [paging_some call] at rxpage idle failed notLoop ⊢
    refine saved_wrpage inv all noEnd rxpage idle ?_ fun _ err => ?_
    · rintro (receives | ⟨loop, -⟩)
      · by_contra err
        rw [failed pending err] at receives
        exact receives
      · exact absurd loop notLoop
    · rw [failed pending err]
      trivial
  | false =>
    have none : s.call.wrpageCall = none := by simp [wrpageCall, label, pending]
    rw [paging_none none] at rxpage idle notLoop ⊢
    rw [List.append_nil]
    refine ⟨all, ?_, fun waits => ?_, inv.named,
      fun _ => inv.opened (.inl (by rw [label]; trivial)), ?_⟩
    · rw [rxpage]
      exact inv.counted
    · rw [idle] at waits
      cases waits
    · intro opened
      have page : s.call.filePage = s.call.rxpage := by
        rw [filePage, pending, if_neg Bool.false_ne_true]
      have name := (inv.current (rxpage ▸ opened)).resolve_right fun failed => noEnd failed.1
      refine .inl ?_
      rw [filePage, idle, if_neg Bool.false_ne_true, rxpage, ← page]
      exact name

/-- `B` removes the file opened last when no page in it is complete. -/
theorem saved_b (inv : Intact h s) (all : Always KeepsPages h) (label : s.call.pc = .b) :
    Always KeepsPages (h ++ (s.step cfg (input, r)).2) ∧
      Intact (h ++ (s.step cfg (input, r)).2) (s.step cfg (input, r)).1 := by
  have away : s.call.pc ≠ .f := by rw [label]; decide
  have pages := samePages_step cfg s.call { input with wrpage :=
    (s.paging r).err } ⟨away, by rw [label]; decide⟩
  have pc : (s.call.step cfg { input with wrpage := (s.paging r).err }).1.pc = .done := by
    simp only [step, label, stepB, goto_pc]
  have kept := inv.keep pages away
    (fun next => by rw [pc] at next; rcases next with no | ⟨no, -⟩ <;> cases no)
    (fun _ => by rw [pc]; trivial)
  rw [step_paging (by rw [label]; decide)]
  by_cases received : 0 < s.call.rxpage
  · have call : s.call.wrpageCall = some (-1) := by simp [wrpageCall, label, received]
    rw [paging_some call] at pc kept ⊢
    obtain ⟨fname, ⟨failed, events⟩ | ⟨same, clear, events⟩⟩ := s.outf.wrpage_last r
    · have harmless := harmless_wrpage inv (Nat.le_refl _) fun e mem => .inl (events e mem)
      refine ⟨harmless.always all, ?_, kept.waits, failed.named inv.named, fun next => ?_, fun _ => ?_⟩
      · rw [fname]
        exact (kept.append harmless).counted
      · rw [pc] at next
        rcases next with no | ⟨no, -⟩ <;> cases no
      · obtain ⟨⟨stream, -, after⟩, -⟩ := failed
        exact .inr ⟨by rw [pc]; trivial, _, after, rfl⟩
    · have free : .completed s.outf.cfname ∉ h := by
        refine (inv.cfname away (.inl received)).resolve_right ?_
        rintro ⟨-, stream, eq, error⟩
        rw [clear stream eq] at error
        cases error
      have harmless : Harmless h (s.outf.wrpage r (-1)).events := by
        refine ⟨fun e mem => ?_, fun name mem => ?_⟩
        · rcases events e mem with ⟨name, rfl⟩ | rfl
          · trivial
          · exact free
        · rcases events _ mem with ⟨name', eq⟩ | eq <;> cases eq
      rw [same]
      exact ⟨harmless.always all, kept.append harmless⟩
  · have none : s.call.wrpageCall = none := by simp [wrpageCall, label, received]
    rw [paging_none none] at kept ⊢
    rw [List.append_nil]
    exact ⟨all, kept⟩

/-- Writing lines only sets the error indicator, if anything. -/
theorem writeLines_stream {f : OutputFile} {stream : FileStream}
    (after : (f.writeLines r).stream = some stream) :
    ∃ before, f.stream = some before ∧ stream.file = before.file ∧ (before.error → stream.error) := by
  obtain ⟨before, eq, rfl⟩ := Option.map_eq_some_iff.1 after
  exact ⟨before, eq, rfl, fun error => by rw [error, Bool.true_or]⟩

theorem writeLines_none {f : OutputFile} : (f.writeLines r).stream = none ↔ f.stream = none :=
  Option.map_eq_none_iff

theorem Intact.writeLines (inv : Intact h s) : Intact h ⟨s.call, s.outf.writeLines r⟩ where
  counted := inv.counted
  waits := inv.waits
  named stream after := by
    obtain ⟨before, eq, file, -⟩ := writeLines_stream after
    exact file.trans (inv.named before eq)
  opened next := fun none => inv.opened next (writeLines_none.1 none)
  current opened := by
    refine (inv.current (opened.imp_right fun some none => some (writeLines_none.2 none))).imp_right ?_
    rintro ⟨ends, before, eq, error⟩
    refine ⟨ends, ⟨before.file, before.error || r.linesFail⟩, ?_, by rw [error, Bool.true_or]⟩
    exact Option.map_eq_some_iff.2 ⟨before, eq, rfl⟩

variable (cfg input r) in
/-- What happens at `re_getdata` when the output file is open. -/
theorem step_reGetdata {stream : FileStream} (label : s.call.pc = .reGetdata)
    (opened : s.outf.stream = some stream) :
    (s.step cfg (input, r)).1.call = (s.call.stepReGetdata cfg { input with wrpage := 0 }).1 ∧
      (input.command = false ∧ (s.step cfg (input, r)).1.outf = s.outf ∧
        (s.step cfg (input, r)).2 = [] ∨
        input.command = true ∧ (s.step cfg (input, r)).1.outf = s.outf.writeLines r ∧
          (s.step cfg (input, r)).2 =
            .wrote stream.file :: if input.receiveData = 0 then [.completed stream.file] else []) := by
  have none : s.call.wrpageCall = none := by simp only [wrpageCall, label]
  have call : (s.step cfg (input, r)).1.call =
    (s.call.stepReGetdata cfg { input with wrpage := 0 }).1 := by
    simp only [Reception.step, paging_none none, step, label]
  refine ⟨call, ?_⟩
  simp only [Reception.step, paging_none none, step, label, stepReGetdata, List.nil_append]
  cases input.command with
  | false => exact .inl ⟨rfl, rfl, rfl⟩
  | true =>
    refine .inr ⟨rfl, rfl, ?_⟩
    rw [if_neg (not_not.2 rfl)]
    split
    all_goals
      simp only [List.flatMap_cons, List.flatMap_nil, List.append_nil, Reception.receivedEvents, opened]

/-- `re_getdata` writes to the file of the page that comes next. -/
theorem saved_reGetdata (inv : Intact h s) (all : Always KeepsPages h)
    (label : s.call.pc = .reGetdata) :
    Always KeepsPages (h ++ (s.step cfg (input, r)).2) ∧
      Intact (h ++ (s.step cfg (input, r)).2) (s.step cfg (input, r)).1 := by
  have away : s.call.pc ≠ .f := by rw [label]; decide
  have noEnd : ¬ s.call.pc.Ends := by rw [label]; exact id
  have idle : s.call.writepending = false :=
    Bool.eq_false_iff.2 fun pending => away (inv.waits pending).1
  obtain ⟨stream, opened⟩ := Option.ne_none_iff_exists'.1 (inv.opened (.inl (by rw [label]; trivial)))
  have file : stream.file = s.outf.cfname := inv.named stream opened
  have name : s.outf.cfname = pageName s.outf.fname s.call.rxpage := by
    have current := (inv.current (.inr (opened ▸ Option.some_ne_none stream))).resolve_right
      fun failed =>
      noEnd failed.1
    rwa [filePage, idle, if_neg Bool.false_ne_true] at current
  have free : .completed stream.file ∉ h := by
    rw [file, name]
    exact inv.notCompleted (Nat.le_refl _)
  obtain ⟨call, step⟩ := step_reGetdata cfg input r label opened
  have pages := stepReGetdata_pages cfg s.call { input with wrpage := 0 }
  rw [← call] at pages
  clear call
  generalize s.step cfg (input, r) = out at step pages ⊢
  obtain ⟨⟨call, outf⟩, es⟩ := out
  dsimp only at step pages ⊢
  have kept : SamePages s.call call → Intact h ⟨call, s.outf⟩ := fun same =>
    inv.keep same away (fun _ => .inl (by rw [label]; trivial)) fun ends => absurd ends noEnd
  have wrote : Harmless h [.wrote stream.file] := by
    refine ⟨fun e mem => ?_, fun name mem => nomatch List.mem_singleton.1 mem⟩
    rw [List.mem_singleton.1 mem]
    exact free
  rcases step with ⟨unconnected, rfl, rfl⟩ | ⟨connected, rfl, rfl⟩
  · rcases pages with ⟨-, connected, -⟩ | ⟨-, same⟩
    · rw [unconnected] at connected
      cases connected
    · rw [List.append_nil]
      exact ⟨all, kept same⟩
  · rcases pages with ⟨pc, -, done, rxpage, pending⟩ | ⟨other, same⟩
    · have written := wrote.always all
      rw [if_pos done, List.append_cons]
      refine ⟨always_snoc.2 ⟨written, trivial⟩, ?_, fun _ => ⟨pc, ?_⟩, inv.writeLines.named,
        fun _ => inv.writeLines.opened (.inl (by rw [label]; trivial)), fun _ => .inl ?_⟩
      · intro name' mem
        show ∃ page < call.rxpage, name' = pageName s.outf.fname page
        rw [rxpage]
        rcases List.mem_append.1 mem with before | now
        · obtain ⟨page, less, eq⟩ := wrote.counted inv name' before
          exact ⟨page, Nat.lt_succ_of_lt less, eq⟩
        · refine ⟨s.call.rxpage, Nat.lt_succ_self _, ?_⟩
          rw [FileEvent.completed.inj (List.mem_singleton.1 now), file, name]
      · rw [rxpage]
        exact Nat.succ_pos _
      · rw [filePage, pending, if_pos rfl, rxpage, Nat.add_sub_cancel]
        exact name
    · rw [if_neg (other.resolve_left (by rw [connected]; decide))]
      exact ⟨wrote.always all, ((kept same).writeLines).append wrote⟩

/-- In no call is the file of a complete page opened again, written or removed after that page. -/
theorem received_pages_kept (cfg : Config) (loc : Cap) (good : Bool) (stem : Nat → List Char)
    (cfname : List Char) (inputs : List (Input × FileResults)) :
    Always KeepsPages
      (feed (Reception.step cfg) inputs [] (.start cfg loc good stem cfname)).1 := by
  have run := runs_feed (Reception.step cfg) inputs (.start cfg loc good stem cfname)
  refine (run.invariant (P := fun h s => Always KeepsPages h ∧ Intact h s) ⟨always_nil, ?_⟩ ?_).1
  · refine ⟨fun _ mem => absurd mem List.not_mem_nil, fun pending => (nomatch pending),
    fun _ eq => (nomatch eq),
      fun next => ?_, fun opened => ?_⟩
    · simp only [Reception.start, Call.start] at next
      split at next <;> rcases next with no | ⟨no, -⟩ <;> cases no
    · rcases opened with none | none
      · exact absurd none (Nat.lt_irrefl 0)
      · exact absurd rfl none
  · rintro h s ⟨input, r⟩ ⟨all, inv⟩ -
    by_cases away : s.call.pc ∈ [Label.r, .f, .b, .reGetdata]
    · simp only [List.mem_cons, List.not_mem_nil, or_false] at away
      rcases away with label | label | label | label
      · exact saved_r inv all label
      · exact saved_f inv all label
      · exact saved_b inv all label
      · exact saved_reGetdata inv all label
    · exact saved_quiet inv all away

-- the answering side of a call that receives two pages
example :
    (feed (Reception.step { sending 0 with calling := false })
        ([0, 0x41, 0x41, 0, 0, 0x72, 0, 0, 0, 0x74, 0x74, 0x5f, 0x5f, 0].map fun fcf =>
          (answered fcf, .fine)) []
        (.start { sending 0 with calling := false } defCap false (fun _ => []) [])).1 =
      [.opened ".001".toList, .wrote ".001".toList, .completed ".001".toList, .ended ".001".toList,
        .opened ".002".toList, .wrote ".002".toList, .completed ".002".toList, .ended ".002".toList,
        .opened ".003".toList, .ended ".003".toList, .removed ".003".toList] := by
  decide +kernel

end QFax.Efax

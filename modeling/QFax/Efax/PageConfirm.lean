import QFax.Efax.Class1

/-!
# What the receiver confirms

The Class 1 receiver answers a post-page command with MCF when the flag `good` is set.  The flag holds
the verdict of the last training check or reception, whichever came later, and of neither at first.
Here the history says what the flag stands for, and when its verdict is about the page that the command
follows.
-/

namespace QFax.Efax

open Machine Call

/-! ## The history of the receiver -/

/-- The verdict so far: of the training check, or of the page received.  A page that ends without RTC
changes nothing. -/
def verdict (maxpgerr : Nat) : Bool → Event → Bool
  | _, .trained good => good
  | good, .received ret nerr => if ret = 1 then good else ret = 0 ∧ nerr < maxpgerr
  | good, _ => good

/-- Whether `receive_data` returned 0 with fewer than `maxpgerr` errors since the last CFR. -/
def pageSinceCfr (maxpgerr : Nat) : Bool → Event → Bool
  | _, .answered .cfr _ => false
  | page, .received ret nerr => page || (ret = 0 ∧ nerr < maxpgerr)
  | page, _ => page

/-- What the last call of `receive_data` returned. -/
def lastReceived : Option Nat → Event → Option Nat
  | _, .received ret _ => some ret
  | last, _ => last

/-- Whether the last training check or call of `receive_data` was a call that found the end of its
page. -/
def atPageEnd : Bool → Event → Bool
  | _, .trained _ => false
  | _, .received ret _ => ret ≠ 1
  | atEnd, _ => atEnd

/-- `e` is an MCF. -/
def Event.isMcf : Event → Bool
  | .answered .mcf _ => true
  | _ => false

/-- `e` is the receipt of a post-page command. -/
def Event.isCommand : Event → Bool
  | .command _ => true
  | _ => false

/-- MCF is sent only for a page received since the last CFR, and not after a page without RTC or with a
write error. -/
def ConfirmsPage (maxpgerr : Nat) (before : List Event) (e : Event) : Prop :=
  e.isMcf → before.foldl (pageSinceCfr maxpgerr) false = true ∧ before.foldl lastReceived none = some 0

/-- A post-page command comes when the verdict is bad, or is about the page just received. -/
def CommandAtPageEnd (maxpgerr : Nat) (good : Bool) (before : List Event) (e : Event) : Prop :=
  e.isCommand → before.foldl (verdict maxpgerr) good = true → before.foldl atPageEnd false = true

instance (maxpgerr : Nat) (before : List Event) (e : Event) :
    Decidable (ConfirmsPage maxpgerr before e) := inferInstanceAs (Decidable (_ → _))

instance (maxpgerr : Nat) (good : Bool) (before : List Event) (e : Event) :
    Decidable (CommandAtPageEnd maxpgerr good before e) := inferInstanceAs (Decidable (_ → _))

/-- How the flag and the history of the receiver belong together. -/
structure Judged (cfg : Config) (good : Bool) (h : List Event) (s : Call) : Prop where
  flag : s.good = h.foldl (verdict cfg.maxpgerr) good
  page : h.foldl (verdict cfg.maxpgerr) good = true → (h.foldl atPageEnd false = true ↔
    h.foldl (pageSinceCfr cfg.maxpgerr) false = true ∧ h.foldl lastReceived none = some 0)

/-- An event that neither checks training nor receives a page nor answers for them. -/
def Event.Neutral : Event → Prop
  | .answered _ _ | .trained _ | .command _ | .received _ _ => False
  | _ => True

variable {cfg : Config} {good : Bool} {h es : List Event} {s s' : Call}

/-- Neutral events change nothing the receiver judges by. -/
theorem foldl_neutral {β : Type} (f : β → Event → β) (b : β)
    (skips : ∀ b e, e.Neutral → f b e = b) (neutral : ∀ e ∈ es, e.Neutral) :
    (h ++ es).foldl f b = h.foldl f b := by
  rw [List.foldl_append]
  generalize h.foldl f b = c
  induction es with
  | nil => rfl
  | cons e es ih =>
    rw [List.foldl_cons, skips c e (neutral e List.mem_cons_self)]
    exact ih fun e' later => neutral e' (List.mem_cons_of_mem e later)

theorem Judged.neutral (inv : Judged cfg good h s) (same : s'.good = s.good)
    (neutral : ∀ e ∈ es, e.Neutral) : Judged cfg good (h ++ es) s' := by
  have verdict := foldl_neutral (h := h) (verdict cfg.maxpgerr) good ?_ neutral
  have atEnd := foldl_neutral (h := h) atPageEnd false ?_ neutral
  have since := foldl_neutral (h := h) (pageSinceCfr cfg.maxpgerr) false ?_ neutral
  have last := foldl_neutral (h := h) lastReceived none ?_ neutral
  · refine ⟨?_, ?_⟩
    · rw [same, verdict]
      exact inv.flag
    · rw [verdict, atEnd, since, last]
      exact inv.page
  all_goals
    intro b e neutral
    cases e <;> first | rfl | exact neutral.elim

/-! ## Steps -/

theorem neutral_step (cfg : Config) (s : Call) (input : Input)
    (away : s.pc ≠ .f2 ∧ s.pc ≠ .reGetdata) : ∀ e ∈ (step cfg input s).2, e.Neutral := by
  intro e mem
  have origin := step_events input mem
  cases e with
  | answered | trained | command => exact absurd (List.mem_singleton.1 origin) away.1
  | received => exact absurd (List.mem_singleton.1 origin) away.2
  | _ => trivial

theorem judged_dcs {input : Input} :
    Judged cfg good (h ++ (s.stepDcs input).2) (s.stepDcs input).1 := by
  cases trained : input.gettrain <;>
    simp only [stepDcs, trained, Bool.false_eq_true, if_false, if_true]
  all_goals
    refine ⟨?_, ?_⟩ <;>
      simp [List.foldl_append, verdict, atPageEnd, pageSinceCfr, lastReceived]

theorem judged_postPage (inv : Judged cfg good h s) :
    Judged cfg good (h ++ s.stepPostPage.2) s.stepPostPage.1 := by
  obtain ⟨flag, page⟩ := inv
  cases answer : s.good <;> simp only [stepPostPage, answer]
  all_goals
    refine ⟨?_, ?_⟩ <;> rw [answer] at flag <;>
      simp [List.foldl_append, verdict, atPageEnd, pageSinceCfr, lastReceived, ← flag]
  simpa [← flag] using page

theorem judged_reGetdata {input : Input} (inv : Judged cfg good h s) :
    Judged cfg good (h ++ (s.stepReGetdata cfg input).2) (s.stepReGetdata cfg input).1 := by
  unfold stepReGetdata
  split
  · exact inv.neutral rfl (fun e mem => absurd mem List.not_mem_nil)
  · dsimp only
    split
    case h_1 ret =>
      refine ⟨?_, ?_⟩ <;>
        simp +contextual [List.foldl_append, verdict, atPageEnd, pageSinceCfr, lastReceived, ret]
    case h_2 ret =>
      refine ⟨?_, ?_⟩
      · exact inv.flag.trans (by simp [List.foldl_append, verdict, ret])
      · simp [List.foldl_append, atPageEnd, lastReceived, ret]
    case h_3 ret0 ret1 =>
      have ret0 : input.receiveData ≠ 0 := ret0
      have ret1 : input.receiveData ≠ 1 := ret1
      refine ⟨?_, ?_⟩ <;>
        simp [List.foldl_append, verdict, atPageEnd, pageSinceCfr, lastReceived, ret0, ret1]

theorem judged_step (input : Input) (inv : Judged cfg good h s) :
    Judged cfg good (h ++ (step cfg input s).2) (step cfg input s).1 := by
  by_cases f2 : s.pc = .f2
  · simp only [step, f2, stepF2]
    split
    case h_3 => exact judged_dcs
    case h_1 | h_2 | h_10 | h_11 => exact inv.neutral rfl (fun e mem => absurd mem List.not_mem_nil)
    all_goals exact judged_postPage inv
  · by_cases reGetdata : s.pc = .reGetdata
    · simp only [step, reGetdata]
      exact judged_reGetdata inv
    · exact inv.neutral (good_step cfg s input ⟨f2, reGetdata⟩) (neutral_step cfg s input ⟨f2,
      reGetdata⟩)

/-- What holds of MCF answers holds of commands, up to here. -/
def Agree (cfg : Config) (good : Bool) (h : List Event) : Prop :=
  Always (ConfirmsPage cfg.maxpgerr) h ↔ Always (CommandAtPageEnd cfg.maxpgerr good) h

/-- Other events do not matter. -/
theorem Agree.append (inv : Agree cfg good h) (other : ∀ e ∈ es, ¬ e.isMcf ∧ ¬ e.isCommand) :
    Agree cfg good (h ++ es) := by
  induction es generalizing h with
  | nil => rwa [List.append_nil]
  | cons e es ih =>
    obtain ⟨notMcf, notCommand⟩ := other e List.mem_cons_self
    rw [List.append_cons]
    refine ih ?_ fun e' later => other e' (List.mem_cons_of_mem e later)
    unfold Agree at inv ⊢
    rw [always_snoc, always_snoc, inv]
    exact and_congr_right fun _ =>
      iff_of_true (fun mcf => absurd mcf notMcf) (fun command => absurd command notCommand)

/-- MCF confirms a page exactly when the command came at its end. -/
theorem agree_postPage (judged : Judged cfg good h s) (inv : Agree cfg good h) :
    Agree cfg good (h ++ s.stepPostPage.2) := by
  obtain ⟨flag, page⟩ := judged
  have split : h ++ s.stepPostPage.2 = (h ++ [.command s.frame.ignoreInterrupt]) ++
      [.answered (if s.good then .mcf else .rtn) s.disbit] := by
    rw [stepPostPage, List.append_assoc, List.singleton_append]
  unfold Agree at inv ⊢
  rw [split, always_snoc, always_snoc, always_snoc, always_snoc, inv]
  cases answer : s.good
  · rw [answer] at flag
    simp [ConfirmsPage, CommandAtPageEnd, Event.isMcf, Event.isCommand, ← flag]
  · rw [answer] at flag
    simp [ConfirmsPage, CommandAtPageEnd, Event.isMcf, Event.isCommand, ← flag, page flag.symm,
      List.foldl_append, pageSinceCfr, lastReceived]

theorem agree_step (input : Input) (judged : Judged cfg good h s) (inv : Agree cfg good h) :
    Agree cfg good (h ++ (step cfg input s).2) := by
  by_cases f2 : s.pc = .f2
  · simp only [step, f2, stepF2]
    split
    case h_3 =>
      refine inv.append fun e mem => ?_
      cases trained : input.gettrain <;> simp [stepDcs, trained] at mem <;>
        rcases mem with rfl | rfl <;> simp [Event.isMcf, Event.isCommand]
    case h_1 | h_2 | h_10 | h_11 => exact inv.append fun e mem => absurd mem List.not_mem_nil
    all_goals exact agree_postPage judged inv
  · refine inv.append fun e mem => ?_
    have origin := step_events input mem
    cases e with
    | answered | command => exact absurd (List.mem_singleton.1 origin) f2
    | _ => simp [Event.isMcf, Event.isCommand]

/-- In every run the receiver confirms only pages it has received if and only if every post-page
command comes when the verdict is bad or is about the page just received. -/
theorem confirms_received_iff {loc : Cap}
    (run : Runs (step cfg) (fun _ _ _ => True) (start cfg loc good) h s) :
    Always (ConfirmsPage cfg.maxpgerr) h ↔ Always (CommandAtPageEnd cfg.maxpgerr good) h := by
  have inv : Judged cfg good h s ∧ Agree cfg good h := by
    refine run.invariant (P := fun h s => Judged cfg good h s ∧ Agree cfg good h) ⟨?_, ?_⟩ ?_
    · exact ⟨rfl, fun _ => by simp⟩
    · exact iff_of_true always_nil always_nil
    · rintro h s input ⟨judged, agree⟩ -
      exact ⟨judged_step input judged, agree_step input judged agree⟩
  exact inv.2

/-- An answered call without pages to send. -/
def receiving : Config where
  queue := []
  pages := 0
  localid := []
  maxpgerr := 10
  noretry := false
  calling := false

/-- DCS with good training, then a page if the modem takes the command to receive it, then EOP. -/
def onePage (command : Bool) : List Input :=
  [0, 0x41, 0, 0].map answered ++ [{ answered 0 with command := command }] ++ [0x74, 0].map answered

theorem confirms_received_one :
    Always (ConfirmsPage 10)
      (feed (step receiving) (onePage true) [] (start receiving defCap true)).1 :=
  (confirms_received_iff (runs_feed _ _ _)).2 (by decide)

/-- A page is confirmed before any is received when the modem refuses the command to receive it. -/
theorem confirms_unreceived :
    ¬ ∀ (cfg : Config) (loc : Cap) (good : Bool) (h : List Event) (s : Call),
      Runs (step cfg) (fun _ _ _ => True) (start cfg loc good) h s →
        Always (ConfirmsPage cfg.maxpgerr) h := by
  intro claim
  have confirmed := claim receiving defCap false
    (feed (step receiving) (onePage false) [] (start receiving defCap false)).1 _ (runs_feed _ _ _)
  exact absurd confirmed (by decide)

end QFax.Efax

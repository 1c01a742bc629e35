import QFax.Efax.TrainingRate

/-!
# Trainings and re-sends of the Class 1 transmitter

What keeps the transmitter busy: the trainings that fail and the pages that are passed to `send_data`
again.  The events shown here are those of a step that concern them.  Falling back is bounded by the
chain of rates as long as no rate is taken back, and re-sending by `pagetry`, which only EOP looks at.
-/

namespace QFax.Efax

open Machine Call

/-- A training at a rate, the FTT that answers it, a page passed to `send_data`, and the page counted
as sent. -/
inductive TxEvent
  | training (rate : Int)
  | ftt (rate : Int)
  | passed (page : Nat)
  | acked (page : Nat)
  deriving DecidableEq, Repr

/-- What an event of `c1sndrcv` says about a page. -/
def Event.tx? : Event → Option TxEvent
  | .sendData page => some (.passed page)
  | .acked page _ => some (.acked page)
  | _ => none

namespace Call

/-- The training at `D_2` and its answer; it takes place unless a frame before it fails. -/
def trainings (cfg : Config) (input : Input) (s : Call) : List TxEvent :=
  if unlessErr (unlessErr s.err input.putid) input.put = 0 then
    .training s.trainingRate :: (if FttAnswered cfg s input then [.ftt s.trainingRate] else [])
  else []

/-- One label of `c1sndrcv`, with the events that concern trainings and re-sends. -/
def txStep (cfg : Config) : Step Call Input TxEvent := fun input s =>
  ((step cfg input s).1, (if s.pc = .d2 then s.trainings cfg input else []) ++
    (step cfg input s).2.filterMap Event.tx?)

end Call

/-! ## What the history says -/

/-- How many trainings were answered with FTT. -/
def fttCount (h : List TxEvent) : Nat :=
  h.countP fun e => match e with
    | .ftt _ => true
    | _ => false

/-- The rate of the last training when it was answered with FTT. -/
def pendingFtt (h : List TxEvent) : Option Int :=
  h.foldl (fun pending e => match e with
    | .training _ => none
    | .ftt rate => some rate
    | _ => pending) none

/-- How often a page was passed to `send_data`. -/
def passes (h : List TxEvent) (page : Nat) : Nat := h.count (.passed page)

/-- What an event may be after the events before it.  A training after an FTT is further down the chain
of rates, FTT is accepted at most eight times, and a page not yet acknowledged is passed to `send_data`
at most `NTXRETRY` times. -/
def Bounded (before : List TxEvent) : TxEvent → Prop
  | .training rate => ∀ failed ∈ pendingFtt before, rung failed < rung rate
  | .ftt _ => fttCount before < 8
  | .passed page => .acked page ∉ before → passes before page < nTxRetry
  | .acked _ => True

instance (before : List TxEvent) : ∀ e, Decidable (Bounded before e)
  | .training _ => inferInstanceAs (Decidable (∀ _ ∈ pendingFtt before, _))
  | .ftt _ => inferInstanceAs (Decidable (_ < _))
  | .passed _ => inferInstanceAs (Decidable (_ → _))
  | .acked _ => .isTrue trivial

variable {cfg : Config} {h es : List TxEvent} {s : Call} {input : Input}

/-- Events about pages leave the rates alone. -/
def PagesOnly (es : List TxEvent) : Prop := ∀ e ∈ es, ∃ page, e = .passed page ∨ e = .acked page

theorem PagesOnly.fttCount (only : PagesOnly es) : fttCount (h ++ es) = fttCount h := by
  unfold QFax.Efax.fttCount
  rw [List.countP_append, Nat.add_eq_left, List.countP_eq_zero]
  intro e mem
  obtain ⟨page, rfl | rfl⟩ := only e mem <;> exact Bool.false_ne_true

theorem PagesOnly.pendingFtt (only : PagesOnly es) : pendingFtt (h ++ es) = pendingFtt h := by
  induction es generalizing h with
  | nil => rw [List.append_nil]
  | cons e es ih =>
    have last : QFax.Efax.pendingFtt (h ++ [e]) = QFax.Efax.pendingFtt h := by
      unfold QFax.Efax.pendingFtt
      obtain ⟨page, rfl | rfl⟩ := only e List.mem_cons_self <;> rw [List.foldl_concat]
    rw [List.append_cons, ih fun e' later => only e' (List.mem_cons_of_mem e later), last]

theorem pagesOnly_tx (events : List Event) : PagesOnly (events.filterMap Event.tx?) := by
  intro e mem
  obtain ⟨event, -, eq⟩ := List.mem_filterMap.1 mem
  cases event <;> cases eq
  · exact ⟨_, .inl rfl⟩
  · exact ⟨_, .inr rfl⟩

theorem passes_append_of_notMem {page : Nat} (none : .passed page ∉ es) :
    passes (h ++ es) page = passes h page := by
  unfold passes
  rw [List.count_append, List.count_eq_zero.2 none, Nat.add_zero]

/-! ## The events of a step -/

/-- Without page events nothing is shown. -/
theorem Quiet.tx {events : List Event} (quiet : Quiet events) : events.filterMap Event.tx? = [] := by
  rw [List.filterMap_eq_nil_iff]
  intro e mem
  have away := quiet e mem
  cases e with
  | sendData | acked => exact absurd trivial away
  | _ => rfl

theorem txStep_d2 (label : s.pc = .d2) : (txStep cfg input s).2 = s.trainings cfg input := by
  have quiet := quiet_step cfg s input (by rw [label]; decide)
  rw [txStep, if_pos label, quiet.tx, List.append_nil]

variable (cfg input) in
theorem txStep_i2 (label : s.pc = .i2) :
    (txStep cfg input s).2 = [] ∨ (txStep cfg input s).2 = [.passed s.p] := by
  have passing : (step cfg input s).2 =
      unlessEvent (unlessErr s.err (if input.command then 0 else 3)) (.sendData s.p) := by
    simp only [step, label, stepI2]
  rw [txStep, if_neg (by rw [label]; decide), passing]
  generalize unlessErr s.err _ = err
  unfold unlessEvent
  split
  · exact .inr rfl
  · exact .inl rfl

theorem tx_unlessEvent {err : Nat} {frame : Frame} {disbit : Bool} {fif : List Nat} :
    (unlessEvent err (.sent frame disbit fif)).filterMap Event.tx? = [] := by
  unfold unlessEvent
  split <;> rfl

variable (input) in
/-- At `sendppm` a page is acknowledged, asked for once more, or the step is about neither. -/
theorem txStep_sendppm (retries : cfg.noretry = false) (label : s.pc = .sendppm) :
    (txStep cfg input s).1 = (s.awaitPpm input).countPage.leavePpm ∧
        (txStep cfg input s).2 = [.acked s.p] ∨
      (txStep cfg input s).2 = [] ∧
        ((txStep cfg input s).1 = (s.awaitPpm input).goto .sendppm ∨
          (txStep cfg input s).1 = (s.awaitPpm input).goto .cTimeout ∨
          (txStep cfg input s).1 = (s.awaitPpm input).fail 3 .c ∨
          input.answer.getfr.Rejects ∧
            (txStep cfg input s).1 = (s.awaitPpm input).repeatPage.leavePpm) := by
  have same : step cfg input s = s.stepSendppm cfg input := by simp only [step, label]
  rw [txStep, if_neg (by rw [label]; decide), same, List.nil_append]
  rcases stepSendppm_cases s retries input with
    ⟨-, eq⟩ | ⟨-, events, (eq | eq) | ⟨rejects, eq⟩ | eq⟩
  · rw [eq, List.filterMap_append, tx_unlessEvent]
    exact .inl ⟨rfl, rfl⟩
  all_goals rw [events, tx_unlessEvent, eq]
  · exact .inr ⟨rfl, .inl rfl⟩
  · exact .inr ⟨rfl, .inr (.inl rfl)⟩
  · exact .inr ⟨rfl, .inr (.inr (.inr ⟨rejects, rfl⟩))⟩
  · exact .inr ⟨rfl, .inr (.inr (.inl rfl))⟩

theorem txStep_quiet (away : s.pc ≠ .d2 ∧ s.pc ≠ .i2 ∧ s.pc ≠ .sendppm) :
    (txStep cfg input s).2 = [] := by
  rw [txStep, if_neg away.1, (quiet_step cfg s input away.2).tx, List.append_nil]

/-! ## Falling back -/

/-- FTT comes for 12000 bps when the local fax cannot do better: `mincap` prefers 12000 bps to its
fallback. -/
def Stuck (cfg : Config) (s : Call) (input : Input) : Prop :=
  FttAnswered cfg s input ∧ checkCap s.loc .br = 4 ∧ s.trainingRate = 4

instance (cfg : Config) (s : Call) (input : Input) : Decidable (Stuck cfg s input) :=
  inferInstanceAs (Decidable (_ ∧ _))

/-- The capabilities in a DIS take the rate back above what FTT has led to. -/
def Restores (h : List TxEvent) (s : Call) : Prop :=
  s.pc = .a ∧ (s.frame = .dis ∨ s.frame = .dtc) ∧ rung s.readDis.trainingRate < fttCount h

instance (h : List TxEvent) (s : Call) : Decidable (Restores h s) :=
  inferInstanceAs (Decidable (_ ∧ _))

/-- Every FTT has taken the rate one rung down at least, and the next training is below the last that
failed. -/
structure Falling (h : List TxEvent) (s : Call) : Prop where
  count : fttCount h ≤ rung s.trainingRate ∨ s.pc.Ends ∧ fttCount h ≤ 8
  below : ∀ failed ∈ pendingFtt h, s.pc.Ends ∨ s.pc = .d2 ∧ rung failed < rung s.trainingRate

theorem Falling.le_eight (inv : Falling h s) : fttCount h ≤ 8 := by
  have valid := rung_lt (isRate_trainingRate s)
  rcases inv.count with count | ⟨-, count⟩ <;> omega

/-- A step away from `D_2` that takes no rate back. -/
theorem Falling.keep (inv : Falling h s) (away : s.pc ≠ .d2) (only : PagesOnly es)
    (rate : s.pc.Ends ∨ fttCount h ≤ rung (step cfg input s).1.trainingRate) :
    Falling (h ++ es) (step cfg input s).1 := by
  refine ⟨?_, fun failed pending => ?_⟩
  · rw [only.fttCount]
    rcases rate with ends | rate
    · exact .inr ⟨ends_step ends, inv.le_eight⟩
    · exact .inl rate
  · rw [only.pendingFtt] at pending
    rcases inv.below failed pending with ends | ⟨label, -⟩
    · exact .inl (ends_step ends)
    · exact absurd label away

theorem Falling.away (inv : Falling h s) (away : s.pc ≠ .d2) (only : PagesOnly es)
    (keeps : ¬ Restores h s) : Falling (h ++ es) (step cfg input s).1 := by
  have count : s.pc.Ends ∨ fttCount h ≤ rung s.trainingRate := by
    rcases inv.count with count | ⟨ends, -⟩
    · exact .inr count
    · exact .inl ends
  refine inv.keep away only (count.imp_right fun count => ?_)
  by_cases label : s.pc = .a
  · simp only [step, label, stepA]
    split
    · rename_i dis
      exact Nat.le_of_not_lt fun above => keeps ⟨label, dis, above⟩
    · exact count
  · rw [(sameRates_step cfg s input ⟨label, away⟩).trainingRate]
    exact count

/-- The history after a training that is not answered with FTT, and after one that is. -/
theorem pendingFtt_training (h : List TxEvent) (rate : Int) :
    pendingFtt (h ++ [.training rate]) = none := by
  unfold pendingFtt
  rw [List.foldl_concat]

theorem pendingFtt_ftt (h : List TxEvent) (rate : Int) : pendingFtt (h ++ [.ftt rate]) = some rate := by
  unfold pendingFtt
  rw [List.foldl_concat]

theorem fttCount_training (h : List TxEvent) (rate : Int) :
    fttCount (h ++ [.training rate]) = fttCount h := by
  unfold fttCount
  rw [List.countP_append]
  rfl

theorem fttCount_ftt (h : List TxEvent) (rate : Int) :
    fttCount (h ++ [.ftt rate]) = fttCount h + 1 := by
  unfold fttCount
  rw [List.countP_append]
  rfl

/-- The three ways through `D_2`: without a training, with one that is not answered with FTT, and with
one that is. -/
theorem trainings_cases (cfg : Config) (s : Call) (input : Input) :
    unlessErr (unlessErr s.err input.putid) input.put ≠ 0 ∧
        s.trainings cfg input = [] ∧ ¬ FttAnswered cfg s input ∨
      s.trainings cfg input = [.training s.trainingRate] ∧ ¬ FttAnswered cfg s input ∨
      s.trainings cfg input = [.training s.trainingRate, .ftt s.trainingRate] ∧
        FttAnswered cfg s input := by
  unfold trainings
  by_cases answered : FttAnswered cfg s input
  · have sent : unlessErr (unlessErr s.err input.putid) input.put = 0 := by
      obtain ⟨-, err, -⟩ := answered
      unfold awaitDcs at err
      split at err
      · exact (unlessErr_eq_zero.1 err).1
      · rename_i bad
        exact absurd err bad
    rw [if_pos sent, if_pos answered]
    exact .inr (.inr ⟨rfl, answered⟩)
  · rw [if_neg answered]
    split
    · exact .inr (.inl ⟨rfl, answered⟩)
    · rename_i failed
      exact .inl ⟨failed, rfl, answered⟩

/-- Without a training `D_2` is tried again or given up. -/
theorem stepD2_untrained (cfg : Config) (s : Call) (input : Input)
    (failed : unlessErr (unlessErr s.err input.putid) input.put ≠ 0) :
    (s.stepD2 cfg input).1.pc = .d2 ∨ (s.stepD2 cfg input).1.pc = .cTimeout := by
  have err : ((s.negotiate.sendDcs cfg input).1.awaitDcs input).err ≠ 0 := by
    have sent : (s.negotiate.sendDcs cfg input).1.err ≠ 0 := fun ok => failed (unlessErr_eq_zero.1 ok).1
    unfold awaitDcs
    rw [if_neg sent]
    exact sent
  unfold stepD2
  dsimp only
  rw [if_pos (.inl err), goto_pc]
  split
  · exact .inr rfl
  · exact .inl rfl

/-- Falling back at `D_2`. -/
theorem Falling.d2 (inv : Falling h s) (label : s.pc = .d2) (free : ¬ Stuck cfg s input) :
    Falling (h ++ s.trainings cfg input) (s.stepD2 cfg input).1 := by
  have noEnd : ¬ s.pc.Ends := by rw [label]; exact id
  have count : fttCount h ≤ rung s.trainingRate := inv.count.resolve_right fun ends => noEnd ends.1
  have rates := stepD2_rates cfg input label
  rcases trainings_cases cfg s input with
    ⟨failed, none, unanswered⟩ | ⟨one, unanswered⟩ | ⟨both, answered⟩
  · have same := (rates.resolve_left fun ftt => unanswered ftt.1).2
    rw [none, List.append_nil]
    refine ⟨.inl ?_, fun rate pending => ?_⟩
    · rw [same.trainingRate]
      exact count
    obtain ⟨-, below⟩ := (inv.below rate pending).resolve_left noEnd
    rw [same.trainingRate]
    rcases stepD2_untrained cfg s input failed with again | timeout
    · exact .inr ⟨again, below⟩
    · exact .inl (by rw [timeout]; trivial)
  · have same := (rates.resolve_left fun ftt => unanswered ftt.1).2
    rw [one]
    refine ⟨.inl ?_, fun failed pending => ?_⟩
    · rw [fttCount_training, same.trainingRate]
      exact count
    · rw [pendingFtt_training] at pending
      cases pending
  · rw [both, List.append_cons]
    obtain ⟨-, ⟨next, again, loc, remote⟩ | ⟨-, up⟩⟩ :=
      rates.resolve_right fun other => other.1 answered
    · have lower : rung s.trainingRate < rung (s.stepD2 cfg input).1.trainingRate := by
        have fallen : IsRate (fallback s.trainingRate) := by
          rcases rung_fallback (isRate_trainingRate s) with ⟨-, fallen, -⟩ | ⟨none, -⟩
          · exact fallen
          · omega
        have free' : ¬ (checkCap s.loc .br = 4 ∧ s.trainingRate = 4) :=
          fun both => free ⟨answered, both⟩
        have accepted : checkCap (s.stepD2 cfg input).1.remote .br = fallback s.trainingRate := by
          rw [checkCap_of_isRate (by rw [remote]; exact fallen), remote]
        rw [trainingRate_eq (s.stepD2 cfg input).1, loc, accepted]
        rw [trainingRate_eq] at next free' ⊢
        exact rung_lt_fallback (isRate_checkCap s.loc) (isRate_checkCap s.remote) next free'
      refine ⟨.inl ?_, fun failed pending => ?_⟩
      · rw [fttCount_ftt, fttCount_training]
        omega
      · rw [pendingFtt_ftt, Option.mem_some_iff] at pending
        exact .inr ⟨again, pending ▸ lower⟩
    · refine ⟨.inr ⟨by rw [up]; trivial, ?_⟩, fun failed _ => .inl (by rw [up]; trivial)⟩
      have valid := rung_lt (isRate_trainingRate s)
      rw [fttCount_ftt, fttCount_training]
      omega

/-! ## Sending a page again -/

/-- The remote fax asks for the page once more after its last re-send, and nothing looks at `pagetry`:
PIN leads back to `A`, and RTN to `D` or `T` unless the page is the last. -/
def Resends (h : List TxEvent) (s : Call) (input : Input) : Prop :=
  s.pc = .sendppm ∧ nTxRetry ≤ passes h s.p ∧
    (input.answer.getfr = .pin ∨ input.answer.getfr = .rtn ∧ s.ppm ≠ .eop)

instance (h : List TxEvent) (s : Call) (input : Input) : Decidable (Resends h s input) :=
  inferInstanceAs (Decidable (_ ∧ _))

/-- The page at hand will be sent next or is being sent: it was not confirmed. -/
def Call.Unconfirmed (s : Call) : Prop := s.pc.HasPage ∨ s.dp = false

/-- The page at hand can be sent once more before it is confirmed, and `pagetry` counts the attempts for
the last page. -/
structure Resending (cfg : Config) (h : List TxEvent) (s : Call) : Prop where
  ahead : ∀ page, s.p < page → passes h page = 0
  again : s.Unconfirmed → s.pc ≠ .sendppm → ¬ s.pc.Ends → passes h s.p < nTxRetry
  tried : s.Unconfirmed → isLast cfg.queue s.p → passes h s.p ≤ s.pagetry
  fresh : s.pc = .t → s.dp = false → isLast cfg.queue s.p → passes h s.p = 0
  last : s.pc.HasPage → (s.ppm = .eop ↔ isLast cfg.queue s.p)

/-- Only `T`, `I_2` and a confirmed page change `pagetry`. -/
theorem pagetry_step (cfg : Config) (s : Call) (input : Input)
    (away : s.pc ≠ .t ∧ s.pc ≠ .i2 ∧ s.pc ≠ .sendppm) : (step cfg input s).1.pagetry = s.pagetry := by
  cases label : s.pc with
  | t => exact absurd label away.1
  | i2 => exact absurd label away.2.1
  | sendppm => exact absurd label away.2.2
  | a =>
    simp only [step, label, stepA]
    split <;> rfl
  | d | i =>
    simp only [step, label, stepD, stepI]
    split <;> rfl
  | d2 =>
    obtain ⟨pc, err, tries, frame, fif, remote, eq⟩ := stepD2_form cfg s input
    simp only [step, label, eq]
    rfl
  | rLoop =>
    simp only [step, label, stepRLoop]
    split
    · dsimp only
      split <;> rfl
    · rfl
  | f =>
    obtain ⟨pc, err, last, frame, fif, writepending, eq⟩ := stepF_form s input
    simp only [step, label, eq]
  | f2 =>
    simp only [step, label, stepF2]
    split <;> rfl
  | reGetdata =>
    simp only [step, label, stepReGetdata]
    split
    · rfl
    · split <;> rfl
  | _ => simp only [step, label, stepE, stepR, stepGetdata, stepCTimeout, stepC, stepB, goto, fail]

/-- A step that keeps the page at hand and does not go to `T`. -/
theorem Resending.keep {s' : Call} (inv : Resending cfg h s) (kept : Kept s s')
    (pagetry : s'.pagetry = s.pagetry) (notT : s'.pc ≠ .t) (hasPage : s'.pc.HasPage → s.pc.HasPage)
    (again : s'.pc ≠ .sendppm → ¬ s'.pc.Ends → s.pc ≠ .sendppm ∧ ¬ s.pc.Ends) :
    Resending cfg h s' := by
  have unconfirmed : s'.Unconfirmed → s.Unconfirmed := by
    rintro (held | repeated)
    · exact .inl (hasPage held)
    · exact .inr (kept.dp ▸ repeated)
  refine ⟨?_, fun page elsewhere goesOn => ?_, fun page => ?_, fun label => absurd label notT,
    fun held => ?_⟩
  · rw [kept.p]
    exact inv.ahead
  · obtain ⟨elsewhere', goesOn'⟩ := again elsewhere goesOn
    rw [kept.p]
    exact inv.again (unconfirmed page) elsewhere' goesOn'
  · rw [kept.p, pagetry]
    exact inv.tried (unconfirmed page)
  · rw [kept.p, kept.ppm]
    exact inv.last (hasPage held)

/-- Only `sendppm` jumps to `T`. -/
theorem step_notT (cfg : Config) (s : Call) (input : Input) (away : s.pc ≠ .sendppm) :
    (step cfg input s).1.pc ≠ .t := by
  have jumps : ∀ l : Label, l ≠ .sendppm → .t ∉ l.targets := by
    intro l
    cases l <;> decide
  exact fun label => jumps s.pc away (label ▸ step_targets input)

/-- `D` and `I` take the page to be sent. -/
theorem Resending.read {opened : Bool} {l : Label} (inv : Resending cfg h s)
    (label : s.pc = .d ∨ s.pc = .i) (ready : l = .d2 ∨ l = .i2) :
    Resending cfg h (if (readInput cfg opened s).1 ≠ 0 then (readInput cfg opened s).2.fail 2 .b
      else (readInput cfg opened s).2.goto l) := by
  have place : s.pc ≠ .sendppm ∧ ¬ s.pc.Ends := by
    rcases label with label | label <;> rw [label] <;> exact ⟨by decide, id⟩
  have page : (∀ page, s.nextPage < page → passes h page = 0) ∧ passes h s.nextPage < nTxRetry ∧
      (isLast cfg.queue s.nextPage → passes h s.nextPage ≤ s.pagetry) := by
    unfold Call.nextPage
    cases dp : s.dp with
    | false =>
      have unconfirmed : s.Unconfirmed := .inr dp
      exact ⟨inv.ahead, inv.again unconfirmed place.1 place.2, inv.tried unconfirmed⟩
    | true =>
      have none : passes h (s.p + 1) = 0 := inv.ahead _ (Nat.lt_succ_self _)
      rw [nextipage_next, none]
      exact ⟨fun page after => inv.ahead page (by omega), by decide, fun _ => Nat.zero_le _⟩
  obtain ⟨ahead, again, tried⟩ := page
  split
  · exact ⟨ahead, fun _ _ goesOn => absurd trivial goesOn, fun _ => tried, (fun toT => nomatch toT),
      fun held => held.elim⟩
  · rename_i ok
    refine ⟨ahead, fun _ _ _ => again, fun _ => tried, fun toT => ?_, fun _ => ?_⟩
    · rcases ready with rfl | rfl <;> cases toT
    · obtain ⟨inQueue, ppm⟩ := rdpage_ok (of_not_not ok)
      rw [isLast_iff]
      exact ppm.trans ⟨fun eq => Nat.le_of_eq eq.symm, fun le => Nat.le_antisymm inQueue le⟩

theorem passes_passed (h : List TxEvent) (page : Nat) :
    passes (h ++ [.passed page]) page = passes h page + 1 := by
  unfold passes
  rw [List.count_append]
  simp

/-- `I_2` passes the page at hand to `send_data`, at most. -/
theorem Resending.i2 (inv : Resending cfg h s) (label : s.pc = .i2)
    (only : es = [] ∨ es = [.passed s.p]) :
    Resending cfg (h ++ es) (s.stepI2 cfg input).1 := by
  have unconfirmed : s.Unconfirmed := .inl (by rw [label]; trivial)
  have once : passes (h ++ es) s.p ≤ passes h s.p + 1 := by
    rcases only with rfl | rfl
    · rw [List.append_nil]
      exact Nat.le_succ _
    · exact Nat.le_of_eq (passes_passed h s.p)
  refine ⟨fun page after => ?_, fun _ elsewhere => absurd rfl elsewhere, fun _ isLast => ?_,
    fun toT => (nomatch toT), fun _ => ?_⟩
  · have other : .passed page ∉ es := by
      rcases only with rfl | rfl
      · exact List.not_mem_nil
      · intro mem
        have same := TxEvent.passed.inj (List.mem_singleton.1 mem)
        exact absurd after (same ▸ Nat.lt_irrefl _)
    rw [passes_append_of_notMem other]
    exact inv.ahead page after
  · exact once.trans (Nat.succ_le_succ (inv.tried unconfirmed isLast))
  · have held : s.ppm = .eop ↔ lastpage cfg s := inv.last (by rw [label]; trivial)
    show (if lastpage cfg s then Frame.eop else s.ppm) = .eop ↔ lastpage cfg s
    split
    · rename_i isLast
      exact iff_of_true rfl isLast
    · exact held

theorem ppm_of_afterPpm_t (toT : s.afterPpm = .t) : s.ppm = .eom := by
  unfold afterPpm at toT
  split at toT
  case h_6 => split at toT <;> cases toT
  case h_7 => split at toT <;> cases toT
  case h_8 => split at toT <;> cases toT
  all_goals first | assumption | cases toT

/-- A last page that is asked for once more with RTN is sent again only while `pagetry` allows it. -/
theorem ends_of_eop (eop : s.ppm = .eop) (rtn : s.frame = .rtn) (tried : nTxRetry ≤ s.pagetry) :
    s.repeatPage.leavePpm.pc.Ends := by
  have noRetry : ¬ s.pagetry < nTxRetry := Nat.not_lt.2 tried
  simp [leavePpm, afterPpm, repeatPage, eop, rtn, noRetry, Label.Ends]

/-- The page at hand is asked for once more. -/
theorem Resending.reject (inv : Resending cfg h s) (label : s.pc = .sendppm)
    (rejects : input.answer.getfr.Rejects) (allowed : ¬ Resends h s input) :
    Resending cfg h (s.awaitPpm input).repeatPage.leavePpm := by
  have hasPage : s.pc.HasPage := by rw [label]; trivial
  have p : (s.awaitPpm input).repeatPage.leavePpm.p = s.p := by
    refine if_neg fun last => ?_
    rcases rejects with frame | frame <;> simp [repeatPage, awaitPpm, getfr, frame] at last
  have tried := inv.tried (.inl hasPage)
  refine ⟨?_, fun _ _ goesOn => ?_, fun _ => ?_, fun toT _ => ?_, fun held => absurd held leavePpm_free⟩
  · rw [p]
    exact inv.ahead
  · rw [p]
    by_contra spent
    have spent' : nTxRetry ≤ passes h s.p := Nat.le_of_not_lt spent
    rcases rejects with pin | rtn
    · exact allowed ⟨label, spent', .inl pin⟩
    · by_cases eop : s.ppm = .eop
      · have enough : nTxRetry ≤ s.pagetry := spent'.trans (tried ((inv.last hasPage).1 eop))
        exact goesOn (ends_of_eop (s := s.awaitPpm input) eop rtn enough)
      · exact allowed ⟨label, spent', .inr ⟨rtn, eop⟩⟩
  · rw [p]
    exact tried
  · rw [p]
    intro isLast
    have eom : s.ppm = .eom := ppm_of_afterPpm_t (s := (s.awaitPpm input).repeatPage) toT
    have eop := (inv.last hasPage).2 isLast
    rw [eom] at eop
    cases eop

theorem Resending.sendppm (retries : cfg.noretry = false) (inv : Resending cfg h s)
    (label : s.pc = .sendppm) (allowed : ¬ Resends h s input) :
    Resending cfg (h ++ (txStep cfg input s).2) (txStep cfg input s).1 := by
  rcases txStep_sendppm input retries label with ⟨state, acked⟩ | ⟨none, state⟩
  · have same : ∀ page, passes (h ++ [.acked s.p]) page = passes h page :=
      fun page => passes_append_of_notMem (by simp)
    have moved : s.p ≤ (s.awaitPpm input).countPage.leavePpm.p := by
      unfold leavePpm
      dsimp only
      split
      · exact Nat.le_succ _
      · exact Nat.le_refl _
    have confirmed : ¬ (s.awaitPpm input).countPage.leavePpm.Unconfirmed := by
      rintro (held | repeated)
      · exact leavePpm_free held
      · cases repeated
    rw [state, acked]
    refine ⟨fun page after => ?_, fun page => absurd page confirmed, fun page => absurd page confirmed,
      fun _ repeated => (nomatch repeated), fun held => absurd held leavePpm_free⟩
    rw [same]
    exact inv.ahead page (Nat.lt_of_le_of_lt moved after)
  · rw [none, List.append_nil]
    have hasPage : s.pc.HasPage := by rw [label]; trivial
    rcases state with eq | eq | eq | ⟨rejects, eq⟩
    · rw [eq]
      exact inv.keep ⟨rfl, rfl, rfl⟩ rfl (fun toT => nomatch toT) (fun _ => hasPage) fun elsewhere =>
        absurd rfl elsewhere
    · rw [eq]
      exact inv.keep ⟨rfl, rfl, rfl⟩ rfl (fun toT => nomatch toT) (fun _ => hasPage) fun _ goesOn =>
        absurd trivial goesOn
    · rw [eq]
      exact inv.keep ⟨rfl, rfl, rfl⟩ rfl (fun toT => nomatch toT) (fun _ => hasPage) fun _ goesOn =>
        absurd trivial goesOn
    · rw [eq]
      exact inv.reject label rejects allowed

/-- `T` gives the page at hand all its attempts back; it is not the last. -/
theorem Resending.t (inv : Resending cfg h s) (label : s.pc = .t) :
    Resending cfg h (step cfg input s).1 := by
  have kept := kept_step cfg s input (by rw [label]; decide)
  have plain := plain_step cfg s input (by rw [label]; decide)
  have noEnd : ¬ s.pc.Ends := by rw [label]; exact id
  have repeated : (step cfg input s).1.Unconfirmed → s.dp = false := by
    rintro (held | repeated)
    · exact absurd held plain.1
    · exact kept.dp ▸ repeated
  refine ⟨?_, fun page _ _ => ?_, fun page isLast => ?_,
    fun toT => absurd toT (step_notT cfg s input (by rw [label]; decide)),
      fun held => absurd held plain.1⟩
  · rw [kept.p]
    exact inv.ahead
  · rw [kept.p]
    exact inv.again (.inr (repeated page)) (by rw [label]; decide) noEnd
  · rw [kept.p] at isLast ⊢
    rw [inv.fresh label (repeated page) isLast]
    exact Nat.zero_le _

theorem resending_step (retries : cfg.noretry = false) (inv : Resending cfg h s)
    (allowed : ¬ Resends h s input) :
    Resending cfg (h ++ (txStep cfg input s).2) (txStep cfg input s).1 := by
  cases label : s.pc with
  | i2 =>
    have moved : (txStep cfg input s).1 = (s.stepI2 cfg input).1 := by simp only [txStep, step, label]
    rw [moved]
    exact inv.i2 label (txStep_i2 cfg input label)
  | sendppm => exact inv.sendppm retries label allowed
  | d2 =>
    have kept : Kept s (txStep cfg input s).1 := kept_step cfg s input (by rw [label]; decide)
    have pagetry : (txStep cfg input s).1.pagetry = s.pagetry :=
      pagetry_step cfg s input (by rw [label]; decide)
    have notT : (txStep cfg input s).1.pc ≠ .t := step_notT cfg s input (by rw [label]; decide)
    have next := inv.keep kept pagetry notT (fun _ => by rw [label]; trivial)
      fun _ _ => by rw [label]; exact ⟨by decide, id⟩
    have same : ∀ page, passes (h ++ s.trainings cfg input) page = passes h page := by
      intro page
      refine passes_append_of_notMem fun mem => ?_
      rcases trainings_cases cfg s input with ⟨-, eq, -⟩ | ⟨eq, -⟩ | ⟨eq, -⟩ <;> simp [eq] at mem
    rw [txStep_d2 label]
    exact ⟨fun page => same page ▸ next.ahead page, same _ ▸ next.again, same _ ▸ next.tried,
      same _ ▸ next.fresh, next.last⟩
  | d =>
    rw [txStep_quiet (by rw [label]; decide), List.append_nil]
    have moved : (txStep cfg input s).1 = (s.stepD cfg input).1 := by simp only [txStep, step, label]
    rw [moved]
    exact inv.read (.inl label) (.inl rfl)
  | i =>
    rw [txStep_quiet (by rw [label]; decide), List.append_nil]
    have moved : (txStep cfg input s).1 = (s.stepI cfg input).1 := by simp only [txStep, step, label]
    rw [moved]
    exact inv.read (.inr label) (.inr rfl)
  | t =>
    rw [txStep_quiet (by rw [label]; decide), List.append_nil]
    exact inv.t label
  | _ =>
    have kept : Kept s (txStep cfg input s).1 := kept_step cfg s input (by rw [label]; decide)
    have pagetry : (txStep cfg input s).1.pagetry = s.pagetry :=
      pagetry_step cfg s input (by rw [label]; decide)
    have plain := plain_step cfg s input (by rw [label]; decide)
    have notT : (txStep cfg input s).1.pc ≠ .t := step_notT cfg s input (by rw [label]; decide)
    rw [txStep_quiet (by rw [label]; decide), List.append_nil]
    exact inv.keep kept pagetry notT (fun held => absurd held plain.1)
      fun _ goesOn => ⟨by rw [label]; decide, fun ends => goesOn (plain.2 ends)⟩

/-! ## The bounds -/

theorem falling_step (inv : Falling h s) (free : ¬ Stuck cfg s input) (keeps : ¬ Restores h s) :
    Falling (h ++ (txStep cfg input s).2) (txStep cfg input s).1 := by
  by_cases label : s.pc = .d2
  · have moved : (txStep cfg input s).1 = (s.stepD2 cfg input).1 := by simp only [txStep, step, label]
    rw [txStep_d2 label, moved]
    exact inv.d2 label free
  · refine inv.away label ?_ keeps
    rw [txStep, if_neg label]
    exact pagesOnly_tx _

theorem bounded_step (retries : cfg.noretry = false) (falling : Falling h s)
    (resending : Resending cfg h s) (bounded : Always Bounded h) :
    Always Bounded (h ++ (txStep cfg input s).2) := by
  cases label : s.pc with
  | d2 =>
    have noEnd : ¬ s.pc.Ends := by rw [label]; exact id
    have lower : Bounded h (.training s.trainingRate) := fun failed pending =>
      ((falling.below failed pending).resolve_left noEnd).2
    have trained : Always Bounded (h ++ [.training s.trainingRate]) := always_snoc.2 ⟨bounded, lower⟩
    rw [txStep_d2 label]
    rcases trainings_cases cfg s input with ⟨-, eq, -⟩ | ⟨eq, -⟩ | ⟨eq, -⟩
    · rwa [eq, List.append_nil]
    · rwa [eq]
    · rw [eq, List.append_cons]
      refine always_snoc.2 ⟨trained, ?_⟩
      have valid := rung_lt (isRate_trainingRate s)
      have count := falling.count.resolve_right fun ends => noEnd ends.1
      show fttCount _ < 8
      rw [fttCount_training]
      omega
  | i2 =>
    rcases txStep_i2 cfg input label with eq | eq
    · rwa [eq, List.append_nil]
    · rw [eq]
      refine always_snoc.2 ⟨bounded, fun _ => ?_⟩
      exact resending.again (.inl (by rw [label]; trivial)) (by rw [label]; decide) (by rw [label]; exact id)
  | sendppm =>
    rcases txStep_sendppm input retries label with ⟨-, eq⟩ | ⟨eq, -⟩
    · rw [eq]
      exact always_snoc.2 ⟨bounded, trivial⟩
    · rwa [eq, List.append_nil]
  | _ => rwa [txStep_quiet (by rw [label]; decide), List.append_nil]

/-- The steps after which neither the rates nor the attempts for a page are bounded. -/
def Unbounded (cfg : Config) (h : List TxEvent) (s : Call) (input : Input) : Prop :=
  Stuck cfg s input ∨ Restores h s ∨ Resends h s input

instance (cfg : Config) (h : List TxEvent) (s : Call) (input : Input) :
    Decidable (Unbounded cfg h s input) :=
  inferInstanceAs (Decidable (_ ∨ _ ∨ _))

/-- In a run without such steps every training after an FTT is further down the chain of rates, FTT is
accepted at most eight times, and a page is passed to `send_data` at most `NTXRETRY` times before it is
acknowledged. -/
theorem retransmission_bounded {loc : Cap} {good : Bool} (retries : cfg.noretry = false)
    (run : Runs (txStep cfg) (fun h s input => ¬ Unbounded cfg h s input) (start cfg loc good) h s) :
    Always Bounded h := by
  have initial : Falling [] (start cfg loc good) ∧ Resending cfg [] (start cfg loc good) := by
    refine ⟨⟨.inl (Nat.zero_le _), fun _ pending => nomatch pending⟩, fun _ _ => rfl,
      fun _ _ _ => Nat.zero_lt_succ 2,
      fun _ _ => Nat.zero_le _, fun _ _ _ => rfl, fun held => ?_⟩
    simp only [start] at held
    split at held <;> exact held.elim
  have inv : Always Bounded h ∧ Falling h s ∧ Resending cfg h s := by
    refine run.invariant (P := fun h s => Always Bounded h ∧ Falling h s ∧ Resending cfg h s)
      ⟨always_nil, initial⟩ ?_
    rintro h s input ⟨bounded, falling, resending⟩ allowed
    obtain ⟨free, keeps, allowed⟩ := not_or.1 allowed |>.imp_right not_or.1
    exact ⟨bounded_step retries falling resending bounded, falling_step falling free keeps,
      resending_step retries resending allowed⟩
  exact inv.1

/-- A local fax with a rate, and otherwise the default capabilities. -/
def capOfRate (rate : Int) : Cap := Function.update defCap .br rate

/-- The DIS of a remote fax that receives at 14400 bps. -/
def dis14400 : Input := { answered 0x01 with answer := .frame 0x01 [0x00, 0x34, 0x00] }

/-- The inputs of `T` to `D` after this DIS, and a list of answers. -/
def connected (answers : List Nat) : List Input :=
  [dis14400, answered 0, answered 0] ++ answers.map answered

/-- The first training is answered with FTT and the first of two pages with RTN once. -/
def oneOfEach : List Input :=
  connected [0x22, 0x21, 0, 0x32, 0, 0x21, 0, 0x31, 0, 0, 0x31, 0, 0]

theorem retransmission_bounded_two :
    Always Bounded (feed (txStep (sending 2)) oneOfEach [] (start (sending 2) (capOfRate 5) false)).1 :=
  retransmission_bounded rfl
    (Runs.refl.feed (by decide : Allowed (txStep (sending 2)) (fun h s input =>
      ¬ Unbounded (sending 2) h s input) oneOfEach [] (start (sending 2) (capOfRate 5) false)))

/-- The first of two pages is answered with RTN each time. -/
def alwaysRtn : List Input :=
  connected [0x21, 0, 0x32, 0, 0x21, 0, 0x32, 0, 0x21, 0, 0x32, 0, 0x21, 0]

/-- RTN makes the transmitter send a page a fourth time. -/
theorem page_resent : ¬ ∀ (cfg : Config) (loc : Cap) (good : Bool) (h : List TxEvent) (s : Call),
    cfg.noretry = false → Runs (txStep cfg) (fun _ _ _ => True) (start cfg loc good) h s →
      Always Bounded h := by
  intro claim
  have bounded := claim (sending 2) defCap false _ _ rfl (runs_feed _ alwaysRtn _)
  exact absurd bounded (by decide +kernel)

/-- At 12000 bps the training after FTT is at the same rate again. -/
example : ¬ Always Bounded (feed (txStep (sending 1)) (connected [0x22, 0x22]) []
    (start (sending 1) (capOfRate 4) false)).1 := by
  decide

/-- A DIS after the first FTT allows nine of them. -/
example : ¬ Always Bounded (feed (txStep (sending 1))
    (connected [0x22] ++ connected [0x22, 0x22, 0x22, 0x22, 0x22, 0x22, 0x22, 0x22]) []
    (start (sending 1) (capOfRate 5) false)).1 := by
  decide

end QFax.Efax

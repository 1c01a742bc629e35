import QFax.Efax.PageOrder

/-!
# When a sending call succeeds

`c1sndrcv` returns an error on most ways out.  What has been confirmed is followed here along the error
variable: while it is zero, every counted page has been passed to `send_data`, and the labels that end
the call are reached only with all pages counted.
-/

namespace QFax.Efax

open Machine Call

/-- Every counted page has been passed to `send_data`. -/
def Passed (h : List Event) : Prop := ∀ page < (ackedPages h).length, .sendData page ∈ h

/-- All pages are counted, and passed to `send_data`. -/
def AllDone (cfg : Config) (h : List Event) : Prop :=
  cfg.queue.length ≤ (ackedPages h).length ∧ Passed h

/-- What has been confirmed at each label. -/
def Confirmed (cfg : Config) (h : List Event) (s : Call) : Prop :=
  match s.pc with
  | .f | .f2 | .getdata | .reGetdata => AllDone cfg h
  | .r | .rLoop | .c | .b | .done => s.err = 0 → AllDone cfg h
  | .cTimeout => True
  | .sendppm => s.err = 0 → Passed h ∧ .sendData s.p ∈ h
  | _ => s.err = 0 → Passed h

variable {cfg : Config} {h es : List Event} {s s' : Call}

theorem Passed.append (passed : Passed h) (noAck : ackedPages es = []) : Passed (h ++ es) := by
  intro page counted
  rw [ackedPages_append, noAck, List.append_nil] at counted
  exact List.mem_append_left _ (passed page counted)

theorem AllDone.append (done : AllDone cfg h) (noAck : ackedPages es = []) :
    AllDone cfg (h ++ es) := by
  refine ⟨?_, done.2.append noAck⟩
  rw [ackedPages_append, noAck, List.append_nil]
  exact done.1

theorem Passed.count {page : Nat} (passed : Passed h) (ppm : Frame) (noAck : ackedPages es = [])
    (next : page = (ackedPages h).length) (sent : .sendData page ∈ h) :
    Passed (h ++ (es ++ [.acked page ppm])) ∧
      (ackedPages (h ++ (es ++ [.acked page ppm]))).length = page + 1 := by
  have length : (ackedPages (h ++ (es ++ [.acked page ppm]))).length = page + 1 := by
    rw [ackedPages_append, ackedPages_append, noAck, List.nil_append, List.length_append, ← next]
    rfl
  refine ⟨fun q counted => List.mem_append_left _ ?_, length⟩
  rw [length] at counted
  rcases Nat.lt_succ_iff_lt_or_eq.1 counted with before | rfl
  · exact passed q (next ▸ before)
  · exact sent

/-- The labels of the receiver after `R`. -/
def Label.Receives : Label → Prop
  | .f | .f2 | .getdata | .reGetdata => True
  | _ => False

/-- The labels of the transmitter other than `sendppm`. -/
def Label.Sends : Label → Prop
  | .t | .a | .d | .d2 | .i | .i2 | .e => True
  | _ => False

/-- Nothing more is needed once all is done. -/
theorem AllDone.confirmed (done : s.err = 0 ∨ s.pc.Receives → AllDone cfg h) (away : s.pc ≠ .sendppm) :
    Confirmed cfg h s := by
  unfold Confirmed
  split
  case h_11 label => exact absurd label away
  case h_10 => trivial
  case h_12 => exact fun noErr => (done (.inl noErr)).2
  all_goals rename_i label
  all_goals first
    | exact fun noErr => done (.inl noErr)
    | exact done (.inr (by rw [label]; trivial))

/-- An error counts for a confirmation, except while a command is awaited. -/
theorem confirmed_of_err (err : s.err ≠ 0) (away : ¬ s.pc.Receives) : Confirmed cfg h s := by
  by_cases label : s.pc = .sendppm
  · unfold Confirmed
    rw [label]
    exact fun noErr => absurd noErr err
  · exact AllDone.confirmed (fun or => (or.elim err away).elim) label

theorem Passed.confirmed (passed : s.err = 0 → Passed h) (sends : s.pc.Sends) :
    Confirmed cfg h s := by
  unfold Confirmed
  cases label : s.pc <;> rw [label] at sends <;> first | exact passed | exact sends.elim

/-! ## Steps -/

/-- The error is not cleared at `D_2`. -/
theorem stepD2_err {input : Input} (noErr : (s.stepD2 cfg input).1.err = 0) : s.err = 0 := by
  unfold stepD2 at noErr
  dsimp only at noErr
  have sent : ((s.negotiate.sendDcs cfg input).1.awaitDcs input).err =
      (s.negotiate.sendDcs cfg input).1.err := by
    unfold awaitDcs
    split <;> rfl
  split at noErr
  · rw [goto_err, sent] at noErr
    exact (unlessErr_eq_zero.1 (unlessErr_eq_zero.1 (unlessErr_eq_zero.1 noErr).1).1).1
  · rename_i answered
    have noErr' := of_not_not (not_or.1 answered).1
    rw [sent] at noErr'
    exact (unlessErr_eq_zero.1 (unlessErr_eq_zero.1 (unlessErr_eq_zero.1 noErr').1).1).1

/-- The call ends after a post-page message only when the page was the last one, and it was confirmed or
rejected too often. -/
theorem afterPpm_ends (ends : s.afterPpm = .r ∨ s.afterPpm = .c) :
    s.ppm = .eop ∧ ((s.frame = .mcf ∨ s.frame = .rtp) ∨ s.frame = .rtn ∧ s.retry = false) := by
  unfold afterPpm at ends
  split at ends
  case h_6 ppm frame => exact ⟨ppm, .inl (.inl frame)⟩
  case h_7 ppm frame => exact ⟨ppm, .inl (.inr frame)⟩
  case h_8 ppm frame =>
    refine ⟨ppm, .inr ⟨frame, ?_⟩⟩
    split at ends
    · simp at ends
    · rename_i last
      exact Bool.eq_false_iff.2 last
  all_goals simp at ends

/-- The first frame is neither DIS nor a timeout, or the last page is rejected after the last try. -/
def Abandons (s : Call) (input : Input) : Prop :=
  s.err = 0 ∧
    (s.pc = .t ∧ input.answer.getfr.positive ∧ input.answer.getfr ≠ .dis ∧ input.answer.getfr ≠ .dtc ∨
      s.pc = .sendppm ∧ input.put = 0 ∧ s.ppm = .eop ∧ input.answer.getfr = .rtn ∧
        nTxRetry ≤ s.pagetry)

instance (s : Call) (input : Input) : Decidable (Abandons s input) :=
  inferInstanceAs (Decidable (_ ∧ _))

theorem confirmed_t {input : Input} (inv : Confirmed cfg h s) (label : s.pc = .t)
    (goesOn : ¬ Abandons s input) : Confirmed cfg h (s.stepT input).1 := by
  have passed : s.err = 0 → Passed h := by
    unfold Confirmed at inv
    rwa [label] at inv
  unfold stepT
  dsimp only
  split
  · exact confirmed_of_err (Nat.succ_ne_zero 2) id
  · rename_i positive
    split
    · rename_i other
      refine confirmed_of_err (fun noErr => goesOn ?_) id
      exact ⟨noErr, .inl ⟨label, of_not_not positive, other⟩⟩
    · exact Passed.confirmed passed trivial

theorem confirmed_leavePpm (passed : s.err = 0 → Passed h)
    (ends : s.afterPpm = .r ∨ s.afterPpm = .c → s.err = 0 → AllDone cfg h) :
    Confirmed cfg h s.leavePpm := by
  have jumps := afterPpm_mem (s := s)
  have label : s.leavePpm.pc = s.afterPpm := rfl
  simp only [List.mem_cons, List.not_mem_nil, or_false] at jumps
  unfold Confirmed
  rw [label]
  rcases jumps with jump | jump | jump | jump | jump | jump <;> rw [jump]
  case inr.inr.inr.inl => exact ends (.inl jump)
  case inr.inr.inr.inr.inl => exact ends (.inr jump)
  all_goals exact passed

theorem confirmed_sendppm (retries : cfg.noretry = false) {input : Input} (paged : Paged cfg h s)
    (inv : Confirmed cfg h s) (label : s.pc = .sendppm) (goesOn : ¬ Abandons s input) :
    Confirmed cfg (h ++ (s.stepSendppm cfg input).2) (s.stepSendppm cfg input).1 := by
  have passed : s.err = 0 → Passed h ∧ .sendData s.p ∈ h := by
    unfold Confirmed at inv
    rwa [label] at inv
  obtain ⟨position, inQueue, ppm⟩ := paged.located.held (by rw [label]; trivial)
  rcases stepSendppm_cases s retries input with
    ⟨confirms, eq⟩ | ⟨-, events, (eq | eq) | ⟨rejects, eq⟩ | eq⟩
  · rw [eq]
    have ack : (Event.sent s.ppm s.disbit []).acked? = none := rfl
    have counted (noErr : (s.awaitPpm input).err = 0) :=
      (passed (unlessErr_eq_zero.1 noErr).1).1.count s.ppm (unlessEvent_noAck s.err ack) position
        (passed (unlessErr_eq_zero.1 noErr).1).2
    refine confirmed_leavePpm (fun noErr => (counted noErr).1) fun ends noErr => ⟨?_, (counted noErr).1⟩
    rw [(counted noErr).2, position]
    exact Nat.le_of_eq (ppm.1 (afterPpm_ends ends).1).symm
  all_goals rw [eq, events]
  · intro noErr
    obtain ⟨before, sent⟩ := passed (unlessErr_eq_zero.1 noErr).1
    exact ⟨before.append (unlessEvent_noAck _ rfl), List.mem_append_left _ sent⟩
  · trivial
  · refine confirmed_leavePpm
      (fun noErr => (passed (unlessErr_eq_zero.1 noErr).1).1.append (unlessEvent_noAck _ rfl))
      fun ends noErr => (goesOn ?_).elim
    obtain ⟨noErr', put⟩ := unlessErr_eq_zero.1 noErr
    obtain ⟨last, frame | ⟨frame, retry⟩⟩ := afterPpm_ends ends
    · exact (rejects.not_confirms (frame.imp_right .inl)).elim
    · exact ⟨noErr', .inr ⟨label, put, last, frame, Nat.le_of_not_lt (of_decide_eq_false retry)⟩⟩
  · exact confirmed_of_err (Nat.succ_ne_zero 2) id

theorem confirmed_receiver (done : AllDone cfg h) (noAck : ackedPages es = [])
    (away : s'.pc ≠ .sendppm) : Confirmed cfg (h ++ es) s' :=
  AllDone.confirmed (fun _ => done.append noAck) away

theorem confirmed_read {opened : Bool} {l : Label} (passed : s.err = 0 → Passed h)
    (sends : l.Sends) : Confirmed cfg h (if (readInput cfg opened s).1 ≠ 0 then
      (readInput cfg opened s).2.fail 2 .b else (readInput cfg opened s).2.goto l) := by
  split
  · exact confirmed_of_err (Nat.succ_ne_zero 1) id
  · exact Passed.confirmed passed sends

theorem confirmed_d2 {input : Input} (passed : s.err = 0 → Passed h) :
    Confirmed cfg h (s.stepD2 cfg input).1 := by
  have passed' : (s.stepD2 cfg input).1.err = 0 → Passed h := fun noErr => passed (stepD2_err noErr)
  rcases stepD2_cases cfg s input with d2 | timeout | ⟨-, ⟨a, -⟩ | ⟨c, err⟩ | i2⟩
  · exact Passed.confirmed passed' (by rw [d2]; trivial)
  · unfold Confirmed
    rw [timeout]
    trivial
  · exact Passed.confirmed passed' (by rw [a]; trivial)
  · exact confirmed_of_err err (by rw [c]; exact id)
  · exact Passed.confirmed passed' (by rw [i2]; trivial)

theorem confirmed_rLoop {input : Input} (done : s.err = 0 → AllDone cfg h) (label : s.pc = .rLoop) :
    Confirmed cfg (h ++ (step cfg input s).2) (step cfg input s).1 := by
  have jump : (step cfg input s).1.pc ∈ s.pc.targets := step_targets input
  have noAck := (quiet_step cfg s input (by rw [label]; decide)).noAck
  by_cases err : s.err = 0
  · refine confirmed_receiver (done err) noAck fun away => ?_
    rw [away, label] at jump
    simp [Label.targets] at jump
  · simp only [Call.step, label, stepRLoop]
    rw [if_neg fun sent => err sent.1, if_pos err]
    exact confirmed_of_err err id

/-- One step of a call with pages to send that neither skips a page nor abandons the call. -/
theorem Confirmed.step (retries : cfg.noretry = false) (pages : 0 < cfg.pages) {input : Input}
    (paged : Paged cfg h s) (goesOn : ¬ Abandons s input) (inv : Confirmed cfg h s) :
    Confirmed cfg (h ++ (step cfg input s).2) (step cfg input s).1 := by
  have noAck (away : s.pc ≠ .i2 ∧ s.pc ≠ .sendppm) := (quiet_step cfg s input away).noAck
  have jump : (Call.step cfg input s).1.pc ∈ s.pc.targets := step_targets input
  have passed (sends : s.pc.Sends) : s.err = 0 → Passed h := by
    unfold Confirmed at inv
    cases label : s.pc <;> rw [label] at sends inv <;> first | exact inv | exact sends.elim
  cases label : s.pc with
  | t =>
    have now : Confirmed cfg h (s.stepT input).1 := confirmed_t inv label goesOn
    simp only [Call.step, label]
    rwa [stepT, List.append_nil]
  | a =>
    have passed := passed (by rw [label]; trivial)
    simp only [Call.step, label, stepA, if_pos pages, List.append_nil]
    refine Passed.confirmed (fun noErr => passed ?_) trivial
    rw [goto_err] at noErr
    split at noErr <;> exact noErr
  | d =>
    simp only [Call.step, label, stepD, List.append_nil]
    exact confirmed_read (passed (by rw [label]; trivial)) trivial
  | i =>
    simp only [Call.step, label, stepI, List.append_nil]
    exact confirmed_read (passed (by rw [label]; trivial)) trivial
  | d2 =>
    have noAck := noAck (by rw [label]; decide)
    simp only [Call.step, label] at noAck ⊢
    exact confirmed_d2 fun noErr => (passed (by rw [label]; trivial) noErr).append noAck
  | i2 =>
    have passed := passed (by rw [label]; trivial)
    simp only [Call.step, label]
    intro noErr
    obtain ⟨⟨noErr1, -⟩, -⟩ := (unlessErr_eq_zero.1 noErr).imp_left unlessErr_eq_zero.1
    refine ⟨(passed (unlessErr_eq_zero.1 noErr1).1).append (unlessEvent_noAck _ rfl), ?_⟩
    exact List.mem_append_right _ (mem_unlessEvent.2 ⟨noErr1, rfl⟩)
  | sendppm =>
    simp only [Call.step, label]
    exact confirmed_sendppm retries paged inv label goesOn
  | e =>
    simp only [Call.step, label, stepE, List.append_nil]
    exact Passed.confirmed (passed (by rw [label]; trivial)) trivial
  | f | f2 | getdata | reGetdata =>
    have done : AllDone cfg h := by
      unfold Confirmed at inv
      rwa [label] at inv
    refine confirmed_receiver done (noAck (by rw [label]; decide)) fun away => ?_
    rw [away, label] at jump
    simp [Label.targets] at jump
  | r =>
    have noAck := noAck (by rw [label]; decide)
    simp only [Call.step, label] at noAck ⊢
    unfold Confirmed at inv
    rw [label] at inv
    exact fun noErr => (inv (unlessErr_eq_zero.1 noErr).1).append noAck
  | rLoop =>
    refine confirmed_rLoop ?_ label
    unfold Confirmed at inv
    rwa [label] at inv
  | c | b =>
    have noAck := noAck (by rw [label]; decide)
    simp only [Call.step, label] at noAck ⊢
    unfold Confirmed at inv
    rw [label] at inv
    exact fun noErr => (inv noErr).append noAck
  | cTimeout =>
    simp only [Call.step, label, stepCTimeout, List.append_nil]
    exact confirmed_of_err (Nat.succ_ne_zero 2) id
  | done =>
    simp only [Call.step, label, List.append_nil]
    exact inv

/-! ## The result of a call -/

/-- After the return nothing changes any more. -/
def Returned (h : List Event) (s : Call) : Prop :=
  ∀ err, .returned err ∈ h → s.pc = .done ∧ s.err = err

theorem Returned.step {input : Input} (inv : Returned h s) :
    Returned (h ++ (step cfg input s).2) (step cfg input s).1 := by
  intro err mem
  rcases List.mem_append.1 mem with before | now
  · obtain ⟨label, same⟩ := inv err before
    have stays : Call.step cfg input s = (s, []) := by simp only [Call.step, label]
    rw [stays]
    exact ⟨label, same⟩
  · have label := List.mem_singleton.1 (step_events input now)
    simp only [Call.step, label, stepB, List.mem_append, List.mem_singleton] at now
    rcases now with wrpage | same
    · split at wrpage <;> simp at wrpage
    · simp only [Call.step, label]
      exact ⟨rfl, (Event.returned.inj same).symm⟩

theorem confirmed_start {loc : Cap} {good : Bool} (calling : cfg.calling = true) :
    Confirmed cfg [] (start cfg loc good) := by
  refine Passed.confirmed (fun _ page counted => absurd counted (Nat.not_lt_zero page)) ?_
  simp only [start, calling, if_true]
  trivial

/-- A calling run that neither skips a page nor abandons the call returns 0 only when every page has
been passed to `send_data` and confirmed. -/
theorem success_all_confirmed {loc : Cap} {good : Bool} (calling : cfg.calling = true)
    (retries : cfg.noretry = false) (pages : 0 < cfg.pages)
    (run : Runs (step cfg) (fun _ s input => ¬ SkipsPage cfg s input ∧ ¬ Abandons s input)
      (start cfg loc good) h s)
    (success : .returned 0 ∈ h) :
    ∀ page < cfg.queue.length, .sendData page ∈ h ∧ page ∈ ackedPages h := by
  have inv : Paged cfg h s ∧ Confirmed cfg h s ∧ Returned h s := by
    refine run.invariant (P := fun h s => Paged cfg h s ∧ Confirmed cfg h s ∧ Returned h s)
      ⟨paged_start, confirmed_start calling, fun _ mem => nomatch mem⟩ ?_
    rintro h s input ⟨paged, confirmed, returned⟩ ⟨noSkip, goesOn⟩
    exact ⟨paged.step retries noSkip, confirmed.step retries pages paged goesOn, returned.step⟩
  obtain ⟨paged, confirmed, returned⟩ := inv
  obtain ⟨label, noErr⟩ := returned 0 success
  have done : s.err = 0 → AllDone cfg h := by
    unfold Confirmed at confirmed
    rwa [label] at confirmed
  obtain ⟨all, passed⟩ := done noErr
  intro page queued
  have counted := Nat.lt_of_lt_of_le queued all
  refine ⟨passed page counted, ?_⟩
  rw [paged.acked, List.mem_range]
  exact counted

/-- The same two pages, up to the return. -/
def twoConfirmedCall : List Input := twoConfirmed ++ [0, 0].map answered

theorem success_all_confirmed_two :
    let h := (feed (step (sending 2)) twoConfirmedCall [] (start (sending 2) defCap false)).1
    ∀ page < 2, .sendData page ∈ h ∧ page ∈ ackedPages h :=
  success_all_confirmed rfl rfl (by decide)
    (Runs.refl.feed
      (by decide : Allowed (step (sending 2)) _ twoConfirmedCall [] (start _ defCap false)))
    (by decide)

/-- A call to a fax whose first frame is DCN. -/
def hangsUp : List Event × Call :=
  feed (step (sending 1)) ([0x5f, 0, 0].map answered) [] (start (sending 1) defCap false)

/-- A call succeeds without sending its page when the first frame is not DIS. -/
theorem success_unconfirmed : ¬ ∀ (cfg : Config) (loc : Cap) (good : Bool) (h : List Event) (s : Call),
    cfg.calling = true → cfg.noretry = false → 0 < cfg.pages → 0 < cfg.queue.length →
      Runs (step cfg) (fun _ _ _ => True) (start cfg loc good) h s → .returned 0 ∈ h →
        ∀ page < cfg.queue.length, .sendData page ∈ h ∧ page ∈ ackedPages h := by
  intro claim
  have sent := claim (sending 1) defCap false hangsUp.1 hangsUp.2 rfl rfl (by decide) (by decide)
    (runs_feed _ _ _) (by decide) 0 (by decide)
  exact absurd sent.1 (by decide)

end QFax.Efax

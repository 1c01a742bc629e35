import QFax.Efax.Class2

/-!
# The pages of a Class 2 call

`c2sndrcv` counts a page when its variable `good` is set after the try.  The variable keeps its value
when the modem hangs up before the verdict is looked at, and a hang-up report with code zero ends the
loop, or starts a round again, without an error.  Apart from such rounds the pages are counted in
order, each confirmed by the modem, and the call returns 0 only with all of them.
-/

namespace QFax.Efax.Class2

open Machine Sender

variable {cfg : Config} {r : Round} {h es : List Event} {s : Sender}

/-! ## What the modem confirms -/

/-- The modem confirms the page just transmitted: OK after the data in Class 2.0; an odd page transfer
status, or neither a status nor a hang-up report, after `+FET` in Class 2. -/
def Confirms (c20 : Bool) (endData : Answer) (fet : Option Answer) : Prop :=
  if c20 then endData.ok = true
  else match fet with
    | none => False
    | some fet => match fet.fpts with
      | some (some value) => value % 2 = 1
      | some none => False
      | none => fet.hangup = none

instance (c20 : Bool) (endData : Answer) : ∀ fet, Decidable (Confirms c20 endData fet)
  | none => inferInstanceAs (Decidable (if c20 then _ else False))
  | some ⟨_, _, some (some _)⟩ => inferInstanceAs (Decidable (if c20 then _ else _ = _))
  | some ⟨_, _, some none⟩ => inferInstanceAs (Decidable (if c20 then _ else False))
  | some ⟨_, _, none⟩ => inferInstanceAs (Decidable (if c20 then _ else _ = _))

/-- The page of a count. -/
def Event.counted? : Event → Option Nat
  | .counted page => some page
  | _ => none

/-- The pages counted as sent so far. -/
def countedPages (h : List Event) : List Nat := h.filterMap Event.counted?

/-- `e` passes the page to `send_data`. -/
def Event.transmits (page : Nat) : Event → Bool
  | .transmitted q _ _ => q = page
  | _ => false

/-- How often a page was passed to `send_data`. -/
def tries (h : List Event) (page : Nat) : Nat := h.countP (Event.transmits page)

/-- `e` passes the page to `send_data`, and the modem confirms it. -/
def Event.confirms (c20 : Bool) (page : Nat) : Event → Bool
  | .transmitted q endData fet => q = page ∧ Confirms c20 endData fet
  | _ => false

/-- Some transmission of the page was confirmed. -/
def Confirmed (cfg : Config) (h : List Event) (page : Nat) : Prop :=
  h.any (Event.confirms cfg.c20 page) = true

/-- What an event may be after the events before it.  `send_data` gets the page that follows the last
counted one, and each page at most `nTxRetry` times; a page is counted after a transmission of it that
the modem confirms; 0 is returned when every page is confirmed. -/
def Accounts (cfg : Config) (before : List Event) : Event → Prop
  | .transmitted page _ _ => page = following (countedPages before) ∧ tries before page < nTxRetry
  | .counted page => before.getLast?.any (Event.confirms cfg.c20 page) = true
  | .returned err => err = 0 → ∀ page < cfg.queue.length, Confirmed cfg before page

instance (page : Nat) : Decidable (Confirmed cfg h page) := inferInstanceAs (Decidable (_ = true))

instance (cfg : Config) (before : List Event) : ∀ e, Decidable (Accounts cfg before e)
  | .transmitted _ _ _ => inferInstanceAs (Decidable (_ ∧ _))
  | .counted _ => inferInstanceAs (Decidable (_ = true))
  | .returned _ => inferInstanceAs (Decidable (_ → _))

/-! ## Rounds that go wrong -/

/-- A hang-up report that `gethsc` sets no error for: its code is zero, or cannot be read. -/
def Status.quiet : Status → Bool
  | none => false
  | some none => true
  | some (some code) => code ≤ 0

/-- The round gets as far as sending its page, once this is read. -/
def Reaches (r : Round) (s : Sender) : Prop :=
  s.err = 0 ∧ ¬ (s.changed ∧ r.fdis.hangup.isSome) ∧ r.fdt.ok ∧ r.fdt.hangup = none

/-- The modem confirms the page of the round. -/
def RoundConfirms (cfg : Config) (r : Round) (s : Sender) : Prop :=
  Confirms cfg.c20 r.endData (s.fetAnswer cfg r)

/-- A quiet hang-up after `+FDIS` starts the round again, and the next page is read instead. -/
def SkipsPage (cfg : Config) (r : Round) (s : Sender) : Prop :=
  s.err = 0 ∧ s.changed ∧ r.fdis.hangup.quiet ∧ s.dp ∧ s.p + 1 < cfg.queue.length

/-- A quiet hang-up after `+FDT` ends the loop before the page is sent. -/
def EndsBefore (r : Round) (s : Sender) : Prop :=
  s.err = 0 ∧ ¬ (s.changed ∧ r.fdis.hangup.isSome) ∧ r.fdt.ok ∧ r.fdt.hangup.quiet

/-- The verdict is not looked at, or has no number, and `good` is still set from before, although the
modem does not confirm the page. -/
def CountsStale (cfg : Config) (r : Round) (s : Sender) : Prop :=
  Reaches r s ∧ ¬ cfg.c20 ∧ ¬ RoundConfirms cfg r s ∧
    (¬ (s.asks r.endData ∧ s.looks r) ∧ s.good ≠ 0 ∨
      s.asks r.endData ∧ s.looks r ∧ r.fet.fpts = some none ∧ s.good % 2 ≠ 0)

/-- A quiet hang-up at the end of the round ends the loop although a page is left, and nothing else in
the round is an error. -/
def EndsEarly (cfg : Config) (r : Round) (s : Sender) : Prop :=
  Reaches r s ∧ (s.lastAnswer cfg r).hangup.quiet ∧ (¬ cfg.c20 → s.asks r.endData → r.fet.ok) ∧
    ¬ (s.p + 1 = cfg.queue.length ∧ RoundConfirms cfg r s) ∧
    ¬ (nTxRetry ≤ s.pagetry + 1 ∧
      (¬ RoundConfirms cfg r s ∨ ¬ cfg.c20 ∧ ¬ (s.asks r.endData ∧ s.looks r) ∧ s.good = 0))

/-- A round of the loop goes wrong in one of these ways. -/
def GoesWrong (cfg : Config) (r : Round) (s : Sender) : Prop :=
  (s.left = false ∧ s.err = 0 ∧ s.done = false) ∧
    (SkipsPage cfg r (s.read cfg r.opened) ∨ EndsBefore r (s.read cfg r.opened) ∨
      CountsStale cfg r (s.read cfg r.opened) ∨ EndsEarly cfg r (s.read cfg r.opened))

instance : Decidable (Reaches r s) := inferInstanceAs (Decidable (_ ∧ _))

instance : Decidable (RoundConfirms cfg r s) := inferInstanceAs (Decidable (Confirms _ _ _))

instance : Decidable (SkipsPage cfg r s) := inferInstanceAs (Decidable (_ ∧ _))

instance : Decidable (EndsBefore r s) := inferInstanceAs (Decidable (_ ∧ _))

instance : Decidable (CountsStale cfg r s) := inferInstanceAs (Decidable (_ ∧ _))

instance : Decidable (EndsEarly cfg r s) := inferInstanceAs (Decidable (_ ∧ _))

instance : Decidable (GoesWrong cfg r s) := inferInstanceAs (Decidable (_ ∧ _))

/-! ## Hang-up reports -/

/-- The page at hand and its tries are unchanged, and so is the loop. -/
structure Unmoved (s s' : Sender) : Prop where
  p : s'.p = s.p
  dp : s'.dp = s.dp
  done : s'.done = s.done
  pagetry : s'.pagetry = s.pagetry
  ppm : s'.ppm = s.ppm
  left : s'.left = s.left

theorem Unmoved.trans {s s' s'' : Sender} (first : Unmoved s s') (second : Unmoved s' s'') :
    Unmoved s s'' :=
  ⟨second.p.trans first.p, second.dp.trans first.dp, second.done.trans first.done,
    second.pagetry.trans first.pagetry, second.ppm.trans first.ppm, second.left.trans first.left⟩

theorem unmoved_gethsc (s : Sender) (status : Status) : Unmoved s (s.gethsc status) := by
  cases status <;> exact ⟨rfl, rfl, rfl, rfl, rfl, rfl⟩

@[simp] theorem gethsc_good (status : Status) : (s.gethsc status).good = s.good := by
  cases status <;> rfl

/-- Without an error afterwards, there was none before, and a report is quiet. -/
theorem gethsc_noErr {status : Status} (noErr : (s.gethsc status).err = 0) :
    s.err = 0 ∧ (status.isSome → status.quiet) := by
  cases status with
  | none => exact ⟨noErr, id⟩
  | some code =>
    simp only [gethsc] at noErr
    split at noErr
    · contradiction
    · rename_i quiet
      refine ⟨noErr, fun _ => ?_⟩
      cases code with
      | none => rfl
      | some code =>
        simp only [Option.getD_some, noErr, and_true] at quiet
        exact decide_eq_true (Int.not_lt.1 quiet)

/-! ## One try -/

theorem unmoved_ask (fet : Answer) : Unmoved s (s.ask fet) := by
  have sent : Unmoved s { s with err := if fet.ok then s.err else 3 } := ⟨rfl, rfl, rfl, rfl, rfl, rfl⟩
  exact sent.trans (unmoved_gethsc _ fet.hangup)

theorem ask_good (fet : Answer) : (s.ask fet).good = s.good := gethsc_good fet.hangup

theorem unmoved_endClass2 : Unmoved s (s.endClass2 r) := by
  have asked := (unmoved_gethsc s r.endData.hangup).trans (unmoved_ask r.fet)
  unfold endClass2
  split
  · dsimp only
    split
    · exact asked.trans ⟨rfl, rfl, rfl, rfl, rfl, rfl⟩
    · exact asked
  · exact (unmoved_gethsc _ _).trans (unmoved_gethsc _ _)

/-- What `good` is after a try with a Class 2 modem. -/
theorem endClass2_good : (s.endClass2 r).good =
    if s.asks r.endData ∧ s.looks r then verdict r.fet s.good else s.good := by
  unfold endClass2
  by_cases asks : s.asks r.endData
  · by_cases looks : s.looks r
    · simp [asks, looks, ask_good]
    · simp [asks, looks, ask_good]
  · simp [asks]

theorem endClass2_noErr (noErr : (s.endClass2 r).err = 0) :
    s.err = 0 ∧ (s.asks r.endData → r.fet.ok) := by
  unfold endClass2 at noErr
  split at noErr
  · have asked : ((s.gethsc r.endData.hangup).ask r.fet).err = 0 := by
      dsimp only at noErr
      split at noErr <;> exact noErr
    obtain ⟨sent, -⟩ := gethsc_noErr asked
    dsimp only at sent
    split at sent
    · rename_i ok
      exact ⟨(gethsc_noErr sent).1, fun _ => ok⟩
    · contradiction
  · rename_i silent
    exact ⟨(gethsc_noErr (gethsc_noErr noErr).1).1, fun asks => absurd asks silent⟩

@[simp] theorem asks_tried (endData : Answer) : s.tried.asks endData = s.asks endData := by
  unfold asks gethsc
  cases endData.hangup <;> rfl

@[simp] theorem looks_tried : s.tried.looks r = s.looks r := by
  unfold looks ask gethsc
  cases r.endData.hangup <;> cases r.fet.hangup <;> rfl

theorem unmoved_ended (cfg : Config) (r : Round) (s : Sender) : Unmoved s.tried (s.ended cfg r) := by
  unfold ended
  split
  · exact ⟨rfl, rfl, rfl, rfl, rfl, rfl⟩
  · exact unmoved_endClass2

theorem ended_noErr (noErr : (s.ended cfg r).err = 0) :
    s.err = 0 ∧ (¬ cfg.c20 → s.asks r.endData → r.fet.ok) := by
  unfold ended at noErr
  split at noErr
  · rename_i c20
    exact ⟨noErr, fun away => absurd c20 away⟩
  · obtain ⟨noErr', fet⟩ := endClass2_noErr noErr
    rw [asks_tried] at fet
    exact ⟨noErr', fun _ => fet⟩

/-- The verdict is good for what the modem confirms, and for a stale `good`. -/
theorem confirms_of_verdict {fet : Answer} {good : Int} (endData : Answer)
    (sound : verdict fet good ≠ 0) :
    Confirms false endData (some fet) ∨ fet.fpts = some none ∧ good % 2 ≠ 0 := by
  obtain ⟨ok, hangup, fpts⟩ := fet
  unfold verdict at sound
  match fpts with
  | some (some value) =>
    have odd : value % 2 ≠ 0 := sound
    have confirmed : value % 2 = 1 := by omega
    exact .inl confirmed
  | some none => exact .inr ⟨rfl, sound⟩
  | none =>
    dsimp only at sound
    split at sound
    · contradiction
    · rename_i silent
      exact .inl (Option.not_isSome_iff_eq_none.1 silent)

/-- A page is counted only when the modem confirms it, unless `good` is stale. -/
theorem confirms_of_good (reaches : Reaches r s) (fresh : ¬ CountsStale cfg r s)
    (good : (s.ended cfg r).good ≠ 0) : RoundConfirms cfg r s := by
  by_contra refused
  unfold ended at good
  by_cases c20 : cfg.c20
  · rw [if_pos c20, endClass20] at good
    unfold RoundConfirms Confirms at refused
    rw [if_pos c20] at refused
    exact good (if_neg refused)
  · rw [if_neg c20, endClass2_good, asks_tried, looks_tried] at good
    by_cases looked : s.asks r.endData ∧ s.looks r
    · rw [if_pos looked] at good
      rcases confirms_of_verdict r.endData good with confirmed | ⟨noValue, stale⟩
      · refine refused ?_
        unfold RoundConfirms fetAnswer
        rw [if_pos ⟨c20, looked.1⟩, Bool.eq_false_iff.2 c20]
        exact confirmed
      · exact fresh ⟨reaches, c20, refused, .inr ⟨looked.1, looked.2, noValue, stale⟩⟩
    · rw [if_neg looked] at good
      exact fresh ⟨reaches, c20, refused, .inl ⟨looked, good⟩⟩

/-! ## The end of a round -/

/-- What is left of an error at the end of a round. -/
theorem close_noErr {status : Status} (noErr : (s.close cfg status).err = 0) :
    s.err = 0 ∧ (status.isSome → status.quiet) := gethsc_noErr noErr

theorem close_done {status : Status} : (s.close cfg status).done =
    (s.done || status.isSome || (s.good ≠ 0 && isLast cfg.queue s.p)) := by
  have unmoved := unmoved_gethsc s status
  simp only [close, unmoved.done, unmoved.p, gethsc_good]

theorem close_unmoved (cfg : Config) (s : Sender) (status : Status) : (s.close cfg status).p = s.p ∧
    (s.close cfg status).dp = s.dp ∧ (s.close cfg status).pagetry = s.pagetry := by
  have unmoved := unmoved_gethsc s status
  exact ⟨unmoved.p, unmoved.dp, unmoved.pagetry⟩

theorem judge_good (retries : cfg.noretry = false) (good : s.good ≠ 0) :
    s.judge cfg = (s.countPage, [.counted s.p]) := by
  unfold judge
  rw [retries, if_neg Bool.false_ne_true]
  exact if_pos good

theorem judge_bad (retries : cfg.noretry = false) (bad : s.good = 0) :
    s.judge cfg = (s.repeatPage, []) := by
  unfold judge
  rw [retries, if_neg Bool.false_ne_true]
  exact if_neg (not_not.2 bad)

/-- After a try that counts its page. -/
structure GoodTry (cfg : Config) (r : Round) (s s' : Sender) : Prop where
  pagetry : s'.pagetry = 0
  next : nextipage s'.p s'.dp = s.p + 1 ∨ cfg.queue.length ≤ nextipage s'.p s'.dp
  done : s'.done = true → s.p + 1 = cfg.queue.length ∨ (s.lastAnswer cfg r).hangup.isSome
  noErr : s'.err = 0 → (s.ended cfg r).err = 0 ∧
    ((s.lastAnswer cfg r).hangup.isSome → (s.lastAnswer cfg r).hangup.quiet)

theorem goodTry (retries : cfg.noretry = false) (good : (s.ended cfg r).good ≠ 0)
    (inQueue : s.p < cfg.queue.length) (last : s.ppm = .eop ↔ s.p + 1 = cfg.queue.length)
    (goes : s.done = false) :
    (s.transmit cfg r).2 = [.transmitted s.p r.endData (s.fetAnswer cfg r), .counted s.p] ∧
      GoodTry cfg r s (s.transmit cfg r).1 := by
  obtain ⟨p, dp, done, pagetry, ppm, -⟩ := unmoved_ended cfg r s
  have judged : (s.ended cfg r).judge cfg = ((s.ended cfg r).countPage, [.counted s.p]) := by
    rw [judge_good retries good, p]
    rfl
  have position : (s.ended cfg r).countPage.p = if s.ppm = .eop then s.p + 1 else s.p := by
    simp only [countPage, p, ppm, tried]
  obtain ⟨closedP, closedDp, closedTry⟩ :=
    close_unmoved cfg (s.ended cfg r).countPage (s.lastAnswer cfg r).hangup
  have eq : s.transmit cfg r = ((s.ended cfg r).countPage.close cfg (s.lastAnswer cfg r).hangup,
      [.transmitted s.p r.endData (s.fetAnswer cfg r), .counted s.p]) := by
    unfold transmit
    rw [judged]
  rw [eq]
  refine ⟨rfl, closedTry, ?_, fun ends => ?_, close_noErr⟩
  · rw [closedP, closedDp, position]
    by_cases eop : s.ppm = .eop
    · have length := last.1 eop
      rw [if_pos eop]
      exact .inr (by rw [← length]; exact Nat.le_succ _)
    · rw [if_neg eop]
      exact .inl rfl
  · have doneNow : (s.ended cfg r).countPage.done = (s.ppm = .eop : Bool) := by
      simp only [countPage, done, tried, goes, ppm, Bool.false_or]
    rw [close_done, doneNow, position] at ends
    simp only [Bool.or_eq_true, Bool.and_eq_true, decide_eq_true_eq, isLast_iff] at ends
    rcases ends with (eop | hangup) | ⟨-, atEnd⟩
    · exact .inl (last.1 eop)
    · exact .inr hangup
    · left
      by_cases eop : s.ppm = .eop
      · exact last.1 eop
      · rw [if_neg eop] at atEnd
        omega

/-- After a try that does not count its page. -/
structure BadTry (cfg : Config) (r : Round) (s s' : Sender) : Prop where
  pagetry : s'.pagetry = s.pagetry + 1
  next : nextipage s'.p s'.dp = s.p
  done : s'.done = true → (s.lastAnswer cfg r).hangup.isSome
  noErr : s'.err = 0 → s.pagetry + 1 < nTxRetry ∧ (s.ended cfg r).err = 0 ∧
    ((s.lastAnswer cfg r).hangup.isSome → (s.lastAnswer cfg r).hangup.quiet)

theorem badTry (retries : cfg.noretry = false) (bad : (s.ended cfg r).good = 0)
    (goes : s.done = false) :
    (s.transmit cfg r).2 = [.transmitted s.p r.endData (s.fetAnswer cfg r)] ∧
      BadTry cfg r s (s.transmit cfg r).1 := by
  obtain ⟨p, dp, done, pagetry, ppm, -⟩ := unmoved_ended cfg r s
  obtain ⟨closedP, closedDp, closedTry⟩ :=
    close_unmoved cfg (s.ended cfg r).repeatPage (s.lastAnswer cfg r).hangup
  have eq : s.transmit cfg r = ((s.ended cfg r).repeatPage.close cfg (s.lastAnswer cfg r).hangup,
      [.transmitted s.p r.endData (s.fetAnswer cfg r)]) := by
    unfold transmit
    rw [judge_bad retries bad]
  rw [eq]
  refine ⟨rfl, closedTry.trans pagetry, ?_, fun ends => ?_, fun noErr => ?_⟩
  · rw [closedP, closedDp]
    exact p
  · have goodNow : (s.ended cfg r).repeatPage.good = 0 := bad
    have doneNow : (s.ended cfg r).repeatPage.done = false := done.trans goes
    rw [close_done, doneNow, goodNow] at ends
    simpa using ends
  · obtain ⟨noErr', quiet⟩ := close_noErr noErr
    simp only [repeatPage, pagetry, tried] at noErr'
    split at noErr'
    · contradiction
    · rename_i fewer
      exact ⟨Nat.lt_of_not_le fewer, noErr', quiet⟩

/-! ## The history of a call -/

theorem countedPages_append (h es : List Event) :
    countedPages (h ++ es) = countedPages h ++ countedPages es := List.filterMap_append

theorem tries_append (h es : List Event) (page : Nat) :
    tries (h ++ es) page = tries h page + tries es page := List.countP_append

theorem Confirmed.append {page : Nat} (confirmed : Confirmed cfg h page) (es : List Event) :
    Confirmed cfg (h ++ es) page := by
  unfold Confirmed
  rw [List.any_append, Bool.or_eq_true]
  exact .inl confirmed

theorem confirmed_now {page : Nat} {endData : Answer} {fet : Option Answer}
    (confirms : Confirms cfg.c20 endData fet) (mem : .transmitted page endData fet ∈ es) :
    Confirmed cfg (h ++ es) page :=
  List.any_eq_true.2 ⟨_, List.mem_append_right h mem, decide_eq_true ⟨rfl, confirms⟩⟩

/-- The pages counted, confirmed and tried, and the position in the input files while the loop goes
on. -/
structure Accounted (cfg : Config) (h : List Event) (s : Sender) : Prop where
  counted : countedPages h = List.range (countedPages h).length
  confirmed : ∀ page < (countedPages h).length, Confirmed cfg h page
  untried : ∀ page > (countedPages h).length, tries h page = 0
  goes : s.err = 0 → s.done = false →
    tries h (countedPages h).length = s.pagetry ∧ s.pagetry < nTxRetry ∧
      (nextipage s.p s.dp = (countedPages h).length ∨ cfg.queue.length ≤ nextipage s.p s.dp)
  ended : s.err = 0 → s.done = true → ∀ page < cfg.queue.length, Confirmed cfg h page

/-- A round that sends no page: it goes on with the same page or ends with an error. -/
theorem Accounted.silent (inv : Accounted cfg h s) (s' : Sender)
    (goes : s'.err = 0 → s'.done = false → s'.pagetry = s.pagetry ∧ s.err = 0 ∧ s.done = false ∧
      (nextipage s'.p s'.dp = nextipage s.p s.dp ∨ cfg.queue.length ≤ nextipage s'.p s'.dp))
    (ended : s'.err = 0 → s'.done = true → s.err = 0 ∧ s.done = true) : Accounted cfg h s' where
  counted := inv.counted
  confirmed := inv.confirmed
  untried := inv.untried
  goes noErr goesOn := by
    obtain ⟨same, noErr', goesOn', next⟩ := goes noErr goesOn
    obtain ⟨tried, few, position⟩ := inv.goes noErr' goesOn'
    rw [same]
    refine ⟨tried, few, ?_⟩
    rcases next with next | exceeded
    · rw [next]
      exact position
    · exact .inr exceeded
  ended noErr done := inv.ended (ended noErr done).1 (ended noErr done).2

/-- Once the page after the counted ones is confirmed and is the last, all are. -/
theorem Accounted.all {endData : Answer} {fet : Option Answer} (inv : Accounted cfg h s)
    (confirms : Confirms cfg.c20 endData fet)
    (mem : .transmitted (countedPages h).length endData fet ∈ es)
    (last : (countedPages h).length + 1 = cfg.queue.length) :
    ∀ page < cfg.queue.length, Confirmed cfg (h ++ es) page := by
  intro page inQueue
  rw [← last] at inQueue
  rcases Nat.lt_succ_iff_lt_or_eq.1 inQueue with before | rfl
  · exact (inv.confirmed page before).append es
  · exact confirmed_now confirms mem

/-- A hang-up that ends the loop without an error comes with the last page confirmed. -/
theorem last_of_hangup (reaches : Reaches r s) (inTime : ¬ EndsEarly cfg r s)
    (hangup : (s.lastAnswer cfg r).hangup.isSome)
    (noErr : (s.ended cfg r).err = 0 ∧
      ((s.lastAnswer cfg r).hangup.isSome → (s.lastAnswer cfg r).hangup.quiet))
    (tried : nTxRetry ≤ s.pagetry + 1 → RoundConfirms cfg r s ∧
      ¬ (¬ cfg.c20 ∧ ¬ (s.asks r.endData ∧ s.looks r) ∧ s.good = 0)) :
    s.p + 1 = cfg.queue.length ∧ RoundConfirms cfg r s := by
  by_contra left
  refine inTime ⟨reaches, noErr.2 hangup, (ended_noErr noErr.1).2, left, ?_⟩
  rintro ⟨third, refused | stale⟩
  · exact refused (tried third).1
  · exact (tried third).2 stale

/-- A stale `good` that is not set does not count a page. -/
theorem good_of_stale (stale : ¬ cfg.c20 ∧ ¬ (s.asks r.endData ∧ s.looks r) ∧ s.good = 0) :
    (s.ended cfg r).good = 0 := by
  unfold ended
  rw [if_neg stale.1, endClass2_good, asks_tried, looks_tried, if_neg stale.2.1]
  exact stale.2.2

theorem Accounted.count {s' t : Sender} (inv : Accounted cfg h s)
    (position : t.p = (countedPages h).length)
    (confirms : RoundConfirms cfg r t) (reaches : Reaches r t) (inTime : ¬ EndsEarly cfg r t)
    (good : (t.ended cfg r).good ≠ 0) (try_ : GoodTry cfg r t s') :
    Accounted cfg (h ++ [.transmitted t.p r.endData (t.fetAnswer cfg r), .counted t.p]) s' := by
  have pages : countedPages (h ++ [.transmitted t.p r.endData (t.fetAnswer cfg r), .counted t.p]) =
      List.range (t.p + 1) := by
    rw [countedPages_append, inv.counted, ← position, List.range_succ]
    rfl
  have length : (countedPages (h ++ [.transmitted t.p r.endData (t.fetAnswer cfg r),
      .counted t.p])).length = t.p + 1 := by
    rw [pages, List.length_range]
  have mem : Event.transmitted t.p r.endData (t.fetAnswer cfg r) ∈
      [.transmitted t.p r.endData (t.fetAnswer cfg r), .counted t.p] := List.mem_cons_self
  have later (page : Nat) (after : page > t.p) :
      tries (h ++ [.transmitted t.p r.endData (t.fetAnswer cfg r), .counted t.p]) page = 0 := by
    rw [tries_append, inv.untried page (position ▸ after)]
    have other : ¬ t.p = page := by omega
    simp [tries, Event.transmits, other]
  refine ⟨by rw [length]; exact pages, fun page counted => ?_, fun page after => ?_,
    fun noErr goes => ?_, fun noErr done => ?_⟩
  · rw [length] at counted
    rcases Nat.lt_succ_iff_lt_or_eq.1 counted with before | rfl
    · exact (inv.confirmed page (position ▸ before)).append _
    · exact confirmed_now confirms mem
  · rw [length] at after
    exact later page (by omega)
  · rw [length, try_.pagetry]
    exact ⟨later _ (Nat.lt_succ_self _), by decide, try_.next⟩
  · have last : t.p + 1 = cfg.queue.length := by
      rcases try_.done done with last | hangup
      · exact last
      · exact (last_of_hangup reaches inTime hangup (try_.noErr noErr)
          fun _ => ⟨confirms, fun stale => good (good_of_stale stale)⟩).1
    rw [position] at mem last
    exact inv.all confirms (position ▸ mem) last

theorem Accounted.retry {s' t : Sender} (inv : Accounted cfg h s)
    (position : t.p = (countedPages h).length)
    (pagetry : tries h (countedPages h).length = t.pagetry) (reaches : Reaches r t)
    (inTime : ¬ EndsEarly cfg r t) (try_ : BadTry cfg r t s') :
    Accounted cfg (h ++ [.transmitted t.p r.endData (t.fetAnswer cfg r)]) s' := by
  have pages : countedPages (h ++ [.transmitted t.p r.endData (t.fetAnswer cfg r)]) =
    countedPages h := by
    rw [countedPages_append]
    exact List.append_nil _
  refine ⟨by rw [pages]; exact inv.counted, fun page counted => ?_, fun page after => ?_,
    fun noErr goes => ?_, fun noErr done => ?_⟩
  · rw [pages] at counted
    exact (inv.confirmed page counted).append _
  · rw [pages] at after
    have other : ¬ t.p = page := by omega
    rw [tries_append, inv.untried page after]
    simp [tries, Event.transmits, other]
  · rw [pages, tries_append, pagetry, try_.pagetry, try_.next]
    refine ⟨?_, (try_.noErr noErr).1, .inl position⟩
    simp [tries, Event.transmits, position]
  · obtain ⟨fewer, noErr'⟩ := try_.noErr noErr
    obtain ⟨last, confirms⟩ := last_of_hangup reaches inTime (try_.done done) noErr'
      fun third => absurd third (Nat.not_le_of_lt fewer)
    rw [position] at last
    exact inv.all confirms (by rw [position]; exact List.mem_cons_self) last

/-- Sending the page that follows the counted ones is in order, and so is counting it if the modem
confirms it. -/
theorem always_transmit {page : Nat} {endData : Answer} {fet : Option Answer}
    (inv : Accounted cfg h s) (all : Always (Accounts cfg) h)
    (position : page = (countedPages h).length)
    (few : tries h (countedPages h).length < nTxRetry) :
    Always (Accounts cfg) (h ++ [.transmitted page endData fet]) := by
  refine always_snoc.2 ⟨all, ?_, ?_⟩
  · rw [inv.counted, following_range]
    exact position
  · rw [position]
    exact few

theorem always_count {page : Nat} {endData : Answer} {fet : Option Answer}
    (all : Always (Accounts cfg) (h ++ [.transmitted page endData fet]))
    (confirms : Confirms cfg.c20 endData fet) :
    Always (Accounts cfg) (h ++ [.transmitted page endData fet, .counted page]) := by
  rw [List.append_cons]
  refine always_snoc.2 ⟨all, ?_⟩
  rw [Accounts, List.getLast?_concat]
  exact decide_eq_true ⟨rfl, confirms⟩

theorem accounted_transmit {t : Sender} (retries : cfg.noretry = false) (inv : Accounted cfg h s)
    (all : Always (Accounts cfg) h) (noErr : s.err = 0) (goes : s.done = false)
    (read : t = s.read cfg r.opened) (reaches : Reaches r t) (fresh : ¬ CountsStale cfg r t)
    (inTime : ¬ EndsEarly cfg r t) :
    Accounted cfg (h ++ (t.transmit cfg r).2) (t.transmit cfg r).1 ∧
      Always (Accounts cfg) (h ++ (t.transmit cfg r).2) := by
  obtain ⟨tried, few, next⟩ := inv.goes noErr goes
  have readOk : (rdpage cfg.queue r.opened (nextipage s.p s.dp) s.loc s.changed).err = 0 := by
    have noErr' := reaches.1
    rwa [read] at noErr'
  obtain ⟨inQueue, last⟩ := rdpage_ok readOk
  have p : t.p = nextipage s.p s.dp := by rw [read]; rfl
  have ppm : t.ppm = (rdpage cfg.queue r.opened (nextipage s.p s.dp) s.loc s.changed).ppm := by
    rw [read]
    rfl
  rw [← ppm, ← p] at last
  rw [← p] at inQueue next
  have position : t.p = (countedPages h).length := by omega
  have pagetry : t.pagetry = s.pagetry := by rw [read]; rfl
  have goes' : t.done = false := by rw [read]; exact goes
  have sent : Always (Accounts cfg) (h ++ [.transmitted t.p r.endData (t.fetAnswer cfg r)]) :=
    always_transmit inv all position (by rw [tried]; exact few)
  by_cases good : (t.ended cfg r).good = 0
  · obtain ⟨events, try_⟩ := badTry retries good goes'
    rw [events]
    exact ⟨inv.retry position (by rw [tried, pagetry]) reaches inTime try_, sent⟩
  · obtain ⟨events, try_⟩ := goodTry retries good inQueue last goes'
    have confirms := confirms_of_good reaches fresh good
    rw [events]
    exact ⟨inv.count position confirms reaches inTime good try_, always_count sent confirms⟩

/-- A round that does not go wrong. -/
theorem accounted_round (retries : cfg.noretry = false) (inv : Accounted cfg h s)
    (all : Always (Accounts cfg) h) (loops : s.left = false ∧ s.err = 0 ∧ s.done = false)
    (right : ¬ GoesWrong cfg r s) :
    Accounted cfg (h ++ (s.round cfg r).2) (s.round cfg r).1 ∧
      Always (Accounts cfg) (h ++ (s.round cfg r).2) := by
  obtain ⟨noSkip, right⟩ := not_or.1 fun wrong => right ⟨loops, wrong⟩
  obtain ⟨-, noErr, goes⟩ := loops
  obtain ⟨noEnd, right⟩ := not_or.1 right
  obtain ⟨fresh, inTime⟩ := not_or.1 right
  have silent := inv.silent
  unfold Sender.round
  generalize read : s.read cfg r.opened = t at noSkip noEnd fresh inTime
  have same : t.p = nextipage s.p s.dp ∧ t.dp = s.dp ∧ t.pagetry = s.pagetry ∧ t.done = s.done := by
    rw [← read]
    exact ⟨rfl, rfl, rfl, rfl⟩
  dsimp only
  split
  · rename_i hangup
    obtain ⟨p, dp, done, pagetry, -⟩ := unmoved_gethsc t r.fdis.hangup
    rw [List.append_nil]
    refine ⟨silent _ (fun noErr' _ => ?_) (fun _ ends => ?_), all⟩
    · have quiet := (gethsc_noErr noErr').2 hangup.2.2
      refine ⟨pagetry.trans same.2.2.1, noErr, goes, ?_⟩
      rw [p, dp, same.2.1, ← same.1]
      cases again : s.dp with
      | false => exact .inl rfl
      | true =>
        right
        by_contra inside
        exact noSkip ⟨hangup.1, hangup.2.1, quiet, same.2.1.trans again, Nat.lt_of_not_le inside⟩
    · rw [done, same.2.2.2, goes] at ends
      contradiction
  · rename_i noHangup
    split
    · rename_i failed
      rw [List.append_nil]
      exact ⟨silent _ (fun noErr' => absurd noErr' failed) (fun noErr' => absurd noErr' failed), all⟩
    · rename_i readOk
      have announced : ¬ (t.changed ∧ r.fdis.hangup.isSome) := fun both =>
        noHangup ⟨of_not_not readOk, both⟩
      split
      · rw [List.append_nil]
        exact ⟨silent _ (fun noErr' => absurd noErr' (Nat.succ_ne_zero 2))
          (fun noErr' => absurd noErr' (Nat.succ_ne_zero 2)), all⟩
      · rename_i accepted
        split
        · rename_i hangup
          have ends (noErr' : (t.gethsc r.fdt.hangup).err = 0) : False :=
            noEnd ⟨of_not_not readOk, announced, of_not_not accepted, (gethsc_noErr noErr').2 hangup⟩
          rw [List.append_nil]
          exact ⟨silent _ (fun noErr' => (ends noErr').elim) (fun noErr' => (ends noErr').elim), all⟩
        · rename_i silentFdt
          exact accounted_transmit retries inv all noErr goes read.symm ⟨of_not_not readOk, announced,
            of_not_not accepted, Option.not_isSome_iff_eq_none.1 silentFdt⟩ fresh inTime

/-- The loop and its return. -/
theorem accounted_step (retries : cfg.noretry = false) (inv : Accounted cfg h s)
    (all : Always (Accounts cfg) h) (right : ¬ GoesWrong cfg r s) :
    Accounted cfg (h ++ (step cfg r s).2) (step cfg r s).1 ∧
      Always (Accounts cfg) (h ++ (step cfg r s).2) := by
  unfold step
  split
  · rw [List.append_nil]
    exact ⟨inv, all⟩
  · rename_i stays
    split
    · have pages : countedPages (h ++ [.returned s.err]) = countedPages h := by
        rw [countedPages_append]
        exact List.append_nil _
      have same (page : Nat) : tries (h ++ [.returned s.err]) page = tries h page := by
        rw [tries_append]
        rfl
      rename_i ends
      constructor
      · refine ⟨by rw [pages]; exact inv.counted, fun page counted => ?_, fun page after => ?_, ?_,
          fun noErr done page inQueue => (inv.ended noErr done page inQueue).append _⟩
        · rw [pages] at counted
          exact (inv.confirmed page counted).append _
        · rw [pages] at after
          rw [same]
          exact inv.untried page after
        · rw [pages, same]
          exact inv.goes
      · refine always_snoc.2 ⟨all, fun noErr => ?_⟩
        exact inv.ended noErr (ends.resolve_left fun err => err noErr)
    · rename_i loops
      obtain ⟨noErr, goes⟩ := not_or.1 loops
      exact accounted_round retries inv all
        ⟨Bool.eq_false_iff.2 stays, of_not_not noErr, Bool.eq_false_iff.2 goes⟩ right

theorem accounted_start {loc : Cap} {good : Int} {changed : Bool} :
    Accounted cfg [] (start loc good changed) where
  counted := rfl
  confirmed _ counted := absurd counted (Nat.not_lt_zero _)
  untried _ _ := rfl
  goes _ _ := ⟨rfl, (by decide : 0 < nTxRetry), .inl rfl⟩
  ended _ done := Bool.noConfusion done

/-- In a run whose rounds do not go wrong, the pages are passed to `send_data` in order and at most
`nTxRetry` times each, a page is counted only when the modem confirms it, and 0 is returned only when
all pages are confirmed. -/
theorem pages_accounted {loc : Cap} {good : Int} {changed : Bool} (retries : cfg.noretry = false)
    (run : Runs (step cfg) (fun _ s r => ¬ GoesWrong cfg r s) (start loc good changed) h s) :
    Always (Accounts cfg) h := by
  have inv : Accounted cfg h s ∧ Always (Accounts cfg) h :=
    run.invariant (P := fun h s => Accounted cfg h s ∧ Always (Accounts cfg) h)
      ⟨accounted_start, always_nil⟩
      fun _ inv right => accounted_step retries inv.1 inv.2 right
  exact inv.2

/-- A round in which the modem does all it is told; the responses to `+FET` as given. -/
def told (fet : Answer) : Round where
  opened := true
  fdis := ⟨true, none, none⟩
  fdt := ⟨true, none, none⟩
  endData := ⟨true, none, none⟩
  fet := fet

/-- Two pages of the same resolution, with a Class 2 modem. -/
def twoPages : Config where
  queue := [196, 196]
  c20 := false
  noretry := false

/-- The modem confirms the first page; its responses for the second as given; then the return. -/
def secondPage (fet : Answer) : List Round :=
  [told ⟨true, none, some (some 1)⟩, told fet, told ⟨true, none, none⟩]

theorem pages_accounted_two :
    Always (Accounts twoPages)
      (feed (step twoPages) (secondPage ⟨true, none, some (some 1)⟩) [] (start defCap 0 false)).1 :=
  pages_accounted rfl (Runs.refl.feed (by decide))

/-- The modem refuses the second page and hangs up with code zero, and the page is counted. -/
theorem stale_page_counted :
    ¬ ∀ (cfg : Config) (loc : Cap) (good : Int) (changed : Bool) (h : List Event) (s : Sender),
      cfg.noretry = false → Runs (step cfg) (fun _ _ _ => True) (start loc good changed) h s →
        Always (Accounts cfg) h := by
  intro claim
  have accounts := claim twoPages defCap 0 false
    (feed (step twoPages) (secondPage ⟨true, some (some 0), some (some 2)⟩) [] (start defCap 0 false)).1
    _ rfl (runs_feed _ _ _)
  exact absurd accounts (by decide)

end QFax.Efax.Class2

import QFax.Efax.Class1

/-!
# The order of the pages of a call

The Class 1 transmitter moves the position in the input files at `D` and `I` and counts a page as sent
at `sendppm`.  Between the two it holds that the position is the number of pages counted, unless a
repeated DIS makes it read the next page once more.
-/

namespace QFax.Efax

open Machine Call

/-! ## Page events -/

/-- The calls of `send_data` and the pages counted as sent. -/
def Event.OnPage : Event → Prop
  | .sendData _ | .acked _ _ => True
  | _ => False

/-- The page of an acknowledgement. -/
def Event.acked? : Event → Option Nat
  | .acked page _ => some page
  | _ => none

/-- The pages acknowledged so far. -/
def ackedPages (h : List Event) : List Nat := h.filterMap Event.acked?

theorem ackedPages_append (h es : List Event) :
    ackedPages (h ++ es) = ackedPages h ++ ackedPages es :=
  List.filterMap_append

theorem mem_ackedPages {h : List Event} {page : Nat} :
    page ∈ ackedPages h ↔ ∃ ppm, Event.acked page ppm ∈ h := by
  unfold ackedPages
  rw [List.mem_filterMap]
  constructor
  · rintro ⟨e, mem, eq⟩
    cases e <;> cases eq
    exact ⟨_, mem⟩
  · rintro ⟨ppm, mem⟩
    exact ⟨_, mem, rfl⟩

/-- The page that follows the last acknowledged one. -/
def followingPage (h : List Event) : Nat := following (ackedPages h)

theorem followingPage_eq {h : List Event} {n : Nat} (acked : ackedPages h = List.range n) :
    followingPage h = n := by
  unfold followingPage
  rw [acked, following_range]

/-- Events that are not about a page. -/
def Quiet (es : List Event) : Prop := ∀ e ∈ es, ¬ e.OnPage

theorem Quiet.noAck {es : List Event} (quiet : Quiet es) : ackedPages es = [] := by
  unfold ackedPages
  rw [List.filterMap_eq_nil_iff]
  intro e mem
  have away := quiet e mem
  cases e with
  | acked => exact absurd trivial away
  | _ => rfl

/-! ## Where the file position moves -/

/-- The labels between reading a page and counting it. -/
def Label.HasPage : Label → Prop
  | .d2 | .i2 | .sendppm => True
  | _ => False

/-- The labels at the end of a call. -/
def Label.Ends : Label → Prop
  | .cTimeout | .c | .b | .done => True
  | _ => False

/-- What concerns the page at hand is unchanged. -/
structure Kept (s s' : Call) : Prop where
  p : s'.p = s.p
  dp : s'.dp = s.dp
  ppm : s'.ppm = s.ppm

theorem Kept.nextPage {s s' : Call} (kept : Kept s s') : s'.nextPage = s.nextPage := by
  unfold Call.nextPage
  rw [kept.p, kept.dp]

theorem Same.kept {s s' : Call} (same : Same s s') : Kept s s' := ⟨same.p, same.dp, same.ppm⟩

variable {cfg : Config} {h : List Event} {s : Call}

theorem kept_stepD2 (input : Input) : Kept s (s.stepD2 cfg input).1 := by
  obtain ⟨p, dp, ppm, -, -⟩ := same_stepD2 cfg s input
  exact ⟨p, dp, ppm⟩

/-- Only reading a page and answering for it changes the page at hand. -/
theorem kept_step (cfg : Config) (s : Call) (input : Input)
    (away : s.pc ≠ .d ∧ s.pc ≠ .i ∧ s.pc ≠ .i2 ∧ s.pc ≠ .sendppm) :
    Kept s (step cfg input s).1 := by
  cases label : s.pc with
  | d => exact absurd label away.1
  | i => exact absurd label away.2.1
  | i2 => exact absurd label away.2.2.1
  | sendppm => exact absurd label away.2.2.2
  | d2 =>
    simp only [step, label]
    exact kept_stepD2 input
  | f2 =>
    simp only [step, label, stepF2]
    split <;> exact ⟨rfl, rfl, rfl⟩
  | reGetdata =>
    simp only [step, label, stepReGetdata]
    split
    · exact ⟨rfl, rfl, rfl⟩
    · split <;> exact ⟨rfl, rfl, rfl⟩
  | _ => exact (same_step cfg input (by rw [label]; decide)).kept

/-- Only `I_2` and `sendppm` show page events. -/
theorem quiet_step (cfg : Config) (s : Call) (input : Input)
    (away : s.pc ≠ .i2 ∧ s.pc ≠ .sendppm) : Quiet (step cfg input s).2 := by
  intro e mem onPage
  have origin := step_events input mem
  cases e with
  | sendData => exact away.1 (List.mem_singleton.1 origin)
  | acked => exact away.2 (List.mem_singleton.1 origin)
  | _ => exact onPage

/-- Away from the labels that read or answer for a page, a step neither takes up a page nor comes back
from the end of the call. -/
theorem plain_step (cfg : Config) (s : Call) (input : Input)
    (away : s.pc ≠ .d ∧ s.pc ≠ .d2 ∧ s.pc ≠ .i ∧ s.pc ≠ .i2 ∧ s.pc ≠ .sendppm) :
    ¬ (step cfg input s).1.pc.HasPage ∧ (s.pc.Ends → (step cfg input s).1.pc.Ends) := by
  have jumps : ∀ l : Label, l ≠ .d ∧ l ≠ .d2 ∧ l ≠ .i ∧ l ≠ .i2 ∧ l ≠ .sendppm →
      ∀ l' ∈ l.targets, ¬ l'.HasPage ∧ (l.Ends → l'.Ends) := by
    intro l
    cases l <;> simp [Label.targets, Label.HasPage, Label.Ends]
  exact jumps s.pc away _ (step_targets input)

/-- The end of the call is not left. -/
theorem ends_step {input : Input} (ends : s.pc.Ends) : (step cfg input s).1.pc.Ends := by
  have away : s.pc ≠ .d ∧ s.pc ≠ .d2 ∧ s.pc ≠ .i ∧ s.pc ≠ .i2 ∧ s.pc ≠ .sendppm := by
    cases label : s.pc <;> rw [label] at ends <;> first | exact ends.elim | decide
  exact (plain_step cfg s input away).2 ends

/-! ## Reading and sending a page -/

/-- Where the position stands when `n` pages are counted: on page `n` between reading and counting it,
and elsewhere such that the next page read is page `n`, if there is one. -/
structure Located (cfg : Config) (n : Nat) (s : Call) : Prop where
  held : s.pc.HasPage →
    s.p = n ∧ n < cfg.queue.length ∧ (s.ppm = .eop ↔ n + 1 = cfg.queue.length)
  free : ¬ s.pc.HasPage → s.pc.Ends ∨ s.nextPage = n ∨ cfg.queue.length ≤ s.nextPage

theorem Located.of_ends {n : Nat} (ends : s.pc.Ends) : Located cfg n s where
  held hasPage := by cases label : s.pc <;> rw [label] at ends hasPage <;> contradiction
  free _ := .inl ends

/-- A repeated DIS makes the transmitter read the page after one that is not counted yet. -/
def SkipsPage (cfg : Config) (s : Call) (input : Input) : Prop :=
  s.pc = .d2 ∧ s.err = 0 ∧ input.putid = 0 ∧ input.put = 0 ∧ input.puttrain = 0 ∧
    (input.answer.getfr = .dis ∨ input.answer.getfr = .dtc) ∧ s.tries + 1 < 3 ∧
    s.dp = true ∧ s.p + 1 < cfg.queue.length

instance (cfg : Config) (s : Call) (input : Input) : Decidable (SkipsPage cfg s input) :=
  inferInstanceAs (Decidable (_ ∧ _))

variable {n : Nat}

/-- `D` and `I` read the page to be sent next. -/
theorem Located.read {opened : Bool} {l : Label} (inv : Located cfg n s) (label : s.pc = .d ∨ s.pc = .i)
    (hasPage : l.HasPage) :
    Located cfg n (if (readInput cfg opened s).1 ≠ 0 then (readInput cfg opened s).2.fail 2 .b
      else (readInput cfg opened s).2.goto l) := by
  split
  · exact .of_ends trivial
  · rename_i ok
    obtain ⟨inQueue, ppm⟩ := rdpage_ok (of_not_not ok)
    have next : s.nextPage = n := by
      rcases label with label | label <;> rcases inv.free (by rw [label]; exact id) with ends | next | _
      any_goals rw [label] at ends; exact ends.elim
      all_goals omega
    refine ⟨fun _ => ⟨next, next ▸ inQueue, ?_⟩, fun away => absurd hasPage away⟩
    rw [← next]
    exact ppm

/-- While the page at hand is kept, `n` stays where it is. -/
theorem Located.keep {s' : Call} (inv : Located cfg n s) (hasPage : s.pc.HasPage)
    (kept : Kept s s') (leaves : ¬ s'.pc.HasPage →
      s'.pc.Ends ∨ s.nextPage = n ∨ cfg.queue.length ≤ s.nextPage) : Located cfg n s' where
  held _ := by
    rw [kept.p, kept.ppm]
    exact inv.held hasPage
  free away := by
    rw [kept.nextPage]
    exact leaves away

theorem Located.d2 {input : Input} (inv : Located cfg n s) (label : s.pc = .d2)
    (noSkip : ¬ SkipsPage cfg s input) : Located cfg n (s.stepD2 cfg input).1 := by
  have hasPage : s.pc.HasPage := by rw [label]; trivial
  obtain ⟨position, inQueue, -⟩ := inv.held hasPage
  refine inv.keep hasPage (kept_stepD2 input) fun away => ?_
  rcases stepD2_cases cfg s input with
    d2 | timeout | ⟨⟨err, putid, put, train⟩, ⟨-, dis, more⟩ | ⟨c, -⟩ | i2⟩
  · exact absurd (by rw [d2]; trivial) away
  · exact .inl (by rw [timeout]; trivial)
  · unfold Call.nextPage
    cases dp : s.dp with
    | true =>
      right
      right
      by_contra inside
      exact noSkip ⟨label, err, putid, put, train, dis, more, dp, Nat.lt_of_not_le inside⟩
    | false => exact .inr (.inl position)
  · exact .inl (by rw [c]; trivial)
  · exact absurd (by rw [i2]; trivial) away

theorem Located.i2 {input : Input} (inv : Located cfg n s) (label : s.pc = .i2) :
    Located cfg n (s.stepI2 cfg input).1 := by
  obtain ⟨position, inQueue, ppm⟩ := inv.held (by rw [label]; trivial)
  refine ⟨fun _ => ⟨position, inQueue, ?_⟩, fun away => absurd trivial away⟩
  simp only [stepI2, lastpage, isLast_iff]
  split
  · exact ⟨fun _ => by omega, fun _ => rfl⟩
  · exact ppm

theorem leavePpm_free : ¬ s.leavePpm.pc.HasPage := by
  have targets : ∀ l ∈ [Label.e, .i, .d, .r, .c, .t], ¬ l.HasPage := by simp [Label.HasPage]
  exact targets _ afterPpm_mem

/-- A page that counts as sent leaves the position before the page after it. -/
theorem nextPage_countPage (s : Call) : s.countPage.leavePpm.nextPage = s.p + 1 ∨
    s.ppm = .eop ∧ s.countPage.leavePpm.nextPage = s.p + 2 := by
  have dp : s.countPage.leavePpm.dp = true := rfl
  unfold Call.nextPage
  rw [dp]
  by_cases last : s.ppm = .eop ∧ (s.frame = .mcf ∨ s.frame = .rtp)
  · right
    exact ⟨last.1, congrArg (· + 1) (if_pos last)⟩
  · left
    exact congrArg (· + 1) (if_neg last)

/-- A page to be repeated leaves the position at it. -/
theorem nextPage_repeatPage (rejects : s.frame.Rejects) : s.repeatPage.leavePpm.nextPage = s.p := by
  have dp : s.repeatPage.leavePpm.dp = false := rfl
  unfold Call.nextPage
  rw [dp, nextipage_same]
  refine if_neg fun last => ?_
  rcases rejects with frame | frame <;> simp [repeatPage, frame] at last

theorem unlessEvent_noAck (err : Nat) {e : Event} (noAck : e.acked? = none) :
    ackedPages (unlessEvent err e) = [] := by
  unfold ackedPages unlessEvent
  split
  · exact List.filterMap_cons_none noAck
  · rfl

/-- A step that counts no page. -/
theorem Located.waitPpm (retries : cfg.noretry = false) {input : Input} (inv : Located cfg n s)
    (label : s.pc = .sendppm) (waits : ¬ input.answer.getfr.Confirms) :
    Located cfg n (s.stepSendppm cfg input).1 := by
  have hasPage : s.pc.HasPage := by rw [label]; trivial
  obtain ⟨position, -, -⟩ := inv.held hasPage
  rcases stepSendppm_cases s retries input with
    ⟨confirms, -⟩ | ⟨-, -, (eq | eq) | ⟨rejects, eq⟩ | eq⟩
  · exact absurd confirms waits
  · rw [eq]
    exact inv.keep hasPage ⟨rfl, rfl, rfl⟩ fun away => absurd trivial away
  · rw [eq]
    exact .of_ends trivial
  · rw [eq]
    refine ⟨fun held => absurd held leavePpm_free, fun _ => .inr (.inl ?_)⟩
    rw [nextPage_repeatPage rejects]
    exact position
  · rw [eq]
    exact .of_ends trivial

/-- A step that counts the page at hand. -/
theorem Located.countPpm (inv : Located cfg n s) (input : Input) (label : s.pc = .sendppm) :
    Located cfg (n + 1) (s.awaitPpm input).countPage.leavePpm := by
  obtain ⟨position, -, ppm⟩ := inv.held (by rw [label]; trivial)
  refine ⟨fun held => absurd held leavePpm_free, fun _ => ?_⟩
  rcases nextPage_countPage (s.awaitPpm input) with next | ⟨last, next⟩
  · rw [next]
    exact .inr (.inl (congrArg (· + 1) position))
  · rw [next]
    have end_ : n + 1 = cfg.queue.length := ppm.1 last
    have same : (s.awaitPpm input).p = s.p := rfl
    omega

/-- The pages counted and the position in the input files. -/
structure Paged (cfg : Config) (h : List Event) (s : Call) : Prop where
  acked : ackedPages h = List.range (ackedPages h).length
  located : Located cfg (ackedPages h).length s
  ended : ∀ page, .acked page .eop ∈ h → cfg.queue.length ≤ (ackedPages h).length

/-- A step without an acknowledgement. -/
theorem Paged.append {s' : Call} {es : List Event} (inv : Paged cfg h s) (noAck : ackedPages es = [])
    (located : Located cfg (ackedPages h).length s') : Paged cfg (h ++ es) s' := by
  have same : ackedPages (h ++ es) = ackedPages h := by
    rw [ackedPages_append, noAck, List.append_nil]
  refine ⟨by rw [same]; exact inv.acked, by rw [same]; exact located, fun page mem => ?_⟩
  rw [same]
  rcases List.mem_append.1 mem with before | now
  · exact inv.ended page before
  · have := mem_ackedPages.2 ⟨_, now⟩
    rw [noAck] at this
    cases this

/-- A step that acknowledges the page at hand. -/
theorem Paged.count {s' : Call} {es : List Event} {page : Nat} {ppm : Frame} (inv : Paged cfg h s)
    (noAck : ackedPages es = []) (next : page = (ackedPages h).length)
    (last : ppm = .eop → page + 1 = cfg.queue.length)
    (located : Located cfg (page + 1) s') : Paged cfg (h ++ (es ++ [.acked page ppm])) s' := by
  have pages : ackedPages (h ++ (es ++ [.acked page ppm])) = List.range (page + 1) := by
    rw [ackedPages_append, ackedPages_append, noAck, List.nil_append, inv.acked, ← next,
      List.range_succ]
    rfl
  have length : (ackedPages (h ++ (es ++ [.acked page ppm]))).length = page + 1 := by
    rw [pages, List.length_range]
  refine ⟨by rw [length]; exact pages, by rw [length]; exact located, fun q mem => ?_⟩
  rw [length]
  rcases List.mem_append.1 mem with before | now
  · have := inv.ended q before
    omega
  · rcases List.mem_append.1 now with quiet | ack
    · have := mem_ackedPages.2 ⟨_, quiet⟩
      rw [noAck] at this
      cases this
    · obtain ⟨-, eop⟩ := Event.acked.inj (List.mem_singleton.1 ack)
      exact Nat.le_of_eq (last eop.symm).symm

theorem Paged.step (retries : cfg.noretry = false) {input : Input}
    (noSkip : ¬ SkipsPage cfg s input) (inv : Paged cfg h s) :
    Paged cfg (h ++ (step cfg input s).2) (step cfg input s).1 := by
  cases label : s.pc with
  | d =>
    refine inv.append (quiet_step cfg s input (by rw [label]; decide)).noAck ?_
    simp only [Call.step, label]
    exact inv.located.read (.inl label) trivial
  | i =>
    refine inv.append (quiet_step cfg s input (by rw [label]; decide)).noAck ?_
    simp only [Call.step, label]
    exact inv.located.read (.inr label) trivial
  | d2 =>
    refine inv.append (quiet_step cfg s input (by rw [label]; decide)).noAck ?_
    simp only [Call.step, label]
    exact inv.located.d2 label noSkip
  | i2 =>
    simp only [Call.step, label]
    exact inv.append (unlessEvent_noAck _ rfl) (inv.located.i2 label)
  | sendppm =>
    simp only [Call.step, label]
    obtain ⟨position, -, ppm⟩ := inv.located.held (by rw [label]; trivial)
    rcases stepSendppm_cases s retries input with ⟨-, eq⟩ | ⟨waits, events, -⟩
    · have counted := inv.located.countPpm input label
      rw [← position] at ppm counted
      rw [eq]
      exact inv.count (unlessEvent_noAck _ rfl) position ppm.1 counted
    · rw [events]
      exact inv.append (unlessEvent_noAck _ rfl) (inv.located.waitPpm retries label waits)
  | _ =>
    have kept := kept_step cfg s input (by rw [label]; decide)
    have plain := plain_step cfg s input (by rw [label]; decide)
    refine inv.append (quiet_step cfg s input (by rw [label]; decide)).noAck
      ⟨fun hasPage => absurd hasPage plain.1, fun _ => ?_⟩
    rw [kept.nextPage]
    exact (inv.located.free (by rw [label]; exact id)).imp_left plain.2

theorem paged_start {loc : Cap} {good : Bool} : Paged cfg [] (start cfg loc good) := by
  refine ⟨rfl, ⟨fun held => ?_, fun _ => .inr (.inl rfl)⟩, fun page mem => ?_⟩
  · simp only [start] at held
    split at held <;> exact held.elim
  · cases mem

/-! ## The order of the pages -/

/-- What an event may be after the events before it.  `send_data` gets the page that follows the last
acknowledged one, for the first time or again, and a page is acknowledged only after that. -/
def InOrder (before : List Event) : Event → Prop
  | .sendData page => page = followingPage before
  | .acked page _ => page = followingPage before ∧ .sendData page ∈ before
  | _ => True

instance (before : List Event) : ∀ e, Decidable (InOrder before e)
  | .sendData _ => inferInstanceAs (Decidable (_ = _))
  | .acked _ _ => inferInstanceAs (Decidable (_ ∧ _))
  | .sent _ _ _ | .answered _ _ | .trained _ | .command _ | .received _ _ | .wrpage _ | .returned _ =>
    .isTrue trivial

theorem inOrder_of_quiet {e : Event} (away : ¬ e.OnPage) (before : List Event) :
    InOrder before e := by
  cases e with
  | sendData | acked => exact absurd trivial away
  | _ => trivial

/-- A page is confirmed before any of its transmissions got as far as `send_data`. -/
def ConfirmsUnsent (h : List Event) (s : Call) (input : Input) : Prop :=
  s.pc = .sendppm ∧ input.answer.getfr.Confirms ∧ .sendData s.p ∉ h

instance (h : List Event) (s : Call) (input : Input) : Decidable (ConfirmsUnsent h s input) :=
  inferInstanceAs (Decidable (_ ∧ _))

theorem always_unlessEvent {P : List Event → Event → Prop} {err : Nat} {e : Event}
    (all : Always P h) (meets : P h e) : Always P (h ++ unlessEvent err e) := by
  unfold unlessEvent
  split
  · exact always_snoc.2 ⟨all, meets⟩
  · rwa [List.append_nil]

theorem inOrder_step (retries : cfg.noretry = false) {input : Input} (inv : Paged cfg h s)
    (sent : ¬ ConfirmsUnsent h s input) (inOrder : Always InOrder h) :
    Always InOrder (h ++ (step cfg input s).2) := by
  have next := followingPage_eq inv.acked
  cases label : s.pc with
  | i2 =>
    obtain ⟨position, -, -⟩ := inv.located.held (by rw [label]; trivial)
    simp only [step, label]
    exact always_unlessEvent inOrder (position.trans next.symm)
  | sendppm =>
    obtain ⟨position, -, -⟩ := inv.located.held (by rw [label]; trivial)
    have ppmSent : Always InOrder (h ++ unlessEvent s.err (.sent s.ppm s.disbit [])) :=
      always_unlessEvent inOrder trivial
    simp only [step, label]
    rcases stepSendppm_cases s retries input with ⟨confirms, eq⟩ | ⟨-, events, -⟩
    · have mem := of_not_not fun unsent => sent ⟨label, confirms, unsent⟩
      have same : followingPage (h ++ unlessEvent s.err (.sent s.ppm s.disbit [])) = s.p := by
        unfold followingPage at next ⊢
        rw [ackedPages_append, unlessEvent_noAck _ rfl, List.append_nil, next, position]
      rw [eq, ← List.append_assoc]
      exact always_snoc.2 ⟨ppmSent, same.symm, List.mem_append_left _ mem⟩
    · rw [events]
      exact ppmSent
  | _ =>
    refine inOrder.append fun e mem => inOrder_of_quiet ?_
    exact quiet_step cfg s input (by rw [label]; decide) e mem

/-- In a run that skips no page and confirms none unsent, the pages are passed to `send_data` in file
order without gaps, and once the last page is acknowledged all of them are. -/
theorem pages_in_order {loc : Cap} {good : Bool} (retries : cfg.noretry = false)
    (run : Runs (step cfg) (fun h s input => ¬ SkipsPage cfg s input ∧ ¬ ConfirmsUnsent h s input)
      (start cfg loc good) h s) :
    Always InOrder h ∧ ∀ page, .acked page .eop ∈ h →
      ∀ q < cfg.queue.length, .sendData q ∈ h ∧ q ∈ ackedPages h := by
  have inv : Paged cfg h s ∧ Always InOrder h := by
    refine run.invariant (P := fun h s => Paged cfg h s ∧ Always InOrder h)
      ⟨paged_start, always_nil⟩ ?_
    rintro h s input ⟨paged, inOrder⟩ ⟨noSkip, sent⟩
    exact ⟨paged.step retries noSkip, inOrder_step retries paged sent inOrder⟩
  refine ⟨inv.2, fun page eop q inQueue => ?_⟩
  have acked : q ∈ ackedPages h := by
    rw [inv.1.acked, List.mem_range]
    exact Nat.lt_of_lt_of_le inQueue (inv.1.ended page eop)
  obtain ⟨ppm, ack⟩ := mem_ackedPages.1 acked
  obtain ⟨before, after, split, -, passed⟩ := inv.2.of_mem ack
  rw [split]
  exact ⟨List.mem_append_left _ passed, split ▸ acked⟩

/-- Frames that send two pages, each confirmed at once. -/
def twoConfirmed : List Input := [0x01, 0, 0, 0x21, 0, 0x31, 0, 0, 0x31].map answered

theorem pages_in_order_two :
    let h := (feed (step (sending 2)) twoConfirmed [] (start (sending 2) defCap false)).1
    Always InOrder h ∧ ∀ q < 2, .sendData q ∈ h ∧ q ∈ ackedPages h := by
  have order := pages_in_order rfl
    (Runs.refl.feed (by decide : Allowed (step (sending 2)) _ twoConfirmed [] (start _ defCap false)))
  exact ⟨order.1, order.2 1 (by decide)⟩

/-- The first of three pages is confirmed with RTP, the next DCS is answered with DIS, and all else is
confirmed. -/
def repeatedDis : List Input :=
  [0x01, 0, 0, 0x21, 0, 0x33, 0, 0x01, 0, 0, 0x21, 0, 0x31, 0, 0].map answered

/-- What a call with three pages does then. -/
def skippingCall : List Event × Call :=
  feed (step (sending 3)) repeatedDis [] (start (sending 3) defCap false)

/-- The second page is skipped when DIS is repeated after the page was read. -/
theorem page_skipped : ¬ ∀ (cfg : Config) (loc : Cap) (good : Bool) (h : List Event) (s : Call),
    cfg.noretry = false → Runs (step cfg) (fun _ _ _ => True) (start cfg loc good) h s →
      Always InOrder h := by
  intro claim
  have order := claim (sending 3) defCap false skippingCall.1 skippingCall.2 rfl (runs_feed _ _ _)
  exact absurd order (by decide)

end QFax.Efax

import QFax.Efax.LineAnswers

/-!
# The pages that get to the other station

What the receiver gets is followed page by page: it gets the pages of the transmitter's input files in
their order and without gaps, some of them more than once, and a call that succeeds has delivered all of
them.
-/

namespace QFax.Efax

open Machine Call

/-! ## The transmitter's share of the history -/

/-- An event of the transmitter. -/
def LineEvent.tx? : LineEvent → Option Event
  | .tx e => some e
  | _ => none

/-- What the transmitter did. -/
def txEvents (h : List LineEvent) : List Event := h.filterMap LineEvent.tx?

theorem txEvents_append (h es : List LineEvent) : txEvents (h ++ es) = txEvents h ++ txEvents es :=
  List.filterMap_append

theorem txEvents_map (es : List Event) : txEvents (es.map .tx) = es := by
  unfold txEvents
  rw [List.filterMap_map]
  exact List.filterMap_some

theorem txEvents_heardBy (data : Option Nat) (es : List Event) :
    txEvents (es.flatMap (heardBy data)) = [] := by
  unfold txEvents
  rw [List.filterMap_eq_nil_iff]
  intro e mem
  cases e with
  | tx e => exact absurd mem heardBy_tx
  | _ => rfl

/-- The number of pages that count as sent. -/
def counted (h : List LineEvent) : Nat := (ackedPages (txEvents h)).length

/-! ## Pages in sequence -/

/-- A page is received after all pages before it, and not after a later one. -/
def InSequence (maxpgerr : Nat) (before : List LineEvent) : LineEvent → Prop
  | .taken page _ => (∀ q < page, ∃ nerr < maxpgerr, .taken q nerr ∈ before) ∧
    ∀ q nerr, .taken q nerr ∈ before → q ≤ page
  | _ => True

/-- The pages received, and those that count as sent. -/
structure Delivered (snd : Config) (maxpgerr : Nat) (h : List LineEvent) (l : FaxLine) : Prop where
  paged : Paged snd (txEvents h) l.tx
  sent : ∀ page, l.data = some page → page = counted h
  got : ∀ page < counted h, ∃ nerr < maxpgerr, .taken page nerr ∈ h
  last : ∀ page nerr, .taken page nerr ∈ h → page ≤ counted h
  order : Always (InSequence maxpgerr) h

/-- The transmitter skips no page. -/
def NoSkip (snd : Config) (l : FaxLine) : Turn → Prop
  | .tx input => ¬ SkipsPage snd l.tx input
  | .rx _ => True

instance (snd : Config) (l : FaxLine) : ∀ turn, Decidable (NoSkip snd l turn)
  | .tx _ => inferInstanceAs (Decidable (¬ _))
  | .rx _ => .isTrue trivial

variable {snd rcv : Config} {h : List LineEvent} {l : FaxLine} {input : Input} {turn : Turn}
  {maxpgerr : Nat}

theorem TakenSince.mem {page : Nat} (taken : TakenSince maxpgerr page h) :
    ∃ nerr < maxpgerr, .taken page nerr ∈ h := by
  obtain ⟨before, nerr, after, split, few, -⟩ := taken
  refine ⟨nerr, few, ?_⟩
  rw [split]
  exact List.mem_append_right _ List.mem_cons_self

theorem counted_append (h : List LineEvent) (es : List LineEvent) :
    counted (h ++ es) = counted h + (ackedPages (txEvents es)).length := by
  unfold counted
  rw [txEvents_append, ackedPages_append, List.length_append]

/-- Nothing that the receiver does counts a page. -/
theorem counted_rx (data : Option Nat) (es : List Event) :
    counted (h ++ es.flatMap (heardBy data)) = counted h := by
  rw [counted_append, txEvents_heardBy]
  rfl

/-- What was received is not changed by events of the transmitter. -/
theorem mem_taken_tx {page nerr : Nat} {es : List Event} :
    .taken page nerr ∈ h ++ es.map .tx ↔ .taken page nerr ∈ h := by
  rw [List.mem_append, or_iff_left]
  intro mem
  obtain ⟨e, -, eq⟩ := List.mem_map.1 mem
  cases eq

/-! ## Steps -/

/-- A page that is received comes after all that count as sent, and not after a later one. -/
theorem Delivered.order_rx (inv : Delivered snd maxpgerr h l) (es : List Event) :
    Always (InSequence maxpgerr) (h ++ es.flatMap (heardBy l.data)) := by
  refine inv.order.extend fun part e rest split => ?_
  have known {q n : Nat} (mem : .taken q n ∈ part ++ e :: rest) : q = counted h :=
    inv.sent q (taken_heardBy (split ▸ mem))
  cases e with
  | taken page nerr =>
    have page : page = counted h := known (List.mem_append_right _ List.mem_cons_self)
    rw [page]
    refine ⟨fun q earlier => ?_, fun q n mem => ?_⟩
    · obtain ⟨n, few, mem⟩ := inv.got q earlier
      exact ⟨n, few, List.mem_append_left _ mem⟩
    · rcases List.mem_append.1 mem with before | now
      · exact inv.last q n before
      · exact Nat.le_of_eq (known (List.mem_append_left _ now))
  | _ => trivial

theorem Delivered.step_rx (inv : Delivered snd maxpgerr h l) :
    Delivered snd maxpgerr (h ++ (FaxLine.step snd rcv (.rx input) l).2)
      (FaxLine.step snd rcv (.rx input) l).1 := by
  have same : counted (h ++ (FaxLine.step snd rcv (.rx input) l).2) = counted h := counted_rx _ _
  refine ⟨?_, fun page sent => ?_, fun page before => ?_, fun page nerr mem => ?_, inv.order_rx _⟩
  · have events : txEvents (h ++ (FaxLine.step snd rcv (.rx input) l).2) = txEvents h := by
      rw [txEvents_append]
      exact (congrArg (txEvents h ++ ·) (txEvents_heardBy _ _)).trans (List.append_nil _)
    rw [events]
    exact inv.paged
  · rw [same]
    exact inv.sent page (data_rx sent)
  · rw [same] at before
    obtain ⟨nerr, few, mem⟩ := inv.got page before
    exact ⟨nerr, few, List.mem_append_left _ mem⟩
  · rw [same]
    rcases List.mem_append.1 mem with before | now
    · exact inv.last page nerr before
    · exact Nat.le_of_eq (inv.sent page (taken_heardBy now))

/-- What a step of the transmitter adds to the pages counted. -/
theorem acked_tx (retries : snd.noretry = false) (s : Call) (input : Input) :
    s.pc = .sendppm ∧ input.answer.getfr.Confirms ∧ (ackedPages (Call.step snd input s).2).length = 1 ∨
      ackedPages (Call.step snd input s).2 = [] := by
  by_cases label : s.pc = .sendppm
  · simp only [Call.step, label]
    rcases stepSendppm_cases s retries input with ⟨confirms, eq⟩ | ⟨-, events, -⟩
    · refine .inl ⟨trivial, confirms, ?_⟩
      rw [eq, ackedPages_append, unlessEvent_noAck _ rfl]
      rfl
    · refine .inr ?_
      rw [events]
      exact unlessEvent_noAck _ rfl
  · refine .inr (List.filterMap_eq_nil_iff.2 fun e mem => ?_)
    cases e with
    | acked page ppm => exact absurd (List.mem_singleton.1 (step_events input mem)) label
    | _ => rfl

theorem Delivered.step_tx (parties : Parties snd rcv) (linked : Linked maxpgerr h l)
    (hears : l.Hears snd rcv (.tx input)) (noSkip : ¬ SkipsPage snd l.tx input)
    (inv : Delivered snd maxpgerr h l) :
    Delivered snd maxpgerr (h ++ (FaxLine.step snd rcv (.tx input) l).2)
      (FaxLine.step snd rcv (.tx input) l).1 := by
  have paged : Paged snd (txEvents (h ++ (FaxLine.step snd rcv (.tx input) l).2))
      (Call.step snd input l.tx).1 := by
    rw [txEvents_append]
    exact txEvents_map _ ▸ inv.paged.step parties.retries noSkip
  have order : Always (InSequence maxpgerr) (h ++ (Call.step snd input l.tx).2.map .tx) := by
    refine inv.order.append fun e mem before => ?_
    obtain ⟨e', -, rfl⟩ := List.mem_map.1 mem
    trivial
  have count : counted (h ++ (FaxLine.step snd rcv (.tx input) l).2) =
      counted h + (ackedPages (Call.step snd input l.tx).2).length := by
    rw [counted_append]
    exact congrArg (fun es => counted h + (ackedPages es).length) (txEvents_map _)
  have data : (FaxLine.step snd rcv (.tx input) l).1.data =
      ((Call.step snd input l.tx).2.findSome? Event.page?).or l.data := rfl
  have more : counted h ≤ counted (h ++ (FaxLine.step snd rcv (.tx input) l).2) :=
    count ▸ Nat.le_add_right _ _
  refine ⟨paged, fun page sent => ?_, fun page before => ?_, fun page nerr mem => ?_, order⟩
  · rw [data] at sent
    rcases acked_tx parties.retries l.tx input with ⟨label, confirms, -⟩ | none
    · -- nothing is on its way while a page is confirmed
      obtain ⟨-, reply, -⟩ := linked.confirmed parties hears label confirms
      rw [(linked.reply _ reply).1, Option.or_none] at sent
      obtain ⟨i2, -⟩ := sendData_origin (findSome_page _ sent)
      rw [label] at i2
      cases i2
    · rw [count, none]
      rcases Option.or_eq_some_iff.1 sent with now | ⟨-, before⟩
      · obtain ⟨i2, rfl⟩ := sendData_origin (findSome_page _ now)
        exact (inv.paged.located.held (by rw [i2]; trivial)).1
      · exact inv.sent page before
  · rcases acked_tx parties.retries l.tx input with ⟨label, confirms, one⟩ | none
    · rw [count, one] at before
      rcases Nat.lt_succ_iff_lt_or_eq.1 before with earlier | rfl
      · obtain ⟨nerr, few, mem⟩ := inv.got page earlier
        exact ⟨nerr, few, List.mem_append_left _ mem⟩
      · have position : l.tx.p = counted h := (inv.paged.located.held (by rw [label]; trivial)).1
        obtain ⟨taken, -, -⟩ := linked.confirmed parties hears label confirms
        obtain ⟨nerr, few, mem⟩ := taken.mem
        exact ⟨nerr, few, List.mem_append_left _ (position ▸ mem)⟩
    · rw [count, none] at before
      obtain ⟨nerr, few, mem⟩ := inv.got page before
      exact ⟨nerr, few, List.mem_append_left _ mem⟩
  · exact Nat.le_trans (inv.last page nerr (mem_taken_tx.1 mem)) more

/-! ## Runs -/

variable {loc loc' : Cap} {good good' : Bool}

theorem delivered_start : Delivered snd maxpgerr [] (FaxLine.start snd rcv loc loc' good good') where
  paged := paged_start
  sent page sent := by cases sent
  got page before := absurd before (Nat.not_lt_zero page)
  last page nerr mem := by cases mem
  order := always_nil

theorem Delivered.step (parties : Parties snd rcv) (linked : Linked maxpgerr h l)
    (hears : l.Hears snd rcv turn) (noSkip : NoSkip snd l turn) (inv : Delivered snd maxpgerr h l) :
    Delivered snd maxpgerr (h ++ (FaxLine.step snd rcv turn l).2) (FaxLine.step snd rcv turn l).1 := by
  cases turn with
  | tx input => exact inv.step_tx parties linked hears noSkip
  | rx input => exact inv.step_rx

/-- A page that ended with EOM counts as sent. -/
def AfterEom (h : List LineEvent) : Prop := ∃ page, .tx (.acked page .eom) ∈ h

/-- When the next page is due, the transmitter is about to send it, unless EOM made it wait for DIS. -/
def Advanced (h : List LineEvent) (l : FaxLine) : Prop :=
  l.tx.dp = true → (l.tx.pc.SendsPage ∨ l.tx.pc.Ends) ∨ AfterEom h

theorem AfterEom.append {es : List LineEvent} (after : AfterEom h) : AfterEom (h ++ es) :=
  after.imp fun _ mem => List.mem_append_left _ mem

/-- A page that is confirmed is followed by the next, by the end of the call, or by EOM. -/
theorem advanced_count (tx : Transmitter l.tx) (mcf : input.answer.getfr = .mcf) :
    ((l.tx.awaitPpm input).countPage.leavePpm.pc.SendsPage ∨
      (l.tx.awaitPpm input).countPage.leavePpm.pc.Ends) ∨ l.tx.ppm = .eom := by
  have frame : (l.tx.awaitPpm input).countPage.frame = .mcf := mcf
  have ppm : (l.tx.awaitPpm input).countPage.ppm = l.tx.ppm := rfl
  have remtx : (l.tx.awaitPpm input).countPage.remtx = false := tx.remtx
  have label : (l.tx.awaitPpm input).countPage.leavePpm.pc = (l.tx.awaitPpm input).countPage.afterPpm := rfl
  have messages := tx.ppm
  simp only [List.mem_cons, List.not_mem_nil, or_false] at messages
  rw [label]
  unfold Call.afterPpm
  rw [frame, ppm, remtx]
  rcases messages with mps | eom | eop
  · rw [mps]
    exact .inl (.inl (.inl rfl))
  · exact .inr eom
  · rw [eop]
    exact .inl (.inr trivial)

theorem Advanced.sendppm (parties : Parties snd rcv) (linked : Linked maxpgerr h l)
    (hears : l.Hears snd rcv (.tx input)) (label : l.tx.pc = .sendppm) :
    Advanced (h ++ (FaxLine.step snd rcv (.tx input) l).2) (FaxLine.step snd rcv (.tx input) l).1 := by
  intro dp
  have dp : (Call.step snd input l.tx).1.dp = true := dp
  show ((Call.step snd input l.tx).1.pc.SendsPage ∨ (Call.step snd input l.tx).1.pc.Ends) ∨
    AfterEom (h ++ (Call.step snd input l.tx).2.map .tx)
  simp only [Call.step, label] at dp ⊢
  rcases stepSendppm_cases l.tx parties.retries input with
    ⟨confirms, eq⟩ | ⟨-, -, (eq | eq) | ⟨-, eq⟩ | eq⟩ <;> rw [eq] at dp ⊢
  · obtain ⟨-, -, mcf⟩ := linked.confirmed parties hears label confirms
    refine (advanced_count linked.tx mcf).imp_right fun eom => ⟨l.tx.p, ?_⟩
    rw [eom]
    simp
  · exact .inl (.inl (.inr (.inr rfl)))
  · exact .inl (.inr trivial)
  · cases dp
  · exact .inl (.inr trivial)

/-- Whether the next page is due is decided by the answer for a page only. -/
theorem dp_step (cfg : Config) (s : Call) (input : Input) (away : s.pc ≠ .sendppm) :
    (Call.step cfg input s).1.dp = s.dp := by
  cases label : s.pc with
  | sendppm => exact absurd label away
  | d | i =>
    simp only [Call.step, label, stepD, stepI]
    split <;> rfl
  | i2 => simp only [Call.step, label, stepI2]
  | _ => exact (kept_step cfg s input (by rw [label]; decide)).dp

theorem Advanced.step (parties : Parties snd rcv) (linked : Linked maxpgerr h l)
    (hears : l.Hears snd rcv turn) (inv : Advanced h l) :
    Advanced (h ++ (FaxLine.step snd rcv turn l).2) (FaxLine.step snd rcv turn l).1 := by
  cases turn with
  | rx input => exact fun dp => (inv dp).imp_right AfterEom.append
  | tx input =>
    by_cases label : l.tx.pc = .sendppm
    · exact Advanced.sendppm parties linked hears label
    · intro dp
      have dp : l.tx.dp = true := (dp_step snd l.tx input label).symm.trans dp
      rcases inv dp with (sends | ends) | eom
      · have jump : (Call.step snd input l.tx).1.pc ∈ l.tx.pc.targets := step_targets input
        have goes : ∀ l' ∈ l.tx.pc.targets, l'.SendsPage ∨ l'.Ends := by
          rcases sends with i | i2 | sendppm
          · rw [i]
            simp [Label.targets, Label.SendsPage, Label.Ends]
          · rw [i2]
            simp [Label.targets, Label.SendsPage]
          · exact absurd sendppm label
        exact .inl (goes _ jump)
      · exact .inl (.inr (ends_step ends))
      · exact .inr eom.append

/-- In every run of the two stations the transmitter skips a page only after a page that ended with EOM. -/
theorem skips_after_eom (parties : Parties snd rcv)
    (run : Runs (FaxLine.step snd rcv) (fun h l turn => l.Hears snd rcv turn ∧ EndsBefore h l turn)
      (FaxLine.start snd rcv loc loc' good good') h l)
    (skips : SkipsPage snd l.tx input) : AfterEom h := by
  have inv : Linked rcv.maxpgerr h l ∧ Advanced h l := by
    refine run.invariant (P := fun h l => Linked rcv.maxpgerr h l ∧ Advanced h l)
      ⟨linked_start parties, fun dp => by cases dp⟩ ?_
    rintro h l turn ⟨linked, advanced⟩ met
    exact ⟨linked.step parties met, advanced.step parties linked met.1⟩
  obtain ⟨label, -, -, -, -, -, -, dp, -⟩ := skips
  refine (inv.2 dp).resolve_left ?_
  rw [label]
  simp [Label.SendsPage, Label.Ends]

/-- Three pages, of which the second is the first with the lower resolution. -/
def coarser : Config := { sending 3 with queue := [196, 98, 98] }

/-- The first page, confirmed after EOM, and the next DIS and page. -/
def afterEom : List Turn :=
  [.rx (answered 0), .tx (framed 0x01 [0x00, 0x72, 0x1e]), .tx (answered 0), .tx (answered 0),
    .rx (framed 0x41 [0x00, 0x62, 0x1e]), .rx (answered 0), .tx (answered 0x21), .rx (answered 0),
    .tx (answered 0), .rx (answered 0), .rx (framed 0x71 []), .rx (answered 0), .tx (answered 0x31),
    .rx { answered 0 with answer := .timeout }, .rx (answered 0),
    .tx (framed 0x01 [0x00, 0x72, 0x1e]), .tx (answered 0), .tx (answered 0)]

/-- With one more DIS in place of the answer to DCS the second page is skipped. -/
theorem skips_after_eom_three : AfterEom
    (feed (FaxLine.step coarser receiving) afterEom []
      (FaxLine.start coarser receiving defCap defCap false false)).1 :=
  @skips_after_eom coarser receiving _ _ (framed 0x01 [0x00, 0x72, 0x1e]) _ _ _ _
    ⟨rfl, Nat.succ_pos 2, rfl, rfl, rfl⟩ (Runs.refl.feed (by decide)) (by decide)

/-! ## Calls that succeed -/

/-- The transmitter does not abandon the call. -/
def GoesOn (l : FaxLine) : Turn → Prop
  | .tx input => ¬ Abandons l.tx input
  | .rx _ => True

instance (l : FaxLine) : ∀ turn, Decidable (GoesOn l turn)
  | .tx _ => inferInstanceAs (Decidable (¬ _))
  | .rx _ => .isTrue trivial

/-- What has been confirmed along the error variable of the transmitter, and what it returned. -/
structure Succeeds (snd : Config) (h : List LineEvent) (l : FaxLine) : Prop where
  confirmed : Confirmed snd (txEvents h) l.tx
  returned : Returned (txEvents h) l.tx

theorem Succeeds.step (parties : Parties snd rcv) (paged : Paged snd (txEvents h) l.tx)
    (goesOn : GoesOn l turn) (inv : Succeeds snd h l) :
    Succeeds snd (h ++ (FaxLine.step snd rcv turn l).2) (FaxLine.step snd rcv turn l).1 := by
  cases turn with
  | tx input =>
    have events : txEvents (h ++ (FaxLine.step snd rcv (.tx input) l).2) =
        txEvents h ++ (Call.step snd input l.tx).2 := by
      rw [txEvents_append]
      exact congrArg (txEvents h ++ ·) (txEvents_map _)
    refine ⟨?_, ?_⟩ <;> rw [events]
    · exact inv.confirmed.step parties.retries parties.pages paged goesOn
    · exact inv.returned.step
  | rx input =>
    have events : txEvents (h ++ (FaxLine.step snd rcv (.rx input) l).2) = txEvents h := by
      rw [txEvents_append]
      exact (congrArg (txEvents h ++ ·) (txEvents_heardBy _ _)).trans (List.append_nil _)
    refine ⟨?_, ?_⟩ <;> rw [events]
    · exact inv.confirmed
    · exact inv.returned

end QFax.Efax

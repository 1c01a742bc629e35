import QFax.Efax.PageConfirm
import QFax.Efax.CallSuccess
import QFax.Efax.Session

/-!
# Two faxes on one line

The Class 1 transmitter of one station and the receiver of the other, in turn and in any order.  A frame is
heard only while its sender stands at the label that sends it, or as the answer that the receiver gave to
the last frame it heard; any frame may be lost, late or missed, and so may the data of a page.  The two
stations share nothing else: what one of them concludes about the other it concludes from frames.
-/

namespace QFax.Efax

open Machine Call

/-! ## What a station says and hears -/

namespace Call

/-- The frame that a station has on the line at a label that sends one. -/
def speaks (cfg : Config) (s : Call) : Option (Frame × List Nat) :=
  match s.pc with
  | .d2 => if s.err = 0 then some (.dcs, s.negotiate.dcsFif cfg) else none
  | .sendppm => if s.err = 0 then some (s.ppm, []) else none
  | .rLoop =>
    if s.err = 0 ∧ s.t < t1 then some (.dis, mkdis s.loc dcsLen true (cfg.pages ≠ 0)) else none
  | .c => some (.dcn, [])
  | _ => none

/-- The frame that comes in at a label that waits for one. -/
def hears (input : Input) (s : Call) : Option (Frame × List Nat) :=
  match s.pc, input.answer with
  | .t, .frame fcf fif | .d2, .frame fcf fif | .sendppm, .frame fcf fif | .rLoop, .frame fcf fif
  | .f, .frame fcf fif => some (.ofCode (fcf % 0x80), fif)
  | _, _ => none

end Call

/-! ## The line -/

/-- The transmitter, the receiver, the answer on its way back, and the page on its way there. -/
structure FaxLine where
  tx : Call
  rx : Call
  reply : Option Frame
  data : Option Nat

/-- Which station goes on, and what it gets from the line and its own modem and files. -/
inductive Turn
  | tx (input : Input)
  | rx (input : Input)

/-- What the stations do; `taken` says which page it was that the receiver got to the end of. -/
inductive LineEvent
  | tx (e : Event)
  | rx (e : Event)
  | taken (page nerr : Nat)
  deriving DecidableEq, Repr

/-- The page passed to `send_data`. -/
def Event.page? : Event → Option Nat
  | .sendData page => some page
  | _ => none

/-- The answer to a command. -/
def Event.answer? : Event → Option Frame
  | .answered frame _ => some frame
  | _ => none

/-- The errors of a page that ended with RTC. -/
def Event.errors? : Event → Option Nat
  | .received 0 nerr => some nerr
  | _ => none

/-- An event of the receiver, and the page that it got. -/
def heardBy (data : Option Nat) (e : Event) : List LineEvent :=
  .rx e :: (do return LineEvent.taken (← data) (← e.errors?)).toList

namespace FaxLine

/-- At the beginning the one station calls and the other answers. -/
def start (snd rcv : Config) (loc loc' : Cap) (good good' : Bool) : FaxLine where
  tx := Call.start snd loc good
  rx := Call.start rcv loc' good'
  reply := none
  data := none

/-- A frame that is heard ends whatever was on its way in the other direction. -/
def step (snd rcv : Config) : Machine.Step FaxLine Turn LineEvent
  | .tx input, l =>
    let next := Call.step snd input l.tx
    ({ l with
        tx := next.1
        reply := if (l.tx.hears input).isSome then none else l.reply
        data := (next.2.findSome? Event.page?).or l.data },
      next.2.map .tx)
  | .rx input, l =>
    let next := Call.step rcv input l.rx
    let quiet := (l.rx.hears input).isNone
    ({ l with
        rx := next.1
        reply := (next.2.findSome? Event.answer?).or (if quiet then l.reply else none)
        data := if quiet ∧ next.2.findSome? Event.errors? = none then l.data else none },
      next.2.flatMap (heardBy l.data))

/-- A frame that comes in is one that the other station says or has answered with, and a page that is
received is one that was sent. -/
def Hears (snd rcv : Config) (l : FaxLine) : Turn → Prop
  | .tx input => ∀ m ∈ l.tx.hears input, l.reply = some m.1 ∨ l.rx.speaks rcv = some m
  | .rx input => (∀ m ∈ l.rx.hears input, l.tx.speaks snd = some m) ∧
    (l.rx.pc = .reGetdata ∧ input.command = true ∧ input.receiveData = 0 → l.data.isSome)

instance (snd rcv : Config) (l : FaxLine) : ∀ turn, Decidable (l.Hears snd rcv turn)
  | .tx _ => inferInstanceAs (Decidable (∀ m ∈ _, _))
  | .rx _ => inferInstanceAs (Decidable ((∀ m ∈ _, _) ∧ (_ → _)))

end FaxLine

/-! ## What the receiver got -/

/-- Whether a reception has ended since the last page was sent. -/
def pageEnded : Bool → LineEvent → Bool
  | _, .tx (.sendData _) => false
  | ended, .rx (.received ret _) => ended || ret ≠ 1
  | ended, _ => ended

/-- A post-page command is heard only when a reception has ended since the page was sent. -/
def EndsBefore (h : List LineEvent) (l : FaxLine) : Turn → Prop
  | .tx _ => True
  | .rx input => ∀ m ∈ l.rx.hears input, m.1.IsPostPage → h.foldl pageEnded false = true

instance (f : Frame) : Decidable f.IsPostPage := inferInstanceAs (Decidable (_ ∨ _))

instance (h : List LineEvent) (l : FaxLine) : ∀ turn, Decidable (EndsBefore h l turn)
  | .tx _ => .isTrue trivial
  | .rx _ => inferInstanceAs (Decidable (∀ m ∈ _, _ → _))

/-- The receiver got the page with fewer errors than it accepts, after it was sent for the last time. -/
def TakenSince (maxpgerr page : Nat) (h : List LineEvent) : Prop :=
  ∃ before nerr after, h = before ++ .taken page nerr :: after ∧ nerr < maxpgerr ∧
    ∀ q, .tx (.sendData q) ∉ after

theorem TakenSince.append {maxpgerr page : Nat} {h es : List LineEvent}
    (taken : TakenSince maxpgerr page h) (resends : ∀ q, .tx (.sendData q) ∉ es) :
    TakenSince maxpgerr page (h ++ es) := by
  obtain ⟨before, nerr, after, split, good, since⟩ := taken
  refine ⟨before, nerr, after ++ es, ?_, good, fun q mem => ?_⟩
  · rw [split, List.append_assoc, List.cons_append]
  · exact (List.mem_append.1 mem).elim (since q) (resends q)

/-! ## The transmitter -/

/-- The labels of a call that only sends. -/
def Label.Transmits (l : Label) : Prop := l.Sends ∨ l = .sendppm ∨ l.Ends

/-- The labels between CFR and the answer for the page. -/
def Label.SendsPage (l : Label) : Prop := l = .i ∨ l = .i2 ∨ l = .sendppm

/-- What a DIS that comes in says about documents at the other station. -/
def Undocumented (m : Frame × List Nat) : Prop := m.1 = .dis ∨ m.1 = .dtc → m.2.getD 1 0 &&& 0x80 = 0

/-- The transmitter sends, since the receiver has nothing to send. -/
structure Transmitter (s : Call) : Prop where
  label : s.pc.Transmits
  ppm : s.ppm ∈ [Frame.mps, .eom, .eop]
  remtx : s.remtx = false
  dis : Undocumented (s.frame, s.fif)

theorem postPage_mem (queue : List Rat) (p : Nat) (fVR : Int) :
    postPage queue p fVR ∈ [Frame.mps, .eom, .eop] := by
  unfold postPage
  split
  · simp
  · dsimp only
    split <;> split <;> simp

theorem rdpage_ppm (queue : List Rat) (opened : Bool) (p : Nat) (loc : Cap) (changed : Bool) :
    (rdpage queue opened p loc changed).ppm ∈ [Frame.mps, .eom, .eop] := by
  unfold rdpage
  split
  · dsimp only
    split <;> exact postPage_mem _ _ _
  · simp

namespace Call

variable {cfg : Config} {s : Call} {input : Input}

/-- The frame and its FIF after a call of `getfr`. -/
theorem getfr_undocumented
    (heard : ∀ fcf fif, input.answer = .frame fcf fif → Undocumented (.ofCode (fcf % 0x80), fif)) :
    Undocumented ((s.getfr input.answer).frame, (s.getfr input.answer).fif) := by
  cases answer : input.answer with
  | timeout | carrier => exact fun dis => by simp [getfr, Answer.getfr] at dis
  | frame fcf fif => exact heard fcf fif answer

/-- The frame is awaited only at the labels that hear it. -/
theorem hears_eq {fcf : Nat} {fif : List Nat} (answer : input.answer = .frame fcf fif)
    (waits : s.pc ∈ [Label.t, .d2, .sendppm, .rLoop, .f]) :
    s.hears input = some (.ofCode (fcf % 0x80), fif) := by
  simp only [List.mem_cons, List.not_mem_nil, or_false] at waits
  unfold hears
  rw [answer]
  rcases waits with label | label | label | label | label <;> rw [label]

theorem stepD2_frame (undocumented : Undocumented (s.frame, s.fif))
    (heard : ∀ fcf fif, input.answer = .frame fcf fif → Undocumented (.ofCode (fcf % 0x80), fif)) :
    Undocumented ((s.stepD2 cfg input).1.frame, (s.stepD2 cfg input).1.fif) := by
  have awaited : Undocumented (((s.negotiate.sendDcs cfg input).1.awaitDcs input).frame,
      ((s.negotiate.sendDcs cfg input).1.awaitDcs input).fif) := by
    unfold awaitDcs
    split
    · exact getfr_undocumented heard
    · exact undocumented
  unfold stepD2
  dsimp only
  split
  · exact awaited
  · obtain ⟨pc, err, remote, answered⟩ :=
      answerDcs_form ((s.negotiate.sendDcs cfg input).1.awaitDcs input)
    rw [answered]
    exact awaited

theorem stepD2_ppm : (s.stepD2 cfg input).1.ppm = s.ppm ∧ (s.stepD2 cfg input).1.remtx = s.remtx := by
  obtain ⟨pc, err, tries, frame, fif, remote, eq⟩ := stepD2_form cfg s input
  rw [eq]
  exact ⟨rfl, rfl⟩

/-- Whatever the answer, the post-page message stays, and the jump depends on it. -/
theorem stepSendppm_form (cfg : Config) (s : Call) (input : Input) : ∃ pc err tries pagetry page dp retry p,
    (s.stepSendppm cfg input).1 = { s.getfr input.answer with
      pc := pc, err := err, tries := tries, pagetry := pagetry, page := page, dp := dp, retry := retry,
      p := p } ∧ (pc = .sendppm ∨ pc = .cTimeout ∨ pc = .c ∨
        ∃ s' : Call, pc = s'.afterPpm ∧ s'.remtx = s.remtx) := by
  unfold stepSendppm
  dsimp only
  split
  · dsimp only
    split
    · exact ⟨_, _, _, _, _, _, _, _, rfl, .inr (.inl rfl)⟩
    · exact ⟨_, _, _, _, _, _, _, _, rfl, .inl rfl⟩
  · unfold answerPpm
    split
    all_goals first
      | exact ⟨_, _, _, _, _, _, _, _, rfl, .inr (.inr (.inl rfl))⟩
      | exact ⟨_, _, _, _, _, _, _, _, rfl, .inr (.inr (.inr ⟨_, rfl, rfl⟩))⟩

theorem afterPpm_transmits (remtx : s.remtx = false) : s.afterPpm.Transmits := by
  have jumps := afterPpm_mem (s := s)
  simp only [List.mem_cons, List.not_mem_nil, or_false] at jumps
  rcases jumps with jump | jump | jump | jump | jump | jump <;> rw [jump]
  case inr.inr.inr.inl =>
    -- only a station that polls goes on to receive
    unfold afterPpm at jump
    rw [remtx] at jump
    split at jump <;> first | cases jump | (split at jump <;> cases jump)
  case inr.inr.inr.inr.inl => exact .inr (.inr trivial)
  all_goals exact .inl trivial

end Call

open Call in
/-- The transmitter stays one. -/
theorem Transmitter.step {cfg : Config} {s : Call} {input : Input} (inv : Transmitter s)
    (pages : 0 < cfg.pages) (heard : ∀ m ∈ s.hears input, Undocumented m) :
    Transmitter (Call.step cfg input s).1 := by
  obtain ⟨label, ppm, remtx, dis⟩ := inv
  have jump : (Call.step cfg input s).1.pc ∈ s.pc.targets := step_targets input
  have comes (waits : s.pc ∈ [Label.t, .d2, .sendppm, .rLoop, .f]) (fcf : Nat) (fif : List Nat)
      (answer : input.answer = .frame fcf fif) : Undocumented (.ofCode (fcf % 0x80), fif) :=
    heard _ (hears_eq answer waits)
  cases pc : s.pc with
  | t =>
    have got := getfr_undocumented (s := s) (comes (by rw [pc]; decide))
    simp only [Call.step, pc, stepT]
    split
    · exact ⟨.inr (.inr trivial), ppm, remtx, got⟩
    · split
      · exact ⟨.inr (.inr trivial), ppm, remtx, got⟩
      · exact ⟨.inl trivial, ppm, remtx, got⟩
  | a =>
    simp only [Call.step, pc, stepA, if_pos pages]
    refine ⟨.inl trivial, ?_, ?_, ?_⟩
    · split <;> exact ppm
    · split
      · rename_i offers
        exact decide_eq_false (not_not.2 (dis offers))
      · exact remtx
    · split <;> exact dis
  | d =>
    simp only [Call.step, pc, stepD]
    split
    · exact ⟨.inr (.inr trivial), rdpage_ppm _ _ _ _ _, remtx, dis⟩
    · exact ⟨.inl trivial, rdpage_ppm _ _ _ _ _, remtx, dis⟩
  | i =>
    simp only [Call.step, pc, stepI]
    split
    · exact ⟨.inr (.inr trivial), rdpage_ppm _ _ _ _ _, remtx, dis⟩
    · exact ⟨.inl trivial, rdpage_ppm _ _ _ _ _, remtx, dis⟩
  | d2 =>
    rw [pc] at jump
    simp only [Call.step, pc] at jump ⊢
    refine ⟨?_, ?_, ?_, ?_⟩
    · simp only [Label.targets, List.mem_cons, List.not_mem_nil, or_false] at jump
      rcases jump with jump | jump | jump | jump | jump <;> rw [jump] <;>
        simp [Label.Transmits, Label.Sends, Label.Ends]
    · rw [stepD2_ppm.1]
      exact ppm
    · rw [stepD2_ppm.2]
      exact remtx
    · exact stepD2_frame dis (comes (by rw [pc]; decide))
  | i2 =>
    simp only [Call.step, pc, stepI2]
    refine ⟨.inr (.inl rfl), ?_, remtx, dis⟩
    dsimp only
    split
    · simp
    · exact ppm
  | sendppm =>
    have got := getfr_undocumented (s := s) (comes (by rw [pc]; decide))
    obtain ⟨pc', err, tries, pagetry, page, dp, retry, p, eq, goes⟩ := stepSendppm_form cfg s input
    simp only [Call.step, pc]
    rw [eq]
    refine ⟨?_, ppm, remtx, got⟩
    rcases goes with rfl | rfl | rfl | ⟨s', rfl, same⟩
    · exact .inr (.inl rfl)
    · exact .inr (.inr trivial)
    · exact .inr (.inr trivial)
    · exact afterPpm_transmits (same.trans remtx)
  | e =>
    simp only [Call.step, pc, stepE]
    exact ⟨.inl trivial, ppm, remtx, dis⟩
  | cTimeout | c | b =>
    simp only [Call.step, pc]
    exact ⟨.inr (.inr trivial), ppm, remtx, dis⟩
  | done =>
    simp only [Call.step, pc]
    exact ⟨label, ppm, remtx, dis⟩
  | _ => simp [pc, Label.Transmits, Label.Sends, Label.Ends] at label

/-- The bits of a field value in a DIS frame. -/
def disBits (i : CapType) (value : Nat) : Nat :=
  let k := (t30tab i).captodis.getD value 0
  (if k = invalidX then 0 else k) <<< (t30tab i).shift

/-- A station without pages says in its DIS that it has none. -/
theorem undocumented_dis (loc : Cap) : Undocumented (.dis, mkdis loc dcsLen true false) := by
  have table : ∀ vr < 2, ∀ br < 8, ∀ df < 4, (((0x40 ||| disBits .vr vr) % 256 ||| disBits .br br) % 256 |||
      disBits .df df) % 256 &&& 0x80 = 0 := by
    decide
  intro _
  obtain ⟨vr, vrEq, vrMax⟩ := (checkCap_inRange loc).exists_nat .vr
  obtain ⟨br, brEq, brMax⟩ := (checkCap_inRange loc).exists_nat .br
  obtain ⟨df, dfEq, dfMax⟩ := (checkCap_inRange loc).exists_nat .df
  simp only [capMax, Cap.of] at vrMax brMax dfMax
  have bits (i : CapType) : fieldBits (checkCap loc) true i = disBits i (checkCap loc i).toNat := rfl
  have byte : (mkdis loc dcsLen true false).getD 1 0 =
      (((0x40 ||| disBits .vr vr) % 256 ||| disBits .br br) % 256 ||| disBits .df df) % 256 := by
    simp [mkdis, capTypes, blankFif, dcsLen, t30tab, bits, vrEq, brEq, dfEq]
  rw [byte]
  exact table vr (by omega) br (by omega) df (by omega)

/-! ## What a step at a label of the transmitter can do -/

/-- The label at which a frame is sent or awaited by the transmitter. -/
def Frame.place : Frame → Option Label
  | .dcs | .cfr | .ftt => some .d2
  | .mps | .eom | .eop | .mcf | .rtn => some .sendppm
  | _ => none

theorem Frame.place_cases (frame : Frame) {l : Label} (place : frame.place = some l) :
    l = .d2 ∨ l = .sendppm := by
  cases frame <;> cases place <;> simp

/-- The transmitter stands where the frame belongs, or has given up. -/
def Call.Awaits (s : Call) (frame : Frame) : Prop := s.pc.Ends ∨ frame.place = some s.pc

namespace Call

variable {cfg : Config} {s : Call} {input : Input}

theorem negative_of_quiet (quiet : s.hears input = none)
    (waits : s.pc ∈ [Label.t, .d2, .sendppm, .rLoop, .f]) : input.answer.getfr.negative = true := by
  cases answer : input.answer with
  | timeout | carrier => rfl
  | frame fcf fif =>
    rw [hears_eq answer waits] at quiet
    cases quiet

/-- A page is sent at `I_2` only. -/
theorem sendData_origin {page : Nat} (sent : .sendData page ∈ (step cfg input s).2) :
    s.pc = .i2 ∧ page = s.p := by
  have label : s.pc = .i2 := List.mem_singleton.1 (step_events input sent)
  simp only [step, label, stepI2, mem_unlessEvent] at sent
  exact ⟨label, Event.sendData.inj sent.2⟩

theorem findSome_page (es : List Event) {page : Nat} (found : es.findSome? Event.page? = some page) :
    .sendData page ∈ es := by
  obtain ⟨e, mem, eq⟩ := List.exists_of_findSome?_eq_some found
  cases e <;> cases eq
  exact mem

/-- After `I_2` without an error the page has been sent. -/
theorem stepI2_sent (cfg : Config) (input : Input) (label : s.pc = .i2) : (step cfg input s).1.pc = .sendppm ∧
    (step cfg input s).1.p = s.p ∧
    ((step cfg input s).1.err = 0 → (step cfg input s).2 = [.sendData s.p]) := by
  simp only [step, label, stepI2]
  refine ⟨trivial, trivial, fun noErr => ?_⟩
  exact if_pos (unlessErr_eq_zero.1 (unlessErr_eq_zero.1 noErr).1).1

/-- Without a frame `D_2` is tried again or given up. -/
theorem stepD2_quiet (cfg : Config) (label : s.pc = .d2) (quiet : s.hears input = none) :
    (step cfg input s).1.pc = .d2 ∨ (step cfg input s).1.pc.Ends := by
  have negative := negative_of_quiet quiet (by rw [label]; decide)
  simp only [step, label, stepD2]
  rw [if_pos ?_]
  · rw [goto_pc]
    split
    · exact .inr trivial
    · exact .inl rfl
  · unfold awaitDcs
    split
    · exact .inr negative
    · rename_i failed
      exact .inl failed

/-- The post-page message is repeated unless the answer is about the page. -/
theorem stepSendppm_stays (retries : cfg.noretry = false) (label : s.pc = .sendppm)
    (other : ¬ input.answer.getfr.Confirms ∧ ¬ input.answer.getfr.Rejects) :
    (step cfg input s).1 = (s.awaitPpm input).goto .sendppm ∨ (step cfg input s).1.pc.Ends := by
  simp only [step, label]
  rcases stepSendppm_cases s retries input with
    ⟨confirms, -⟩ | ⟨-, -, (eq | eq) | ⟨rejects, -⟩ | eq⟩
  · exact absurd confirms other.1
  · exact .inl eq
  · rw [eq]
    exact .inr trivial
  · exact absurd rejects other.2
  · rw [eq]
    exact .inr trivial

theorem quiet_answer (negative : input.answer.getfr.negative = true) :
    ¬ input.answer.getfr.Confirms ∧ ¬ input.answer.getfr.Rejects := by
  refine ⟨Frame.not_confirms_of_negative negative, ?_⟩
  rintro (frame | frame) <;> rw [frame] at negative <;> cases negative

/-- Only `I_2` and the post-page message itself lead to it. -/
theorem sendppm_from (next : (step cfg input s).1.pc = .sendppm) : s.pc = .i2 ∨ s.pc = .sendppm := by
  have jump : (step cfg input s).1.pc ∈ s.pc.targets := step_targets input
  rw [next] at jump
  cases label : s.pc <;> simp [label, Label.targets] at jump ⊢

/-- Apart from `D_2`, only the labels that send a page lead to one of them. -/
theorem sendsPage_from (away : s.pc ≠ .d2) (next : (step cfg input s).1.pc.SendsPage) :
    s.pc.SendsPage := by
  have jump : (step cfg input s).1.pc ∈ s.pc.targets := step_targets input
  have sources : ∀ l : Label, l ≠ .d2 → ∀ l' ∈ l.targets, l'.SendsPage → l.SendsPage := by
    intro l
    cases l <;> simp [Label.targets, Label.SendsPage]
  exact sources s.pc away _ jump next

/-- While the post-page message is repeated the page at hand stays, and so does an error. -/
theorem sendppm_again (retries : cfg.noretry = false) (label : s.pc = .sendppm)
    (next : (step cfg input s).1.pc = .sendppm) :
    (step cfg input s).1.p = s.p ∧ ((step cfg input s).1.err = 0 → s.err = 0) := by
  simp only [step, label] at next ⊢
  have leaves {s' : Call} : s'.leavePpm.pc ≠ .sendppm := by
    intro stays
    have jumps : Label.sendppm ∈ [Label.e, .i, .d, .r, .c, .t] := stays ▸ afterPpm_mem (s := s')
    simp at jumps
  rcases stepSendppm_cases s retries input with
    ⟨-, eq⟩ | ⟨-, -, (eq | eq) | ⟨-, eq⟩ | eq⟩ <;> rw [eq] at next ⊢
  · exact absurd next leaves
  · exact ⟨rfl, fun noErr => (unlessErr_eq_zero.1 noErr).1⟩
  · cases next
  · exact absurd next leaves
  · cases next

/-- The transmitter stays where it awaits an answer until a frame comes. -/
theorem Awaits.quiet (retries : cfg.noretry = false) {frame : Frame} (awaits : s.Awaits frame)
    (quiet : s.hears input = none) :
    (step cfg input s).1.Awaits frame ∧ (step cfg input s).2.findSome? Event.page? = none := by
  have unsent (away : s.pc ≠ .i2) : (step cfg input s).2.findSome? Event.page? = none := by
    rw [Option.eq_none_iff_forall_ne_some]
    exact fun page found => away (sendData_origin (findSome_page _ found)).1
  rcases awaits with ends | place
  · refine ⟨.inl (ends_step ends), unsent fun label => ?_⟩
    rw [label] at ends
    exact ends
  · have labels := frame.place_cases place
    rcases labels with label | label
    · refine ⟨?_, unsent (by rw [label]; decide)⟩
      rw [label] at place
      rcases stepD2_quiet cfg label quiet with stays | ends
      · exact .inr (stays ▸ place)
      · exact .inl ends
    · refine ⟨?_, unsent (by rw [label]; decide)⟩
      rw [label] at place
      have answer := quiet_answer (negative_of_quiet quiet (by rw [label]; decide))
      rcases stepSendppm_stays retries label answer with eq | ends
      · exact .inr (by rw [eq]; exact place)
      · exact .inl ends

end Call

/-! ## The receiver -/

/-- The labels of a call that only receives. -/
def Label.Answers (l : Label) : Prop := l.Receives ∨ l = .r ∨ l = .rLoop ∨ l.Ends

/-- What a transmitter says. -/
def commands : List Frame := [.dcs, .mps, .eom, .eop, .dcn]

/-- The receiver acts on what a transmitter says. -/
structure Receiver (s : Call) : Prop where
  label : s.pc.Answers
  command : s.pc = .f2 → s.frame ∈ commands

namespace Call

variable {cfg : Config} {s : Call} {input : Input}

theorem frame_of_positive {answer : Answer} (positive : answer.getfr.positive = true) :
    ∃ fcf fif, answer = .frame fcf fif := by
  cases answer with
  | timeout | carrier => cases positive
  | frame fcf fif => exact ⟨fcf, fif, rfl⟩

theorem frame_of_not_negative {answer : Answer} (come : ¬ answer.getfr.negative = true) :
    ∃ fcf fif, answer = .frame fcf fif := by
  cases answer with
  | timeout | carrier => exact absurd rfl come
  | frame fcf fif => exact ⟨fcf, fif, rfl⟩

/-- A command is acted on only when it was heard. -/
theorem hears_of_f2 (next : (step cfg input s).1.pc = .f2) :
    s.hears input = some ((step cfg input s).1.frame, (step cfg input s).1.fif) := by
  have jump : (step cfg input s).1.pc ∈ s.pc.targets := step_targets input
  rw [next] at jump
  cases label : s.pc with
  | rLoop =>
    simp only [step, label, stepRLoop] at next ⊢
    split at next
    · rename_i more
      rw [if_pos more]
      dsimp only at next ⊢
      split at next
      · rename_i positive
        obtain ⟨fcf, fif, answer⟩ := frame_of_positive positive
        rw [if_pos positive, hears_eq answer (by rw [label]; decide), answer]
        rfl
      · simp [sendDis, getfr, label] at next
    · rw [goto_pc] at next
      split at next <;> cases next
  | f =>
    simp only [step, label, stepF] at next ⊢
    have taken (s' : Call) (same : s'.frame = input.answer.getfr ∧ s'.fif = input.answer.buffer s.fif)
        (f2 : s'.takeCommand.pc = .f2) :
        s.hears input = some (s'.takeCommand.frame, s'.takeCommand.fif) := by
      have come : ¬ input.answer.getfr.negative = true := by
        rw [← same.1]
        intro negative
        unfold takeCommand at f2
        rw [if_neg (not_not.2 negative)] at f2
        split at f2
        · cases f2
        · split at f2 <;> cases f2
      obtain ⟨fcf, fif, answer⟩ := frame_of_not_negative come
      obtain ⟨pc, err, form⟩ := takeCommand_form s'
      rw [hears_eq answer (by rw [label]; decide), form, same.1, same.2, answer]
      rfl
    split at next
    · rename_i pending
      rw [if_pos pending]
      split at next
      · cases next
      · rename_i closed
        rw [if_neg closed]
        exact taken _ ⟨rfl, rfl⟩ next
    · rename_i pending
      rw [if_neg pending]
      exact taken _ ⟨rfl, rfl⟩ next
  | _ => simp [label, Label.targets] at jump

end Call

open Call in
/-- The receiver stays one. -/
theorem Receiver.step {cfg : Config} {s : Call} {input : Input} (inv : Receiver s)
    (heard : ∀ m ∈ s.hears input, m.1 ∈ commands) : Receiver (Call.step cfg input s).1 := by
  refine ⟨?_, fun next => ?_⟩
  · have jump : (Call.step cfg input s).1.pc ∈ s.pc.targets := step_targets input
    have jumps : ∀ l : Label, l.Answers → l ≠ .f2 → ∀ l' ∈ l.targets, l'.Answers := by
      intro l
      cases l <;> simp [Label.targets, Label.Answers, Label.Receives, Label.Ends]
    by_cases f2 : s.pc = .f2
    · have command := inv.command f2
      simp only [commands, List.mem_cons, List.not_mem_nil, or_false] at command
      simp only [Call.step, f2, stepF2]
      rcases command with frame | frame | frame | frame | frame <;> rw [frame]
      · unfold stepDcs
        dsimp only
        split <;> exact .inl trivial
      case inr.inr.inr.inr => exact .inr (.inr (.inr trivial))
      all_goals
        unfold stepPostPage
        dsimp only
        split <;> exact .inl trivial
    · exact jumps s.pc inv.label f2 _ jump
  · exact heard _ (hears_of_f2 next)

end QFax.Efax

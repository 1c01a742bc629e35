import QFax.Lib.Machine
import QFax.Linmodem.V8Stream

/-!
# V.8: the two modems agree

A caller and an answerer take turns in any order.  Each turn is one call of `V8_process`; the bits that
a modem sends wait on the line until the other one hears them, and only bits before the first heard
one may be missed.  Whatever the order, the two modems leave V.8 with the same modulation.
-/

namespace QFax.Linmodem

open Machine

/-- One call of `V8_process`. -/
structure V8Turn where
  /-- Whose call it is. -/
  calling : Bool
  /-- Bits that are sent, when the modulator runs. -/
  modulated : Nat
  /-- Bits that are lost before the first one is heard. -/
  missed : Nat
  /-- Bits that are heard, when the demodulator runs. -/
  heard : Nat
  ansam : Bool
  timer : Bool

/-- A modem leaves V.8: the state before the call, and the value returned. -/
structure V8Exit where
  calling : Bool
  state : V8Phase
  value : Nat
  deriving DecidableEq

structure V8Call where
  caller : V8State
  answerer : V8State
  toCaller : V8Line
  toAnswerer : V8Line

/-- The turn of a modem between the line to it and the line from it. -/
def modemTurn (s : V8State) (l_in l_out : V8Line) (t : V8Turn) :
    V8State × V8Line × V8Line × List V8Exit :=
  let (bits, l_in) := if V8State.listens s.state then V8State.deliver l_in t.missed t.heard
    else ([], l_in)
  let (sent, s', ret) := s.V8_process ⟨t.modulated, bits, t.ansam, t.timer⟩
  (s', l_in, ⟨l_out.bits ++ sent, l_out.heard⟩,
    if ret = 0 then [] else [⟨t.calling, s.state, ret⟩])

def V8Call.step : Step V8Call V8Turn V8Exit := fun t c =>
  if t.calling then
    let (s, l_in, l_out, exits) := modemTurn c.caller c.toCaller c.toAnswerer t
    (⟨s, c.answerer, l_in, l_out⟩, exits)
  else
    let (s, l_in, l_out, exits) := modemTurn c.answerer c.toAnswerer c.toCaller t
    (⟨c.caller, s, l_out, l_in⟩, exits)

/-- Two modems with their masks, before the first call. -/
def V8Call.start (callerMask answererMask : Nat) : V8Call :=
  ⟨V8State.V8_init true callerMask, V8State.V8_init false answererMask, ⟨[], false⟩, ⟨[], false⟩⟩

/-- The first of the modulations, by priority, that both masks contain. -/
def bestCommon (mask mask' : Nat) : Nat :=
  ([V8_MOD_V90, V8_MOD_V34, V8_MOD_V23, V8_MOD_V21].find? fun m =>
    hasMod mask m && hasMod mask' m).getD V8_MOD_HANGUP

/-! ## Masks -/

/-- The modulations in both. -/
def V8Flags.inter (f g : V8Flags) : V8Flags :=
  ⟨f.v90 && g.v90, f.v34 && g.v34, f.v23 && g.v23, f.v21 && g.v21⟩

theorem hasMod_and {n : Nat} (mask mask' : Nat) :
    hasMod (mask &&& mask') (1 <<< n) = (hasMod mask (1 <<< n) && hasMod mask' (1 <<< n)) := by
  have bit : ∀ m, hasMod m (1 <<< n) = m.testBit n := by
    intro m
    rw [hasMod, Nat.one_shiftLeft, Nat.and_two_pow]
    cases m.testBit n <;> simp
  rw [bit, bit, bit, Nat.testBit_and]

theorem ofMask_and (mask mask' : Nat) :
    V8Flags.ofMask (mask &&& mask') = (V8Flags.ofMask mask).inter (V8Flags.ofMask mask') := by
  simp only [V8Flags.ofMask, V8Flags.inter, V8_MOD_V90, V8_MOD_V34, V8_MOD_V23, V8_MOD_V21,
    hasMod_and]

/-- The selection depends on the four modulations only. -/
theorem select_modulation_eq {m mask mask' : Nat}
    (common : V8Flags.ofMask m = (V8Flags.ofMask mask).inter (V8Flags.ofMask mask')) :
    select_modulation m = bestCommon mask mask' := by
  have v90 : hasMod m V8_MOD_V90 = _ := congrArg V8Flags.v90 common
  have v34 : hasMod m V8_MOD_V34 = _ := congrArg V8Flags.v34 common
  have v23 : hasMod m V8_MOD_V23 = _ := congrArg V8Flags.v23 common
  have v21 : hasMod m V8_MOD_V21 = _ := congrArg V8Flags.v21 common
  simp only [V8Flags.inter, V8Flags.ofMask] at v90 v34 v23 v21
  simp only [bestCommon, select_modulation, List.find?, ← v90, ← v34, ← v23, ← v21]
  cases hasMod m V8_MOD_V90 <;> cases hasMod m V8_MOD_V34 <;> cases hasMod m V8_MOD_V23 <;>
    cases hasMod m V8_MOD_V21 <;> rfl

/-! ## The invariant -/

namespace V8Phase

/-- The states of the caller. -/
def isCaller : V8Phase → Bool
  | .wait1Second | .ci | .ciSend | .ciOff | .gotAnsam | .cmSend | .cjSend | .sigc => true
  | _ => false

/-- The caller has nothing queued. -/
def quiet : V8Phase → Bool
  | .wait1Second | .ci | .ciOff | .gotAnsam => true
  | _ => false

/-- The modem has not begun to listen. -/
def deaf : V8Phase → Bool
  | .wait1Second | .ci | .ciSend | .ciOff | .gotAnsam | .wait => true
  | _ => false

/-- The caller has decoded JM and flushed its queue. -/
def flushed : V8Phase → Bool
  | .cjSend | .sigc => true
  | _ => false

/-- The answerer has decoded CM. -/
def answered : V8Phase → Bool
  | .jmSend | .siga => true
  | _ => false

theorem quiet_of_modulates {p : V8Phase} (runs : V8State.modulates p = true) : p.quiet = false := by
  revert runs
  cases p <;> decide

theorem deaf_of_listens {p : V8Phase} (runs : V8State.listens p = true) : p.deaf = false := by
  revert runs
  cases p <;> decide

end V8Phase

/-- The modulations that a modem has selected are those of the flags. -/
def V8State.Selected (s : V8State) (f : V8Flags) : Prop :=
  V8Flags.ofMask s.selected_mod_mask = f ∧
    s.selected_modulation = select_modulation s.selected_mod_mask

structure V8Call.Inv (mask mask' : Nat) (c : V8Call) : Prop where
  callerMask : c.caller.modulation_mask = mask
  answererMask : c.answerer.modulation_mask = mask'
  callerSize : c.caller.tx_fifo.max_size = 256
  answererSize : c.answerer.tx_fifo.max_size = 256
  callerPhase : c.caller.state.isCaller = true
  answererPhase : c.answerer.state.isCaller = false
  callerQuiet : c.caller.state.quiet = true → c.caller.tx_fifo.items = []
  callerDeaf : c.caller.state.deaf = true → c.toCaller.heard = false
  answererDeaf : c.answerer.state.deaf = true → c.toAnswerer.heard = false
  /-- Until it is flushed, the queue of the caller continues the stream that the answerer hears. -/
  answererEar : c.caller.state.flushed = false → EarOk (V8Flags.ofMask mask) c.answerer c.toAnswerer
    (c.toAnswerer.bits ++ c.caller.tx_fifo.items)
  callerEar : EarOk ((V8Flags.ofMask mask).inter (V8Flags.ofMask mask')) c.caller c.toCaller
    (c.toCaller.bits ++ c.answerer.tx_fifo.items)
  unanswered : c.answerer.state.answered = false →
    c.answerer.tx_fifo.items = [] ∧ c.toCaller = ⟨[], false⟩
  answered : c.answerer.state.answered = true → c.answerer.menu.got_cm = true ∧
    c.answerer.Selected ((V8Flags.ofMask mask).inter (V8Flags.ofMask mask'))
  chosen : c.caller.state.flushed = true → c.answerer.state.answered = true ∧
    c.caller.Selected ((V8Flags.ofMask mask).inter (V8Flags.ofMask mask'))

namespace V8Call

variable {mask mask' : Nat} {c : V8Call}

theorem Inv.start : (start mask mask').Inv mask mask' where
  callerMask := rfl
  answererMask := rfl
  callerSize := rfl
  answererSize := rfl
  callerPhase := rfl
  answererPhase := rfl
  callerQuiet _ := rfl
  callerDeaf _ := rfl
  answererDeaf _ := rfl
  answererEar _ := ⟨(fun none => nomatch none), fun _ => Rest.nil, fun _ none => nomatch none⟩
  callerEar := ⟨(fun none => nomatch none), fun _ => Rest.nil, fun _ none => nomatch none⟩
  unanswered _ := ⟨rfl, rfl⟩
  answered none := nomatch none
  chosen none := nomatch none

/-! ## The caller -/

/-- The modulator of the caller runs. -/
theorem Inv.callerSends (inv : c.Inv mask mask') (n : Nat)
    (runs : V8State.modulates c.caller.state = true) :
    Inv mask mask' { c with
      caller := (c.caller.get_bits n).2
      toAnswerer := ⟨c.toAnswerer.bits ++ (c.caller.get_bits n).1, c.toAnswerer.heard⟩ } := by
  obtain ⟨f, k, eq, size, sent⟩ := c.caller.get_bits_eq n
  rw [eq]
  refine { inv with
    callerSize := size.trans inv.callerSize
    callerQuiet := fun quiet => absurd quiet (by rw [V8Phase.quiet_of_modulates runs]; decide)
    callerEar := inv.callerEar.congr rfl rfl id
    answererEar := fun unflushed => ?_ }
  have idle := (inv.answererEar unflushed).idle k
  rw [List.append_assoc, ← sent, ← List.append_assoc] at idle
  exact idle.congr rfl rfl id

/-- The demodulator of the caller runs. -/
theorem Inv.callerHears (inv : c.Inv mask mask') (missed n : Nat)
    (runs : V8State.listens c.caller.state = true) :
    Inv mask mask' { c with
      caller := (V8State.deliver c.toCaller missed n).1.foldl V8State.put_bit c.caller
      toCaller := (V8State.deliver c.toCaller missed n).2 } := by
  have ear := inv.callerEar.deliver runs missed n
  obtain ⟨data, menu, zeros, eq⟩ := c.caller.put_bit_frame (V8State.deliver c.toCaller missed n).1
  rw [eq] at ear ⊢
  refine { inv with
    callerDeaf := fun deaf => absurd deaf (by rw [V8Phase.deaf_of_listens runs]; decide)
    callerEar := ear
    unanswered := fun unanswered => ?_ }
  obtain ⟨empty, line⟩ := inv.unanswered unanswered
  refine ⟨empty, ?_⟩
  simp [line, V8State.deliver]

/-- A step of the caller that sends blocks and does not flush the queue. -/
theorem Inv.callerMoves (inv : c.Inv mask mask') {s : V8State}
    (unflushed : c.caller.state.flushed = false)
    (modulation_mask : s.modulation_mask = c.caller.modulation_mask)
    (size : s.tx_fifo.max_size = 256) (phase : s.state.isCaller = true)
    (flushed : s.state.flushed = false) (quiet : s.state.quiet = true → s.tx_fifo.items = [])
    (deaf : s.state.deaf = true → c.caller.state.deaf = true)
    (kinds : List V8Sync) (queued : s.tx_fifo.items =
      c.caller.tx_fifo.items ++ (kinds.map (V8Flags.ofMask mask).packet).flatten)
    (ear : EarOk ((V8Flags.ofMask mask).inter (V8Flags.ofMask mask')) s c.toCaller
      (c.toCaller.bits ++ c.answerer.tx_fifo.items)) :
    Inv mask mask' { c with caller := s } := by
  refine { inv with
    callerMask := modulation_mask.trans inv.callerMask
    callerSize := size
    callerPhase := phase
    callerQuiet := quiet
    callerDeaf := fun still => inv.callerDeaf (deaf still)
    answererEar := fun _ => ?_
    callerEar := ear
    chosen := fun chosen => absurd chosen (by rw [flushed]; decide) }
  have blocks : ∀ b ∈ kinds.map (V8Flags.ofMask mask).packet, (V8Flags.ofMask mask).IsBlock b := by
    intro b mem
    obtain ⟨kind, -, rfl⟩ := List.mem_map.1 mem
    exact .inr ⟨kind, rfl⟩
  have more := (inv.answererEar unflushed).blocks blocks
  rwa [List.append_assoc, ← queued] at more

/-- A step of the caller that only changes its state and counters. -/
theorem Inv.callerWaits (inv : c.Inv mask mask') {s : V8State} {p : V8Phase}
    (before : c.caller.state = p) (unflushed : p.flushed = false)
    (same : s.modulation_mask = c.caller.modulation_mask ∧ s.tx_fifo = c.caller.tx_fifo ∧
      s.ear = c.caller.ear)
    (phase : s.state.isCaller = true ∧ s.state.flushed = false ∧
      (s.state.quiet = true → s.tx_fifo.items = []) ∧ (s.state.deaf = true → p.deaf = true) ∧
      (V8State.listens s.state = true → V8State.listens p = true)) :
    Inv mask mask' { c with caller := s } := by
  subst before
  refine inv.callerMoves unflushed same.1 (by rw [same.2.1]; exact inv.callerSize) phase.1
    phase.2.1 phase.2.2.1 phase.2.2.2.1 [] (by rw [same.2.1]; exact (List.append_nil _).symm) ?_
  exact inv.callerEar.congr same.2.2 rfl phase.2.2.2.2

/-- The caller has decoded JM: CM was decoded before. -/
theorem Inv.callerFlushes (inv : c.Inv mask mask') (state : c.caller.state = .cmSend)
    (got : c.caller.menu.got_cm = true) {q : SmFifo Bool} (size : q.max_size = 256) :
    Inv mask mask' { c with caller := { c.caller.select with tx_fifo := q, state := .cjSend } } := by
  have listening : V8State.listens c.caller.state = true := by rw [state]; rfl
  have heard := inv.callerEar.heard_of_got listening got
  have answered : c.answerer.state.answered = true := by
    cases answered : c.answerer.state.answered with
    | true => rfl
    | false => rw [(inv.unanswered answered).2] at heard; cases heard
  have menu := (inv.callerEar.good listening).decoded got
  refine { inv with
    callerSize := size
    callerPhase := rfl
    callerQuiet := fun none => nomatch none
    callerDeaf := fun none => nomatch none
    answererEar := fun none => nomatch none
    callerEar := inv.callerEar.congr rfl rfl fun none => nomatch none
    chosen := fun _ => ⟨answered, ?_, rfl⟩ }
  have both := ofMask_and c.caller.modulation_mask c.caller.menu.decoded_modulations
  rw [menu] at both
  refine both.trans ?_
  rw [inv.callerMask]
  simp [V8Flags.inter]

/-- The state machine of the caller runs. -/
theorem Inv.callerControls (inv : c.Inv mask mask') (timer : Bool) :
    Inv mask mask' { c with caller := (c.caller.control timer).1 } ∧
      (c.caller.state = .sigc → (c.caller.control timer).2 ≠ 0 →
        (c.caller.control timer).2 = bestCommon mask mask') := by
  have phase := inv.callerPhase
  cases state : c.caller.state with
  | wait | cmWait | jmSend | siga => rw [state] at phase; cases phase
  | wait1Second =>
    simp only [V8State.control, state]
    refine ⟨?_, fun none => nomatch none⟩
    have empty := inv.callerQuiet (by rw [state]; rfl)
    cases timer
    · exact inv
    · exact inv.callerWaits state rfl ⟨rfl, rfl, rfl⟩ ⟨rfl, rfl, fun _ => empty, id, id⟩
  | ci =>
    simp only [V8State.control, state]
    refine ⟨?_, fun none => nomatch none⟩
    have empty := inv.callerQuiet (by rw [state]; rfl)
    obtain ⟨items, size⟩ := queue_packets empty inv.callerSize (V8Flags.ofMask mask)
      [.ci, .ci, .ci, .ci] le_rfl
    have all : V8State.ci_send (V8State.ci_send (V8State.ci_send (V8State.ci_send
        c.caller.tx_fifo))) = (([.ci, .ci, .ci, .ci] : List V8Sync).map
          (V8Flags.ofMask mask).packet).flatten.foldl sm_put_bit c.caller.tx_fifo := by
      simp only [V8State.ci_send_eq _ (V8Flags.ofMask mask), List.map_cons, List.map_nil,
        List.flatten_cons, List.flatten_nil, List.foldl_append, List.foldl_nil]
    rw [all]
    exact inv.callerMoves (by rw [state]; rfl) rfl size rfl rfl (fun none => nomatch none)
      (fun _ => by rw [state]; rfl) [.ci, .ci, .ci, .ci] (by rw [items, empty]; rfl)
      (inv.callerEar.congr rfl rfl fun none => nomatch none)
  | ciSend =>
    simp only [V8State.control, state]
    refine ⟨?_, fun none => nomatch none⟩
    split
    · rename_i drained
      exact inv.callerWaits state rfl ⟨rfl, rfl, rfl⟩
        ⟨rfl, rfl, fun _ => List.length_eq_zero_iff.1 drained, id, id⟩
    · exact inv
  | ciOff =>
    simp only [V8State.control, state]
    have empty := inv.callerQuiet (by rw [state]; rfl)
    refine ⟨?_, fun none => nomatch none⟩
    split
    · exact inv.callerWaits state rfl ⟨rfl, rfl, rfl⟩ ⟨rfl, rfl, fun _ => empty, id, id⟩
    · split
      · split
        · exact inv.callerWaits state rfl ⟨rfl, rfl, rfl⟩
            ⟨rfl, rfl, fun _ => empty, id, id⟩
        · exact inv.callerWaits state rfl ⟨rfl, rfl, rfl⟩ ⟨rfl, rfl, fun _ => empty, id, id⟩
      · exact inv
  | gotAnsam =>
    simp only [V8State.control, state]
    refine ⟨?_, fun none => nomatch none⟩
    cases timer with
    | false => exact inv
    | true =>
      have deaf := inv.callerDeaf (by rw [state]; rfl)
      refine inv.callerMoves (by rw [state]; rfl) rfl inv.callerSize rfl rfl
        (fun none => nomatch none) (fun none => nomatch none) [] (List.append_nil _).symm ?_
      exact ⟨fun heard => absurd heard (by rw [deaf]; decide), inv.callerEar.unheard,
        fun _ _ => ⟨rfl, rfl, rfl, rfl⟩⟩
  | cmSend =>
    simp only [V8State.control, state]
    refine ⟨?_, fun none => nomatch none⟩
    split
    · rename_i got
      exact inv.callerFlushes state got ((v8_put_bytes_max_size _ _).trans inv.callerSize)
    · split
      · rename_i drained
        have empty : c.caller.tx_fifo.items = [] := List.length_eq_zero_iff.1 drained
        obtain ⟨items, size⟩ := queue_packets empty inv.callerSize (V8Flags.ofMask mask)
          [.cm] (by decide)
        rw [V8State.cm_send_eq, inv.callerMask]
        rw [List.map_cons, List.map_nil, List.flatten_cons, List.flatten_nil, List.append_nil]
          at items size
        exact inv.callerMoves (by rw [state]; rfl) inv.callerMask.symm size rfl rfl
          (fun none => nomatch none) (fun none => nomatch none) [.cm] (by rw [items, empty]; simp)
          (inv.callerEar.congr rfl rfl fun _ => by rw [state]; rfl)
      · exact inv
  | cjSend =>
    simp only [V8State.control, state]
    refine ⟨?_, fun none => nomatch none⟩
    split
    · have chosen := inv.chosen (by rw [state]; rfl)
      exact { inv with
        callerPhase := rfl
        callerQuiet := fun none => nomatch none
        callerDeaf := fun none => nomatch none
        answererEar := fun none => nomatch none
        callerEar := inv.callerEar.congr rfl rfl fun none => nomatch none
        chosen := fun _ => chosen }
    · exact inv
  | sigc =>
    simp only [V8State.control, state]
    refine ⟨inv, fun _ left => ?_⟩
    obtain ⟨-, common, value⟩ := inv.chosen (by rw [state]; rfl)
    cases timer with
    | false => exact absurd rfl left
    | true => exact value.trans (select_modulation_eq common)

/-! ## The answerer -/

/-- The modulator of the answerer runs. -/
theorem Inv.answererSends (inv : c.Inv mask mask') (n : Nat)
    (runs : V8State.modulates c.answerer.state = true) :
    Inv mask mask' { c with
      answerer := (c.answerer.get_bits n).2
      toCaller := ⟨c.toCaller.bits ++ (c.answerer.get_bits n).1, c.toCaller.heard⟩ } := by
  obtain ⟨f, k, eq, size, sent⟩ := c.answerer.get_bits_eq n
  rw [eq]
  have answered : c.answerer.state.answered = true := by
    have phase := inv.answererPhase
    revert runs phase
    cases c.answerer.state <;> decide
  have idle := inv.callerEar.idle k
  rw [List.append_assoc, ← sent, ← List.append_assoc] at idle
  exact { inv with
    answererSize := size.trans inv.answererSize
    answererEar := fun unflushed => (inv.answererEar unflushed).congr rfl rfl id
    callerEar := idle.congr rfl rfl id
    unanswered := fun unanswered => absurd answered (by rw [unanswered]; decide) }

/-- The demodulator of the answerer runs. -/
theorem Inv.answererHears (inv : c.Inv mask mask') (missed n : Nat)
    (runs : V8State.listens c.answerer.state = true) :
    Inv mask mask' { c with
      answerer := (V8State.deliver c.toAnswerer missed n).1.foldl V8State.put_bit c.answerer
      toAnswerer := (V8State.deliver c.toAnswerer missed n).2 } := by
  have ear := V8State.ear_foldl_put_bit c.answerer (V8State.deliver c.toAnswerer missed n).1
  have heard := fun unflushed => (inv.answererEar unflushed).deliver runs missed n
  obtain ⟨data, menu, zeros, eq⟩ :=
    c.answerer.put_bit_frame (V8State.deliver c.toAnswerer missed n).1
  rw [eq] at ear heard ⊢
  refine { inv with
    answererDeaf := fun deaf => absurd deaf (by rw [V8Phase.deaf_of_listens runs]; decide)
    answererEar := heard
    answered := fun answered => ?_ }
  obtain ⟨got, selected⟩ := inv.answered answered
  have same : menu = c.answerer.menu :=
    (congrArg Prod.snd ear).trans (V8Ear.foldl_hear_got got _)
  exact ⟨by rw [same]; exact got, selected⟩

/-- The answerer has decoded CM. -/
theorem Inv.answererAnswers (inv : c.Inv mask mask') (state : c.answerer.state = .cmWait)
    (got : c.answerer.menu.got_cm = true) :
    Inv mask mask' { c with answerer := { c.answerer.select with state := .jmSend } } := by
  have unflushed : c.caller.state.flushed = false := by
    cases flushed : c.caller.state.flushed with
    | false => rfl
    | true =>
      have answered := (inv.chosen flushed).1
      rw [state] at answered
      cases answered
  have listening : V8State.listens c.answerer.state = true := by rw [state]; rfl
  have menu := ((inv.answererEar unflushed).good listening).decoded got
  refine { inv with
    answererPhase := rfl
    answererDeaf := fun none => nomatch none
    answererEar := fun _ => (inv.answererEar unflushed).congr rfl rfl fun _ => listening
    unanswered := fun none => nomatch none
    answered := fun _ => ⟨got, ?_, rfl⟩
    chosen := fun flushed => absurd flushed (by rw [unflushed]; decide) }
  have both := ofMask_and c.answerer.modulation_mask c.answerer.menu.decoded_modulations
  rw [menu] at both
  refine both.trans ?_
  rw [inv.answererMask]
  simp [V8Flags.inter, Bool.and_comm]

/-- The state machine of the answerer runs. -/
theorem Inv.answererControls (inv : c.Inv mask mask') (timer : Bool) :
    Inv mask mask' { c with answerer := (c.answerer.control timer).1 } ∧
      (c.answerer.state = .siga → (c.answerer.control timer).2 ≠ 0 →
        (c.answerer.control timer).2 = bestCommon mask mask') := by
  have phase := inv.answererPhase
  cases state : c.answerer.state with
  | wait1Second | ci | ciSend | ciOff | gotAnsam | cmSend | cjSend | sigc =>
    rw [state] at phase
    cases phase
  | wait =>
    simp only [V8State.control, state]
    refine ⟨?_, fun none => nomatch none⟩
    cases timer with
    | false => exact inv
    | true =>
      have deaf := inv.answererDeaf (by rw [state]; rfl)
      refine { inv with
        answererPhase := rfl
        answererDeaf := fun none => nomatch none
        answererEar := fun unflushed => ⟨fun heard => absurd heard (by rw [deaf]; decide),
          (inv.answererEar unflushed).unheard, fun _ _ => ⟨rfl, rfl, rfl, rfl⟩⟩
        unanswered := fun _ => inv.unanswered (by rw [state]; rfl)
        answered := fun none => nomatch none
        chosen := fun flushed => ?_ }
      have answered := (inv.chosen flushed).1
      rw [state] at answered
      cases answered
  | cmWait =>
    simp only [V8State.control, state]
    refine ⟨?_, fun none => nomatch none⟩
    split
    · exact inv
    · split
      · exact inv.answererAnswers state ‹_›
      · exact inv
  | jmSend =>
    simp only [V8State.control, state]
    refine ⟨?_, fun none => nomatch none⟩
    have answered := inv.answered (by rw [state]; rfl)
    split
    · exact inv
    · split
      · exact { inv with
          answererPhase := rfl
          answererDeaf := fun none => nomatch none
          answererEar := fun unflushed =>
            (inv.answererEar unflushed).congr rfl rfl fun none => nomatch none
          unanswered := fun none => nomatch none
          answered := fun _ => answered
          chosen := fun flushed => ⟨rfl, (inv.chosen flushed).2⟩ }
      · split
        · rename_i drained
          have empty : c.answerer.tx_fifo.items = [] := List.length_eq_zero_iff.1 drained
          have common := answered.2.1
          obtain ⟨items, size⟩ := queue_packets empty inv.answererSize
            ((V8Flags.ofMask mask).inter (V8Flags.ofMask mask')) [.cm] (by decide)
          rw [List.map_cons, List.map_nil, List.flatten_cons, List.flatten_nil, List.append_nil]
            at items size
          rw [V8State.cm_send_eq, common]
          have more := inv.callerEar.append (.inr ⟨.cm, rfl⟩)
          rw [empty, List.append_nil, ← items] at more
          exact { inv with
            answererSize := size
            answererPhase := rfl
            answererDeaf := fun none => nomatch none
            answererEar := fun unflushed =>
              (inv.answererEar unflushed).congr rfl rfl fun _ => by rw [state]; rfl
            callerEar := more
            unanswered := fun none => nomatch none
            answered := fun _ => answered
            chosen := fun flushed => ⟨rfl, (inv.chosen flushed).2⟩ }
        · exact inv
  | siga =>
    simp only [V8State.control, state]
    refine ⟨inv, fun _ left => ?_⟩
    obtain ⟨-, common, value⟩ := inv.answered (by rw [state]; rfl)
    cases timer with
    | false => exact absurd rfl left
    | true => exact value.trans (select_modulation_eq common)

/-! ## Turns -/

/-- The bits that a modem hears in its turn, and the line after it. -/
def hears (s : V8State) (l : V8Line) (t : V8Turn) : List Bool × V8Line :=
  if V8State.listens s.state then V8State.deliver l t.missed t.heard else ([], l)

/-- The bits that a modem sends in its turn, and the modem after it. -/
def sends (s : V8State) (t : V8Turn) : List Bool × V8State :=
  if V8State.modulates s.state then s.get_bits t.modulated else ([], s)

theorem sends_state (s : V8State) (t : V8Turn) : (sends s t).2.state = s.state := by
  unfold sends
  split
  · obtain ⟨f, k, eq, -⟩ := s.get_bits_eq t.modulated
    rw [eq]
  · rfl

/-- A turn: sending, hearing, and the state machine. -/
theorem modemTurn_eq (s : V8State) (l_in l_out : V8Line) (t : V8Turn) :
    let s' := (sends s t).2.demodulate ⟨t.modulated, (hears s l_in t).1, t.ansam, t.timer⟩
    modemTurn s l_in l_out t = ((s'.control t.timer).1, (hears s l_in t).2,
      ⟨l_out.bits ++ (sends s t).1, l_out.heard⟩,
      if (s'.control t.timer).2 = 0 then [] else [⟨t.calling, s.state, (s'.control t.timer).2⟩]) :=
  rfl

theorem hears_sends (s : V8State) (l : V8Line) (t : V8Turn) :
    hears (sends s t).2 l t = hears s l t := by
  rw [hears, hears, sends_state]

theorem not_listens_of_detects {p : V8Phase} (runs : V8State.detects p = true) :
    V8State.listens p = false := by
  revert runs
  cases p <;> decide

theorem Inv.callerDemodulates (inv : c.Inv mask mask') (t : V8Turn) :
    Inv mask mask' { c with
      caller := c.caller.demodulate
        ⟨t.modulated, (hears c.caller c.toCaller t).1, t.ansam, t.timer⟩
      toCaller := (hears c.caller c.toCaller t).2 } := by
  simp only [V8State.demodulate, hears]
  split
  · rename_i detects
    rw [not_listens_of_detects detects]
    exact { inv with
      answererEar := inv.answererEar
      callerEar := inv.callerEar.congr rfl rfl id }
  · split
    · exact inv.callerHears _ _ ‹_›
    · exact inv

theorem Inv.answererDemodulates (inv : c.Inv mask mask') (t : V8Turn) :
    Inv mask mask' { c with
      answerer := c.answerer.demodulate
        ⟨t.modulated, (hears c.answerer c.toAnswerer t).1, t.ansam, t.timer⟩
      toAnswerer := (hears c.answerer c.toAnswerer t).2 } := by
  simp only [V8State.demodulate, hears]
  split
  · rename_i detects
    rw [not_listens_of_detects detects]
    exact { inv with
      answererEar := fun unflushed => (inv.answererEar unflushed).congr rfl rfl id
      callerEar := inv.callerEar }
  · split
    · exact inv.answererHears _ _ ‹_›
    · exact inv

theorem demodulate_state (s : V8State) (i : V8Input) : (s.demodulate i).state = s.state := by
  unfold V8State.demodulate
  split
  · rfl
  · split
    · obtain ⟨data, menu, zeros, eq⟩ := s.put_bit_frame i.demodulated
      rw [eq]
    · rfl

/-- The value that a turn leaves with. -/
theorem exit_value {calling : Bool} {p q : V8Phase} {v m : Nat} (left : p = q → v ≠ 0 → v = m) :
    ∀ e ∈ if v = 0 then [] else [(⟨calling, p, v⟩ : V8Exit)],
      e.calling = calling ∧ (e.state = q → e.value = m) := by
  split
  · exact fun _ none => absurd none List.not_mem_nil
  · rintro e mem
    obtain rfl := List.mem_singleton.1 mem
    exact ⟨rfl, fun state => left state ‹_›⟩

theorem Inv.callerTurn (inv : c.Inv mask mask') (t : V8Turn) :
    let r := modemTurn c.caller c.toCaller c.toAnswerer t
    Inv mask mask' ⟨r.1, c.answerer, r.2.1, r.2.2.1⟩ ∧
      ∀ e ∈ r.2.2.2, e.calling = t.calling ∧
        (e.state = .sigc → e.value = bestCommon mask mask') := by
  have sent : Inv mask mask' { c with
      caller := (sends c.caller t).2
      toAnswerer := ⟨c.toAnswerer.bits ++ (sends c.caller t).1, c.toAnswerer.heard⟩ } := by
    unfold sends
    split
    · exact inv.callerSends _ ‹_›
    · rw [List.append_nil]
      exact inv
  have heard := sent.callerDemodulates t
  simp only [hears_sends] at heard
  obtain ⟨inv', left⟩ := heard.callerControls t.timer
  rw [modemTurn_eq]
  refine ⟨inv', exit_value fun state => left ?_⟩
  exact (demodulate_state _ _).trans ((sends_state _ _).trans state)

theorem Inv.answererTurn (inv : c.Inv mask mask') (t : V8Turn) :
    let r := modemTurn c.answerer c.toAnswerer c.toCaller t
    Inv mask mask' ⟨c.caller, r.1, r.2.2.1, r.2.1⟩ ∧
      ∀ e ∈ r.2.2.2, e.calling = t.calling ∧
        (e.state = .siga → e.value = bestCommon mask mask') := by
  have sent : Inv mask mask' { c with
      answerer := (sends c.answerer t).2
      toCaller := ⟨c.toCaller.bits ++ (sends c.answerer t).1, c.toCaller.heard⟩ } := by
    unfold sends
    split
    · exact inv.answererSends _ ‹_›
    · rw [List.append_nil]
      exact inv
  have heard := sent.answererDemodulates t
  simp only [hears_sends] at heard
  obtain ⟨inv', left⟩ := heard.answererControls t.timer
  rw [modemTurn_eq]
  refine ⟨inv', exit_value fun state => left ?_⟩
  exact (demodulate_state _ _).trans ((sends_state _ _).trans state)

/-- The values that the modems have left with through `V8_SIGC` and `V8_SIGA` are right. -/
def ExitsRight (mask mask' : Nat) (h : List V8Exit) : Prop :=
  ∀ e ∈ h, e.state = (if e.calling then .sigc else .siga) → e.value = bestCommon mask mask'

theorem ExitsRight.append {h h' : List V8Exit} {p : V8Phase} {calling : Bool}
    (right : ExitsRight mask mask' h) (phase : p = if calling then .sigc else .siga)
    (more : ∀ e ∈ h', e.calling = calling ∧ (e.state = p → e.value = bestCommon mask mask')) :
    ExitsRight mask mask' (h ++ h') := by
  intro e mem state
  obtain early | late := List.mem_append.1 mem
  · exact right e early state
  · obtain ⟨side, value⟩ := more e late
    rw [side, ← phase] at state
    exact value state

/-- Every turn keeps the invariant. -/
theorem Inv.step {h : List V8Exit} (t : V8Turn) (inv : c.Inv mask mask' ∧ ExitsRight mask mask' h) :
    (step t c).1.Inv mask mask' ∧ ExitsRight mask mask' (h ++ (step t c).2) := by
  obtain ⟨inv, right⟩ := inv
  unfold V8Call.step
  cases side : t.calling with
  | true =>
    obtain ⟨inv', exits⟩ := inv.callerTurn t
    rw [side] at exits
    exact ⟨inv', right.append rfl exits⟩
  | false =>
    obtain ⟨inv', exits⟩ := inv.answererTurn t
    rw [side] at exits
    exact ⟨inv', right.append rfl exits⟩

end V8Call

/-- Whenever the caller leaves V.8 through `V8_SIGC` and the answerer through `V8_SIGA`, they leave
with the same value: the best modulation in both masks, or a hang-up. -/
theorem v8_agreement {mask mask' : Nat} {h : List V8Exit} {c : V8Call} {v w : Nat}
    (run : Runs V8Call.step (fun _ _ _ => True) (V8Call.start mask mask') h c)
    (caller : ⟨true, .sigc, v⟩ ∈ h) (answerer : ⟨false, .siga, w⟩ ∈ h) :
    v = w ∧ v = bestCommon mask mask' := by
  have right : V8Call.ExitsRight mask mask' h :=
    (run.invariant (P := fun h c => c.Inv mask mask' ∧ V8Call.ExitsRight mask mask' h)
      ⟨V8Call.Inv.start, fun _ none => absurd none List.not_mem_nil⟩
      fun t inv _ => V8Call.Inv.step t inv).2
  have value : v = bestCommon mask mask' := right _ caller rfl
  exact ⟨value.trans (right _ answerer rfl).symm, value⟩

/-- A call in which every menu is sent three times, and half a CI packet is missed. -/
def shortCall : List V8Turn :=
  let caller modulated heard ansam timer : V8Turn := ⟨true, modulated, 0, heard, ansam, timer⟩
  let answerer modulated heard timer : V8Turn := ⟨false, modulated, 15, heard, false, timer⟩
  [caller 0 0 false true, caller 0 0 false false, caller 120 0 false false, caller 0 0 true false,
    caller 0 0 false true, answerer 0 0 true, caller 0 0 false false, caller 60 0 false false,
    caller 60 0 false false, caller 60 0 false false, answerer 0 500 false, answerer 0 0 false,
    answerer 60 0 false, answerer 60 0 false, answerer 60 0 false, caller 0 200 false false,
    caller 90 0 false false, caller 0 0 false true, answerer 0 100 false, answerer 0 0 true]

/-- A caller with V.90, V.34 and V.21 and an answerer with V.34, V.23 and V.21 take V.34. -/
theorem v8_agreement_v34 : 2 = 2 ∧ 2 = bestCommon 0x1003 0x1402 :=
  v8_agreement (runs_feed V8Call.step shortCall (V8Call.start 0x1003 0x1402))
    (by decide +kernel) (by decide +kernel)

end QFax.Linmodem

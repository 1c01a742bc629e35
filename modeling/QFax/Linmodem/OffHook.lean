import QFax.Linmodem.Modem

/-!
# Seizing the line

The state machine takes the line when it starts a call or answers one, and releases it in
`SM_GO_ONHOOK`.  The states are divided by what the last call of `set_offhook` has asked for; the
states of the ring test are never entered from `lm_init`.
-/

namespace QFax.Linmodem

open Machine

/-- The last value given to `set_offhook`, if it was called. -/
def lastOffhook (h : List ModemEvent) : Option Bool :=
  h.foldl (fun last e => match e with
    | .offhook v => some v
    | _ => last) none

namespace SmState

/-- The line is free. -/
def OnHook (state : SmState) : Prop := state ∈ [idle, call, receive]

/-- The line is taken. -/
def OffHook (state : SmState) : Prop :=
  state ∈ [dtmfDial, dtmfDialWait, dtmfDialWait1, v8, v21, v23, goOnhook]

end SmState

/-- The state of the modem and the state of the line agree. -/
inductive LineAgrees (h : List ModemEvent) (s : Modem) : Prop
  | onHook (state : s.state.OnHook) (line : lastOffhook h ≠ some true)
  | offHook (state : s.state.OffHook) (line : lastOffhook h = some true)

variable {cfg : LinModemConfig} {h : List ModemEvent} {s : Modem}

theorem lastOffhook_snoc (h : List ModemEvent) (e : ModemEvent) :
    lastOffhook (h ++ [e]) = match e with
      | .offhook v => some v
      | _ => lastOffhook h := by
  rw [lastOffhook, List.foldl_append]
  rfl

/-- Events that do not move the hook. -/
theorem lastOffhook_quiet {es : List ModemEvent} (quiet : ∀ v, .offhook v ∉ es) :
    lastOffhook (h ++ es) = lastOffhook h := by
  induction es generalizing h with
  | nil => rw [List.append_nil]
  | cons e es ih =>
    rw [List.append_cons, ih fun v mem => quiet v (List.mem_cons_of_mem e mem), lastOffhook_snoc]
    split
    · exact absurd List.mem_cons_self (quiet _)
    · rfl

theorem SmState.OnHook.not_offHook {state : SmState} (on : state.OnHook) : ¬ state.OffHook := by
  cases state <;> simp_all [SmState.OnHook, SmState.OffHook]

variable (cfg) in
/-- What one step of the state machine does to a line that is free. -/
theorem transition_onHook (on : s.state.OnHook) (ret : Nat) :
    (s.transition cfg ret).1.state.OnHook ∧ (∀ v, .offhook v ∉ (s.transition cfg ret).2) ∨
      (s.transition cfg ret).1.state.OffHook ∧
        ∃ es, (s.transition cfg ret).2 = .offhook true :: es ∧ ∀ v, .offhook v ∉ es := by
  have states : s.state = .idle ∨ s.state = .call ∨ s.state = .receive := by
    simpa [SmState.OnHook] using on
  rcases states with idle | call | receive
  · refine .inl ?_
    simp only [Modem.transition, idle]
    exact ⟨by simp [SmState.OnHook], fun v => List.not_mem_nil⟩
  · refine .inr ?_
    simp only [Modem.transition, call]
    exact ⟨by simp [SmState.OffHook], [], rfl, fun v => List.not_mem_nil⟩
  · refine .inr ?_
    simp only [Modem.transition, receive]
    exact ⟨by simp [SmState.OffHook], _, rfl, fun v => by simp⟩

variable (cfg) in
/-- What one step of the state machine does to a line that is taken: only `SM_GO_ONHOOK` leaves the
states that hold it. -/
theorem transition_offHook (off : s.state.OffHook) (ret : Nat) :
    (s.transition cfg ret).1.state.OffHook ∧ (∀ v, .offhook v ∉ (s.transition cfg ret).2) ∨
      (s.transition cfg ret).1.state = .idle ∧ (s.transition cfg ret).2 = [.offhook false] := by
  unfold Modem.transition
  cases state : s.state
  case goOnhook => exact .inr ⟨rfl, rfl⟩
  case idle | call | receive | predtmfWait | testRing | testRing2 =>
    simp [state, SmState.OffHook] at off
  all_goals
    refine .inl ?_
    simp only
    split_ifs <;> simp [state, SmState.OffHook]

/-- Every transition keeps state and line in agreement. -/
theorem LineAgrees.transition (agrees : LineAgrees h s) (ret : Nat) :
    LineAgrees (h ++ (s.transition cfg ret).2) (s.transition cfg ret).1 := by
  cases agrees with
  | onHook on line =>
    rcases transition_onHook cfg on ret with ⟨on', quiet⟩ | ⟨off', es, events, quiet⟩
    · exact .onHook on' (by rwa [lastOffhook_quiet quiet])
    · refine .offHook off' ?_
      rw [events, List.append_cons, lastOffhook_quiet quiet, lastOffhook_snoc]
  | offHook off line =>
    rcases transition_offHook cfg off ret with ⟨off', quiet⟩ | ⟨idle, events⟩
    · exact .offHook off' (by rwa [lastOffhook_quiet quiet])
    · refine .onHook (by rw [idle]; simp [SmState.OnHook]) ?_
      rw [events, lastOffhook_snoc]
      simp

/-- Only the state matters. -/
theorem LineAgrees.of_state {s' : Modem} (agrees : LineAgrees h s) (same : s'.state = s.state) :
    LineAgrees h s' := by
  cases agrees with
  | onHook on line => exact .onHook (same ▸ on) line
  | offHook off line => exact .offHook (same ▸ off) line

theorem LineAgrees.quiet {e : ModemEvent} (agrees : LineAgrees h s) (quiet : ∀ v, e ≠ .offhook v) :
    LineAgrees (h ++ [e]) s := by
  have same : lastOffhook (h ++ [e]) = lastOffhook h :=
    lastOffhook_quiet fun v mem => quiet v (List.mem_singleton.mp mem).symm
  cases agrees with
  | onHook on line => exact .onHook on (same ▸ line)
  | offHook off line => exact .offHook off (same ▸ line)

/-- A request on an idle modem leaves the line free. -/
theorem LineAgrees.request {s' : Modem} (agrees : LineAgrees h s) (idle : s.state = .idle)
    (on : s'.state.OnHook) : LineAgrees h s' := by
  cases agrees with
  | onHook _ line => exact .onHook on line
  | offHook off _ => exact absurd off (by rw [idle]; simp [SmState.OffHook])

theorem LineAgrees.step (agrees : LineAgrees h s) (input : ModemInput) :
    LineAgrees (h ++ (s.step cfg input).2) (s.step cfg input).1 := by
  cases input with
  | dial pulse number =>
    simp only [Modem.step, Modem.lm_start_dial]
    split
    · exact agrees.quiet (by simp)
    · rename_i idle
      exact (agrees.request (not_not.mp idle) (by simp [SmState.OnHook])).quiet (by simp)
  | receive =>
    simp only [Modem.step, Modem.lm_start_receive]
    split
    · exact agrees.quiet (by simp)
    · rename_i idle
      exact (agrees.request (not_not.mp idle) (by simp [SmState.OnHook])).quiet (by simp)
  | hangup =>
    simp only [Modem.step, Modem.lm_hangup]
    split
    · exact agrees.quiet (by simp)
    · exact LineAgrees.quiet (e := .hangup) (agrees.of_state rfl) (by simp)
  | process nb_samples ret =>
    have modulated : LineAgrees h (s.modulate cfg nb_samples) :=
      agrees.of_state (modulate_frame cfg nb_samples s).1
    exact (modulated.transition ret).of_state rfl

/-- In every run from `lm_init`, with any requests and any outcomes of the protocols, the line is
free whenever the modem is idle or about to take it, and taken in all states of a connection. -/
theorem line_state (cfg : LinModemConfig) (inputs : List ModemInput) :
    let (h, s) := feed (Modem.step cfg) inputs [] lm_init
    (s.state ∈ [.idle, .call, .receive] → lastOffhook h ≠ some true) ∧
      (s.state ∈ [.dtmfDial, .dtmfDialWait, .dtmfDialWait1, .v8, .v21, .v23, .goOnhook] →
        lastOffhook h = some true) := by
  have agrees : LineAgrees (feed (Modem.step cfg) inputs [] lm_init).1
      (feed (Modem.step cfg) inputs [] lm_init).2 :=
    (runs_feed (Modem.step cfg) inputs lm_init).invariant (P := LineAgrees)
      (.onHook (by simp [SmState.OnHook, lm_init]) nofun) fun input agrees _ => agrees.step input
  cases agrees with
  | onHook on line => exact ⟨fun _ => line, fun off => absurd off on.not_offHook⟩
  | offHook off line => exact ⟨fun on => absurd off (SmState.OnHook.not_offHook on), fun _ => line⟩

end QFax.Linmodem

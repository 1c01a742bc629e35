import QFax.Lib.Machine
import QFax.Linmodem.V8
import Mathlib.Data.BitVec

/-!
# The main modem state machine

`sm_process` handles dialling and ringing and then calls the protocol handlers; `lm_start_dial`,
`lm_start_receive` and `lm_hangup` are called from outside at any time.  What `V8_process`,
`V21_process` and `V23_process` return comes with the input of the step that calls them.
-/

namespace QFax.Linmodem

open Machine

/-- States of `sm_process`. -/
inductive SmState
  | idle
  | call
  | goOnhook
  | predtmfWait
  | dtmfDial
  | dtmfDialWait
  | dtmfDialWait1
  | testRing
  | testRing2
  | receive
  | v8
  | v21
  | v23
  deriving DecidableEq

structure LinModemConfig where
  /-- Lengths in ms. -/
  dtmf_digit_length : Nat
  dtmf_pause_length : Nat
  /-- Mask of available modulations. -/
  available_modulations : Nat

def default_lm_config : LinModemConfig := ⟨150, 100, V8_MOD_V21 ||| V8_MOD_V23⟩

/-- The DTMF modulator: whether a digit is playing, and how long it goes on. -/
structure DtmfMod where
  playing : Bool
  samples_left : Nat

structure Modem where
  state : SmState
  hangup_request : Bool
  /-- True if we are the caller. -/
  calling : Bool
  call_num : List Char
  pulse_dial : Bool
  dtmf_timer : Int
  ring_timer : Int
  dtmf_tx : DtmfMod
  /-- Pointer in `call_num`. -/
  dtmf_ptr : Nat
  dtmf_len : Nat
  /-- Current time, in samples. -/
  time : BitVec 32

/-- The modem after `lm_init`. -/
def lm_init : Modem :=
  ⟨.idle, false, false, [], false, 0, 0, ⟨false, 0⟩, 0, 0, 0⟩

inductive ModemInput
  | dial (pulse : Bool) (number : List Char)
  | receive
  | hangup
  /-- A call of `sm_process`, with what its protocol handler returns. -/
  | process (nb_samples : Nat) (ret : Nat)

inductive ModemEvent
  /-- What an entry point returns. -/
  | started
  | refused
  | hangup
  | offhook (v : Bool)
  | v8Init (calling : Bool) (mod_mask : Nat)
  | v21Init (calling : Bool)
  | v23Init (calling : Bool)

/-! ## Dialling -/

section Dtmf

variable (cfg : LinModemConfig) (call_num : List Char) (dtmf_len : Nat)

def dtmf_transl : List Char := "123A456B789C*0#D".toList

/-- Compute parameters for a new digit. -/
def compute_params (s : DtmfMod) (dtmf_ptr : Nat) : DtmfMod × Nat :=
  let nodigit : DtmfMod := ⟨false, cfg.dtmf_pause_length * 8000 / 1000⟩
  -- if we were playing a digit, we make a pause
  if s.playing then (nodigit, dtmf_ptr)
  else if dtmf_ptr < dtmf_len then
    if call_num.getD dtmf_ptr ' ' ∈ dtmf_transl then
      (⟨true, cfg.dtmf_digit_length * 8000 / 1000⟩, dtmf_ptr + 1)
    else (nodigit, dtmf_ptr + 1)
  else (nodigit, dtmf_ptr)

/-- The digits played during some samples. -/
def DTMF_mod : Nat → DtmfMod → Nat → DtmfMod × Nat
  | 0, s, dtmf_ptr => (s, dtmf_ptr)
  | nb + 1, s, dtmf_ptr =>
    let (s, dtmf_ptr) :=
      if s.samples_left = 0 then compute_params cfg call_num dtmf_len s dtmf_ptr else (s, dtmf_ptr)
    DTMF_mod nb { s with samples_left := s.samples_left - 1 } dtmf_ptr

end Dtmf

/-! ## Steps -/

namespace Modem

/-- Timeout of a timer; the delay is in ms. -/
def timerAfter (time : BitVec 32) (delay : Nat) : Int := (time + BitVec.ofNat 32 (delay * 8)).toInt

def expired (time : BitVec 32) (timeout : Int) : Bool := decide (timeout ≤ time.toInt)

variable (cfg : LinModemConfig)

/-- The modulation part. -/
def modulate (nb_samples : Nat) (s : Modem) : Modem :=
  match s.state with
  | .dtmfDialWait | .dtmfDialWait1 =>
    let (dtmf_tx, dtmf_ptr) :=
      DTMF_mod cfg s.call_num s.dtmf_len nb_samples s.dtmf_tx s.dtmf_ptr
    { s with dtmf_tx := dtmf_tx, dtmf_ptr := dtmf_ptr }
  | _ => s

/-- The state machine; `ret` is what the protocol handler returns. -/
def transition (ret : Nat) (s : Modem) : Modem × List ModemEvent :=
  match s.state with
  | .idle => (s, [])
  | .goOnhook => ({ s with state := .idle }, [.offhook false])
  | .predtmfWait => (s, [])
  -- calling modem
  | .call =>
    ({ s with
        calling := true
        hangup_request := false
        state := .dtmfDial
        dtmf_timer := timerAfter s.time 2000 }, [.offhook true])
  | .dtmfDial =>
    if s.hangup_request then ({ s with state := .goOnhook }, [])
    else if expired s.time s.dtmf_timer then
      ({ s with
          dtmf_ptr := 0
          dtmf_len := s.call_num.length
          dtmf_tx := ⟨false, 0⟩
          state := .dtmfDialWait }, [])
    else (s, [])
  | .dtmfDialWait =>
    if s.dtmf_len ≤ s.dtmf_ptr then
      -- wait some time after dialing
      ({ s with dtmf_timer := timerAfter s.time 1000, state := .dtmfDialWait1 }, [])
    else (s, [])
  | .dtmfDialWait1 =>
    if expired s.time s.dtmf_timer then
      -- start of V8
      ({ s with state := .v8 }, [.v8Init true cfg.available_modulations])
    else (s, [])
  -- answer modem
  | .testRing =>
    ({ s with calling := false, ring_timer := timerAfter s.time 5000, state := .testRing2 }, [])
  | .testRing2 =>
    if expired s.time s.ring_timer then ({ s with state := .receive }, []) else (s, [])
  | .receive =>
    ({ s with calling := false, hangup_request := false, state := .v8 },
      [.offhook true, .v8Init false cfg.available_modulations])
  -- both calling & receive
  | .v8 =>
    if s.hangup_request then ({ s with state := .goOnhook }, [])
    else if ret = V8_MOD_HANGUP then ({ s with state := .goOnhook }, [])
    else if ret = V8_MOD_V21 then ({ s with state := .v21 }, [.v21Init s.calling])
    else if ret = V8_MOD_V23 then ({ s with state := .v23 }, [.v23Init s.calling])
    else (s, [])
  | .v21 | .v23 =>
    if ret ≠ 0 ∨ s.hangup_request then ({ s with state := .goOnhook }, []) else (s, [])

def sm_process (nb_samples ret : Nat) (s : Modem) : Modem × List ModemEvent :=
  let (s', events) := (s.modulate cfg nb_samples).transition cfg ret
  ({ s' with time := s.time + BitVec.ofNat 32 nb_samples }, events)

/-- Send a dial request. -/
def lm_start_dial (pulse : Bool) (number : List Char) (s : Modem) : Modem × List ModemEvent :=
  if s.state ≠ .idle then (s, [.refused])
  else ({ s with pulse_dial := pulse, call_num := number, state := .call }, [.started])

/-- Send a receive request. -/
def lm_start_receive (s : Modem) : Modem × List ModemEvent :=
  if s.state ≠ .idle then (s, [.refused]) else ({ s with state := .receive }, [.started])

/-- Disconnect the modem. -/
def lm_hangup (s : Modem) : Modem × List ModemEvent :=
  if s.state = .idle then (s, [.refused]) else ({ s with hangup_request := true }, [.hangup])

def step : Step Modem ModemInput ModemEvent
  | .dial pulse number, s => s.lm_start_dial pulse number
  | .receive, s => s.lm_start_receive
  | .hangup, s => s.lm_hangup
  | .process nb_samples ret, s => s.sm_process cfg nb_samples ret

end Modem

/-! ## Hanging up -/

/-- A hang-up was accepted and the modem has not been on hook since. -/
def pendingHangup (h : List ModemEvent) : Bool :=
  h.foldl (fun pending e => match e with
    | .hangup => true
    | .offhook false => false
    | _ => pending) false

/-- Negotiations and connections. -/
def ModemEvent.starts : ModemEvent → Bool
  | .v8Init .. | .v21Init _ | .v23Init _ => true
  | _ => false

/-- Nothing is started while a hang-up is pending. -/
def NotWhilePending (before : List ModemEvent) (e : ModemEvent) : Prop :=
  e.starts = true → pendingHangup before = false

instance (before : List ModemEvent) (e : ModemEvent) : Decidable (NotWhilePending before e) :=
  inferInstanceAs (Decidable (_ → _))

/-- The states whose next steps look at the request before they clear it or start anything. -/
def SmState.hears : SmState → Bool
  | .call | .dtmfDialWait | .dtmfDialWait1 | .testRing | .testRing2 | .receive => false
  | _ => true

/-- A hang-up comes in a state that hears it. -/
def Heard (_ : List ModemEvent) (s : Modem) : ModemInput → Prop
  | .hangup => s.state.hears = true
  | _ => True

instance : ∀ h s input, Decidable (Heard h s input)
  | _, s, .hangup => inferInstanceAs (Decidable (s.state.hears = true))
  | _, _, .dial .. | _, _, .receive | _, _, .process .. => .isTrue trivial

/-- A pending request is set in a state that tests it next, or the modem is about to be on hook. -/
def Remembered (h : List ModemEvent) (s : Modem) : Prop :=
  pendingHangup h = true → s.state = .goOnhook ∨
    (s.hangup_request = true ∧
      (s.state = .dtmfDial ∨ s.state = .v8 ∨ s.state = .v21 ∨ s.state = .v23 ∨
        s.state = .predtmfWait))

section Hangup

variable {cfg : LinModemConfig} {h : List ModemEvent} {s : Modem}

theorem pendingHangup_snoc (h : List ModemEvent) (e : ModemEvent) :
    pendingHangup (h ++ [e]) = match e with
      | .hangup => true
      | .offhook false => false
      | _ => pendingHangup h := by
  rw [pendingHangup, List.foldl_append]
  rfl

/-- Without a hang-up nothing becomes pending, so that anything may start. -/
theorem free_append {es : List ModemEvent} (free : pendingHangup h = false)
    (all : Always NotWhilePending h) (noHangup : ∀ e ∈ es, e ≠ .hangup) :
    pendingHangup (h ++ es) = false ∧ Always NotWhilePending (h ++ es) := by
  induction es generalizing h with
  | nil => rw [List.append_nil]; exact ⟨free, all⟩
  | cons e es ih =>
    rw [List.append_cons]
    refine ih ?_ (always_snoc.2 ⟨all, fun _ => free⟩)
      fun e' later => noHangup e' (List.mem_cons_of_mem e later)
    rw [pendingHangup_snoc]
    split
    · exact absurd rfl (noHangup _ List.mem_cons_self)
    · rfl
    · exact free

/-- Only `lm_hangup` reports a hang-up. -/
theorem transition_noHangup (ret : Nat) (s : Modem) :
    ∀ e ∈ (s.transition cfg ret).2, e ≠ .hangup := by
  unfold Modem.transition
  cases s.state
  case v8 =>
    simp only
    split_ifs <;> simp
  case dtmfDial | dtmfDialWait | dtmfDialWait1 | testRing2 | v21 | v23 =>
    simp only
    split_ifs <;> simp
  all_goals simp

variable (cfg) in
/-- The modulation part changes the dialling only. -/
theorem modulate_frame (nb_samples : Nat) (s : Modem) :
    (s.modulate cfg nb_samples).state = s.state ∧
      (s.modulate cfg nb_samples).hangup_request = s.hangup_request := by
  unfold Modem.modulate
  split <;> exact ⟨rfl, rfl⟩

variable (cfg) in
/-- A remembered request is honoured before anything starts. -/
theorem remembered_transition (remembered : Remembered h s) (pending : pendingHangup h = true)
    (ret : Nat) : (∀ e ∈ (s.transition cfg ret).2, e = .offhook false) ∧
      Remembered (h ++ (s.transition cfg ret).2) (s.transition cfg ret).1 := by
  have onHook : s.transition cfg ret = ({ s with state := .goOnhook }, []) →
      (∀ e ∈ (s.transition cfg ret).2, e = .offhook false) ∧
        Remembered (h ++ (s.transition cfg ret).2) (s.transition cfg ret).1 := by
    intro step
    rw [step, List.append_nil]
    exact ⟨nofun, fun _ => Or.inl rfl⟩
  rcases remembered pending with hook | ⟨request, dial | v8 | v21 | v23 | wait⟩
  · have step : s.transition cfg ret = ({ s with state := .idle }, [.offhook false]) := by
      simp only [Modem.transition, hook]
    rw [step]
    refine ⟨fun e => List.mem_singleton.mp, fun still => ?_⟩
    rw [pendingHangup_snoc] at still
    cases still
  · exact onHook (by simp only [Modem.transition, dial, request, if_true])
  · exact onHook (by simp only [Modem.transition, v8, request, if_true])
  · exact onHook (by simp only [Modem.transition, v21, request, or_true, if_true])
  · exact onHook (by simp only [Modem.transition, v23, request, or_true, if_true])
  · have step : s.transition cfg ret = (s, []) := by simp only [Modem.transition, wait]
    rw [step, List.append_nil]
    exact ⟨nofun, remembered⟩

/-- An event that starts nothing and changes no request. -/
theorem remembered_event (remembered : Remembered h s) (all : Always NotWhilePending h)
    {e : ModemEvent} (plain : e = .refused ∨ e = .started) :
    Remembered (h ++ [e]) s ∧ Always NotWhilePending (h ++ [e]) := by
  have same : pendingHangup (h ++ [e]) = pendingHangup h := by
    rw [pendingHangup_snoc]
    rcases plain with rfl | rfl <;> rfl
  refine ⟨fun pending => remembered (same ▸ pending), always_snoc.2 ⟨all, fun starts => ?_⟩⟩
  rcases plain with rfl | rfl <;> cases starts

/-- A call can only be started when no request is pending. -/
theorem remembered_start (remembered : Remembered h s) (idle : s.state = .idle) (s' : Modem) :
    Remembered h s' := by
  intro pending
  rcases remembered pending with hook | ⟨-, other⟩
  · rw [idle] at hook
    cases hook
  · simp [idle] at other

theorem remembered_process (remembered : Remembered h s) (all : Always NotWhilePending h)
    (nb_samples ret : Nat) :
    Remembered (h ++ (s.sm_process cfg nb_samples ret).2) (s.sm_process cfg nb_samples ret).1 ∧
      Always NotWhilePending (h ++ (s.sm_process cfg nb_samples ret).2) := by
  obtain ⟨sameState, sameRequest⟩ := modulate_frame cfg nb_samples s
  have remembered' : Remembered h (s.modulate cfg nb_samples) := by
    intro pending
    rw [sameState, sameRequest]
    exact remembered pending
  have events : (s.sm_process cfg nb_samples ret).2 =
      ((s.modulate cfg nb_samples).transition cfg ret).2 := rfl
  rw [events]
  cases pending : pendingHangup h with
  | false =>
    obtain ⟨free, all'⟩ := free_append pending all (transition_noHangup ret _)
    refine ⟨fun still => ?_, all'⟩
    rw [free] at still
    cases still
  | true =>
    obtain ⟨onHook, kept⟩ := remembered_transition cfg remembered' pending ret
    refine ⟨kept, all.append fun e member before starts => ?_⟩
    rw [onHook e member] at starts
    cases starts

/-- Every step keeps a pending request remembered and starts nothing while there is one. -/
theorem remembered_step (remembered : Remembered h s) (all : Always NotWhilePending h)
    {input : ModemInput} (heard : Heard h s input) :
    Remembered (h ++ (s.step cfg input).2) (s.step cfg input).1 ∧
      Always NotWhilePending (h ++ (s.step cfg input).2) := by
  cases input with
  | dial pulse number =>
    simp only [Modem.step, Modem.lm_start_dial]
    split
    · exact remembered_event remembered all (Or.inl rfl)
    · rename_i idle
      exact remembered_event (remembered_start remembered (not_not.mp idle) _) all (Or.inr rfl)
  | receive =>
    simp only [Modem.step, Modem.lm_start_receive]
    split
    · exact remembered_event remembered all (Or.inl rfl)
    · rename_i idle
      exact remembered_event (remembered_start remembered (not_not.mp idle) _) all (Or.inr rfl)
  | hangup =>
    simp only [Modem.step, Modem.lm_hangup]
    split
    · exact remembered_event remembered all (Or.inl rfl)
    · rename_i busy
      refine ⟨fun _ => ?_, always_snoc.2 ⟨all, nofun⟩⟩
      have hears : s.state.hears = true := heard
      cases label : s.state <;> simp_all [SmState.hears]
  | process nb_samples ret => exact remembered_process remembered all nb_samples ret

end Hangup

/-- In every run whose hang-ups come in states that hear them, an accepted hang-up is followed by no
negotiation and no connection until the modem has been on hook. -/
theorem hangup_kept (cfg : LinModemConfig) (start : Modem) {h : List ModemEvent} {s : Modem}
    (run : Runs (Modem.step cfg) Heard start h s) : Always NotWhilePending h := by
  have kept := run.invariant (P := fun h s => Remembered h s ∧ Always NotWhilePending h)
    ⟨nofun, always_nil⟩ fun input inv heard => remembered_step inv.1 inv.2 heard
  exact kept.2

/-- A call is dialled and hung up while the modem waits for the dial tone. -/
theorem hangup_kept_dial : Always NotWhilePending
    (feed (Modem.step default_lm_config) [.dial false ['1', '2'], .process 80 0, .hangup,
      .process 80 0, .process 80 0] [] lm_init).1 :=
  hangup_kept default_lm_config lm_init (Runs.refl.feed (by decide +kernel))

/-- A hang-up accepted just after the start of a call is forgotten: the modem negotiates. -/
theorem early_hangup_lost : ¬ Always NotWhilePending
    (feed (Modem.step default_lm_config) [.receive, .hangup, .process 80 0] [] lm_init).1 := by
  decide +kernel

end QFax.Linmodem

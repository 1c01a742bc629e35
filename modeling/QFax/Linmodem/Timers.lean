import QFax.Linmodem.Modem
import Mathlib.Tactic.Ring

/-!
# Timers

The sample clock is unsigned and goes round.  `sm_time` returns it as an `int`, and a timer holds the
sum of this value and its delay, so that a timer is right while neither the clock nor the timeout
passes `2 ^ 31`.
-/

namespace QFax.Linmodem

open Machine

/-- Current time, in samples. -/
def sm_time (sim_time : BitVec 32) : Int := sim_time.toInt

/-- The timeout of a timer that is set now; the delay is in ms. -/
def sm_set_timer (sim_time : BitVec 32) (delay : Nat) : Int :=
  (sm_time sim_time + (delay * 8000 / 1000 : Nat)).bmod (2 ^ 32)

/-- True if the timer expired. -/
def sm_check_timer (sim_time : BitVec 32) (timeout : Int) : Bool :=
  decide (timeout ≤ sm_time sim_time)

theorem samples_of_delay (delay : Nat) : delay * 8000 / 1000 = delay * 8 := by omega

/-- The timers of the state machine are these. -/
theorem timerAfter_eq (time : BitVec 32) (delay : Nat) :
    Modem.timerAfter time delay = sm_set_timer time delay := by
  rw [Modem.timerAfter, sm_set_timer, sm_time, samples_of_delay, BitVec.toInt_add, BitVec.toInt_ofNat']
  simp

theorem expired_eq (time : BitVec 32) (timeout : Int) :
    Modem.expired time timeout = sm_check_timer time timeout := rfl

/-! ## The clock -/

/-- The samples of a call. -/
def ModemInput.samples : ModemInput → Nat
  | .process nb_samples _ => nb_samples
  | _ => 0

def samplesIn (inputs : List ModemInput) : Nat := (inputs.map ModemInput.samples).sum

theorem time_step (cfg : LinModemConfig) (input : ModemInput) (s : Modem) :
    (Modem.step cfg input s).1.time = s.time + BitVec.ofNat 32 input.samples := by
  cases input with
  | process nb_samples ret => rfl
  | dial pulse number =>
    show (s.lm_start_dial pulse number).1.time = s.time + 0#32
    rw [BitVec.add_zero, Modem.lm_start_dial]
    split <;> rfl
  | receive =>
    show s.lm_start_receive.1.time = s.time + 0#32
    rw [BitVec.add_zero, Modem.lm_start_receive]
    split <;> rfl
  | hangup =>
    show s.lm_hangup.1.time = s.time + 0#32
    rw [BitVec.add_zero, Modem.lm_hangup]
    split <;> rfl

/-- However the samples come in blocks, the clock moves by their number. -/
theorem time_feed (cfg : LinModemConfig) (inputs : List ModemInput) (h : List ModemEvent) (s : Modem) :
    (feed (Modem.step cfg) inputs h s).2.time = s.time + BitVec.ofNat 32 (samplesIn inputs) := by
  induction inputs generalizing h s with
  | nil => exact (BitVec.add_zero _).symm
  | cons input inputs ih =>
    have total : samplesIn (input :: inputs) = input.samples + samplesIn inputs := List.sum_cons
    rw [feed, ih, time_step, total, BitVec.ofNat_add, BitVec.add_assoc]

theorem sm_time_later (time : BitVec 32) (elapsed : Nat) :
    sm_time (time + BitVec.ofNat 32 elapsed) = (sm_time time + elapsed).bmod (2 ^ 32) := by
  rw [sm_time, sm_time, BitVec.toInt_add, BitVec.toInt_ofNat']
  simp

/-! ## Expiry -/

/-- A timer set now is unexpired for `8 * delay` samples and expired for the next `2 ^ 30` samples,
whatever is done in the meantime. -/
def TimerOnTime (cfg : LinModemConfig) (s : Modem) (delay : Nat) : Prop :=
  ∀ more, samplesIn more < 8 * delay + 2 ^ 30 →
    (sm_check_timer (feed (Modem.step cfg) more [] s).2.time (sm_set_timer s.time delay) = true ↔
      8 * delay ≤ samplesIn more)

/-- The same by the number of samples that have passed. -/
theorem timerOnTime_elapsed (cfg : LinModemConfig) (s : Modem) (delay : Nat) :
    TimerOnTime cfg s delay ↔ ∀ elapsed < 8 * delay + 2 ^ 30,
      ((sm_time s.time + (8 * delay : Nat)).bmod (2 ^ 32) ≤ (sm_time s.time + elapsed).bmod (2 ^ 32) ↔
        8 * delay ≤ elapsed) := by
  have delayed : delay * 8000 / 1000 = 8 * delay := by omega
  simp only [TimerOnTime, time_feed, sm_check_timer, sm_set_timer, sm_time_later, delayed,
    decide_eq_true_eq]
  constructor
  · intro onTime elapsed early
    have total : samplesIn [.process elapsed 0] = elapsed := Nat.add_zero elapsed
    have last := onTime [.process elapsed 0]
    rw [total] at last
    exact last early
  · intro onTime more early
    exact onTime (samplesIn more) early

/-- A clock that does not pass `2 ^ 31` keeps its order, and one that passes it does not. -/
theorem timerOnTime_iff (cfg : LinModemConfig) (s : Modem) {delay : Nat}
    (short : delay * 8000 < 2 ^ 31) :
    TimerOnTime cfg s delay ↔ sm_time s.time + 8 * delay + 2 ^ 30 ≤ 2 ^ 31 := by
  have lower : -2 ^ 31 ≤ sm_time s.time := BitVec.le_toInt s.time
  have upper : sm_time s.time < 2 ^ 31 := BitVec.toInt_lt
  rw [timerOnTime_elapsed]
  generalize sm_time s.time = now at lower upper
  constructor
  · intro onTime
    by_contra passed
    -- the first sample at which the clock is negative again
    obtain ⟨wrap, at_wrap⟩ : ∃ wrap : Nat, now + wrap = 2 ^ 31 := ⟨(2 ^ 31 - now).toNat, by omega⟩
    have wrapped : (now + wrap).bmod (2 ^ 32) = -2 ^ 31 := by rw [at_wrap]; rfl
    rcases Nat.lt_or_ge (8 * delay) wrap with before | behind
    · have timeout : (now + (8 * delay : Nat)).bmod (2 ^ 32) = now + (8 * delay : Nat) :=
        Int.bmod_eq_of_le (by omega) (by omega)
      have expired := (onTime wrap (by omega)).mpr before.le
      rw [timeout, wrapped] at expired
      omega
    · have timeout : (now + (8 * delay : Nat)).bmod (2 ^ 32) = now + (8 * delay : Nat) - 2 ^ 32 := by
        rw [← Int.sub_bmod_right, Int.bmod_eq_of_le (by omega) (by omega)]
        rfl
      have start : (now + (0 : Nat)).bmod (2 ^ 32) = now := by
        rw [Int.natCast_zero, Int.add_zero, Int.bmod_eq_of_le (by omega) (by omega)]
      have expired := (onTime 0 (by omega)).mp (by rw [timeout, start]; omega)
      omega
  · intro fits elapsed early
    rw [Int.bmod_eq_of_le (by omega) (by omega), Int.bmod_eq_of_le (by omega) (by omega)]
    omega

/-- After any history, a timer is right for the next `2 ^ 30` samples if and only if the clock, as a
signed number, does not pass `2 ^ 31` in this time. -/
theorem timer_on_time_iff (cfg : LinModemConfig) (inputs : List ModemInput) {delay : Nat}
    (short : delay * 8000 < 2 ^ 31) :
    TimerOnTime cfg (feed (Modem.step cfg) inputs [] lm_init).2 delay ↔
      (BitVec.ofNat 32 (samplesIn inputs)).toInt + 8 * delay + 2 ^ 30 ≤ 2 ^ 31 := by
  have clock : sm_time (feed (Modem.step cfg) inputs [] lm_init).2.time =
      (BitVec.ofNat 32 (samplesIn inputs)).toInt := by
    rw [time_feed, sm_time]
    exact congrArg BitVec.toInt (BitVec.zero_add _)
  rw [timerOnTime_iff cfg _ short, clock]

theorem timer_on_time_dial : TimerOnTime default_lm_config
    (feed (Modem.step default_lm_config) [.dial false ['1'], .process 160 0] [] lm_init).2 2000 :=
  (timer_on_time_iff _ _ (by decide)).mpr (by decide)

/-- After 74 hours in blocks of 40 samples a timer of one second has expired when it is set. -/
theorem timer_expired_early :
    ¬ TimerOnTime default_lm_config (feed (Modem.step default_lm_config)
      (List.replicate 53687090 (.process 40 0)) [] lm_init).2 1000 := by
  intro onTime
  have total : samplesIn (List.replicate 53687090 (.process 40 0)) = 2147483600 := by
    rw [samplesIn, List.map_replicate, List.sum_replicate_nat]
    rfl
  have fits := (timerOnTime_iff _ _ (by decide)).mp onTime
  rw [time_feed, sm_time_later, total] at fits
  have clock : (sm_time lm_init.time + (2147483600 : Nat)).bmod (2 ^ 32) = 2147483600 := by decide
  omega

end QFax.Linmodem

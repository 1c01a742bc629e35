import QFax.Efax.PageOrder
import Mathlib.Tactic.IntervalCases

/-!
# Training rates

Every FTT makes the transmitter fall back to the next rate of a chain.  The rate of a training is the
slower one of the local and the remote rate by `brIndex`, whose order is not that of the chain.
-/

namespace QFax.Efax

open Machine Call

/-- The rates from the fastest to the slowest, each the fallback of the one before. -/
def fallbackChain : List Int := [5, 4, 7, 6, 3, 2, 1, 0]

/-- How far down the chain a rate is. -/
def rung (rate : Int) : Nat := fallbackChain.idxOf rate

/-- A rate that `checkcap` accepts. -/
def IsRate (rate : Int) : Prop := 0 ≤ rate ∧ rate ≤ 7

theorem rung_lt {rate : Int} (valid : IsRate rate) : rung rate < 8 := by
  obtain ⟨low, high⟩ := valid
  interval_cases rate <;> decide

/-- The fallback of a rate is one rung down, and the slowest rate has none. -/
theorem rung_fallback {rate : Int} (valid : IsRate rate) :
    0 ≤ fallback rate ∧ IsRate (fallback rate) ∧ rung (fallback rate) = rung rate + 1 ∨
      fallback rate = -1 ∧ rung rate = 7 := by
  obtain ⟨low, high⟩ := valid
  interval_cases rate <;> simp [fallback, entry, IsRate] <;> decide

theorem isRate_minRate {l r : Int} (valid : IsRate l) (valid' : IsRate r) : IsRate (minRate l r) := by
  unfold minRate
  split
  · exact valid'
  · exact valid

/-- After a fallback the rate is further down, unless 12000 bps is both the local rate and the one
that failed: its fallback, 9600 bps, has a higher `brIndex`. -/
theorem rung_lt_fallback {l r : Int} (valid : IsRate l) (valid' : IsRate r)
    (next : 0 ≤ fallback (minRate l r)) (free : ¬ (l = 4 ∧ minRate l r = 4)) :
    rung (minRate l r) < rung (minRate l (fallback (minRate l r))) := by
  obtain ⟨low, high⟩ := valid
  obtain ⟨low', high'⟩ := valid'
  have all : ∀ l ∈ fallbackChain, ∀ r ∈ fallbackChain, 0 ≤ fallback (minRate l r) →
      ¬ (l = 4 ∧ minRate l r = 4) →
      rung (minRate l r) < rung (minRate l (fallback (minRate l r))) := by decide
  have mem : ∀ rate : Int, 0 ≤ rate → rate ≤ 7 → rate ∈ fallbackChain := by
    intro rate low high
    interval_cases rate <;> decide
  exact all l (mem l low high) r (mem r low' high') next free

/-! ## The rate at a state -/

namespace Call

/-- The rate at which `D_2` trains. -/
def trainingRate (s : Call) : Int := s.negotiate.session .br

theorem isRate_checkCap (c : Cap) : IsRate (checkCap c .br) := checkCap_inRange c .br

theorem checkCap_of_isRate {c : Cap} (valid : IsRate (c .br)) : checkCap c .br = c .br := by
  obtain ⟨low, high⟩ := valid
  have above : ¬ c .br > capMax .br := Int.not_lt.2 high
  have below : ¬ c .br < 0 := Int.not_lt.2 low
  exact if_neg (not_or.2 ⟨above, below⟩)

theorem trainingRate_eq (s : Call) :
    s.trainingRate = minRate (checkCap s.loc .br) (checkCap s.remote .br) := by
  have valid := isRate_minRate (isRate_checkCap s.loc) (isRate_checkCap s.remote)
  have taken : ∀ c : Cap, c .br = minRate (checkCap s.loc .br) (checkCap s.remote .br) →
      checkCap c .br = minRate (checkCap s.loc .br) (checkCap s.remote .br) := by
    intro c eq
    rw [checkCap_of_isRate (eq ▸ valid), eq]
  refine taken _ ?_
  rw [Function.update_of_ne (by decide), Function.update_self]

theorem isRate_trainingRate (s : Call) : IsRate s.trainingRate := by
  rw [trainingRate_eq]
  exact isRate_minRate (isRate_checkCap s.loc) (isRate_checkCap s.remote)

/-- Local and remote rate are unchanged. -/
def SameRates (s s' : Call) : Prop :=
  checkCap s'.loc .br = checkCap s.loc .br ∧ checkCap s'.remote .br = checkCap s.remote .br

theorem SameRates.trainingRate {s s' : Call} (same : SameRates s s') :
    s'.trainingRate = s.trainingRate := by
  rw [trainingRate_eq, trainingRate_eq, same.1, same.2]

theorem SameRates.trans {s s' s'' : Call} (first : SameRates s s') (second : SameRates s' s'') :
    SameRates s s'' :=
  ⟨second.1.trans first.1, second.2.trans first.2⟩

variable {cfg : Config} {s : Call}

variable (cfg s) in
theorem sameRates_readInput (opened : Bool) : SameRates s (readInput cfg opened s).2 := by
  refine ⟨?_, rfl⟩
  simp only [readInput, rdpage]
  split
  · split
    · simp [checkCap, Function.update_of_ne]
    · rfl
  · rfl

/-- A new page leaves the rates alone. -/
theorem sameRates_reading {opened : Bool} {ok failed : Label} :
    SameRates s (if (readInput cfg opened s).1 ≠ 0 then (readInput cfg opened s).2.fail 2 failed
      else (readInput cfg opened s).2.goto ok) := by
  have read := sameRates_readInput cfg s opened
  split
  · exact read.trans ⟨rfl, rfl⟩
  · exact read.trans ⟨rfl, rfl⟩

theorem sameRates_answerPpm : SameRates s (s.answerPpm cfg).1 := by
  unfold answerPpm
  split
  all_goals exact ⟨rfl, rfl⟩

/-- Only a DIS and the answer to a training change the rates. -/
theorem sameRates_step (cfg : Config) (s : Call) (input : Input) (away : s.pc ≠ .a ∧ s.pc ≠ .d2) :
    SameRates s (step cfg input s).1 := by
  cases label : s.pc with
  | a => exact absurd label away.1
  | d2 => exact absurd label away.2
  | t =>
    simp only [step, label, stepT]
    split
    · exact ⟨rfl, rfl⟩
    · split <;> exact ⟨rfl, rfl⟩
  | d | i =>
    simp only [step, label]
    exact sameRates_reading
  | sendppm =>
    simp only [step, label, stepSendppm]
    split
    · exact ⟨rfl, rfl⟩
    · exact SameRates.trans ⟨rfl, rfl⟩ sameRates_answerPpm
  | rLoop =>
    simp only [step, label, stepRLoop]
    split
    · dsimp only
      split <;> exact ⟨rfl, rfl⟩
    · exact ⟨rfl, rfl⟩
  | f =>
    obtain ⟨pc, err, last, frame, fif, writepending, eq⟩ := stepF_form s input
    simp only [step, label, eq]
    exact ⟨rfl, rfl⟩
  | f2 =>
    simp only [step, label, stepF2]
    split <;> exact ⟨rfl, rfl⟩
  | reGetdata =>
    simp only [step, label, stepReGetdata]
    split
    · exact ⟨rfl, rfl⟩
    · split <;> exact ⟨rfl, rfl⟩
  | _ =>
    simp only [step, label]
    exact ⟨rfl, rfl⟩

/-- The training is answered with FTT. -/
def FttAnswered (cfg : Config) (s : Call) (input : Input) : Prop :=
  s.pc = .d2 ∧ ((s.negotiate.sendDcs cfg input).1.awaitDcs input).err = 0 ∧
    ((s.negotiate.sendDcs cfg input).1.awaitDcs input).frame = .ftt

instance (cfg : Config) (s : Call) (input : Input) : Decidable (FttAnswered cfg s input) :=
  inferInstanceAs (Decidable (_ ∧ _))

theorem sameRates_awaitDcs (input : Input) :
    SameRates s ((s.negotiate.sendDcs cfg input).1.awaitDcs input) := by
  have negotiated : SameRates s s.negotiate :=
    ⟨congrFun (checkCap_inRange s.loc).checkCap_eq _,
      congrFun (checkCap_inRange s.remote).checkCap_eq _⟩
  refine negotiated.trans ?_
  unfold awaitDcs
  split <;> exact ⟨rfl, rfl⟩

variable (cfg s) in
theorem session_awaitDcs (input : Input) :
    ((s.negotiate.sendDcs cfg input).1.awaitDcs input).session .br = s.trainingRate := by
  unfold awaitDcs
  split <;> rfl

variable (cfg) in
/-- At `D_2` an FTT lowers the remote rate or ends the call, and any other answer leaves the rates. -/
theorem stepD2_rates (input : Input) (label : s.pc = .d2) :
    FttAnswered cfg s input ∧ (0 ≤ fallback s.trainingRate ∧ (s.stepD2 cfg input).1.pc = .d2 ∧
          checkCap (s.stepD2 cfg input).1.loc .br = checkCap s.loc .br ∧
          (s.stepD2 cfg input).1.remote .br = fallback s.trainingRate ∨
        fallback s.trainingRate < 0 ∧ (s.stepD2 cfg input).1.pc = .c) ∨
      ¬ FttAnswered cfg s input ∧ SameRates s (s.stepD2 cfg input).1 := by
  have same : SameRates s ((s.negotiate.sendDcs cfg input).1.awaitDcs input) :=
    sameRates_awaitDcs input
  have session := session_awaitDcs cfg s input
  unfold FttAnswered stepD2
  dsimp only
  generalize (s.negotiate.sendDcs cfg input).1.awaitDcs input = s' at same session ⊢
  split
  · rename_i failed
    refine .inr ⟨?_, same.trans ⟨rfl, rfl⟩⟩
    rintro ⟨-, err, ftt⟩
    rcases failed with bad | negative
    · exact bad err
    · rw [ftt] at negative
      cases negative
  · rename_i fine
    have err : s'.err = 0 := of_not_not fun bad => fine (.inl bad)
    cases frame : s'.frame with
    | ftt =>
      refine .inl ⟨⟨label, err, rfl⟩, ?_⟩
      simp only [answerDcs, frame, session]
      split
      · have lowered : Function.update s'.remote .br (fallback s.trainingRate) .br =
            fallback s.trainingRate := Function.update_self ..
        exact .inl ⟨‹_›, rfl, same.1, lowered⟩
      · exact .inr ⟨by omega, rfl⟩
    | dis | dtc =>
      refine .inr ⟨fun answered => Frame.noConfusion answered.2.2, ?_⟩
      simp only [answerDcs, frame]
      split <;> exact same.trans ⟨rfl, rfl⟩
    | _ =>
      refine .inr ⟨fun answered => Frame.noConfusion answered.2.2, ?_⟩
      simp only [answerDcs, frame]
      exact same.trans ⟨rfl, rfl⟩

end Call

end QFax.Efax

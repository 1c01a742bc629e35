import Mathlib.Algebra.Order.BigOperators.Group.List
import QFax.Efax.FrameBuffer

/-!
# Waiting for a frame

`getfr` asks the modem for a frame until one comes that is no optional frame.  For a command it gives
up when the time it was given has passed: after every failed attempt it takes the time since it was
entered off the time that is left, so that this time counts again with every further attempt, and it
does not look at the clock after an optional frame (`getfr_waits_iff`).
-/

namespace QFax.Efax

/-- What `cmd` returns for `+FRH=3`, as far as `getfr` tells it apart. -/
inductive FrhReply
  | eof
  | no
  | modulation
  | connect
  | other
  deriving DecidableEq, Repr

/-- How the data of a frame ends: no more characters come, or what `cmd` returns after them. -/
inductive DataEnd
  | timedOut
  | ok
  | connect
  | error
  | no
  | eof
  | other
  deriving DecidableEq, Repr

/-- An attempt to get a frame: the reply to the command, the data characters, their end, and what
`time` returns after the attempt. -/
structure Attempt where
  reply : FrhReply
  data : List UInt8
  ending : DataEnd
  now : Int

/-- `receive_frame_data`: its error code. -/
def Attempt.dataErr (a : Attempt) : Nat :=
  if maxFrLen ≤ a.data.length then 3
  else match a.ending with
    | .ok | .connect => 0
    | .error | .no => 1
    | .timedOut | .eof | .other => 3

/-- CRP and the frames of the identification that may come before another frame. -/
def Frame.Optional (f : Frame) : Prop := f ∈ [Frame.crp, .nsf, .nsc, .nss, .cig, .csi, .tsi]

instance (f : Frame) : Decidable f.Optional := inferInstanceAs (Decidable (_ ∈ _))

/-- How an attempt ends. -/
inductive Outcome
  | failed
  | received (frame : Frame)
  | carrier
  deriving DecidableEq, Repr

/-- An attempt, and the frame buffer after it. -/
def Attempt.outcome (a : Attempt) (buf : FrameBuf) : Outcome × FrameBuf :=
  match a.reply with
  | .modulation => (.carrier, buf)
  | .connect =>
    if a.dataErr ≠ 0 then (.failed, receiveFrameData maxFrLen a.data buf)
    else match QFax.Efax.getfr a.data buf with
      | none => (.failed, receiveFrameData maxFrLen a.data buf)
      | some (frame, buf) => (.received frame, buf)
  | .eof | .no | .other => (.failed, buf)

/-- What `getfr` did: what `time` returned last before every command `+FRH=3`, and, once it
returned, the frame and the clock then. -/
structure Wait where
  frh : List Int
  result : Option (Frame × Int)

/-- The loop of `getfr` from `Enter` on, with the time `t` left, the number of frames so far and the
clock. -/
def waitFrame (getcmd start t : Int) (nframes : Nat) (clock : Int) (buf : FrameBuf) :
    List Attempt → Wait
  | [] => ⟨if nframes ≠ 0 then [clock] else [], none⟩
  | a :: attempts =>
    let frh := if nframes ≠ 0 then [clock] else []
    -- the first frame is implied by ATA or ATD
    let a := if nframes ≠ 0 then a else { a with reply := .connect }
    match a.outcome buf with
    | (.carrier, _) => ⟨frh, some (.carrier, a.now)⟩
    | (.received frame, buf) =>
      if frame.Optional then
        let w := waitFrame getcmd start t (nframes + 1) a.now buf attempts
        ⟨frh ++ w.frh, w.result⟩
      else ⟨frh, some (frame, a.now)⟩
    | (.failed, buf) =>
      let t := t - (10 * a.now - start)
      if getcmd ≠ 0 ∧ t > 0 then
        let w := waitFrame getcmd start t (nframes + 1) a.now buf attempts
        ⟨frh ++ w.frh, w.result⟩
      else ⟨frh, some (.eof, a.now)⟩

/-- The time asked for. -/
def waitTime (getcmd : Int) : Int := if getcmd ≠ 0 then if getcmd > 1 then getcmd else 60 else 30

/-- `getfr`, entered at a time. -/
def getfrWait (getcmd : Int) (nframes : Nat) (entered : Int) (buf : FrameBuf)
    (attempts : List Attempt) : Wait :=
  waitFrame getcmd (10 * entered) (waitTime getcmd) nframes entered buf attempts

/-- The wait lasts as long as asked: no end of it before the time has passed, and no command after
that. -/
structure Wait.Lasts (w : Wait) (time start : Int) : Prop where
  enough : ∀ now, w.result = some (.eof, now) → time ≤ 10 * now - start
  ends : ∀ clock ∈ w.frh, 10 * clock - start < time

/-! ## Attempts apart from the loop -/

/-- An attempt that fails. -/
def Attempt.Failed (a : Attempt) : Prop :=
  a.reply ≠ .modulation ∧ (a.reply ≠ .connect ∨ a.dataErr ≠ 0 ∨ a.data.length < 3)

instance (a : Attempt) : Decidable a.Failed := inferInstanceAs (Decidable (_ ∧ _))

/-- An attempt that gets an optional frame. -/
def Attempt.GetsOptional (a : Attempt) : Prop :=
  a.reply = .connect ∧ a.dataErr = 0 ∧ 3 ≤ a.data.length ∧ (frameOf a.data).Optional

instance (a : Attempt) : Decidable a.GetsOptional := inferInstanceAs (Decidable (_ ∧ _))

/-- The attempts with the reply that is implied for the first frame. -/
def implied (nframes : Nat) : List Attempt → List Attempt
  | [] => []
  | a :: attempts => (if nframes ≠ 0 then a else { a with reply := .connect }) :: attempts

/-- The attempts up to the first one that gets a frame to return or a carrier, or that fails after the
time has passed. -/
def waiting (time start : Int) (attempts : List Attempt) : List Attempt :=
  attempts.takeWhile fun a => decide (a.GetsOptional ∨ a.Failed ∧ 10 * a.now - start < time)

/-- The times since the call after the failed attempts, added up. -/
def failedTimes (start : Int) (attempts : List Attempt) : Int :=
  ((attempts.filter fun a => decide a.Failed).map fun a => 10 * a.now - start).sum

theorem Frame.ofCode_ne_eof (code : Nat) : Frame.ofCode code ≠ .eof := by
  unfold Frame.ofCode
  split <;> exact Frame.noConfusion

theorem Attempt.dataErr_long {a : Attempt} (long : maxFrLen ≤ a.data.length) : a.dataErr ≠ 0 := by
  rw [Attempt.dataErr, if_pos long]
  decide

theorem Attempt.outcome_failed {a : Attempt} (failed : a.Failed) (buf : FrameBuf) :
    (a.outcome buf).1 = .failed := by
  obtain ⟨modulation, failed⟩ := failed
  unfold Attempt.outcome
  cases reply : a.reply with
  | modulation => exact absurd reply modulation
  | eof => rfl
  | no => rfl
  | other => rfl
  | connect =>
    rcases failed with connect | err | short
    · exact absurd reply connect
    · simp only [if_pos err]
    · have none : QFax.Efax.getfr a.data buf = none := if_pos (.inr short)
      simp only [none]
      split <;> rfl

theorem Attempt.outcome_received {a : Attempt} (connect : a.reply = .connect) (good : a.dataErr = 0)
    (long : 3 ≤ a.data.length) (buf : FrameBuf) :
    (a.outcome buf).1 = .received (frameOf a.data) := by
  have short : a.data.length < maxFrLen := by
    by_contra long
    exact a.dataErr_long (Nat.le_of_not_lt long) good
  unfold Attempt.outcome
  simp only [connect, if_neg (not_not.mpr good), getfr_eq long short]

/-- Every attempt fails, gets a frame or a carrier, whatever is in the buffer. -/
theorem Attempt.outcome_cases (a : Attempt) (buf : FrameBuf) :
    ((a.outcome buf).1 = .failed ∧ a.Failed) ∨
      ((a.outcome buf).1 = .carrier ∧ ¬ a.Failed ∧ ¬ a.GetsOptional) ∨
      ∃ frame, (a.outcome buf).1 = .received frame ∧ frame ≠ .eof ∧ ¬ a.Failed ∧
        (frame.Optional ↔ a.GetsOptional) := by
  by_cases failed : a.Failed
  · exact .inl ⟨a.outcome_failed failed buf, failed⟩
  · by_cases modulation : a.reply = .modulation
    · refine .inr (.inl ⟨?_, failed, fun gets => ?_⟩)
      · simp only [Attempt.outcome, modulation]
      · rw [gets.1] at modulation
        exact FrhReply.noConfusion modulation
    · have connect : a.reply = .connect := by
        by_contra other
        exact failed ⟨modulation, .inl other⟩
      have good : a.dataErr = 0 := by
        by_contra err
        exact failed ⟨modulation, .inr (.inl err)⟩
      have long : 3 ≤ a.data.length := by
        by_contra short
        exact failed ⟨modulation, .inr (.inr (Nat.lt_of_not_le short))⟩
      exact .inr (.inr ⟨frameOf a.data, a.outcome_received connect good long buf,
        Frame.ofCode_ne_eof _, failed, fun optional => ⟨connect, good, long, optional⟩,
        fun gets => gets.2.2.2⟩)

/-! ## The loop -/

/-- A command is given at the time at which the loop is entered. -/
theorem clock_mem_frh (getcmd start t : Int) {nframes : Nat} (some : nframes ≠ 0) (clock : Int)
    (buf : FrameBuf) (attempts : List Attempt) :
    clock ∈ (waitFrame getcmd start t nframes clock buf attempts).frh := by
  cases attempts with
  | nil => simp [waitFrame, some]
  | cons a attempts =>
    rw [waitFrame]
    simp only [some, ne_eq, not_false_eq_true, if_true]
    split
    · simp
    · split <;> simp
    · split <;> simp

theorem failedTimes_nonneg {start : Int} {attempts : List Attempt}
    (clock : ∀ a ∈ attempts, start ≤ 10 * a.now) : 0 ≤ failedTimes start attempts := by
  refine List.sum_nonneg fun e member => ?_
  obtain ⟨a, failed, rfl⟩ := List.mem_map.mp member
  have later := clock a (List.mem_of_mem_filter failed)
  omega

theorem Wait.lasts_append {frh : List Int} {time start : Int}
    (before : ∀ clock ∈ frh, 10 * clock - start < time) (w : Wait) :
    (⟨frh ++ w.frh, w.result⟩ : Wait).Lasts time start ↔ w.Lasts time start := by
  refine ⟨fun lasts => ⟨lasts.enough, fun clock member => ?_⟩,
    fun lasts => ⟨lasts.enough, fun clock member => ?_⟩⟩
  · exact lasts.ends clock (List.mem_append_right _ member)
  · rcases List.mem_append.mp member with first | later
    · exact before clock first
    · exact lasts.ends clock later

theorem Wait.lasts_of_ne {frh : List Int} {time start : Int}
    (before : ∀ clock ∈ frh, 10 * clock - start < time) {frame : Frame} (ne : frame ≠ .eof)
    (now : Int) : (⟨frh, some (frame, now)⟩ : Wait).Lasts time start := by
  refine ⟨fun now' same => ?_, before⟩
  exact absurd (Prod.mk.inj (Option.some.inj same)).1 ne

theorem waiting_cons {time start : Int} {a : Attempt}
    (waits : a.GetsOptional ∨ a.Failed ∧ 10 * a.now - start < time) (attempts : List Attempt) :
    waiting time start (a :: attempts) = a :: waiting time start attempts :=
  List.takeWhile_cons_of_pos (decide_eq_true waits)

theorem waiting_cons_nil {time start : Int} {a : Attempt}
    (ends : ¬ (a.GetsOptional ∨ a.Failed ∧ 10 * a.now - start < time)) (attempts : List Attempt) :
    waiting time start (a :: attempts) = [] :=
  List.takeWhile_cons_of_neg (by rwa [decide_eq_true_iff])

theorem failedTimes_cons {a : Attempt} (failed : a.Failed) (start : Int) (attempts : List Attempt) :
    failedTimes start (a :: attempts) = 10 * a.now - start + failedTimes start attempts := by
  rw [failedTimes, List.filter_cons, if_pos (decide_eq_true failed), List.map_cons, List.sum_cons,
    failedTimes]

theorem failedTimes_cons_of_not {a : Attempt} (unfailed : ¬ a.Failed) (start : Int)
    (attempts : List Attempt) :
    failedTimes start (a :: attempts) = failedTimes start attempts := by
  rw [failedTimes, List.filter_cons, if_neg (by rwa [decide_eq_true_iff]), failedTimes]

theorem not_optional_of_failed {a : Attempt} (failed : a.Failed) : ¬ a.GetsOptional := by
  rintro ⟨connect, good, long, -⟩
  rcases failed.2 with other | err | short
  · exact other connect
  · exact err good
  · omega

theorem implied_of_ne {nframes : Nat} (some : nframes ≠ 0) (attempts : List Attempt) :
    implied nframes attempts = attempts := by
  cases attempts with
  | nil => rfl
  | cons a attempts => rw [implied, if_pos some]

/-- The times of the attempts that fail leave some of the time, and no optional frame comes after it. -/
def InTime (time start spent : Int) (attempts : List Attempt) : Prop :=
  (∀ a ∈ waiting time start attempts, a.GetsOptional → 10 * a.now - start < time) ∧
    spent + failedTimes start (waiting time start attempts) < time

/-- The wait is over with an attempt that is not waited behind. -/
theorem inTime_last {time start spent : Int} (left : spent < time) {a : Attempt}
    (ends : ¬ (a.GetsOptional ∨ a.Failed ∧ 10 * a.now - start < time)) (attempts : List Attempt) :
    InTime time start spent (a :: attempts) := by
  have none : failedTimes start [] = 0 := rfl
  rw [InTime, waiting_cons_nil ends, none, Int.add_zero]
  exact ⟨fun c member => absurd member List.not_mem_nil, left⟩

/-- The time of an attempt that fails is spent. -/
theorem inTime_failed {time start spent : Int} {a : Attempt} (failed : a.Failed)
    (early : 10 * a.now - start < time) (attempts : List Attempt) :
    InTime time start spent (a :: attempts) ↔
      InTime time start (spent + (10 * a.now - start)) attempts := by
  rw [InTime, InTime, waiting_cons (.inr ⟨failed, early⟩), failedTimes_cons failed,
    List.forall_mem_cons, Int.add_assoc]
  exact and_congr_left fun _ => ⟨fun all => all.2, fun rest => ⟨fun _ => early, rest⟩⟩

theorem inTime_optional {time start spent : Int} {a : Attempt} (gets : a.GetsOptional)
    (unfailed : ¬ a.Failed) (attempts : List Attempt) :
    InTime time start spent (a :: attempts) ↔
      10 * a.now - start < time ∧ InTime time start spent attempts := by
  rw [InTime, InTime, waiting_cons (.inl gets), failedTimes_cons_of_not unfailed,
    List.forall_mem_cons, and_assoc]
  exact and_congr_left fun _ => ⟨fun first => first gets, fun early _ => early⟩

theorem InTime.spent_lt {time start spent : Int} {attempts : List Attempt}
    (inTime : InTime time start spent attempts) (clocks : ∀ a ∈ attempts, start ≤ 10 * a.now) :
    spent < time := by
  have rest : 0 ≤ failedTimes start (waiting time start attempts) := failedTimes_nonneg
    fun c member => clocks c ((List.takeWhile_sublist _).subset member)
  have total := inTime.2
  omega

/-- From `Enter` on, with the times of the attempts that failed taken off the time that is left. -/
theorem waitFrame_lasts_iff {getcmd start time : Int} (command : getcmd ≠ 0) {attempts : List Attempt}
    (clocks : ∀ a ∈ attempts, start ≤ 10 * a.now) {spent clock : Int} (nonneg : 0 ≤ spent)
    (left : spent < time) (before : 10 * clock - start < time) (nframes : Nat) (buf : FrameBuf) :
    (waitFrame getcmd start (time - spent) nframes clock buf attempts).Lasts time start ↔
      InTime time start spent (implied nframes attempts) := by
  have frh : ∀ c ∈ (if nframes ≠ 0 then [clock] else []), 10 * c - start < time := by
    intro c member
    split at member
    · rwa [List.mem_singleton.mp member]
    · exact absurd member List.not_mem_nil
  induction attempts generalizing spent clock nframes buf with
  | nil =>
    have none : failedTimes start (waiting time start (implied nframes [])) = 0 := rfl
    rw [InTime, none, Int.add_zero]
    exact iff_of_true ⟨fun now same => absurd same (Option.some_ne_none _).symm, frh⟩
      ⟨fun a member => absurd member List.not_mem_nil, left⟩
  | cons a attempts ih =>
    have later : ∀ a ∈ attempts, start ≤ 10 * a.now := fun b member =>
      clocks b (List.mem_cons_of_mem a member)
    have time_pos : (if nframes ≠ 0 then a else { a with reply := .connect }).now = a.now := by
      split <;> rfl
    have elapsed := clocks a List.mem_cons_self
    rw [← time_pos] at elapsed
    rw [implied, waitFrame]
    generalize (if nframes ≠ 0 then a else { a with reply := .connect }) = b at elapsed ⊢
    dsimp only
    have next (spent' : Int) (nonneg' : 0 ≤ spent') (left' : spent' < time)
        (before' : 10 * b.now - start < time)
        (buf' : FrameBuf) := by
      have step := ih later nonneg' left' before' (nframes + 1) buf' (by
        rw [if_pos (Nat.succ_ne_zero nframes)]
        simpa using before')
      rwa [implied_of_ne (Nat.succ_ne_zero nframes)] at step
    obtain ⟨buf', same⟩ : ∃ buf', b.outcome buf = ((b.outcome buf).1, buf') := ⟨_, rfl⟩
    rcases b.outcome_cases buf with ⟨outcome, failed⟩ | ⟨outcome, unfailed, required⟩ |
      ⟨frame, outcome, named, unfailed, optional⟩
    · -- the attempt fails
      rw [same, outcome]
      dsimp only
      by_cases over_time : spent + (10 * b.now - start) < time
      · have spent_more :
            time - spent - (10 * b.now - start) = time - (spent + (10 * b.now - start)) := by
          omega
        have waits : 10 * b.now - start < time := by omega
        rw [if_pos ⟨command, by omega⟩, Wait.lasts_append frh, spent_more, inTime_failed failed waits]
        exact next _ (by omega) over_time waits buf'
      · rw [if_neg (by omega)]
        by_cases early : 10 * b.now - start < time
        · rw [inTime_failed failed early]
          refine iff_of_false (fun lasts => ?_) fun inTime => over_time (inTime.spent_lt later)
          have enough := lasts.enough b.now rfl
          omega
        · have ends : ¬ (b.GetsOptional ∨ b.Failed ∧ 10 * b.now - start < time) := by
            rintro (optional | waits)
            · exact not_optional_of_failed failed optional
            · exact early waits.2
          refine iff_of_true ⟨fun now returned => ?_, frh⟩ (inTime_last left ends attempts)
          obtain rfl : b.now = now := (Prod.mk.inj (Option.some.inj returned)).2
          omega
    · -- a carrier
      have ends : ¬ (b.GetsOptional ∨ b.Failed ∧ 10 * b.now - start < time) := by
        rintro (optional | waits)
        · exact required optional
        · exact unfailed waits.1
      rw [same, outcome]
      exact iff_of_true (Wait.lasts_of_ne frh Frame.noConfusion b.now) (inTime_last left ends attempts)
    · rw [same, outcome]
      dsimp only
      by_cases gets : frame.Optional
      · rw [if_pos gets, Wait.lasts_append frh, inTime_optional (optional.mp gets) unfailed]
        by_cases early : 10 * b.now - start < time
        · rw [next spent nonneg left early buf', and_iff_right early]
        · refine iff_of_false (fun lasts => ?_) fun inTime => early inTime.1
          exact early (lasts.ends b.now
            (clock_mem_frh getcmd start _ (Nat.succ_ne_zero nframes) b.now buf' attempts))
      · have ends : ¬ (b.GetsOptional ∨ b.Failed ∧ 10 * b.now - start < time) := by
          rintro (required | waits)
          · exact gets (optional.mpr required)
          · exact unfailed waits.1
        rw [if_neg gets]
        exact iff_of_true (Wait.lasts_of_ne frh named b.now) (inTime_last left ends attempts)

/-- Attempts without a reply, at some times. -/
def silent (times : List Int) : List Attempt := times.map fun now => ⟨.no, [], .ok, now⟩

/-- An optional frame, at some time. -/
def featuresAt (now : Int) : Attempt := ⟨.connect, [0xff, 0xc8, 0x04], .ok, now⟩

end QFax.Efax

import QFax.Lib.Accumulator

/-!
# Two clocks for the bits of a line

A sender takes a new bit when its clock overflows.  A receiver with a clock of the same rate moves it
towards the middle of a bit whenever the line changes, and reads the line when it overflows.  The line may
show anything in the first part of a bit.  Once the receiver is neither a step behind the sender nor a
whole unsure part ahead of it, it reads every bit once, and none wrongly (`Locked.step`).
-/

namespace BitClock

open Accumulator

/-- A bit time of `P`, of which a step takes `r`, a correction `a`, and the unsure part `c`. -/
structure Rate where
  P : Nat
  r : Nat
  a : Nat
  c : Nat
  room : 2 * (r + a + c) ≤ P

variable (v : Rate)

/-- A step of the sender: its clock, its bit, and the bits it has taken. -/
def send (next : Bool) (phase : Nat) (bit : Bool) : Nat × Bool × List Bool :=
  let (phase, overflow) := advance v.P v.r phase
  if overflow then (phase, next, [next]) else (phase, bit, [])

/-- The receiver's clock behind a change of the line. -/
def correct (clock : Nat) : Nat := if 2 * clock < v.P then clock + v.a else clock - v.a

/-- A step of the receiver that finds `d` on the line: its clock, and the bits it has read. -/
def receive (d last : Bool) (clock : Nat) : Nat × List Bool :=
  let (clock, overflow) := advance v.P v.r (if last ≠ d then correct v clock else clock)
  (clock, if overflow then [d] else [])

/-- The bit on the line, as long as it has not been read. -/
def waiting (given bit : Bool) : List Bool := if given then [] else [bit]

/-- The receiver's clock against the sender's, where `given` tells whether the bit has been read. -/
structure Locked (phase : Nat) (bit : Bool) (clock : Nat) (last given : Bool) : Prop where
  inside : phase < v.P
  sure : v.c ≤ phase → last = bit
  before : given = false → phase + v.r ≤ clock ∧ clock + v.c ≤ v.P + phase ∧ clock < v.P
  behind : given = true → clock + v.c ≤ phase ∧ phase + v.r ≤ clock + v.P

variable {v} {phase clock : Nat} {bit last given next d : Bool}

/-- A bit that has not been read is read once the clock overflows, which it does behind the unsure part. -/
theorem locked_advance {q : Nat} (inside : phase < v.P) (low : phase ≤ q)
    (high : q + v.r + v.c ≤ v.P + phase) (sure : v.c ≤ phase → d = bit) :
    ∃ given', Locked v phase bit (advance v.P v.r q).1 d given' ∧
      [bit] = (if (advance v.P v.r q).2 then [d] else []) ++ waiting given' bit := by
  unfold advance
  by_cases runs : q + v.r < v.P
  · rw [if_pos runs]
    exact ⟨false, ⟨inside, sure, fun _ => ⟨by omega, by omega, runs⟩, nofun⟩, rfl⟩
  · rw [if_neg runs]
    refine ⟨true, ⟨inside, sure, nofun, fun _ => ⟨?_, ?_⟩⟩, ?_⟩
    · show q + v.r - v.P + v.c ≤ phase
      omega
    · show phase + v.r ≤ q + v.r - v.P + v.P
      omega
    · rw [sure (by omega)]
      rfl

/-- Both clocks go on within a bit. -/
theorem Locked.step_inside (locked : Locked v phase bit clock last given) (same : phase + v.r < v.P)
    (sure : v.c ≤ phase + v.r → d = bit) :
    ∃ given', Locked v (phase + v.r) bit (receive v d last clock).1 d given' ∧
      waiting given bit = (receive v d last clock).2 ++ waiting given' bit := by
  have room := v.room
  cases given with
  | true =>
    obtain ⟨low, high⟩ := locked.behind rfl
    have steady : last = d := (locked.sure (by omega)).trans (sure (by omega)).symm
    have runs : clock + v.r < v.P := by omega
    rw [receive, if_neg (not_not.mpr steady), advance, if_pos runs]
    refine ⟨true, ⟨same, sure, nofun, fun _ => ⟨?_, ?_⟩⟩, rfl⟩
    · show clock + v.r + v.c ≤ phase + v.r
      omega
    · show phase + v.r + v.r ≤ clock + v.r + v.P
      omega
  | false =>
    obtain ⟨low, high, whole⟩ := locked.before rfl
    refine locked_advance same ?_ ?_ sure
    all_goals
      by_cases steady : last = d
      · rw [if_neg (not_not.mpr steady)]
        omega
      · -- a change is seen in the unsure part
        have unsure : phase < v.c := by
          by_contra late
          exact steady ((locked.sure (by omega)).trans (sure (by omega)).symm)
        rw [if_pos steady, correct]
        split <;> omega

/-- The sender takes a new bit. -/
theorem Locked.step_next (locked : Locked v phase bit clock last given) (new : v.P ≤ phase + v.r)
    (sure : v.c ≤ phase + v.r - v.P → d = next) :
    ∃ given', Locked v (phase + v.r - v.P) next (receive v d last clock).1 d given' ∧
      waiting given bit ++ [next] = (receive v d last clock).2 ++ waiting given' next := by
  have room := v.room
  have inside := locked.inside
  cases given with
  | true =>
    obtain ⟨low, high⟩ := locked.behind rfl
    refine locked_advance (by omega) ?_ ?_ sure
    all_goals
      by_cases steady : last = d
      · rw [if_neg (not_not.mpr steady)]
        omega
      · rw [if_pos steady, correct]
        split <;> omega
  | false =>
    -- the bit before has been read by then
    obtain ⟨low, -, whole⟩ := locked.before rfl
    omega

/-- One step of both sides: every bit is read once, at most one step behind the next. -/
theorem Locked.step (locked : Locked v phase bit clock last given)
    (sure : v.c ≤ (send v next phase bit).1 → d = (send v next phase bit).2.1) :
    ∃ given', Locked v (send v next phase bit).1 (send v next phase bit).2.1
        (receive v d last clock).1 d given' ∧
      waiting given bit ++ (send v next phase bit).2.2 =
        (receive v d last clock).2 ++ waiting given' (send v next phase bit).2.1 := by
  by_cases same : phase + v.r < v.P
  · have sent : send v next phase bit = (phase + v.r, bit, []) := by rw [send, advance, if_pos same]; rfl
    rw [sent] at sure ⊢
    rw [List.append_nil]
    exact locked.step_inside same sure
  · have sent : send v next phase bit = (phase + v.r - v.P, next, [next]) := by
      rw [send, advance, if_neg same]
      rfl
    rw [sent] at sure ⊢
    exact locked.step_next (by omega) sure

end BitClock

import QFax.Lib.ShiftRegister
import QFax.Linmodem.MappingFrame

/-!
# The V.34 scrambler

`scramble_bit` divides the bit sequence by one of two polynomials, and `unscramble_bit` undoes it.
Both keep the remainder of the bits on the line in their register, so that the receiver needs no
common start: after 23 bits its register is the sender's.
-/

namespace QFax.Linmodem

open ShiftRegister

def unscramble_bit (reg : BitVec 23) (b : Bool) (poly : BitVec 23) : Bool × BitVec 23 :=
  let b1 := reg.msb ^^ b
  (b1, if b then reg <<< (1 : Nat) ^^^ poly else reg <<< (1 : Nat))

/-- Unscramble a received bit: what the callback is given, and the register. -/
def put_bit (p : V34Params) (reg : BitVec 23) (b : Bool) : Bool × BitVec 23 :=
  let poly := if !p.calling then V34_GPC else V34_GPA
  unscramble_bit reg b poly

/-! ## Streams -/

section Streams

variable (poly reg : BitVec 23)

/-- The scrambler's register before bit `i`. -/
def scramblerReg (u : Nat → Bool) : Nat → BitVec 23
  | 0 => reg
  | i + 1 => (scramble_bit (scramblerReg u i) (u i) poly).2

/-- The bits on the line. -/
def scrambled (u : Nat → Bool) (i : Nat) : Bool :=
  (scramble_bit (scramblerReg poly reg u i) (u i) poly).1

/-- The descrambler's register before bit `i`. -/
def unscramblerReg (s : Nat → Bool) : Nat → BitVec 23
  | 0 => reg
  | i + 1 => (unscramble_bit (unscramblerReg s i) (s i) poly).2

/-- The bits the receiver puts out. -/
def unscrambled (s : Nat → Bool) (i : Nat) : Bool :=
  (unscramble_bit (unscramblerReg poly reg s i) (s i) poly).1

end Streams

variable {poly reg reg' : BitVec 23} {u s : Nat → Bool}

/-- Both registers are driven by the bits on the line. -/
theorem unscramblerReg_eq (i : Nat) : unscramblerReg poly reg s i = after poly reg s i := by
  induction i with
  | zero => rfl
  | succ i ih =>
    have next : unscramblerReg poly reg s (i + 1) =
        shift poly (unscramblerReg poly reg s i) (s i) := rfl
    rw [next, ih, after]

theorem scramblerReg_eq (i : Nat) :
    scramblerReg poly reg u i = after poly reg (scrambled poly reg u) i := by
  induction i with
  | zero => rfl
  | succ i ih =>
    have next : scramblerReg poly reg u (i + 1) =
        shift poly (scramblerReg poly reg u i) (scrambled poly reg u i) := rfl
    rw [next, ih, after]

/-- A receiver whose register is the sender's takes the next bit off correctly. -/
theorem unscrambled_of_reg {i : Nat}
    (registers : unscramblerReg poly reg' s i = scramblerReg poly reg u i)
    (arrived : s i = scrambled poly reg u i) : unscrambled poly reg' s i = u i := by
  have out : unscrambled poly reg' s i =
      ((unscramblerReg poly reg' s i).msb ^^ s i) := rfl
  have line : scrambled poly reg u i =
      ((scramblerReg poly reg u i).msb ^^ u i) := rfl
  rw [out, registers, arrived, line, ← Bool.xor_assoc, Bool.xor_self, Bool.false_xor]

/-- The top bit of the register is the sum of the line's bits at the taps. -/
theorem taps_gpc (s : Nat → Bool) (i : Nat) :
    taps V34_GPC s i 22 = (s (i - 18) ^^ s (i - 23)) := by
  simp [taps, V34_GPC, Nat.sub_sub, Bool.xor_comm]

theorem taps_gpa (s : Nat → Bool) (i : Nat) :
    taps V34_GPA s i 22 = (s (i - 5) ^^ s (i - 23)) := by
  simp [taps, V34_GPA, Nat.sub_sub, Bool.xor_comm]

theorem scrambled_gpc {i : Nat} (late : 23 ≤ i) :
    scrambled V34_GPC reg u i =
      (u i ^^ (scrambled V34_GPC reg u (i - 18) ^^ scrambled V34_GPC reg u (i - 23))) := by
  rw [← taps_gpc, ← getLsbD_after reg _ (by omega) (by decide), ← scramblerReg_eq, Bool.xor_comm]
  rfl

theorem scrambled_gpa {i : Nat} (late : 23 ≤ i) :
    scrambled V34_GPA reg u i =
      (u i ^^ (scrambled V34_GPA reg u (i - 5) ^^ scrambled V34_GPA reg u (i - 23))) := by
  rw [← taps_gpa, ← getLsbD_after reg _ (by omega) (by decide), ← scramblerReg_eq, Bool.xor_comm]
  rfl

/-- After 23 bits without error the receiver's register is the sender's. -/
theorem registers_agree {m i : Nat} (arrived : ∀ i ≥ m, s i = scrambled poly reg u i)
    (late : m + 23 ≤ i) : unscramblerReg poly reg' s i = scramblerReg poly reg u i := by
  rw [unscramblerReg_eq, scramblerReg_eq]
  exact after_eq arrived late

/-- With the same start and no error the registers are the same throughout. -/
theorem registers_same (i : Nat) :
    unscramblerReg poly reg (scrambled poly reg u) i = scramblerReg poly reg u i := by
  rw [unscramblerReg_eq, scramblerReg_eq]

/-- The line carries the recurrence of the polynomial; the receiver is correct from its 24th bit on,
from the first on if it starts with the sender's register, and after any errors from the 24th bit on
that follows the last of them (`m` is the position behind the last error). -/
theorem self_synchronising (reg reg' : BitVec 23) (u : Nat → Bool) :
    (∀ i ≥ 23, scrambled V34_GPC reg u i =
      (u i ^^ (scrambled V34_GPC reg u (i - 18) ^^ scrambled V34_GPC reg u (i - 23)))) ∧
    (∀ i ≥ 23, scrambled V34_GPA reg u i =
      (u i ^^ (scrambled V34_GPA reg u (i - 5) ^^ scrambled V34_GPA reg u (i - 23)))) ∧
    ∀ poly ∈ [V34_GPC, V34_GPA],
      (∀ i ≥ 23, unscrambled poly reg' (scrambled poly reg u) i = u i ∧
        unscramblerReg poly reg' (scrambled poly reg u) i = scramblerReg poly reg u i) ∧
      (reg = reg' → ∀ i, unscrambled poly reg' (scrambled poly reg u) i = u i ∧
        unscramblerReg poly reg' (scrambled poly reg u) i = scramblerReg poly reg u i) ∧
      ∀ s m, (∀ i ≥ m, s i = scrambled poly reg u i) → ∀ i ≥ m + 23,
        unscrambled poly reg' s i = u i := by
  refine ⟨fun i => scrambled_gpc, fun i => scrambled_gpa, fun poly _ => ⟨?_, ?_, ?_⟩⟩
  · intro i late
    have registers : unscramblerReg poly reg' (scrambled poly reg u) i = scramblerReg poly reg u i :=
      registers_agree (m := 0) (fun i _ => rfl) (by omega)
    exact ⟨unscrambled_of_reg registers rfl, registers⟩
  · rintro rfl i
    exact ⟨unscrambled_of_reg (registers_same i) rfl, registers_same i⟩
  · intro s m arrived i late
    exact unscrambled_of_reg (registers_agree arrived late) (arrived i (by omega))

/-! ## The two ends of a connection -/

section Connection

variable {σ : Type} (p : V34Params) (callback : σ → Option Bool × σ) (s : BitSource σ)

/-- The sender before bit `i`. -/
def sourceBefore : Nat → BitSource σ
  | 0 => s
  | i + 1 => (get_bit p callback (sourceBefore i)).2

/-- Bit `i` on the line. -/
def lineBit (i : Nat) : Bool := (get_bit p callback (sourceBefore p callback s i)).1

/-- Bit `i` of the callback, a one where it has none. -/
def dataBit (i : Nat) : Bool := (callback (sourceBefore p callback s i).input).1.getD true

/-- The polynomial for the bits that one end sends. -/
def sentPoly : BitVec 23 := if p.calling then V34_GPC else V34_GPA

theorem scrambler_reg_eq (i : Nat) : (sourceBefore p callback s i).scrambler_reg =
    scramblerReg (sentPoly p) s.scrambler_reg (dataBit p callback s) i := by
  induction i with
  | zero => rfl
  | succ i ih =>
    rw [scramblerReg, ← ih]
    rfl

theorem lineBit_eq (i : Nat) : lineBit p callback s i =
    scrambled (sentPoly p) s.scrambler_reg (dataBit p callback s) i := by
  rw [scrambled, ← scrambler_reg_eq]
  rfl

/-- The register of the other end before bit `i`. -/
def sinkReg (reg : BitVec 23) (line : Nat → Bool) : Nat → BitVec 23
  | 0 => reg
  | i + 1 => (put_bit p (sinkReg reg line i) (line i)).2

/-- What one end takes from its callback the other end gives to its own, from the 24th bit on after
any errors, and then the registers of both ends are the same. -/
theorem connection_synchronises (p' : V34Params) (other : p'.calling = !p.calling) (reg : BitVec 23)
    {line : Nat → Bool} {m : Nat} (arrived : ∀ i ≥ m, line i = lineBit p callback s i) {i : Nat}
    (late : m + 23 ≤ i) :
    (put_bit p' (sinkReg p' reg line i) (line i)).1 = dataBit p callback s i ∧
      sinkReg p' reg line i = (sourceBefore p callback s i).scrambler_reg := by
  have put : ∀ reg b, put_bit p' reg b = unscramble_bit reg b (sentPoly p) := by
    intro reg b
    rw [put_bit, other, Bool.not_not, sentPoly]
  have registers : ∀ j, sinkReg p' reg line j = unscramblerReg (sentPoly p) reg line j := by
    intro j
    induction j with
    | zero => rfl
    | succ j ih => rw [sinkReg, unscramblerReg, put, ih]
  simp only [lineBit_eq] at arrived
  have agree : unscramblerReg (sentPoly p) reg line i =
      scramblerReg (sentPoly p) s.scrambler_reg (dataBit p callback s) i := registers_agree arrived late
  rw [put, registers, scrambler_reg_eq]
  exact ⟨unscrambled_of_reg agree (arrived i (by omega)), agree⟩

end Connection

/-- Every third bit is a one; the first two arrive wrong. -/
theorem connection_synchronises_third :
    let p := V34_init_low ⟨true, 5, false, 33600, false, 16, fun _ => (0, 0)⟩
    let p' := V34_init_low ⟨false, 5, false, 33600, false, 16, fun _ => (0, 0)⟩
    let thirds := fun n : Nat => (some (n % 3 == 0), n + 1)
    let line := fun i => lineBit p thirds ⟨0, 0⟩ i ^^ decide (i < 2)
    (put_bit p' (sinkReg p' 0 line 25) (line 25)).1 = dataBit p thirds ⟨0, 0⟩ 25 ∧
      sinkReg p' 0 line 25 = (sourceBefore p thirds ⟨0, 0⟩ 25).scrambler_reg := by
  intro p p' thirds line
  refine connection_synchronises p thirds ⟨0, 0⟩ p' rfl 0 (fun i late => ?_) (by decide : 2 + 23 ≤ 25)
  have right : decide (i < 2) = false := decide_eq_false (Nat.not_lt.mpr late)
  show (_ ^^ _) = _
  rw [right, Bool.xor_false]

end QFax.Linmodem

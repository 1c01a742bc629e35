import QFax.Lib.Blocks
import QFax.Linmodem.Lm
import Mathlib.Tactic.Ring

/-!
# The ANSam tone

The answering modem sends 2100 Hz, amplitude modulated at 15 Hz, whose phase is to be reversed every
450 ms.  `V8_mod` reloads the counter of samples that are left when it reverses the phase, but no line
of the program counts it down.
-/

namespace QFax.Linmodem

open Blocks

def V8_SAMPLE_RATE : Nat := 8000

structure V8Mod where
  phase : BitVec 32
  phase_incr : BitVec 32
  mod_phase : BitVec 32
  mod_phase_incr : BitVec 32
  phase_reverse_samples : Nat
  phase_reverse_left : Nat

def V8_mod_init : V8Mod where
  phase := 0
  phase_incr := BitVec.ofNat 32 (PHASE_BASE * 2100 / V8_SAMPLE_RATE)
  mod_phase := 0
  mod_phase_incr := BitVec.ofNat 32 (PHASE_BASE * 15 / V8_SAMPLE_RATE)
  phase_reverse_samples := V8_SAMPLE_RATE * 450 / 1000
  phase_reverse_left := 0

def halfTurn : BitVec 32 := BitVec.ofNat 32 (PHASE_BASE / 2)

namespace V8Mod

variable (cos_tab : CosTab)

/-- Whether the phase is reversed before the next sample. -/
def reverses (s : V8Mod) : Bool := s.phase_reverse_left == 0

/-- Handle phase reversal every 450 ms. -/
def reverse (s : V8Mod) : V8Mod :=
  if s.reverses then
    { s with phase_reverse_left := s.phase_reverse_samples, phase := s.phase + halfTurn }
  else s

/-- The sample that a state gives; the amplitude is between 0.8 and 1.2. -/
def sample (s : V8Mod) : BitVec 16 :=
  let amp := (dsp_cos cos_tab s.mod_phase * (2 * COS_BASE / 10 : Nat)) >>> COS_BITS + (COS_BASE : Int)
  BitVec.ofInt 16 ((amp * dsp_cos cos_tab s.phase) >>> COS_BITS)

/-- One turn of the loop of `V8_mod`. -/
def next (s : V8Mod) : BitVec 16 × V8Mod :=
  let s := s.reverse
  (s.sample cos_tab,
    { s with mod_phase := s.mod_phase + s.mod_phase_incr, phase := s.phase + s.phase_incr })

end V8Mod

def V8_mod (cos_tab : CosTab) : Nat → V8Mod → List (BitVec 16) × V8Mod := generate (V8Mod.next cos_tab)

/-! ## The times of the reversals -/

section Reversals

variable (cos_tab : CosTab)

/-- The samples of the first `n` that a reversal comes before. -/
def reversals (n : Nat) : List Nat :=
  (List.range n).filter fun i => (stateAt (V8Mod.next cos_tab) V8_mod_init i).reverses

/-- Reversals at the start and after every `phase_reverse_samples` samples. -/
def everyReversal (n : Nat) : List Nat :=
  let samples := V8_mod_init.phase_reverse_samples
  (List.range ((n + samples - 1) / samples)).map (samples * ·)

theorem next_left (s : V8Mod) : (s.next cos_tab).2.phase_reverse_left =
    if s.phase_reverse_left = 0 then s.phase_reverse_samples else s.phase_reverse_left := by
  by_cases zero : s.phase_reverse_left = 0 <;> simp [V8Mod.next, V8Mod.reverse, V8Mod.reverses, zero]

theorem next_samples (s : V8Mod) :
    (s.next cos_tab).2.phase_reverse_samples = s.phase_reverse_samples := by
  by_cases zero : s.phase_reverse_left = 0 <;> simp [V8Mod.next, V8Mod.reverse, V8Mod.reverses, zero]

theorem next_phase (s : V8Mod) : (s.next cos_tab).2.phase_incr = s.phase_incr ∧
    (s.next cos_tab).2.phase = s.phase + (if s.reverses then halfTurn else 0) + s.phase_incr := by
  cases zero : s.reverses <;> simp [V8Mod.next, V8Mod.reverse, zero]

/-- The counter is reloaded before the first sample and stays as it is. -/
theorem reverses_iff (i : Nat) :
    (stateAt (V8Mod.next cos_tab) V8_mod_init i).reverses = decide (i = 0) := by
  have loaded : (stateAt (V8Mod.next cos_tab) V8_mod_init i).phase_reverse_samples = 3600 ∧
      (stateAt (V8Mod.next cos_tab) V8_mod_init i).phase_reverse_left = if i = 0 then 0 else 3600 := by
    induction i with
    | zero => exact ⟨rfl, rfl⟩
    | succ i ih =>
      rw [stateAt_succ, next_left, next_samples, ih.1, ih.2]
      by_cases zero : i = 0 <;> simp [zero]
  rw [V8Mod.reverses, loaded.2]
  by_cases zero : i = 0 <;> simp [zero]

theorem reversals_eq (n : Nat) : reversals cos_tab n = if n = 0 then [] else [0] := by
  simp only [reversals, reverses_iff]
  cases n with
  | zero => rfl
  | succ n =>
    have later : (List.map Nat.succ (List.range n)).filter (fun i => decide (i = 0)) = [] := by
      simp
    rw [List.range_succ_eq_map, List.filter_cons_of_pos (by simp), later]
    rfl

theorem reversals_iff (n : Nat) : reversals cos_tab n = everyReversal n ↔ n ≤ 3600 := by
  have samples : V8_mod_init.phase_reverse_samples = 3600 := rfl
  simp only [reversals_eq, everyReversal, samples]
  constructor
  · intro same
    have lengths := congrArg List.length same
    rw [List.length_map, List.length_range] at lengths
    split at lengths <;> simp only [List.length_nil, List.length_singleton] at lengths <;> omega
  · intro short
    rcases Nat.eq_zero_or_pos n with rfl | positive
    · rfl
    · have one : (n + 3600 - 1) / 3600 = 1 := by omega
      rw [if_neg (by omega), one]
      rfl

/-- The phase has moved by its increment for every sample and by half a turn for every reversal. -/
theorem phase_eq (n : Nat) : (stateAt (V8Mod.next cos_tab) V8_mod_init n).phase =
    BitVec.ofNat 32 n * V8_mod_init.phase_incr +
      BitVec.ofNat 32 (reversals cos_tab n).length * halfTurn := by
  have turned : (stateAt (V8Mod.next cos_tab) V8_mod_init n).phase_incr = V8_mod_init.phase_incr ∧
      (stateAt (V8Mod.next cos_tab) V8_mod_init n).phase =
        BitVec.ofNat 32 n * V8_mod_init.phase_incr + if n = 0 then 0 else halfTurn := by
    induction n with
    | zero => exact ⟨rfl, by simp [stateAt, V8_mod_init]⟩
    | succ n ih =>
      rw [stateAt_succ, (next_phase cos_tab _).1, (next_phase cos_tab _).2, ih.1, ih.2, reverses_iff]
      refine ⟨rfl, ?_⟩
      have more : BitVec.ofNat 32 (n + 1) = BitVec.ofNat 32 n + 1 := BitVec.ofNat_add n 1
      rw [more]
      rcases Nat.eq_zero_or_pos n with rfl | positive
      · simp [BitVec.add_comm]
      · rw [if_neg (Nat.succ_ne_zero n), if_neg positive.ne', decide_eq_false positive.ne',
          if_neg Bool.false_ne_true]
        ring
  rw [turned.2, reversals_eq]
  by_cases zero : n = 0 <;> simp [zero]

/-- However the samples are split, they are those of one call, and the phase has moved by its increment
for every sample and by half a turn for every reversal.  The reversals are on time, and
`⌈n / phase_reverse_samples⌉` in number, in the first 450 ms only. -/
theorem ansam_reversals_iff (n : Nat) :
    (∀ blocks, blocks.sum = n →
      calls (V8_mod cos_tab) blocks V8_mod_init = V8_mod cos_tab n V8_mod_init) ∧
    (V8_mod cos_tab n V8_mod_init).2.phase = BitVec.ofNat 32 n * V8_mod_init.phase_incr +
      BitVec.ofNat 32 (reversals cos_tab n).length * halfTurn ∧
    (reversals cos_tab n = everyReversal n ↔ n ≤ V8_mod_init.phase_reverse_samples) := by
  refine ⟨?_, ?_, reversals_iff cos_tab n⟩
  · rintro blocks rfl
    exact (generate_additive _).calls_eq blocks _
  · rw [V8_mod, generate_state]
    exact phase_eq cos_tab n

/-- After 3600 samples there is to be a second reversal. -/
theorem second_reversal_missing : ¬ ∃ cos_tab, reversals cos_tab 3601 = everyReversal 3601 := by
  rintro ⟨cos_tab, same⟩
  have short : 3601 ≤ 3600 := (reversals_iff cos_tab 3601).mp same
  omega

end Reversals

end QFax.Linmodem

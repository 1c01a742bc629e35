import QFax.Lib.BitStuffing
import Mathlib.Data.BitVec

/-!
# A window on the latest bits

A word into which every bit of a stream is shifted shows the latest bits, the newest one at place 0.
A mask and a comparison look for a pattern among them; a row of ones at the end of the stream is such a
pattern.
-/

namespace BitWindow

open BitStuffing

variable {w : Nat} {x : BitVec w} {text : List Bool}

/-- One more bit. -/
def push (x : BitVec w) (b : Bool) : BitVec w := (x <<< 1) ||| (if b then 1 else 0)

/-- The word shows the latest bits of the text, and zeros before its start. -/
def Recent (x : BitVec w) (text : List Bool) : Prop :=
  ∀ i < w, x.getLsbD i = text.reverse.getD i false

theorem recent_zero : Recent (0 : BitVec w) [] := fun _ _ => BitVec.getLsbD_zero

theorem Recent.push (recent : Recent x text) (b : Bool) : Recent (push x b) (text ++ [b]) := by
  intro i inside
  have bit : (if b then (1 : BitVec w) else 0).getLsbD i = (b && decide (i = 0)) := by
    cases b
    · exact BitVec.getLsbD_zero
    · show (1#w).getLsbD i = _
      rw [BitVec.getLsbD_one, Bool.true_and]
      have place : (0 < w) = True := eq_true (Nat.zero_lt_of_lt inside)
      simp [place]
  rw [BitWindow.push, BitVec.getLsbD_or, bit, List.reverse_append, List.reverse_singleton,
    List.singleton_append, BitVec.getLsbD_shiftLeft]
  cases i with
  | zero => simp [inside]
  | succ i => simp [inside, recent i (Nat.lt_of_succ_lt inside)]

/-- The `n` low places of a word are compared. -/
theorem masked_eq_iff {n : Nat} {mask pattern : BitVec w}
    (low : ∀ i < w, mask.getLsbD i = decide (i < n))
    (high : ∀ i < w, n ≤ i → pattern.getLsbD i = false) :
    x &&& mask = pattern ↔ ∀ i < w, i < n → x.getLsbD i = pattern.getLsbD i := by
  constructor
  · rintro rfl i inside below
    rw [BitVec.getLsbD_and, low i inside, decide_eq_true below, Bool.and_true]
  · intro same
    refine BitVec.eq_of_getLsbD_eq fun i inside => ?_
    rw [BitVec.getLsbD_and, low i inside]
    rcases Nat.lt_or_ge i n with below | above
    · rw [decide_eq_true below, Bool.and_true, same i inside below]
    · rw [decide_eq_false (Nat.not_lt.mpr above), Bool.and_false, high i inside above]

theorem run_snoc_true (text : List Bool) : run 0 (text ++ [true]) = run 0 text + 1 := run_append 0 text _

theorem run_snoc_false (text : List Bool) : run 0 (text ++ [false]) = 0 := run_append 0 text _

/-- The latest bits are ones. -/
theorem le_run_iff {k : Nat} : k ≤ run 0 text ↔ ∀ i < k, text.reverse.getD i false = true := by
  induction text using List.reverseRecOn generalizing k with
  | nil =>
    refine ⟨fun none i inside => ?_, fun all => ?_⟩
    · exact absurd (inside.trans_le none) (Nat.not_lt_zero i)
    · rcases k with - | k
      · exact le_rfl
      · cases all 0 (Nat.succ_pos k)
  | append_singleton text b ih =>
    rw [List.reverse_append, List.reverse_singleton, List.singleton_append]
    rcases k with - | k
    · exact iff_of_true (Nat.zero_le _) fun i none => absurd none (Nat.not_lt_zero i)
    · cases b
      · rw [run_snoc_false]
        refine iff_of_false (Nat.not_succ_le_zero k) fun all => ?_
        cases all 0 (Nat.succ_pos k)
      · rw [run_snoc_true, Nat.add_le_add_iff_right, ih]
        constructor
        · intro all i inside
          rcases i with - | i
          · rfl
          · exact all i (Nat.lt_of_succ_lt_succ inside)
        · exact fun all i inside => all (i + 1) (Nat.succ_lt_succ inside)

end BitWindow

import Mathlib.Algebra.Ring.Nat
import Mathlib.Logic.Function.Iterate

/-!
# Signals made in blocks

A generator makes one sample and moves its state on.  A call asks for a number of samples and leaves
the state for the next call.  Where a call for `m + n` samples is a call for `m` and one for `n`, what a
sequence of calls gives depends on the total alone (`Additive.calls_eq`).
-/

namespace Blocks

variable {σ α : Type}

/-- One call after the other, with the samples of all of them. -/
def calls (call : Nat → σ → List α × σ) : List Nat → σ → List α × σ
  | [], s => ([], s)
  | n :: blocks, s =>
    let (xs, s) := call n s
    let (ys, s) := calls call blocks s
    (xs ++ ys, s)

theorem calls_snoc (call : Nat → σ → List α × σ) (blocks : List Nat) (n : Nat) (s : σ) :
    calls call (blocks ++ [n]) s = ((calls call blocks s).1 ++ (call n (calls call blocks s).2).1,
      (call n (calls call blocks s).2).2) := by
  induction blocks generalizing s with
  | nil =>
    show ((call n s).1 ++ [], (call n s).2) = _
    rw [List.append_nil]
    rfl
  | cons m blocks ih =>
    show ((call m s).1 ++ (calls call (blocks ++ [n]) (call m s).2).1,
      (calls call (blocks ++ [n]) (call m s).2).2) = _
    rw [ih, ← List.append_assoc]
    rfl

/-- A call can be split anywhere. -/
structure Additive (call : Nat → σ → List α × σ) : Prop where
  zero : ∀ s, call 0 s = ([], s)
  add : ∀ m n s, call (m + n) s =
    ((call m s).1 ++ (call n (call m s).2).1, (call n (call m s).2).2)

theorem Additive.calls_eq {call : Nat → σ → List α × σ} (additive : Additive call)
    (blocks : List Nat) (s : σ) : calls call blocks s = call blocks.sum s := by
  induction blocks generalizing s with
  | nil => exact (additive.zero s).symm
  | cons n blocks ih =>
    rw [List.sum_cons, additive.add, ← ih]
    rfl

/-! ## One sample at a time -/

variable (next : σ → α × σ)

/-- A call of a generator. -/
def generate : Nat → σ → List α × σ
  | 0, s => ([], s)
  | n + 1, s =>
    let (x, s) := next s
    let (xs, s) := generate n s
    (x :: xs, s)

/-- The state before a sample. -/
def stateAt (s : σ) (i : Nat) : σ := (fun s => (next s).2)^[i] s

theorem stateAt_succ (s : σ) (i : Nat) : stateAt next s (i + 1) = (next (stateAt next s i)).2 :=
  Function.iterate_succ_apply' _ i s

theorem generate_state (n : Nat) (s : σ) : (generate next n s).2 = stateAt next s n := by
  induction n generalizing s with
  | zero => rfl
  | succ n ih => exact ih (next s).2

theorem generate_additive : Additive (generate next) where
  zero _ := rfl
  add m n s := by
    induction m generalizing s with
    | zero =>
      rw [Nat.zero_add]
      rfl
    | succ m ih =>
      rw [Nat.succ_add]
      show ((next s).1 :: (generate next (m + n) (next s).2).1,
        (generate next (m + n) (next s).2).2) = _
      rw [ih]
      rfl

end Blocks

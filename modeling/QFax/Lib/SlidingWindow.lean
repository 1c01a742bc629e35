import Mathlib.Data.List.Basic
import Mathlib.Logic.Function.Basic

/-!
# Sliding windows

The last `size` values of a stream are kept side by side in a linear buffer.  When the buffer is
full its last `size` cells are moved to the front, so that the window can go on sliding without
wrapping around.  Before the stream begins the window is filled with a value of its own
(`window_pushes`).
-/

namespace SlidingWindow

variable {α : Type}

/-- Cells, and the place of the next value. -/
structure Buffer (α : Type) where
  cells : Nat → α
  ptr : Nat

/-- Write a value; a full buffer of `capacity` cells is compacted. -/
def push (capacity size : Nat) (b : Buffer α) (x : α) : Buffer α :=
  let cells := Function.update b.cells b.ptr x
  if b.ptr + 1 = capacity then
    ⟨fun i => if i < size then cells (capacity - size + i) else cells i, size⟩
  else ⟨cells, b.ptr + 1⟩

/-- The cells before the pointer. -/
def window (size : Nat) (b : Buffer α) :
    List α := (List.range size).map fun i => b.cells (b.ptr - size + i)

/-- The last `size` values of a stream that begins behind `size` times `fill`. -/
def latest (size : Nat) (fill : α) (stream : List α) : List α :=
  (List.replicate size fill ++ stream).drop stream.length

/-- The next value comes in at the end, and the oldest one leaves. -/
theorem latest_snoc {size : Nat} (positive : 0 < size) (fill : α) (stream : List α) (x : α) :
    latest size fill (stream ++ [x]) = (latest size fill stream).tail ++ [x] := by
  have fits : stream.length + 1 ≤ (List.replicate size fill ++ stream).length := by
    rw [List.length_append, List.length_replicate]
    omega
  rw [latest, latest, List.length_append, List.length_singleton, ← List.append_assoc,
    List.drop_append_of_le_length fits, List.tail_drop]

/-- The pointer stays behind a whole window and within the buffer. -/
structure Placed (capacity size : Nat) (b : Buffer α) : Prop where
  behind : size ≤ b.ptr
  inside : b.ptr < capacity

section Push

variable {capacity size : Nat} {b : Buffer α}

theorem Placed.push (placed : Placed capacity size b) (room : size < capacity) (x : α) :
    Placed capacity size (push capacity size b x) := by
  have behind := placed.behind
  have inside := placed.inside
  unfold SlidingWindow.push
  dsimp only
  split
  · exact ⟨Nat.le_refl size, room⟩
  · exact ⟨Nat.le_succ_of_le behind, by show b.ptr + 1 < capacity; omega⟩

/-- A cell of the window behind a push, moved or not. -/
theorem push_cell (placed : Placed capacity size b) (x : α) {i : Nat} (lt : i < size) :
    (push capacity size b x).cells ((push capacity size b x).ptr - size + i) =
      Function.update b.cells b.ptr x (b.ptr + 1 - size + i) := by
  have behind := placed.behind
  unfold push
  dsimp only
  split
  case isTrue full =>
    dsimp only
    rw [Nat.sub_self, Nat.zero_add, if_pos lt, full]
  case isFalse => rfl

/-- Behind a push the window has slid by one cell. -/
theorem window_push (placed : Placed capacity size b) (positive : 0 < size) (x : α) :
    window size (push capacity size b x) = (window size b).tail ++ [x] := by
  have behind := placed.behind
  obtain ⟨n, rfl⟩ := Nat.exists_eq_succ_of_ne_zero (Nat.ne_of_gt positive)
  have cells : window (n + 1) (push capacity (n + 1) b x) = (List.range (n + 1)).map fun i =>
      Function.update b.cells b.ptr x (b.ptr + 1 - (n + 1) + i) :=
    List.map_congr_left fun i inside => push_cell placed x (List.mem_range.mp inside)
  have last : b.ptr + 1 - (n + 1) + n = b.ptr := by omega
  rw [cells, List.range_succ, List.map_append, List.map_singleton, last, Function.update_self, window,
    List.range_succ_eq_map, List.map_cons, List.tail_cons, List.map_map]
  congr 1
  apply List.map_congr_left
  intro i inside
  have lt : i < n := List.mem_range.mp inside
  have place : b.ptr + 1 - (n + 1) + i = b.ptr - (n + 1) + (i + 1) := by omega
  rw [Function.update_of_ne (by omega), place]
  rfl

/-- Whatever is pushed, the window has the latest values. -/
theorem window_pushes (room : size < capacity) (positive : 0 < size) {fill : α}
    (placed : Placed capacity size b)
    {earlier : List α} (start : window size b = latest size fill earlier) (stream : List α) :
    Placed capacity size (stream.foldl (push capacity size) b) ∧
      window size (stream.foldl (push capacity size) b) = latest size fill (earlier ++ stream) := by
  induction stream generalizing b earlier with
  | nil =>
    rw [List.append_nil]
    exact ⟨placed, start⟩
  | cons x stream ih =>
    have next : window size (push capacity size b x) = latest size fill (earlier ++ [x]) := by
      rw [window_push placed positive, start, latest_snoc positive]
    rw [List.append_cons]
    exact ih (placed.push room x) next

end Push

end SlidingWindow

import Mathlib.Data.List.Basic
import Mathlib.Logic.Function.Basic

/-!
# Ring buffers

A stream is written into the slots of a ring one after the other, so that entry `i` is in slot `i % N`
until `N` more have come.  A reader that stays within the last `N` entries finds in its slots a slice of
the stream (`Holds.window`).  A queue in a ring is the slice from its first slot on: putting an entry
behind it extends the slice (`slice_snoc`), and taking its first one moves the start on (`slice_succ`).
-/

namespace RingBuffer

variable {α : Type} {N : Nat} {ring : Nat → α} {entries : List α}

/-- The ring has the last `N` entries of the stream. -/
def Holds (N : Nat) (ring : Nat → α) (entries : List α) : Prop :=
  ∀ i x, entries[i]? = some x → entries.length ≤ i + N → ring (i % N) = x

/-- Fewer than `N` apart, two entries have different slots. -/
theorem slot_ne {i j : Nat} (before : i < j) (near : j < i + N) : i % N ≠ j % N := by
  intro same
  have whole : N ∣ j - i := Nat.dvd_of_mod_eq_zero (Nat.sub_mod_eq_zero_of_mod_eq same.symm)
  have far : N ≤ j - i := Nat.le_of_dvd (by omega) whole
  omega

theorem holds_nil (N : Nat) (ring : Nat → α) : Holds N ring [] := by
  intro i x entry _
  rw [List.getElem?_nil] at entry
  cases entry

/-- The next entry takes the place of the one that came `N` before it. -/
theorem Holds.snoc (holds : Holds N ring entries) (x : α) :
    Holds N (Function.update ring (entries.length % N) x) (entries ++ [x]) := by
  intro i y entry recent
  rw [List.length_append, List.length_singleton] at recent
  rcases Nat.lt_trichotomy i entries.length with before | rfl | after
  · have other : i % N ≠ entries.length % N := slot_ne before (by omega)
    rw [List.getElem?_append_left before] at entry
    rw [Function.update_of_ne other]
    exact holds i y entry (by omega)
  · rw [List.getElem?_concat_length] at entry
    rw [Function.update_self]
    exact Option.some.inj entry
  · have beyond : (entries ++ [x])[i]? = none := by
      apply List.getElem?_eq_none
      rw [List.length_append, List.length_singleton]
      omega
    rw [beyond] at entry
    cases entry

/-- The `w` slots before entry `t + w`, read backwards. -/
theorem Holds.window (holds : Holds N ring entries) {t w : Nat} (enough : t + w ≤ entries.length)
    (recent : entries.length ≤ t + N) :
    (List.range w).map (fun j => ring ((t + w - 1 - j) % N)) = ((entries.drop t).take w).reverse := by
  apply List.ext_getElem?
  intro j
  have length : ((entries.drop t).take w).length = w := by
    rw [List.length_take, List.length_drop]
    omega
  by_cases lt : j < w
  · have inside : t + w - 1 - j < entries.length := by omega
    have place : t + (w - 1 - j) = t + w - 1 - j := by omega
    rw [List.getElem?_map, List.getElem?_range lt, Option.map_some, List.getElem?_reverse (by omega),
      length, List.getElem?_take_of_lt (by omega), List.getElem?_drop, place,
      List.getElem?_eq_getElem inside]
    exact congrArg some (holds _ _ (List.getElem?_eq_getElem inside) (by omega))
  · rw [List.getElem?_eq_none (by rw [List.length_map, List.length_range]; omega),
      List.getElem?_eq_none (by rw [List.length_reverse]; omega)]

/-! ## Queues -/

/-- The contents of `len` slots from `start` on, around the ring. -/
def slice (N : Nat) (ring : Nat → α) (start len : Nat) : List α :=
  (List.range len).map fun i => ring ((start + i) % N)

@[simp] theorem length_slice (N : Nat) (ring : Nat → α) (start len : Nat) :
    (slice N ring start len).length = len := by
  rw [slice, List.length_map, List.length_range]

theorem slice_zero (N : Nat) (ring : Nat → α) (start : Nat) : slice N ring start 0 = [] := rfl

/-- Only the slot of the start matters. -/
theorem slice_mod (N : Nat) (ring : Nat → α) (start len : Nat) :
    slice N ring (start % N) len = slice N ring start len := by
  rw [slice, slice]
  exact List.map_congr_left fun i _ => congrArg ring (Nat.mod_add_mod start N i)

theorem slice_succ (N : Nat) (ring : Nat → α) (start len : Nat) :
    slice N ring start (len + 1) = ring (start % N) :: slice N ring (start + 1) len := by
  rw [slice, List.range_succ_eq_map, List.map_cons, List.map_map, Nat.add_zero, slice]
  refine congrArg _ (List.map_congr_left fun i _ => ?_)
  rw [Function.comp_apply, Nat.succ_eq_add_one, Nat.add_comm i 1, Nat.add_assoc]

theorem slice_snoc {start len : Nat} (room : len < N) (x : α) :
    slice N (Function.update ring ((start + len) % N) x) start (len + 1) =
      slice N ring start len ++ [x] := by
  rw [slice, List.range_succ, List.map_append, List.map_singleton, Function.update_self, slice]
  refine congrArg (· ++ [x]) (List.map_congr_left fun i mem => ?_)
  have before : i < len := List.mem_range.1 mem
  have other : (start + i) % N ≠ (start + len) % N := slot_ne (by omega) (by omega)
  exact Function.update_of_ne other x ring

/-- The slot that comes next. -/
theorem next_slot (i : Nat) (positive : 0 < N) :
    (i + 1) % N = if i % N + 1 = N then 0 else i % N + 1 := by
  have below : i % N < N := Nat.mod_lt i positive
  rw [← Nat.mod_add_mod]
  split
  case isTrue last => rw [last, Nat.mod_self]
  case isFalse inside => exact Nat.mod_eq_of_lt (by omega)

end RingBuffer

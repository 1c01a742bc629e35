import Mathlib.Data.List.Basic
import Mathlib.Data.List.Sort
import Mathlib.Logic.Function.Basic
import Mathlib.Tactic.IntervalCases
import Mathlib.Tactic.Ring

/-!
# V.34: the constellation

`build_constellation` lists the points `(4x + 1, 4y + 1)` by increasing distance from the origin
and fills the table of the decoder, which gives for a point the index of its unrotated form with
the number of quarter turns in the two top bits.
-/

namespace QFax.Linmodem

abbrev Point := Int × Int

/-- Most points of a rotated constellation; a quarter of them are listed. -/
def L_MAX : Nat := 1664

/-- Largest coordinate of a point. -/
def C_RADIUS : Int := 45

def constellation_cmp (a b : Point) : Int :=
  let d := (a.1 * a.1 + a.2 * a.2) - (b.1 * b.1 + b.2 * b.2)
  if d ≠ 0 then d else b.2 - a.2

def rotate_clockwise (p : Point) (z : Nat) : Point :=
  match z with
  | 0 => p
  | 1 => (-p.2, p.1)
  | 2 => (-p.1, -p.2)
  | _ => (p.2, -p.1)

/-- The points before sorting, row by row. -/
def grid : List Point :=
  (List.range 23).flatMap fun y : Nat =>
    (List.range 23).map fun x : Nat => (4 * ((x : Int) - 11) + 1, 4 * ((y : Int) - 11) + 1)

/-- The points by distance, as `qsort` leaves them. -/
def constellation : List Point := grid.mergeSort fun a b => constellation_cmp a b ≤ 0

/-- Row and column of a point in the decoder's table. -/
def cell (p : Point) : Int × Int := ((p.1 + C_RADIUS) >>> (1 : Nat), (p.2 + C_RADIUS) >>> (1 : Nat))

/-- The assignments that fill the decoder's table, in order. -/
def codeWrites : List ((Int × Int) × Nat) :=
  (List.range 4).flatMap fun j =>
    (List.range (L_MAX / 4)).map fun i =>
      (cell (rotate_clockwise (constellation.getD i (0, 0)) j), i ||| j <<< 14)

/-- The decoder's table: zero where nothing was written. -/
def constellation_to_code : Int × Int → Nat :=
  codeWrites.foldl (fun tab w => Function.update tab w.1 w.2) fun _ => 0

/-! ## The points -/

theorem mem_grid {p : Point} (member : p ∈ grid) :
    p.1 % 4 = 1 ∧ p.2 % 4 = 1 ∧ -43 ≤ p.1 ∧ p.1 ≤ 45 ∧ -43 ≤ p.2 ∧ p.2 ≤ 45 := by
  simp only [grid, List.mem_flatMap, List.mem_map, List.mem_range] at member
  obtain ⟨y, yLt, x, xLt, rfl⟩ := member
  simp only
  omega

theorem nodup_grid : grid.Nodup := by
  refine List.nodup_flatMap.mpr ⟨fun y _ => ?_, ?_⟩
  · refine List.Nodup.map (fun a b same => ?_) List.nodup_range
    have first := congrArg Prod.fst same
    simp only at first
    omega
  · refine List.Pairwise.imp (fun {a b} differs => ?_) List.nodup_range
    intro p inA inB
    simp only [List.mem_map, List.mem_range] at inA inB
    obtain ⟨x, -, rfl⟩ := inA
    obtain ⟨x', -, same⟩ := inB
    have second := congrArg Prod.snd same
    simp only at second
    omega

theorem constellation_perm : constellation.Perm grid := List.mergeSort_perm _ _

theorem length_constellation : constellation.length = 529 := by
  rw [constellation_perm.length_eq]
  simp [grid]

theorem nodup_constellation : constellation.Nodup := constellation_perm.nodup_iff.mpr nodup_grid

section Points

variable {i : Nat}

theorem constellation_getD (lt : i < 529) :
    constellation.getD i (0, 0) = getElem constellation i (by rw [length_constellation]; exact lt) := by
  simp [List.getD_eq_getElem?_getD, length_constellation, lt]

theorem constellation_point (lt : i < 529) :
    (constellation.getD i (0, 0)).1 % 4 = 1 ∧ (constellation.getD i (0, 0)).2 % 4 = 1 ∧
      -43 ≤ (constellation.getD i (0, 0)).1 ∧ (constellation.getD i (0, 0)).1 ≤ 45 ∧
      -43 ≤ (constellation.getD i (0, 0)).2 ∧ (constellation.getD i (0, 0)).2 ≤ 45 := by
  rw [constellation_getD lt]
  exact mem_grid (constellation_perm.mem_iff.mp (List.getElem_mem _))

theorem constellation_inj {k : Nat} (hi : i < 529) (hk : k < 529)
    (same : constellation.getD i (0, 0) = constellation.getD k (0, 0)) : i = k := by
  rw [constellation_getD hi, constellation_getD hk] at same
  exact (List.Nodup.getElem_inj_iff nodup_constellation).mp same

end Points

/-- A rotated point lies on the grid of odd coordinates. -/
theorem rotate_bounds {p : Point} (z : Nat)
    (point : p.1 % 4 = 1 ∧ p.2 % 4 = 1 ∧ -43 ≤ p.1 ∧ p.1 ≤ 45 ∧ -43 ≤ p.2 ∧ p.2 ≤ 45) :
    (rotate_clockwise p z).1 % 2 = 1 ∧ (rotate_clockwise p z).2 % 2 = 1 ∧
      -45 ≤ (rotate_clockwise p z).1 ∧ (rotate_clockwise p z).1 ≤ 45 ∧
      -45 ≤ (rotate_clockwise p z).2 ∧ (rotate_clockwise p z).2 ≤ 45 := by
  rcases p with ⟨x, y⟩
  simp only at point
  unfold rotate_clockwise
  split <;> simp only <;> omega

/-- The cell of a rotated point tells the point and the number of quarter turns. -/
theorem cell_rotate_inj {p p' : Point} {z z' : Nat} (hz : z < 4) (hz' : z' < 4)
    (hp : p.1 % 4 = 1 ∧ p.2 % 4 = 1) (hp' : p'.1 % 4 = 1 ∧ p'.2 % 4 = 1)
    (same : cell (rotate_clockwise p z) = cell (rotate_clockwise p' z')) : p = p' ∧ z = z' := by
  rcases p with ⟨x, y⟩
  rcases p' with ⟨x', y'⟩
  simp only [cell, C_RADIUS, Prod.mk.injEq, Int.shiftRight_eq_div_pow] at same
  obtain ⟨column, row⟩ := same
  simp only at hp hp'
  rw [Prod.mk.injEq]
  interval_cases z <;> interval_cases z' <;>
    simp only [rotate_clockwise] at column row <;> omega

/-! ## The decoder's table -/

/-- A table has at a key the value written there last. -/
theorem foldl_update_eq {α β : Type} [DecidableEq α] {k : α} {v : β} (writes : List (α × β))
    (tab : α → β) (agree : ∀ w ∈ writes, w.1 = k → w.2 = v)
    (set : tab k = v ∨ ∃ w ∈ writes, w.1 = k) :
    writes.foldl (fun tab w => Function.update tab w.1 w.2) tab k = v := by
  induction writes generalizing tab with
  | nil => simpa using set
  | cons w rest ih =>
    refine ih _ (fun w' inside => agree w' (List.mem_cons_of_mem _ inside)) ?_
    by_cases here : w.1 = k
    · left
      simp only [here, Function.update_self]
      exact agree w List.mem_cons_self here
    · rcases set with before | ⟨w', inside, key⟩
      · left
        simpa only [Function.update_of_ne (Ne.symm here)] using before
      · right
        rcases List.mem_cons.mp inside with rfl | later
        · exact absurd key here
        · exact ⟨w', later, key⟩

/-- The decoder finds the index and the rotation of every point it knows. -/
theorem constellation_to_code_eq {i j : Nat} (hi : i < L_MAX / 4) (hj : j < 4) :
    constellation_to_code (cell (rotate_clockwise (constellation.getD i (0, 0)) j)) =
      i ||| j <<< 14 := by
  have size : L_MAX / 4 ≤ 529 := by decide
  refine foldl_update_eq codeWrites _ ?_ (Or.inr ⟨(_, i ||| j <<< 14), ?_, rfl⟩)
  · intro w inside key
    simp only [codeWrites, List.mem_flatMap, List.mem_map, List.mem_range] at inside
    obtain ⟨j', hj', i', hi', rfl⟩ := inside
    have here := constellation_point (show i < 529 by omega)
    have there := constellation_point (show i' < 529 by omega)
    obtain ⟨point, turns⟩ :=
      cell_rotate_inj hj' hj ⟨there.1, there.2.1⟩ ⟨here.1, here.2.1⟩ key
    rw [turns, constellation_inj (by omega) (by omega) point]
  · simp only [codeWrites, List.mem_flatMap, List.mem_map, List.mem_range]
    exact ⟨j, hj, i, hi, rfl⟩

/-- The two parts of a table entry. -/
theorem code_parts {i j : Nat} (hi : i < L_MAX / 4) :
    (i ||| j <<< 14) >>> 14 = j ∧ (i ||| j <<< 14) &&& 0xff = i % 256 := by
  have small : i < 2 ^ 14 := by
    have bound : L_MAX / 4 = 416 := rfl
    omega
  rw [Nat.or_comm, ← Nat.shiftLeft_add_eq_or_of_lt small, Nat.shiftLeft_eq]
  refine ⟨?_, ?_⟩
  · rw [Nat.shiftRight_eq_div_pow]
    omega
  · rw [Nat.and_two_pow_sub_one_eq_mod (n := 8)]
    omega

end QFax.Linmodem

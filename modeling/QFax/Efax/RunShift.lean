import QFax.Efax.BitMap

/-!
# Shifting a scan line

`xshift` shifts a run vector in place.  To the right it lengthens the first run.  To the left it
clears runs until they hold the shift and gives the rest back to the last run that it cleared.  It
shifts the line by exactly `s` pels if and only if the line is as wide as a shift to the left, and has
a run for a shift to the right that stays in a `short` (`xshift_iff`).
-/

namespace QFax.Efax

/-- The loop of `xshift`: clear runs until they hold the shift.  The result is the number of runs
cleared, the run vector, what is left of the shift and the change of width. -/
def clearRuns : List Int → Int → Int → Nat × List Int × Int × Int
  | [], s, n => (0, [], s, n)
  | run :: runs, s, n =>
    if s < 0 then
      let (i, runs, s, n) := clearRuns runs (s + run) (n - run)
      (i + 1, 0 :: runs, s, n)
    else (0, run :: runs, s, n)

/-- `xshift`: the run vector and the change of width, unless it accesses a run outside of the
vector. -/
def xshift (runs : List Int) (s : Int) : Option (List Int × Int) :=
  let (i, runs, s, n) : Int × List Int × Int × Int :=
    if s < 0 then
      let (i, runs, s, n) := clearRuns runs s 0
      (i - 1, runs, s, n)
    else (0, runs, s, 0)
  if i < runs.length then
    if i < 0 then none
    else some (runs.set i.toNat (toShort (runs.getD i.toNat 0 + s)), n + s)
  else some (runs, n)

theorem length_clearRuns (runs : List Int) (s n : Int) :
    (clearRuns runs s n).2.1.length = runs.length := by
  induction runs generalizing s n with
  | nil => rfl
  | cons run runs ih =>
    rw [clearRuns]
    split
    · exact congrArg Nat.succ (ih _ _)
    · rfl

theorem length_xshift {runs out : List Int} {s n : Int} (shifted : xshift runs s = some (out, n)) :
    out.length = runs.length := by
  have cleared := length_clearRuns runs s 0
  rw [xshift] at shifted
  by_cases left : s < 0
  · simp only [if_pos left] at shifted
    split at shifted
    · split at shifted
      · cases shifted
      · cases shifted
        rw [List.length_set, cleared]
    · cases shifted
      exact cleared
  · simp only [if_neg left] at shifted
    split at shifted
    · rw [if_neg (lt_irrefl 0)] at shifted
      cases shifted
      rw [List.length_set]
    · cases shifted
      rfl

/-- A line shifted by exactly `s` pels, with its exact change of width. -/
structure Shifted (runs : List Int) (s : Int) (out : List Int × Int) : Prop where
  nonneg : ∀ r ∈ out.1, 0 ≤ r
  right : 0 ≤ s → pels .white out.1 = List.replicate s.toNat false ++ pels .white runs
  left : s < 0 → pels .white out.1 = (pels .white runs).drop (-s).toNat
  change : out.2 = out.1.sum - runs.sum

/-- The lines that `xshift` shifts by `s` pels. -/
def Shiftable (runs : List Int) (s : Int) : Prop :=
  0 ≤ runs.sum + s ∧ (0 < s → runs ≠ [] ∧ runs.headD 0 + s ≤ 32767)

/-! ## To the right -/

theorem xshift_right {run : Int} (runs : List Int) {s : Int} (right : 0 ≤ s) :
    xshift (run :: runs) s = some (toShort (run + s) :: runs, s) := by
  have zero : ¬ s < 0 := by omega
  have inside : (0 : Int) < (run :: runs).length := by rw [List.length_cons]; omega
  simp only [xshift, if_neg zero, if_pos inside, if_neg (lt_irrefl (0 : Int)), Int.toNat_zero,
    List.set_cons_zero, List.getD_cons_zero, Int.zero_add]

theorem xshift_nil_right {s : Int} (right : 0 ≤ s) : xshift [] s = some ([], 0) := by
  have zero : ¬ s < 0 := by omega
  simp [xshift, zero]

/-- A longer first run puts white pels in front. -/
theorem shifted_right {run : Int} {runs : List Int} (nonneg : ∀ r ∈ run :: runs, 0 ≤ r) {s : Int}
    (right : 0 ≤ s) : Shifted (run :: runs) s ((run + s) :: runs, s) := by
  have first : 0 ≤ run := nonneg run List.mem_cons_self
  refine ⟨fun r member => ?_, fun _ => ?_, fun left => absurd left (by omega), ?_⟩
  · rcases List.mem_cons.mp member with rfl | member
    · omega
    · exact nonneg r (List.mem_cons_of_mem run member)
  · have joined : (run + s).toNat = s.toNat + run.toNat := by omega
    rw [pels, pels, joined, ← List.replicate_append_replicate, List.append_assoc]
    rfl
  · show s = ((run + s) :: runs).sum - (run :: runs).sum
    rw [List.sum_cons, List.sum_cons]
    omega

/-! ## To the left -/

/-- The runs in front of the pel where the loop stops are cleared, and the one that holds it. -/
theorem clearRuns_stop {front : List Int} (back : List Int) {run s : Int} (n : Int)
    (nonneg : ∀ r ∈ front, 0 ≤ r) (more : s + front.sum < 0) (stop : 0 ≤ s + front.sum + run) :
    clearRuns (front ++ run :: back) s n =
      (front.length + 1, List.replicate front.length 0 ++ 0 :: back, s + front.sum + run,
        n - front.sum - run) := by
  induction front generalizing s n with
  | nil =>
    rw [List.sum_nil, Int.add_zero] at more stop
    have stopped : clearRuns back (s + run) (n - run) = (0, back, s + run, n - run) := by
      cases back with
      | nil => rfl
      | cons next back => rw [clearRuns, if_neg (by omega)]
    rw [List.nil_append, clearRuns, if_pos more, stopped, List.sum_nil, Int.add_zero, Int.sub_zero]
    rfl
  | cons first front ih =>
    have here : 0 ≤ first := nonneg first List.mem_cons_self
    have later : ∀ r ∈ front, 0 ≤ r := fun r hr => nonneg r (List.mem_cons_of_mem first hr)
    have frontSum : 0 ≤ front.sum := List.sum_nonneg later
    rw [List.sum_cons] at more stop ⊢
    have next := ih (s := s + first) (n - first) later (by omega) (by omega)
    have left : s + first + front.sum + run = s + (first + front.sum) + run := by omega
    have change : n - first - front.sum - run = n - (first + front.sum) - run := by omega
    rw [List.cons_append, clearRuns, if_pos (by omega), next, left, change]
    rfl

/-- A line that is too short is cleared as a whole. -/
theorem clearRuns_all {runs : List Int} {s : Int} (n : Int) (nonneg : ∀ r ∈ runs, 0 ≤ r)
    (short : s + runs.sum < 0) :
    clearRuns runs s n =
      (runs.length, List.replicate runs.length 0, s + runs.sum, n - runs.sum) := by
  induction runs generalizing s n with
  | nil => simp [clearRuns]
  | cons first runs ih =>
    have here : 0 ≤ first := nonneg first List.mem_cons_self
    have later : ∀ r ∈ runs, 0 ≤ r := fun r hr => nonneg r (List.mem_cons_of_mem first hr)
    have rest : 0 ≤ runs.sum := List.sum_nonneg later
    rw [List.sum_cons] at short ⊢
    have next := ih (s := s + first) (n - first) later (by omega)
    have left : s + first + runs.sum = s + (first + runs.sum) := by omega
    have change : n - first - runs.sum = n - (first + runs.sum) := by omega
    rw [clearRuns, if_pos (by omega), next, left, change]
    rfl

/-- A line that is wide enough has a run in which the shift ends. -/
theorem exists_stop {runs : List Int} {s : Int} (left : s < 0) (wide : 0 ≤ s + runs.sum) :
    ∃ front run back, runs = front ++ run :: back ∧ s + front.sum < 0 ∧
      0 ≤ s + front.sum + run := by
  induction runs generalizing s with
  | nil => simp at wide; omega
  | cons first runs ih =>
    rw [List.sum_cons] at wide
    by_cases here : 0 ≤ s + first
    · exact ⟨[], first, runs, rfl, by simpa using left, by simpa using here⟩
    · obtain ⟨front, run, back, rfl, more, stop⟩ := ih (s := s + first) (by omega) (by omega)
      refine ⟨first :: front, run, back, rfl, ?_, ?_⟩
      · rw [List.sum_cons]
        omega
      · rw [List.sum_cons]
        omega

theorem xshift_left {front back : List Int} {run s : Int} (nonneg : ∀ r ∈ front, 0 ≤ r)
    (upper : run ≤ 32767) (left : s < 0) (more : s + front.sum < 0)
    (stop : 0 ≤ s + front.sum + run) :
    xshift (front ++ run :: back) s =
      some (List.replicate front.length 0 ++ (s + front.sum + run) :: back, s) := by
  have cleared := clearRuns_stop back 0 nonneg more stop
  have index : ((front.length + 1 : Nat) : Int) - 1 = front.length := by omega
  have inside : (front.length : Int) <
      (List.replicate front.length (0 : Int) ++ 0 :: back).length := by
    rw [List.length_append, List.length_replicate, List.length_cons]
    omega
  have negative : ¬ (front.length : Int) < 0 := by omega
  have change : 0 - front.sum - run + (s + front.sum + run) = s := by omega
  have place : (List.replicate front.length (0 : Int)).length = front.length :=
    List.length_replicate
  have old : (List.replicate front.length (0 : Int) ++ 0 :: back).getD front.length 0 = 0 := by
    simp [List.getD_eq_getElem?_getD]
  simp only [xshift, if_pos left, cleared, index, if_pos inside, if_neg negative, Int.toNat_natCast,
    old, Int.zero_add, change]
  rw [toShort_of_small (by omega) (by omega), List.set_append_right _ _ (by omega), place,
    Nat.sub_self, List.set_cons_zero]

theorem pels_replicate_zero (c : Colour) (k : Nat) : pels c (List.replicate k 0) = [] := by
  induction k generalizing c with
  | zero => rfl
  | succ k ih => rw [List.replicate_succ, pels, ih c.other]; rfl

/-- Clearing the front of a line and shortening a run takes the first pels away. -/
theorem shifted_left {front back : List Int} {run s : Int}
    (nonneg : ∀ r ∈ front ++ run :: back, 0 ≤ r) (left : s < 0) (more : s + front.sum < 0)
    (stop : 0 ≤ s + front.sum + run) :
    Shifted (front ++ run :: back) s
      (List.replicate front.length 0 ++ (s + front.sum + run) :: back, s) := by
  have frontNonneg : ∀ r ∈ front, 0 ≤ r := fun r hr => nonneg r (List.mem_append_left _ hr)
  have backNonneg : ∀ r ∈ run :: back, 0 ≤ r := fun r hr => nonneg r (List.mem_append_right _ hr)
  refine ⟨fun r member => ?_, fun right => absurd right (by omega), fun _ => ?_, ?_⟩
  · rcases List.mem_append.mp member with zero | member
    · rw [List.eq_of_mem_replicate zero]
    · rcases List.mem_cons.mp member with rfl | member
      · exact stop
      · exact backNonneg r (List.mem_cons_of_mem run member)
  · have size := length_pels .white frontNonneg
    have cut : (-s).toNat = (pels .white front).length + (-s - front.sum).toNat := by omega
    have rest : run.toNat - (-s - front.sum).toNat = (s + front.sum + run).toNat := by omega
    have room : (-s - front.sum).toNat - run.toNat = 0 := by omega
    show pels .white (List.replicate front.length 0 ++ (s + front.sum + run) :: back) = _
    rw [pels_append, pels_append, pels_replicate_zero, List.length_replicate, List.nil_append, cut,
      ← List.drop_drop, List.drop_left, pels, pels, List.drop_append, List.drop_replicate,
      List.length_replicate, rest, room, List.drop_zero]
  · have zeros : (List.replicate front.length (0 : Int)).sum = 0 := by simp
    show s = (List.replicate front.length 0 ++ (s + front.sum + run) :: back).sum -
      (front ++ run :: back).sum
    rw [List.sum_append, List.sum_append, List.sum_cons, List.sum_cons, zeros]
    omega

/-- Without a run there is no last one to give a shift back to. -/
theorem xshift_nil_left {s : Int} (left : s < 0) : xshift [] s = none := by
  simp [xshift, clearRuns, left]

/-- A line that is narrower than the shift is left with a wrong last run and the change of width of a
line that is not. -/
theorem xshift_short {runs : List Int} {s : Int} (ne : runs ≠ []) (nonneg : ∀ r ∈ runs, 0 ≤ r)
    (short : s + runs.sum < 0) :
    xshift runs s = some (List.replicate (runs.length - 1) 0 ++ [toShort (s + runs.sum)], s) := by
  have width : 0 ≤ runs.sum := List.sum_nonneg nonneg
  have some_run : 0 < runs.length := List.length_pos_iff.mpr ne
  have cleared := clearRuns_all 0 nonneg short
  have index : ((runs.length : Nat) : Int) - 1 = ((runs.length - 1 : Nat) : Int) := by omega
  have inside : ((runs.length - 1 : Nat) : Int) < (List.replicate runs.length (0 : Int)).length := by
    rw [List.length_replicate]
    omega
  have negative : ¬ ((runs.length - 1 : Nat) : Int) < 0 := by omega
  have change : 0 - runs.sum + (s + runs.sum) = s := by omega
  have split : List.replicate runs.length (0 : Int) = List.replicate (runs.length - 1) 0 ++ [0] := by
    rw [← List.replicate_succ']
    congr 1
    omega
  have old : (List.replicate runs.length (0 : Int)).getD (runs.length - 1) 0 = 0 := by
    simp [List.getD_eq_getElem?_getD]
  simp only [xshift, if_pos (show s < 0 by omega), cleared, index, if_pos inside, if_neg negative,
    Int.toNat_natCast, old, Int.zero_add, change]
  rw [split, List.set_append_right _ _ (by rw [List.length_replicate]), List.length_replicate,
    Nat.sub_self, List.set_cons_zero]

/-! ## Exactly `s` pels -/

/-- `xshift` shifts a line of `short` runs by exactly `s` pels if and only if the line is as wide as a
shift to the left, and has a first run that a shift to the right leaves in a `short`. -/
theorem xshift_iff {runs : List Int} (shorts : ∀ r ∈ runs, 0 ≤ r ∧ r ≤ 32767) (s : Int) :
    (∃ out, xshift runs s = some out ∧ Shifted runs s out) ↔ Shiftable runs s := by
  have nonneg : ∀ r ∈ runs, 0 ≤ r := fun r member => (shorts r member).1
  have width : 0 ≤ runs.sum := List.sum_nonneg nonneg
  rcases lt_or_ge s 0 with left | right
  · by_cases wide : 0 ≤ s + runs.sum
    · refine iff_of_true ?_ ⟨by omega, fun pos => absurd pos (by omega)⟩
      obtain ⟨front, run, back, rfl, more, stop⟩ := exists_stop left wide
      have upper := (shorts run (by simp)).2
      have frontNonneg : ∀ r ∈ front, 0 ≤ r := fun r hr => nonneg r (List.mem_append_left _ hr)
      exact ⟨_, xshift_left frontNonneg upper left more stop, shifted_left nonneg left more stop⟩
    · refine iff_of_false ?_ fun ok => wide (by have := ok.1; omega)
      rintro ⟨out, eq, shifted⟩
      by_cases empty : runs = []
      · rw [empty, xshift_nil_left left] at eq
        cases eq
      · rw [xshift_short empty nonneg (by omega)] at eq
        cases eq
        -- the width cannot change by more than there is
        have change := shifted.change
        have rest := List.sum_nonneg shifted.nonneg
        simp only at change rest
        omega
  · cases runs with
    | nil =>
      rw [xshift_nil_right right]
      constructor
      · rintro ⟨out, eq, shifted⟩
        cases eq
        have none := congrArg List.length (shifted.right right)
        simp [pels] at none
        exact ⟨by simpa using right, fun pos => absurd pos (by omega)⟩
      · rintro ⟨-, room⟩
        have zero : s = 0 := by
          by_contra pos
          exact (room (by omega)).1 rfl
        subst zero
        exact ⟨_, rfl, by simp, fun _ => rfl, fun left => absurd left (by omega), rfl⟩
    | cons run runs =>
      have first := shorts run List.mem_cons_self
      rw [xshift_right runs right]
      constructor
      · rintro ⟨out, eq, shifted⟩
        cases eq
        have change := shifted.change
        simp only [List.sum_cons] at change
        refine ⟨by omega, fun _ => ⟨List.cons_ne_nil run runs, ?_⟩⟩
        have upper : toShort (run + s) < 2 ^ 15 := Int.bmod_lt (by decide)
        show run + s ≤ 32767
        omega
      · rintro ⟨-, room⟩
        have fits : run + s ≤ 32767 := by
          rcases right.eq_or_lt with zero | pos
          · omega
          · exact (room pos).2
        rw [toShort_of_small (by omega) fits]
        exact ⟨_, rfl, shifted_right nonneg right⟩

/-- A line of 3 white, 2 black and 4 white pels that is shifted 4 pels to the left. -/
theorem xshift_nine_four : ∃ out, xshift [3, 2, 4] (-4) = some out ∧ Shifted [3, 2, 4] (-4) out :=
  (xshift_iff (by decide) (-4)).mpr ⟨by decide, fun pos => absurd pos (by decide)⟩

/-- A line of 3 white pels that is shifted 5 pels to the left gets a run of -2 pels. -/
theorem xshift_three_five : xshift [3] (-5) = some ([-2], -5) ∧
    ¬ ∃ out, xshift [3] (-5) = some out ∧ Shifted [3] (-5) out := by
  have run : xshift [3] (-5) = some ([-2], -5) := by decide
  refine ⟨run, ?_⟩
  rintro ⟨out, eq, shifted⟩
  rw [run] at eq
  cases eq
  exact absurd shifted.nonneg (by decide)

end QFax.Efax

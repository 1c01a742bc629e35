import QFax.Efax.BitMap

/-!
# The OR of two scan lines

`runor` merges two run vectors subrun by subrun.  The colour of a subrun is known only from the parity
of the index of its run, and so is the colour of the output.  At every step the pels output so far and
the OR of the pels that are left make up the OR of the two lines (`orBoth_pels`, `orRest_pels`), so
that the result is the OR pel by pel (`runor_pels`).
-/

namespace QFax.Efax

/-! ## Pels of two lines -/

/-- The OR of two lines of pels.  The pels beyond the end of a line are white. -/
def orPels : List Bool → List Bool → List Bool
  | [], ys => ys
  | xs, [] => xs
  | x :: xs, y :: ys => (x || y) :: orPels xs ys

@[simp] theorem orPels_nil_left (ys : List Bool) : orPels [] ys = ys := by cases ys <;> rfl

@[simp] theorem orPels_nil_right (xs : List Bool) : orPels xs [] = xs := by cases xs <;> rfl

theorem getD_orPels (xs ys : List Bool) (i : Nat) :
    (orPels xs ys).getD i false = (xs.getD i false || ys.getD i false) := by
  induction xs generalizing ys i with
  | nil => simp
  | cons x xs ih =>
    cases ys with
    | nil => simp
    | cons y ys =>
      cases i with
      | zero => rfl
      | succ i => simpa only [orPels, List.getD_cons_succ] using ih ys i

theorem length_orPels (xs ys : List Bool) : (orPels xs ys).length = max xs.length ys.length := by
  induction xs generalizing ys with
  | nil => simp
  | cons x xs ih =>
    cases ys with
    | nil => simp
    | cons y ys => rw [orPels, List.length_cons, ih, List.length_cons, List.length_cons]; omega

/-- Two subruns of the same length. -/
theorem orPels_replicate (n : Nat) (x y : Bool) (xs ys : List Bool) :
    orPels (List.replicate n x ++ xs) (List.replicate n y ++ ys) =
      List.replicate n (x || y) ++ orPels xs ys := by
  induction n with
  | zero => rfl
  | succ n ih =>
    simp only [List.replicate_succ, List.cons_append, orPels, ih]

/-! ## Colours by index -/

theorem Colour.after_white (i : Nat) :
    Colour.white.after i = if i % 2 = 1 then .black else .white := by
  induction i with
  | zero => rfl
  | succ i ih =>
    rw [Colour.after_succ, ih]
    rcases Nat.mod_two_eq_zero_or_one i with even | odd
    · have next : (i + 1) % 2 = 1 := by omega
      simp [even, next, Colour.other]
    · have next : (i + 1) % 2 = 0 := by omega
      simp [odd, next, Colour.other]

/-- The parity of `i | j` is the OR of the colours of two runs. -/
theorem Colour.bit_or (i j : Nat) :
    (Colour.white.after (i ||| j)).bit =
      ((Colour.white.after i).bit || (Colour.white.after j).bit) := by
  simp only [Colour.after_white, Nat.or_mod_two_eq_one]
  by_cases oddI : i % 2 = 1
  · simp [oddI, Colour.bit]
  · by_cases oddJ : j % 2 = 1
    · simp [oddI, oddJ, Colour.bit]
    · simp [oddI, oddJ, Colour.bit]

/-! ## The output -/

/-- The pels output so far. -/
def OrOut.pels (c : OrOut) : List Bool := QFax.Efax.pels .white (c.done ++ [c.cur])

/-- The pels of a line from a cursor on. -/
def Cursor.pels (a : Cursor) : List Bool :=
  QFax.Efax.pels (Colour.white.after a.i) (a.l :: a.rest)

/-- The colour of the current run of the output is the parity of its index, so that a subrun of any
colour is output with that colour. -/
theorem OrOut.pels_add {c : OrOut} (nonneg : c.Nonneg) (col : Nat) {n : Int} (pos : 0 ≤ n)
    (width : c.total + n ≤ 32767) :
    (c.add col n).pels = c.pels ++ List.replicate n.toNat (Colour.white.after col).bit := by
  have done : 0 ≤ c.done.sum := List.sum_nonneg nonneg.1
  have cur := nonneg.2
  unfold OrOut.total at width
  unfold OrOut.pels OrOut.add
  by_cases differs : (col ^^^ c.done.length) % 2 = 1
  · -- a new run
    have colour : Colour.white.after (c.done.length + 1) = Colour.white.after col := by
      rw [Nat.xor_mod_two_eq_one] at differs
      rw [Colour.after_white, Colour.after_white]
      rcases Nat.mod_two_eq_zero_or_one c.done.length with even | odd
      · have next : (c.done.length + 1) % 2 = 1 := by omega
        have black : col % 2 = 1 := by omega
        rw [if_pos next, if_pos black]
      · have next : ¬ (c.done.length + 1) % 2 = 1 := by omega
        have white : ¬ col % 2 = 1 := by omega
        rw [if_neg next, if_neg white]
    rw [if_pos differs]
    show QFax.Efax.pels .white (c.done ++ [c.cur] ++ [n]) = _
    rw [pels_append, List.length_append, List.length_singleton, colour, QFax.Efax.pels,
      QFax.Efax.pels, List.append_nil]
  · -- the current run is longer
    have colour : Colour.white.after c.done.length = Colour.white.after col := by
      rw [Nat.xor_mod_two_eq_one, not_not] at differs
      rw [Colour.after_white, Colour.after_white]
      simp only [differs]
    have joined : (c.cur + n).toNat = c.cur.toNat + n.toNat := by omega
    rw [if_neg differs, toShort_of_small (by omega) (by omega), pels_append, pels_append, colour]
    simp only [QFax.Efax.pels, List.append_nil, joined, ← List.replicate_append_replicate,
      List.append_assoc]

/-- A cursor splits its line into the pels of its current run and the others. -/
theorem Cursor.pels_next {a : Cursor} {l : Int} {rest : List Int} (eq : a.rest = l :: rest) :
    a.pels = List.replicate a.l.toNat (Colour.white.after a.i).bit ++
      (⟨a.i + 1, l, rest⟩ : Cursor).pels := by
  unfold Cursor.pels
  rw [eq, QFax.Efax.pels, Colour.after_succ]

theorem Cursor.pels_last {a : Cursor} (eq : a.rest = []) :
    a.pels = List.replicate a.l.toNat (Colour.white.after a.i).bit := by
  unfold Cursor.pels
  rw [eq, QFax.Efax.pels, QFax.Efax.pels, List.append_nil]

theorem Cursor.pels_less (b : Cursor) {n : Int} (nonneg : 0 ≤ n) (le : n ≤ b.l) :
    b.pels = List.replicate n.toNat (Colour.white.after b.i).bit ++
      ({ b with l := b.l - n } : Cursor).pels := by
  have split : b.l.toNat = n.toNat + (b.l - n).toNat := by omega
  unfold Cursor.pels
  rw [QFax.Efax.pels, QFax.Efax.pels, split, ← List.replicate_append_replicate, List.append_assoc]

/-! ## The two loops -/

/-- The pels that `orBoth` leaves to `orRest`. -/
def leftPels (out : OrOut × Cursor × Cursor × Bool) : List Bool :=
  if out.2.2.2 then out.2.2.1.pels else out.2.1.pels

/-- A subrun of the length of the current run of the first line. -/
theorem orPels_first {a b : Cursor} (nonneg : 0 ≤ a.l) (le : a.l ≤ b.l) (xs : List Bool)
    (eq : a.pels = List.replicate a.l.toNat (Colour.white.after a.i).bit ++ xs) :
    orPels a.pels b.pels =
      List.replicate a.l.toNat (Colour.white.after (a.i ||| b.i)).bit ++
        orPels xs ({ b with l := b.l - a.l } : Cursor).pels := by
  rw [eq, b.pels_less nonneg le, orPels_replicate, Colour.bit_or]

/-- A subrun of the length of the current run of the second line. -/
theorem orPels_second {a b : Cursor} (nonneg : 0 ≤ b.l) (le : b.l ≤ a.l) (ys : List Bool)
    (eq : b.pels = List.replicate b.l.toNat (Colour.white.after b.i).bit ++ ys) :
    orPels a.pels b.pels =
      List.replicate b.l.toNat (Colour.white.after (a.i ||| b.i)).bit ++
        orPels ({ a with l := a.l - b.l } : Cursor).pels ys := by
  rw [eq, a.pels_less nonneg le, orPels_replicate, Colour.bit_or]

/-- The first loop of `runor` outputs the OR of the lines up to the pels that it leaves. -/
theorem orBoth_pels {n : Nat} {c : OrOut} {a b : Cursor} (nonneg : c.Nonneg)
    (fitsA : a.Fits c.total) (fitsB : b.Fits c.total)
    (fuel : a.rest.length + b.rest.length < n) :
    (orBoth n c a b).1.pels ++ leftPels (orBoth n c a b) = c.pels ++ orPels a.pels b.pels := by
  induction n generalizing c a b with
  | zero => omega
  | succ n ih =>
    have restA := fitsA.rest_sum
    have restB := fitsB.rest_sum
    have widthA := fitsA.width
    have widthB := fitsB.width
    have pos := nonneg.total
    rw [orBoth]
    split
    case isTrue le =>
      have output := OrOut.pels_add nonneg (a.i ||| b.i) fitsA.here (by omega)
      obtain ⟨nonneg', total⟩ := nonneg.add (a.i ||| b.i) fitsA.here (by omega)
      obtain ⟨stored, fitsB'⟩ := fitsB.less pos fitsA.here le
      rw [← total] at fitsB'
      rw [stored]
      cases restA' : a.rest with
      | nil =>
        have split := orPels_first fitsA.here le [] (by rw [a.pels_last restA', List.append_nil])
        rw [orPels_nil_left] at split
        rw [split, ← List.append_assoc, ← output]
        rfl
      | cons l rest =>
        have fitsA' := fitsA.next restA'
        rw [← total] at fitsA'
        rw [restA', List.length_cons] at fuel
        rw [orPels_first fitsA.here le _ (a.pels_next restA'), ← List.append_assoc, ← output]
        exact ih nonneg' fitsA' fitsB' (by show rest.length + b.rest.length < n; omega)
    case isFalse gt =>
      have le : b.l ≤ a.l := by omega
      have output := OrOut.pels_add nonneg (a.i ||| b.i) fitsB.here (by omega)
      obtain ⟨nonneg', total⟩ := nonneg.add (a.i ||| b.i) fitsB.here (by omega)
      obtain ⟨stored, fitsA'⟩ := fitsA.less pos fitsB.here le
      rw [← total] at fitsA'
      rw [stored]
      cases restB' : b.rest with
      | nil =>
        have split := orPels_second fitsB.here le [] (by rw [b.pels_last restB', List.append_nil])
        rw [orPels_nil_right] at split
        rw [split, ← List.append_assoc, ← output]
        rfl
      | cons l rest =>
        have fitsB' := fitsB.next restB'
        rw [← total] at fitsB'
        rw [restB', List.length_cons] at fuel
        rw [orPels_second fitsB.here le _ (b.pels_next restB'), ← List.append_assoc, ← output]
        exact ih nonneg' fitsA' fitsB' (by show a.rest.length + rest.length < n; omega)

/-- The second loop of `runor` outputs the pels that are left. -/
theorem orRest_pels {c : OrOut} (nonneg : c.Nonneg) (i : Nat) {l : Int} {rest : List Int}
    (fits : (⟨i, l, rest⟩ : Cursor).Fits c.total) :
    (orRest c i l rest).pels = c.pels ++ (⟨i, l, rest⟩ : Cursor).pels := by
  induction rest generalizing c i l with
  | nil =>
    have width : c.total + (l + 0) ≤ 32767 := fits.width
    rw [Cursor.pels_last rfl]
    exact OrOut.pels_add nonneg i fits.here (by omega)
  | cons l' rest ih =>
    have width : c.total + (l + (l' :: rest).sum) ≤ 32767 := fits.width
    have later : 0 ≤ (l' :: rest).sum := List.sum_nonneg fits.later
    have output := OrOut.pels_add nonneg i (n := l) fits.here (by omega)
    obtain ⟨nonneg', total⟩ := nonneg.add i (n := l) fits.here (by omega)
    have fits' := fits.next rfl
    rw [← total] at fits'
    rw [Cursor.pels_next rfl, ← List.append_assoc, ← output]
    exact ih nonneg' (i + 1) fits'

/-! ## The number of runs -/

/-- A subrun is at most one run more, and the first subruns of two lines go to the first run. -/
theorem OrOut.length_add (c : OrOut) (i j : Nat) (n : Int) (le : c.done.length ≤ i + j - 1) :
    (c.add (i ||| j) n).done.length ≤ i + j := by
  unfold OrOut.add
  by_cases first : i + j = 0
  · obtain ⟨rfl, rfl⟩ : i = 0 ∧ j = 0 := by omega
    have empty : c.done.length = 0 := by omega
    rw [if_neg (by rw [empty]; decide)]
    exact le
  · split
    case isTrue =>
      show (c.done ++ [c.cur]).length ≤ i + j
      rw [List.length_append, List.length_singleton]
      omega
    case isFalse =>
      show c.done.length ≤ i + j
      omega

/-- The first loop outputs at most as many runs as it takes. -/
theorem orBoth_length {n : Nat} {c : OrOut} {a b : Cursor} (le : c.done.length ≤ a.i + b.i - 1)
    (fuel : a.rest.length + b.rest.length < n) :
    (orBoth n c a b).1.done.length + (if (orBoth n c a b).2.2.2 then
        (orBoth n c a b).2.2.1.rest.length else (orBoth n c a b).2.1.rest.length) ≤
      a.i + a.rest.length + (b.i + b.rest.length) := by
  induction n generalizing c a b with
  | zero => omega
  | succ n ih =>
    rw [orBoth]
    split
    case isTrue =>
      have output := c.length_add a.i b.i a.l le
      cases restA : a.rest with
      | nil =>
        show (c.add (a.i ||| b.i) a.l).done.length + b.rest.length ≤ _
        rw [List.length_nil]
        omega
      | cons l rest =>
        rw [restA, List.length_cons] at fuel
        have more := ih (c := c.add (a.i ||| b.i) a.l) (a := ⟨a.i + 1, l, rest⟩)
          (b := { b with l := toShort (b.l - a.l) })
          (by show _ ≤ a.i + 1 + b.i - 1; omega) (by show rest.length + b.rest.length < n; omega)
        refine more.trans ?_
        show a.i + 1 + rest.length + (b.i + b.rest.length) ≤ _
        rw [List.length_cons]
        omega
    case isFalse =>
      have output := c.length_add a.i b.i b.l le
      cases restB : b.rest with
      | nil =>
        show (c.add (a.i ||| b.i) b.l).done.length + a.rest.length ≤ _
        rw [List.length_nil]
        omega
      | cons l rest =>
        rw [restB, List.length_cons] at fuel
        have more := ih (c := c.add (a.i ||| b.i) b.l) (a := { a with l := toShort (a.l - b.l) })
          (b := ⟨b.i + 1, l, rest⟩)
          (by show _ ≤ a.i + (b.i + 1) - 1; omega) (by show a.rest.length + rest.length < n; omega)
        refine more.trans ?_
        show a.i + a.rest.length + (b.i + 1 + rest.length) ≤ _
        rw [List.length_cons]
        omega

theorem OrOut.length_add_le (c : OrOut) (col : Nat) (n : Int) :
    (c.add col n).done.length ≤ c.done.length + 1 := by
  unfold OrOut.add
  split
  case isTrue => exact (List.length_append).le
  case isFalse => exact Nat.le_succ _

theorem orRest_length (c : OrOut) (i : Nat) (l : Int) (rest : List Int) :
    (orRest c i l rest).done.length ≤ c.done.length + (rest.length + 1) := by
  induction rest generalizing c i l with
  | nil => exact c.length_add_le i l
  | cons l' rest ih =>
    have output := c.length_add_le i l
    have more := ih (c.add i l) (i + 1) l'
    rw [orRest, List.length_cons]
    omega

/-! ## The result -/

/-- `runor` with a null `c`: the buffer `a`, `*pels` and the number of runs. -/
def runorInPlace (a : List Int) (na : Nat) (b : List Int) (nb : Nat) : List Int × Int × Nat :=
  let c := runor a na b nb
  (c ++ a.drop c.length, c.foldl (fun np run => np + run) 0, c.length)

/-- A line with a run, as `runor` starts to read it. -/
theorem pels_start {a : List Int} {n : Nat} (pos : 0 < n) (le : n ≤ a.length) :
    (⟨0, a.headD 0, (a.take n).tail⟩ : Cursor).pels = pels .white (a.take n) ∧
      (a.take n).tail.length + 1 = n := by
  obtain ⟨run, runs, rfl⟩ := List.exists_cons_of_length_pos (pos.trans_le le)
  obtain ⟨m, rfl⟩ := Nat.exists_eq_succ_of_ne_zero pos.ne'
  rw [List.length_cons] at le
  refine ⟨rfl, ?_⟩
  rw [List.take_succ_cons, List.tail_cons, List.length_take, Nat.min_eq_left (by omega)]

/-- The loops of `runor` one after the other. -/
theorem runor_eq {a b : List Int} {na nb : Nat} (pos : 0 < na) {c : OrOut} {ca cb : Cursor}
    {aDone : Bool}
    (both : orBoth ((a.take na).tail.length + (b.take nb).tail.length + 1) ⟨[], 0⟩
      ⟨0, a.headD 0, (a.take na).tail⟩ ⟨0, b.headD 0, (b.take nb).tail⟩ = (c, ca, cb, aDone)) :
    runor a na b nb =
      (if aDone then orRest c cb.i cb.l cb.rest else orRest c ca.i ca.l ca.rest).done ++
      [(if aDone then orRest c cb.i cb.l cb.rest else orRest c ca.i ca.l ca.rest).cur] := by
  have ne : na ≠ 0 := by omega
  simp only [runor, both]
  cases aDone with
  | true => simp
  | false => simp [ne]

theorem runor_length {a b : List Int} {na nb : Nat} (posA : 0 < na) (leA : na ≤ a.length)
    (posB : 0 < nb) (leB : nb ≤ b.length) : (runor a na b nb).length ≤ na + nb := by
  have sizeA := (pels_start posA leA).2
  have sizeB := (pels_start posB leB).2
  have both := orBoth_length (n := (a.take na).tail.length + (b.take nb).tail.length + 1)
    (c := ⟨[], 0⟩) (a := ⟨0, a.headD 0, (a.take na).tail⟩)
    (b := ⟨0, b.headD 0, (b.take nb).tail⟩) (Nat.zero_le _) (Nat.lt_succ_self _)
  generalize eq : orBoth ((a.take na).tail.length + (b.take nb).tail.length + 1) ⟨[], 0⟩
    ⟨0, a.headD 0, (a.take na).tail⟩ ⟨0, b.headD 0, (b.take nb).tail⟩ = out at both
  obtain ⟨c, ca, cb, aDone⟩ := out
  rw [runor_eq posA eq, List.length_append, List.length_singleton]
  cases aDone with
  | true =>
    have rest := orRest_length c cb.i cb.l cb.rest
    simp only [if_true] at both ⊢
    omega
  | false =>
    have rest := orRest_length c ca.i ca.l ca.rest
    simp only [Bool.false_eq_true, if_false] at both ⊢
    omega

/-- The runs of `runor` are the OR of the two lines. -/
theorem runor_pels {a b : List Int} {na nb : Nat} (posA : 0 < na) (leA : na ≤ a.length)
    (lineA : LineBuffer a na) (posB : 0 < nb) (leB : nb ≤ b.length) (lineB : LineBuffer b nb) :
    pels .white (runor a na b nb) = orPels (pels .white (a.take na)) (pels .white (b.take nb)) := by
  have fitsA := lineA.fits fun none => absurd none posA.ne'
  have fitsB := lineB.fits fun none => absurd none posB.ne'
  have fuel := Nat.lt_succ_self ((a.take na).tail.length + (b.take nb).tail.length)
  have spec := orBoth_spec nonneg_empty fitsA fitsB fuel
  have both := orBoth_pels nonneg_empty fitsA fitsB fuel
  rw [(pels_start posA leA).1, (pels_start posB leB).1] at both
  generalize eq : orBoth ((a.take na).tail.length + (b.take nb).tail.length + 1) ⟨[], 0⟩
    ⟨0, a.headD 0, (a.take na).tail⟩ ⟨0, b.headD 0, (b.take nb).tail⟩ = out at spec both
  obtain ⟨c, ca, cb, aDone⟩ := out
  rw [runor_eq posA eq]
  cases aDone with
  | true => exact (orRest_pels spec.nonneg cb.i (spec.first rfl)).trans both
  | false => exact (orRest_pels spec.nonneg ca.i (spec.second rfl)).trans both

/-- `runor` leaves the OR of the two lines in `a`, as wide as the wider one and in at most as many
runs as the two have. -/
theorem runorInPlace_or {a b : List Int} {na nb : Nat} (posA : 0 < na) (leA : na ≤ a.length)
    (lineA : LineBuffer a na) (posB : 0 < nb) (leB : nb ≤ b.length) (lineB : LineBuffer b nb) :
    let (out, np, n) := runorInPlace a na b nb
    (∀ i, (pels .white (out.take n)).getD i false =
        ((pels .white (a.take na)).getD i false || (pels .white (b.take nb)).getD i false)) ∧
      (∀ r ∈ out.take n, 0 ≤ r) ∧ (out.take n).sum = max (a.take na).sum (b.take nb).sum ∧
      np = max (a.take na).sum (b.take nb).sum ∧ (out.take n).length = n ∧ n ≤ na + nb := by
  have line := runor_pels posA leA lineA posB leB lineB
  have nonneg := (runor_line lineA (fun none => absurd none posA.ne') lineB
    fun none => absurd none posB.ne').1
  have width : (runor a na b nb).sum = max (a.take na).sum (b.take nb).sum := by
    have size := congrArg List.length line
    rw [length_orPels] at size
    have out := length_pels .white nonneg
    have wideA := length_pels .white lineA.nonneg
    have wideB := length_pels .white lineB.nonneg
    omega
  have np : (runor a na b nb).foldl (fun np run => np + run) 0 = (runor a na b nb).sum :=
    (List.sum_eq_foldl).symm
  simp only [runorInPlace, List.take_left, line, getD_orPels, np]
  exact ⟨fun _ => trivial, nonneg, width, width, trivial, runor_length posA leA posB leB⟩

/-- Lines with runs of no pels. -/
theorem runorInPlace_or_six : let (out, np, n) := runorInPlace [2, 0, 1, 3] 4 [0, 1, 4] 3
    (∀ i, (pels .white (out.take n)).getD i false =
        ((pels .white ([2, 0, 1, 3].take 4)).getD i false ||
          (pels .white ([0, 1, 4].take 3)).getD i false)) ∧
      (∀ r ∈ out.take n, 0 ≤ r) ∧
      (out.take n).sum = max (([2, 0, 1, 3] : List Int).take 4).sum (([0, 1,
        4] : List Int).take 3).sum ∧
      np = max (([2, 0, 1, 3] : List Int).take 4).sum (([0, 1, 4] : List Int).take 3).sum ∧
      (out.take n).length = n ∧ n ≤ 4 + 3 :=
  runorInPlace_or (by decide) (by decide) ⟨by decide, by decide⟩ (by decide) (by decide)
    ⟨by decide, by decide⟩

end QFax.Efax

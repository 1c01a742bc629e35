import QFax.Efax.LineWidth
import QFax.Efax.Pcx
import QFax.Efax.ReadTotal
import QFax.Efax.TextRuns

/-!
# Inverted lines

`xinvert` inverts a line in its storage: it removes a first run of no pels or inserts one.  What it looks
at is the first run of the storage, which for a line without runs is left over from what was there
before.  A page reader never leaves a zero there, so that every line is inverted and `readline` ends no
page early; but a line of a single run of no pels becomes one without runs over a zero, which the next
inversion takes to fewer than none (`xinvert_inverts_iff`).
-/

namespace QFax.Efax

/-! ## Storage -/

/-- The loop of `xinvert` that removes the first run: `p[i] = p[i+1]` for `i` from zero up. -/
def removeRun (p : List Int) (nr : Nat) : List Int :=
  (List.range (nr - 1)).foldl (fun p i => p.set i (p.getD (i + 1) 0)) p

/-- The loop of `xinvert` that makes room for a run: `p[i] = p[i-1]` for `i` from `nr` down. -/
def insertRun (p : List Int) (nr : Nat) : List Int :=
  (List.range nr).foldr (fun i p => p.set (i + 1) (p.getD i 0)) p

/-- `xinvert` for a storage of which the first `nr` values are runs: the storage and the number of
runs. -/
def invertLine (p : List Int) (nr : Nat) : List Int × Int :=
  if p.headD 0 = 0 then (removeRun p nr, nr - 1)
  else ((insertRun p nr).set 0 0, nr + 1)

/-- What `readruns` leaves in the storage: the runs are combined at the start of the codes. -/
def combined (codes stale : List Int) : List Int :=
  combine codes.dropLast ++ codes.drop (combine codes.dropLast).length ++ stale

/-- What page readers leave in a storage, and how many runs it has. -/
inductive ReaderLine : List Int → Nat → Prop
  | bitmap (bits : List UInt8) (stale : List Int) : ReaderLine (bittorun bits ++ stale) (bittorun bits).length
  | text {font : FaxFont} {txt : List UInt8} {line w h : Nat} {lmargin pels : Int} {runs : List Int}
      (stale : List Int) :
    font.texttorun txt line w h lmargin = some (runs, pels) → ReaderLine (runs ++ stale) runs.length
  | fax {σ : Type} {get : σ → Int × σ} {fuel : Nat} {w w' : Window σ} {tab tab' : TabName}
      {codes : List Int} (stale : List Int) :
    readCodes get fuel w tab [] = some (w', tab', codes) →
    ReaderLine (combined codes stale) (combine codes.dropLast).length

/-- What the page readers for bit maps and for FAX data return, and the storage `p` behind it; the number
bounds the lookups of `readruns`. -/
def readPels (fuel : Nat) (page : PageInfo) (d : Decoder) (file : List UInt8) (p : List Int) :
    Option (Int × List Int) :=
  match page.format with
  | .raw =>
    let nb := (page.w.tdiv 8).toNat
    if file.length < nb then some (-1, p)
    else
      let runs := bittorun (file.take nb)
      some (runs.length, runs ++ p.drop runs.length)
  | .pcx =>
    match readpcx (pcxLineBytes page.w).toNat file with
    | none => some (-1, p)
    | some (bits, _) =>
      let runs := bittorun bits
      some (runs.length, runs ++ p.drop runs.length)
  | .fax => do
    let (row, _, _) ← readRow (fgetcReverse page.revbits) fuel d file
    let (_, _, codes) ← readCodes (fgetcReverse page.revbits) fuel (d.window file) d.tab []
    some (row.nr, combined codes (p.drop codes.length))

/-- `readline` on such a page: what it returns, and the storage. -/
def readlinePels (fuel : Nat) (page : PageInfo) (lines : Int) (d : Decoder) (file : List UInt8)
    (p : List Int) : Option (Int × List Int) :=
  if lines ≠ 0 then do
    let (nr, p) ← readPels fuel page d file p
    if 0 ≤ nr ∧ page.blackIsZero then
      let (p, nr) := invertLine p nr.toNat
      some (nr, p)
    else some (nr, p)
  else some (-1, p)

/-- Inverting a line complements its pels, and inverting it again gives them back. -/
structure Inverts (p : List Int) (nr : Nat) : Prop where
  count : 0 ≤ (invertLine p nr).2
  width : ((invertLine p nr).1.take (invertLine p nr).2.toNat).sum = (p.take nr).sum
  colours : pels .white ((invertLine p nr).1.take (invertLine p nr).2.toNat) =
    (pels .white (p.take nr)).map (!·)
  again : 0 ≤ (invertLine (invertLine p nr).1 (invertLine p nr).2.toNat).2
  back : pels .white ((invertLine (invertLine p nr).1 (invertLine p nr).2.toNat).1.take
    (invertLine (invertLine p nr).1 (invertLine p nr).2.toNat).2.toNat) = pels .white (p.take nr)

/-! ## The loops -/

theorem foldl_remove {p : List Int} {k : Nat} (room : k < p.length) :
    (List.range k).foldl (fun p i => p.set i (p.getD (i + 1) 0)) p = p.tail.take k ++ p.drop k := by
  induction k with
  | zero => rfl
  | succ k ih =>
    have front : (p.tail.take k).length = k := by
      rw [List.length_take, List.length_tail]
      omega
    have shorter : k < p.tail.length := by
      rw [List.length_tail]
      omega
    have next : p[k + 1] = p.tail[k] := (List.getElem_tail shorter).symm
    rw [List.range_succ, List.foldl_append, ih (by omega), List.foldl_cons, List.foldl_nil,
      List.drop_eq_getElem_cons (by omega : k < p.length), List.drop_eq_getElem_cons room,
      List.set_append_right _ _ front.le, List.getD_append_right _ _ _ _ (by omega), front]
    rw [Nat.sub_self, Nat.add_sub_cancel_left, List.set_cons_zero, List.getD_cons_succ,
      List.getD_cons_zero, next, List.take_succ_eq_append_getElem shorter]
    rw [List.append_assoc]
    rfl

theorem insertRun_eq {a : Int} {p : List Int} {n : Nat} (room : n ≤ p.length) :
    insertRun (a :: p) n = a :: (a :: p).take n ++ p.drop n := by
  induction n generalizing p with
  | zero => rfl
  | succ n ih =>
    have inside : n < (a :: p).length := by
      rw [List.length_cons]
      omega
    have behind : (p.set n ((a :: p).getD n 0)).drop n = (a :: p)[n] :: p.drop (n + 1) := by
      rw [List.drop_set, if_neg (lt_irrefl n), Nat.sub_self, List.drop_eq_getElem_cons (by omega),
        List.set_cons_zero, List.getD_eq_getElem _ _ inside]
    have front : (a :: p.set n ((a :: p).getD n 0)).take n = (a :: p).take n := by
      rw [← List.set_cons_succ, List.take_set_of_le (Nat.le_succ n)]
    rw [insertRun, List.range_succ, List.foldr_append, List.foldr_cons, List.foldr_nil, ← insertRun,
      List.set_cons_succ, ih (by rw [List.length_set]; omega), front, behind,
      List.take_succ_eq_append_getElem inside, List.cons_append, List.cons_append, List.append_assoc,
      List.singleton_append]

theorem invertLine_zero {p : List Int} {k : Nat} (held : k ≤ p.length) :
    invertLine (0 :: p) (k + 1) = (p.take k ++ (0 :: p).drop k, (k : Int)) := by
  have count : ((k + 1 : Nat) : Int) - 1 = k := by omega
  rw [invertLine, List.headD_cons, if_pos rfl, removeRun, Nat.add_sub_cancel, foldl_remove
    (Nat.lt_succ_of_le held), count]
  rfl

theorem invertLine_ne {a : Int} (ne : a ≠ 0) {p : List Int} {nr : Nat} (room : nr ≤ p.length) :
    invertLine (a :: p) nr = (0 :: ((a :: p).take nr ++ p.drop nr), ((nr + 1 : Nat) : Int)) := by
  rw [invertLine, List.headD_cons, if_neg ne, insertRun_eq room]
  rfl

/-- The runs of a result. -/
def runsOf (result : List Int × Int) : List Int := result.1.take result.2.toNat

/-- A line that has a run, or that has no zero left over in its storage, is inverted in place. -/
theorem invertLine_runs {p : List Int} {nr : Nat} (held : nr ≤ p.length)
    (room : p.headD 0 = 0 ∨ nr < p.length) (some : 0 < nr ∨ p.headD 0 ≠ 0) :
    runsOf (invertLine p nr) = xinvert (p.take nr) ∧
      (invertLine p nr).2 = (xinvert (p.take nr)).length ∧ (invertLine p nr).1.length = p.length := by
  cases p with
  | nil => exact absurd some (by simp [Nat.le_zero.mp held])
  | cons a p =>
    rw [List.headD_cons] at room some
    by_cases zero : a = 0
    · subst zero
      have pos : 0 < nr := some.resolve_right fun ne => ne rfl
      obtain ⟨k, rfl⟩ := Nat.exists_eq_succ_of_ne_zero pos.ne'
      have held' : k ≤ p.length := Nat.le_of_succ_le_succ held
      have length : (p.take k).length = k := by
        rw [List.length_take]
        omega
      rw [Nat.succ_eq_add_one, invertLine_zero held', runsOf, List.take_succ_cons, xinvert]
      refine ⟨?_, by rw [length], ?_⟩
      · rw [Int.toNat_natCast, List.take_left' length]
      · rw [List.length_append, length, List.length_drop, List.length_cons]
        omega
    · have room' : nr ≤ p.length := Nat.le_of_lt_succ (room.resolve_left zero)
      have length : ((a :: p).take nr).length = nr := by
        rw [List.length_take]
        omega
      have inserted : xinvert ((a :: p).take nr) = 0 :: (a :: p).take nr := by
        cases nr with
        | zero => rfl
        | succ n =>
          rw [List.take_succ_cons]
          unfold xinvert
          split
          · rename_i same
            exact absurd (List.cons.inj same).1 zero
          · rfl
      rw [invertLine_ne zero room', runsOf, inserted]
      refine ⟨?_, by rw [List.length_cons, length], ?_⟩
      · rw [Int.toNat_natCast, List.take_succ_cons, List.take_left' length]
      · rw [List.length_cons, List.length_append, length, List.length_drop, List.length_cons]
        omega

theorem invertLine_nonneg {p : List Int} {nr : Nat} (some : 0 < nr ∨ p.headD 0 ≠ 0) :
    0 ≤ (invertLine p nr).2 := by
  rw [invertLine]
  split
  · rename_i zero
    have pos := some.resolve_right fun ne => ne zero
    dsimp only
    omega
  · dsimp only
    omega

/-! ## Pels -/

/-- Runs that start with the other colour are the complement. -/
theorem pels_other (c : Colour) (runs : List Int) : pels c.other runs = (pels c runs).map (!·) := by
  induction runs generalizing c with
  | nil => rfl
  | cons run runs ih =>
    rw [pels, pels, ih, List.map_append, List.map_replicate]
    cases c <;> rfl

theorem pels_xinvert (runs : List Int) : pels .white (xinvert runs) = (pels .white runs).map (!·) := by
  rw [← pels_other]
  unfold xinvert
  split
  · rfl
  · rfl

theorem sum_xinvert (runs : List Int) : (xinvert runs).sum = runs.sum := by
  unfold xinvert
  split <;> simp

/-! ## Page readers -/

/-- The last code of a row is stored, unless the storage is full. -/
theorem readCodes_last {σ : Type} {get : σ → Int × σ} {fuel : Nat} {w w' : Window σ}
    {tab tab' : TabName}
    {codes codes' : List Int} (read : readCodes get fuel w tab codes = some (w', tab', codes'))
    (room : codes'.length < maxRuns) : codes'.getLast? = some (-1) := by
  induction fuel generalizing w tab codes with
  | zero => cases read
  | succ n ih =>
    rw [readCodes] at read
    dsimp only at read
    split at read
    · exact ih read
    · split at read
      · rename_i last
        cases read
        split at room
        · rename_i stored
          rw [if_pos stored, List.getLast?_concat, last]
        · rename_i full
          exact absurd room full
      · exact ih read

theorem bittorun_length (bits : List UInt8) : 0 < (bittorun bits).length := by
  rw [bittorun_eq, List.length_map]
  exact List.length_pos_iff.mpr (pelRuns_ne_nil _ _ _)

theorem texttorun_some {font : FaxFont} {txt : List UInt8} {line w h : Nat} {lmargin pels : Int}
    {runs : List Int} (found : font.texttorun txt line w h lmargin = some (runs, pels)) :
    0 < runs.length := by
  have unscaled := bittorun_length
    ((font.bitmap txt line h).take (((cells txt).length * font.w + 7) / 8))
  rw [FaxFont.texttorun] at found
  by_cases same : font.w = w
  · simp only [if_pos same, Option.map_eq_some_iff] at found
    obtain ⟨⟨out, n⟩, shifted, parts⟩ := found
    cases parts
    rw [length_xshift shifted]
    exact unscaled
  · simp only [if_neg same, Option.map_eq_some_iff] at found
    obtain ⟨⟨out, n⟩, shifted, parts⟩ := found
    cases parts
    rw [length_xshift shifted, xscale, length_scaleRuns]
    exact unscaled

theorem combine_eq_nil {codes : List Int} (empty : combine codes = []) : codes = [] := by
  rcases codes with _ | ⟨c, _ | ⟨d, codes⟩⟩
  · rfl
  · cases empty
  · rw [combine] at empty
    split at empty <;> cases empty

/-- A page reader that returns no run leaves something else than zero in the storage. -/
theorem ReaderLine.some {p : List Int} {nr : Nat} (fromReader : ReaderLine p nr) :
    0 < nr ∨ p.headD 0 ≠ 0 := by
  cases fromReader with
  | bitmap bits stale => exact Or.inl (bittorun_length bits)
  | text stale found => exact Or.inl (texttorun_some found)
  | fax stale read =>
    rename_i codes
    by_cases empty : combine codes.dropLast = []
    · -- the EOL is the only code
      have first := combine_eq_nil empty
      have short := congrArg List.length first
      rw [List.length_dropLast, List.length_nil] at short
      have last := readCodes_last read (by rw [maxRuns]; omega)
      obtain ⟨front, parts⟩ := List.getLast?_eq_some_iff.mp last
      rw [parts, List.dropLast_concat] at first
      rw [parts, first]
      exact Or.inr (by decide : (-1 : Int) ≠ 0)
    · exact Or.inl (List.length_pos_iff.mpr empty)

/-- Unless it was a single run of no pels, an inverted line can be inverted again. -/
theorem inverted_again {p : List Int} {nr : Nat} (room : nr < p.length)
    (some : 0 < nr ∨ p.headD 0 ≠ 0) (filled : ¬ (nr = 1 ∧ p.headD 0 = 0)) :
    (invertLine p nr).2.toNat ≤ (invertLine p nr).1.length ∧
      ((invertLine p nr).1.headD 0 = 0 ∨ (invertLine p nr).2.toNat < (invertLine p nr).1.length) ∧
      (0 < (invertLine p nr).2.toNat ∨ (invertLine p nr).1.headD 0 ≠ 0) := by
  cases p with
  | nil => cases room
  | cons a p =>
    rw [List.length_cons] at room
    rw [List.headD_cons] at some filled
    by_cases zero : a = 0
    · subst zero
      have pos : 0 < nr := some.resolve_right fun ne => ne rfl
      obtain ⟨k, rfl⟩ := Nat.exists_eq_succ_of_ne_zero pos.ne'
      have held : k ≤ p.length := by omega
      have length : (p.take k ++ (0 :: p).drop k).length = p.length + 1 := by
        rw [List.length_append, List.length_take, List.length_drop, List.length_cons]
        omega
      rw [Nat.succ_eq_add_one, invertLine_zero held, length, Int.toNat_natCast]
      exact ⟨by omega, Or.inr (by omega), Or.inl (by omega)⟩
    · have length : (0 :: ((a :: p).take nr ++ p.drop nr)).length = p.length + 1 := by
        rw [List.length_cons, List.length_append, List.length_take, List.length_drop, List.length_cons]
        omega
      rw [invertLine_ne zero (by omega), length, Int.toNat_natCast]
      exact ⟨by omega, Or.inl rfl, Or.inl (Nat.succ_pos nr)⟩

/-- With room for a run, a line of a page reader is inverted and inverted back, unless it is a single
run of no pels. -/
theorem inverts_iff {p : List Int} {nr : Nat} (fromReader : ReaderLine p nr) (room : nr < p.length) :
    Inverts p nr ↔ ¬ (nr = 1 ∧ p.headD 0 = 0) := by
  obtain ⟨runs, count, length⟩ := invertLine_runs room.le (Or.inr room) fromReader.some
  constructor
  · rintro inverts ⟨rfl, zero⟩
    cases p with
    | nil => cases room
    | cons a p =>
      rw [List.headD_cons] at zero
      subst zero
      have again := inverts.again
      rw [invertLine_zero (Nat.zero_le _)] at again
      have fewer : (0 : Int) ≤ 0 - 1 := again
      omega
  · intro filled
    have nonneg : 0 ≤ (invertLine p nr).2 := by
      rw [count]
      exact Int.natCast_nonneg _
    obtain ⟨held', room', some'⟩ := inverted_again room fromReader.some filled
    obtain ⟨runs', count', _⟩ := invertLine_runs held' room' some'
    rw [runsOf] at runs runs'
    refine ⟨nonneg, by rw [runs, sum_xinvert], by rw [runs, pels_xinvert], ?_, ?_⟩
    · rw [count']
      exact Int.natCast_nonneg _
    · rw [runs', runs, pels_xinvert, pels_xinvert, List.map_map]
      exact List.map_id'' Bool.not_not _

/-- A page reader that returns a number of runs returns them in its storage. -/
theorem readPels_returned {fuel : Nat} {page : PageInfo} {d : Decoder} {file : List UInt8}
    {p q : List Int}
    {nr : Int} (read : readPels fuel page d file p = some (nr, q)) (nonneg : 0 ≤ nr) :
    ReaderLine q nr.toNat := by
  rw [readPels] at read
  split at read
  · dsimp only at read
    split at read
    · cases read
      omega
    · cases read
      exact .bitmap _ _
  · split at read
    · cases read
      omega
    · cases read
      exact .bitmap _ _
  · simp only [Option.bind_eq_bind, Option.bind_eq_some_iff] at read
    obtain ⟨⟨row, _, _⟩, found, ⟨w, tab, codes⟩, stored, same⟩ := read
    cases same
    obtain ⟨_, _, codes', stored', runs, -⟩ := readRow_codes found
    rw [← Decoder.window, stored] at stored'
    cases stored'
    rw [readRow_count found nonneg, runs, Int.toNat_natCast]
    exact .fax _ stored

/-- `readline` returns the end of a page for the lines only for which the page reader does. -/
theorem readlinePels_iff {fuel : Nat} {page : PageInfo} {lines : Int} (more : lines ≠ 0) {d : Decoder}
    {file : List UInt8} {p q : List Int} {nr : Int}
    (read : readPels fuel page d file p = some (nr, q)) :
    ∃ nr' q', readlinePels fuel page lines d file p = some (nr', q') ∧ (nr' < 0 ↔ nr < 0) := by
  rw [readlinePels, if_pos more, read]
  by_cases inverted : 0 ≤ nr ∧ page.blackIsZero
  · have nonneg := inverted.1
    obtain ⟨n, rfl⟩ := Int.eq_ofNat_of_zero_le nonneg
    have counted := invertLine_nonneg (readPels_returned read nonneg).some
    rw [Int.toNat_natCast] at counted
    refine ⟨(invertLine q n).2, (invertLine q n).1, ?_, by omega⟩
    simp [inverted.2]
  · refine ⟨nr, q, ?_, Iff.rfl⟩
    simp [inverted]

/-- A line of a page reader whose storage has room for one more run is inverted, and inverted back, unless
it is a single run of no pels; and `readline` ends a page only where the page reader does. -/
theorem xinvert_inverts_iff {p : List Int} {nr : Nat} (fromReader : ReaderLine p nr)
    (room : nr < p.length) :
    (Inverts p nr ↔ ¬ (nr = 1 ∧ p.headD 0 = 0)) ∧
      ∀ (fuel : Nat) (page : PageInfo) (lines : Int) (d : Decoder) (file : List UInt8) (p q : List Int)
        (nr : Int), readPels fuel page d file p = some (nr, q) → lines ≠ 0 →
        ∃ nr' q', readlinePels fuel page lines d file p = some (nr', q') ∧ (nr' < 0 ↔ nr < 0) :=
  ⟨inverts_iff fromReader room, fun _ _ _ _ _ _ _ _ read more => readlinePels_iff more read⟩

/-- A line of no pels. -/
theorem zero_run_lost : ReaderLine (bittorun [] ++ [0]) (bittorun []).length ∧
    (bittorun []).length < (bittorun [] ++ [0]).length ∧
    ¬ Inverts (bittorun [] ++ [0]) (bittorun []).length := by
  refine ⟨.bitmap [] [0], by decide, fun inverts => ?_⟩
  have again : (0 : Int) ≤ 0 - 1 := inverts.again
  omega

/-- A line of eight black pels. -/
theorem xinvert_inverts_black : Inverts (bittorun [0xff] ++ [0]) (bittorun [0xff]).length :=
  (xinvert_inverts_iff (.bitmap [0xff] [0]) (by decide)).1.mpr (by decide)

end QFax.Efax

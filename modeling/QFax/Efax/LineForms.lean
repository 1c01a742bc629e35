import QFax.Efax.BitMap

/-!
# The two forms of a scan line

`bittorun` finds the runs of a bit map byte by byte and stores them as `short` values, and `runtobit`
fills a bit map from them with a `short` count of the free bits in its byte.  `pelRuns` are the runs of
a line of any width, found pel by pel: `bittorun` stores them (`bittorun_eq`).  The two functions
convert a line forth and back if and only if it has no more than 32767 pels of one colour in a row
(`forms_iff`).
-/

namespace QFax.Efax

open Bits

/-! ## The runs of a line -/

/-- The runs of a line of pels: `cur` pels of the colour `col` come before it. -/
def pelRuns (col : Colour) (cur : Int) : List Bool → List Int
  | [] => [cur]
  | x :: xs => if x = col.bit then pelRuns col (cur + 1) xs else cur :: pelRuns col.other 1 xs

theorem pelRuns_ne_nil (col : Colour) (cur : Int) (xs : List Bool) : pelRuns col cur xs ≠ [] := by
  induction xs generalizing cur with
  | nil => exact List.cons_ne_nil _ _
  | cons x xs ih =>
    rw [pelRuns]
    split
    case isTrue => exact ih (cur + 1)
    case isFalse => exact List.cons_ne_nil _ _

theorem Colour.bit_other {c : Colour} {x : Bool} (ne : x ≠ c.bit) : x = c.other.bit := by
  cases c <;> cases x <;> simp_all [Colour.bit, Colour.other]

/-- The runs of a line have its pels. -/
theorem pels_pelRuns (col : Colour) {cur : Int} (nonneg : 0 ≤ cur) (xs : List Bool) :
    pels col (pelRuns col cur xs) = List.replicate cur.toNat col.bit ++ xs := by
  induction xs generalizing col cur with
  | nil => rfl
  | cons x xs ih =>
    rw [pelRuns]
    split
    case isTrue same =>
      have next : (cur + 1).toNat = cur.toNat + 1 := by omega
      rw [ih col (by omega), next, List.replicate_succ', List.append_assoc, same]
      rfl
    case isFalse differs =>
      rw [pels, ih col.other (by decide), Colour.bit_other differs]
      rfl

/-- The first run has all the pels in front, and no other run is empty. -/
theorem pelRuns_canonical (col : Colour) (cur : Int) (xs : List Bool) :
    cur ≤ (pelRuns col cur xs).headD 0 ∧ ∀ r ∈ (pelRuns col cur xs).tail, 0 < r := by
  induction xs generalizing col cur with
  | nil => exact ⟨le_rfl, by simp [pelRuns]⟩
  | cons x xs ih =>
    rw [pelRuns]
    split
    case isTrue =>
      obtain ⟨first, later⟩ := ih col (cur + 1)
      exact ⟨by omega, later⟩
    case isFalse =>
      obtain ⟨first, later⟩ := ih col.other 1
      obtain ⟨run, runs, eq⟩ := List.exists_cons_of_ne_nil (pelRuns_ne_nil col.other 1 xs)
      rw [eq] at first later ⊢
      refine ⟨le_rfl, fun r member => ?_⟩
      rcases List.mem_cons.mp member with rfl | member
      · exact first
      · exact later r member

theorem pelRuns_nonneg (col : Colour) {cur : Int} (nonneg : 0 ≤ cur) (xs : List Bool) :
    ∀ r ∈ pelRuns col cur xs, 0 ≤ r := by
  obtain ⟨first, later⟩ := pelRuns_canonical col cur xs
  obtain ⟨run, runs, eq⟩ := List.exists_cons_of_ne_nil (pelRuns_ne_nil col cur xs)
  rw [eq] at first later ⊢
  intro r member
  rcases List.mem_cons.mp member with rfl | member
  · exact nonneg.trans first
  · exact (later r member).le

theorem length_pelRuns (col : Colour) (cur : Int) (xs : List Bool) :
    (pelRuns col cur xs).length ≤ xs.length + 1 := by
  induction xs generalizing col cur with
  | nil => exact le_rfl
  | cons x xs ih =>
    rw [pelRuns, List.length_cons]
    split
    case isTrue =>
      have rest := ih col (cur + 1)
      omega
    case isFalse =>
      have rest := ih col.other 1
      rw [List.length_cons]
      omega

/-- The pels in front of a line only lengthen its first run. -/
theorem pelRuns_offset (col : Colour) (m n : Int) (xs : List Bool) :
    pelRuns col (m + n) xs = (m + (pelRuns col n xs).headD 0) :: (pelRuns col n xs).tail := by
  induction xs generalizing n with
  | nil => rfl
  | cons x xs ih =>
    rw [pelRuns, pelRuns]
    split
    case isTrue => rw [Int.add_assoc, ih (n + 1)]
    case isFalse => rfl

/-- The runs of two pieces of a line. -/
theorem pelRuns_append (col : Colour) (cur : Int) (xs ys : List Bool) :
    pelRuns col cur (xs ++ ys) = (pelRuns col cur xs).dropLast ++
      pelRuns (col.after ((pelRuns col cur xs).length - 1)) ((pelRuns col cur xs).getLastD 0) ys := by
  induction xs generalizing col cur with
  | nil => rfl
  | cons x xs ih =>
    rw [List.cons_append, pelRuns, pelRuns]
    split
    case isTrue => exact ih col (cur + 1)
    case isFalse =>
      obtain ⟨run, runs, eq⟩ := List.exists_cons_of_ne_nil (pelRuns_ne_nil col.other 1 xs)
      rw [ih col.other 1, eq]
      simp [Colour.after]

/-- Pels of the current colour. -/
theorem pelRuns_replicate (col : Colour) (cur : Int) (m : Nat) (xs : List Bool) :
    pelRuns col cur (List.replicate m col.bit ++ xs) = pelRuns col (cur + m) xs := by
  induction m generalizing cur with
  | zero => simp
  | succ m ih =>
    have next : cur + 1 + (m : Int) = cur + ((m + 1 : Nat) : Int) := by omega
    rw [List.replicate_succ, List.cons_append, pelRuns, if_pos rfl, ih, next]

/-! ## Long runs -/

/-- A line with more pels of one colour in a row than a `short` holds. -/
def LongRun (bits : List Bool) : Prop :=
  ∃ front c back, bits = front ++ List.replicate 32768 c ++ back

/-- Pels of one colour in a row are in one run. -/
theorem exists_run_of_replicate (col : Colour) (cur : Int) (nonneg : 0 ≤ cur) (front back : List Bool)
    (c : Bool) (m : Nat) :
    ∃ r ∈ pelRuns col cur (front ++ List.replicate m c ++ back), (m : Int) ≤ r := by
  -- the run that the line starts with
  have head (col : Colour) (cur : Int) (xs : List Bool) : ∃ r ∈ pelRuns col cur xs, cur ≤ r := by
    obtain ⟨first, -⟩ := pelRuns_canonical col cur xs
    obtain ⟨run, runs, eq⟩ := List.exists_cons_of_ne_nil (pelRuns_ne_nil col cur xs)
    rw [eq] at first ⊢
    exact ⟨run, List.mem_cons_self, first⟩
  induction front generalizing col cur with
  | nil =>
    rw [List.nil_append]
    by_cases colour : c = col.bit
    · obtain ⟨r, member, le⟩ := head col (cur + m) back
      rw [colour, pelRuns_replicate]
      exact ⟨r, member, by omega⟩
    · cases m with
      | zero =>
        obtain ⟨r, member, le⟩ := head col cur back
        exact ⟨r, member, by omega⟩
      | succ m =>
        obtain ⟨r, member, le⟩ := head col.other (1 + m) back
        rw [List.replicate_succ, List.cons_append, pelRuns, if_neg colour, Colour.bit_other colour,
          pelRuns_replicate]
        exact ⟨r, List.mem_cons_of_mem cur member, by omega⟩
  | cons x front ih =>
    rw [List.cons_append, List.cons_append, pelRuns]
    split
    case isTrue => exact ih col (cur + 1) (by omega)
    case isFalse =>
      obtain ⟨r, member, le⟩ := ih col.other 1 (by decide)
      exact ⟨r, List.mem_cons_of_mem cur member, le⟩

/-- The pels of a run are in a row. -/
theorem exists_replicate_of_run {bits : List Bool} {r : Int} (member : r ∈ pelRuns .white 0 bits)
    {m : Nat} (long : (m : Int) ≤ r) :
    ∃ front c back, bits = front ++ List.replicate m c ++ back := by
  obtain ⟨front, back, split⟩ := List.append_of_mem member
  have line := pels_pelRuns .white le_rfl bits
  have size : r.toNat = m + (r.toNat - m) := by omega
  rw [split, pels_append, pels, size, ← List.replicate_append_replicate, Int.toNat_zero,
    List.replicate_zero, List.nil_append] at line
  refine ⟨pels .white front, (Colour.white.after front.length).bit,
    List.replicate (r.toNat - m) (Colour.white.after front.length).bit ++
      pels (Colour.white.after front.length).other back, ?_⟩
  rw [← line]
  simp only [List.append_assoc]

/-- A line has a long run if and only if one of its runs does not fit a `short`. -/
theorem longRun_iff (bits : List Bool) :
    LongRun bits ↔ ∃ r ∈ pelRuns .white 0 bits, 32768 ≤ r := by
  constructor
  · rintro ⟨front, c, back, rfl⟩
    exact exists_run_of_replicate .white 0 le_rfl front back c 32768
  · rintro ⟨r, member, long⟩
    exact exists_replicate_of_run member long

/-! ## What `bittorun` stores -/

/-- The table has the runs of a byte. -/
theorem rltab_eq (c : UInt8) : rltab c = pelRuns (firstColour c) 0 (byteBits c) := by
  have all : ((List.finRange 256).all fun i => decide ((splitRuns [] byteruns).getD i [] =
      pelRuns (firstColour (UInt8.ofFin i)) 0 (byteBits (UInt8.ofFin i)))) = true := by decide +kernel
  exact of_decide_eq_true (List.all_eq_true.mp all c.toFin (List.mem_finRange _))

/-- A byte starts with the pel of its first colour. -/
theorem byteBits_first (c : UInt8) : ∃ bits, byteBits c = (firstColour c).bit :: bits := by
  refine ⟨toBits 7 c.toNat, ?_⟩
  rw [byteBits, toBits_succ]
  unfold firstColour
  cases c.toNat.testBit 7 <;> rfl

theorem toShort_add_left (m n : Int) : toShort (toShort m + n) = toShort (m + n) :=
  Int.bmod_add_bmod

/-- Runs that fit a `short`. -/
theorem map_toShort_eq {runs : List Int} (nonneg : ∀ r ∈ runs, 0 ≤ r) (short : ∀ r ∈ runs, r ≤ 32767) :
    runs.map toShort = runs := by
  have same : ∀ r ∈ runs, toShort r = r := fun r member => by
    have lower := nonneg r member
    exact toShort_of_small (by omega) (short r member)
  exact (List.map_congr_left same).trans (List.map_id _)

/-- The table entries fit a `short`. -/
theorem rltab_short (c : UInt8) : (rltab c).map toShort = rltab c := by
  obtain ⟨bits, nonneg, -, -⟩ := rltab_runs c
  have total : (rltab c).sum = 8 := by
    rw [← length_pels (firstColour c) nonneg, bits, length_byteBits]
    rfl
  apply map_toShort_eq nonneg
  intro r member
  have upper := List.single_le_sum nonneg r member
  omega

/-- The runs up to the end of a byte, as `bittorun` joins the table entry to the current run. -/
theorem pelRuns_byte (lastc c : UInt8) (cur : Int) :
    (if newRun lastc c then toShort cur :: rltab c
        else toShort (toShort cur + (rltab c).headD 0) :: (rltab c).tail) =
        (pelRuns (lastColour lastc) cur (byteBits c)).map toShort ∧
      (lastColour lastc).after ((pelRuns (lastColour lastc) cur (byteBits c)).length - 1) =
        lastColour c := by
  obtain ⟨first, more, table⟩ := List.exists_cons_of_ne_nil (rltab_runs c).ne
  have row : pelRuns (firstColour c) 0 (byteBits c) = first :: more := by rw [← rltab_eq, table]
  have shorts := rltab_short c
  have last := congrArg Colour.other (rltab_runs c).last
  rw [table, List.length_cons, Colour.after_succ, Colour.other_other, Colour.other_other] at last
  by_cases new : newRun lastc c = true
  · have starts := (newRun_iff lastc c).mp new
    have runs : pelRuns (lastColour lastc) cur (byteBits c) = cur :: rltab c := by
      obtain ⟨bits, eq⟩ := byteBits_first c
      rw [rltab_eq, eq, starts, pelRuns, if_neg (by cases lastColour lastc <;> decide), pelRuns,
        if_pos rfl, Int.zero_add]
    rw [if_pos new, runs, List.map_cons, shorts, List.length_cons, Nat.add_sub_cancel, table,
      List.length_cons]
    refine ⟨rfl, ?_⟩
    show (lastColour lastc).other.after more.length = lastColour c
    rw [← starts, last]
  · have starts : firstColour c = lastColour lastc :=
      Colour.eq_other fun other => new ((newRun_iff lastc c).mpr other)
    have runs : pelRuns (lastColour lastc) cur (byteBits c) = (cur + first) :: more := by
      have offset := pelRuns_offset (firstColour c) cur 0 (byteBits c)
      rwa [Int.add_zero, row, List.headD_cons, List.tail_cons, starts] at offset
    rw [table, List.map_cons, List.cons.injEq] at shorts
    rw [if_neg new, runs, table, List.headD_cons, List.tail_cons, List.map_cons, shorts.2,
      toShort_add_left, List.length_cons, Nat.add_sub_cancel, ← starts]
    exact ⟨rfl, last⟩

/-- `bittorun` stores the runs of a line, each as a `short`. -/
theorem bittorunFrom_eq (lastc : UInt8) (cur : Int) (bits : List UInt8) :
    bittorunFrom lastc (toShort cur) bits =
      (pelRuns (lastColour lastc) cur (bytesBits bits)).map toShort := by
  induction bits generalizing lastc cur with
  | nil => rfl
  | cons c bits ih =>
    obtain ⟨runs, colour⟩ := pelRuns_byte lastc c cur
    obtain ⟨front, last, eq⟩ : ∃ front last,
        pelRuns (lastColour lastc) cur (byteBits c) = front ++ [last] :=
      ⟨_, _, (List.dropLast_append_getLast (pelRuns_ne_nil _ _ _)).symm⟩
    rw [bytesBits_cons, pelRuns_append, colour, List.map_append, bittorunFrom]
    simp only [runs, eq, List.map_append, List.map_cons, List.map_nil, List.dropLast_concat,
      List.getLastD_concat, ih]

theorem bittorun_eq (bits : List UInt8) :
    bittorun bits = (pelRuns .white 0 (bytesBits bits)).map toShort :=
  bittorunFrom_eq 0x00 0 bits

/-! ## What `runtobit` fills -/

/-- The buffer of `runtobit` with its `short` count of the bits that are not filled. -/
structure ShortOut where
  done : List UInt8
  cur : UInt8
  b : Int
  deriving DecidableEq, Repr

/-- Fill a run, unless the fill table has no entry for the bits that are not filled. -/
def ShortOut.fill (o : ShortOut) (col : Colour) (len : Int) : Option ShortOut :=
  if 0 ≤ o.b ∧ o.b ≤ 8 then
    let cur := (⟨o.done, o.cur, o.b.toNat⟩ : BitOut).flood col
    if len < o.b then some ⟨o.done, cur, toShort (o.b - len)⟩
    else
      let len := len - o.b
      let bytes := len >>> (3 : Nat)
      some ⟨o.done ++ cur :: List.replicate bytes.toNat col.byte, col.byte, 8 - (len - bytes * 8)⟩
  else none

def fillShorts (o : ShortOut) (col : Colour) : List Int → Option ShortOut
  | [] => some o
  | run :: runs => (o.fill col run).bind fun o => fillShorts o col.other runs

/-- `runtobit` on runs of any `short` value: the bytes filled. -/
def runtobitShorts (runs : List Int) : Option (List UInt8) :=
  (fillShorts ⟨[], 0, 8⟩ .white runs).map fun o => o.done ++ if o.b < 8 then [o.cur] else []

/-- The same buffer with a `short` count. -/
def BitOut.toShorts (o : BitOut) : ShortOut := ⟨o.done, o.cur, o.b⟩

theorem fill_toShorts {o : BitOut} (le : o.b ≤ 8) (col : Colour) {len : Int} (nonneg : 0 ≤ len) :
    o.toShorts.fill col len = some (o.fill col len.toNat).toShorts := by
  have inside : (0 : Int) ≤ o.b ∧ (o.b : Int) ≤ 8 := by omega
  obtain ⟨n, rfl⟩ := Int.eq_ofNat_of_zero_le nonneg
  unfold ShortOut.fill BitOut.fill
  rw [if_pos (show 0 ≤ o.toShorts.b ∧ o.toShorts.b ≤ 8 from inside)]
  by_cases fits : n < o.b
  · have lt : (n : Int) < o.toShorts.b := by show (n : Int) < o.b; omega
    have rest : toShort (o.toShorts.b - n) = ((o.b - n : Nat) : Int) := by
      show toShort ((o.b : Int) - n) = _
      rw [toShort_of_small (by omega) (by omega)]
      omega
    rw [Int.toNat_natCast, if_pos fits]
    simp only [if_pos lt, rest]
    rfl
  · have le' : ¬ (n : Int) < o.toShorts.b := by show ¬ (n : Int) < o.b; omega
    have left : (n : Int) - o.toShorts.b = ((n - o.b : Nat) : Int) := by
      show (n : Int) - o.b = _
      omega
    have bytes : ((n - o.b : Nat) : Int) >>> (3 : Nat) = (((n - o.b) >>> 3 : Nat) : Int) := rfl
    have room : (8 : Int) - (((n - o.b : Nat) : Int) - (((n - o.b) >>> 3 : Nat) : Int) * (8 : Int)) =
        ((8 - (n - o.b - (n - o.b) >>> 3 * 8) : Nat) : Int) := by
      rw [Nat.shiftRight_eq_div_pow]
      omega
    rw [Int.toNat_natCast, if_neg fits]
    simp only [if_neg le', left, bytes, room, Int.toNat_natCast]
    rfl

theorem fillShorts_toShorts {o : BitOut} {bits : List Bool} (holds : o.Holds bits) (col : Colour)
    {runs : List Int} (nonneg : ∀ r ∈ runs, 0 ≤ r) :
    fillShorts o.toShorts col runs = some (fillRuns o col runs).toShorts := by
  induction runs generalizing o bits col with
  | nil => rfl
  | cons run runs ih =>
    rw [fillShorts, fill_toShorts holds.le col (nonneg run List.mem_cons_self)]
    exact ih (holds.fill col run.toNat) col.other fun r hr => nonneg r (List.mem_cons_of_mem run hr)

/-- Runs that are not negative are filled as `runtobit` fills them. -/
theorem runtobitShorts_eq {runs : List Int} (nonneg : ∀ r ∈ runs, 0 ≤ r) :
    runtobitShorts runs = some (runtobit runs) := by
  have filled := fillShorts_toShorts (⟨by decide, le_rfl, rfl⟩ : BitOut.Holds ⟨[], 0, 8⟩ []) .white
    nonneg
  have below : ((fillRuns ⟨[], 0, 8⟩ .white runs).toShorts.b < 8) =
      ((fillRuns ⟨[], 0, 8⟩ .white runs).b < 8) := by
    show (((fillRuns ⟨[], 0, 8⟩ .white runs).b : Int) < 8) = _
    simp
  show (fillShorts (⟨[], 0, 8⟩ : BitOut).toShorts .white runs).map _ = _
  rw [filled, Option.map_some, runtobit]
  simp only [below]
  rfl

/-! ## Runs that do not fit a `short` -/

theorem toShort_spec (n : Int) :
    ∃ k, toShort n = n - 65536 * k ∧ -32768 ≤ toShort n ∧ toShort n ≤ 32767 := by
  have lower : -(2 ^ 16) / 2 ≤ toShort n := Int.le_bmod (by decide)
  have upper : toShort n < ((2 ^ 16 : Nat) + 1) / 2 := Int.bmod_lt (by decide)
  have whole : toShort n = n - 65536 * Int.bdiv n (2 ^ 16) := Int.bmod_eq_self_sub_mul_bdiv n _
  exact ⟨_, whole, lower, by omega⟩

/-- The buffer has no more bytes than the runs that are not negative fill. -/
structure ShortOut.Within (o : ShortOut) (width : Int) : Prop where
  bytes : 8 * (o.done.length : Int) ≤ width
  filled : 0 ≤ o.b → 8 * (o.done.length : Int) + 8 - o.b ≤ width

theorem ShortOut.Within.fill {o o' : ShortOut} {width : Int} (within : o.Within width) {col : Colour}
    {len : Int} (lower : -32768 ≤ len) (filled : o.fill col len = some o') :
    o'.Within (width + max len 0) := by
  obtain ⟨bytes, here⟩ := within
  unfold ShortOut.fill at filled
  by_cases inside : 0 ≤ o.b ∧ o.b ≤ 8
  · have position := here inside.1
    rw [if_pos inside] at filled
    by_cases fits : len < o.b
    · simp only [if_pos fits, Option.some.injEq] at filled
      subst filled
      obtain ⟨k, eq, low, high⟩ := toShort_spec (o.b - len)
      refine ⟨?_, fun nonneg => ?_⟩
      · show 8 * (o.done.length : Int) ≤ _
        omega
      · have nonneg' : 0 ≤ toShort (o.b - len) := nonneg
        show 8 * (o.done.length : Int) + 8 - toShort (o.b - len) ≤ _
        omega
    · simp only [if_neg fits, Option.some.injEq] at filled
      subst filled
      have whole : (len - o.b) >>> (3 : Nat) = (len - o.b) / 8 := Int.shiftRight_eq_div_pow _ _
      have size : ((o.done ++ (⟨o.done, o.cur, o.b.toNat⟩ : BitOut).flood col ::
          List.replicate ((len - o.b) >>> (3 : Nat)).toNat col.byte).length : Int) =
          o.done.length + 1 + (len - o.b) / 8 := by
        rw [List.length_append, List.length_cons, List.length_replicate, whole]
        omega
      refine ⟨?_, fun _ => ?_⟩
      · dsimp only
        rw [size]
        omega
      · dsimp only
        rw [size, whole]
        omega
  · rw [if_neg inside] at filled
    cases filled

theorem ShortOut.Within.fillShorts {o o' : ShortOut} {width : Int} (within : o.Within width)
    {col : Colour} {runs : List Int} (lower : ∀ r ∈ runs, -32768 ≤ r)
    (filled : fillShorts o col runs = some o') :
    o'.Within (width + (runs.map (max · 0)).sum) := by
  induction runs generalizing o col width with
  | nil =>
    cases filled
    simpa using within
  | cons run runs ih =>
    rw [QFax.Efax.fillShorts, Option.bind_eq_some_iff] at filled
    obtain ⟨next, first, rest⟩ := filled
    have step := within.fill (lower run List.mem_cons_self) first
    have more := ih step (fun r hr => lower r (List.mem_cons_of_mem run hr)) rest
    rwa [List.map_cons, List.sum_cons, ← Int.add_assoc]

/-- The bytes that `runtobit` fills from runs of any `short` value. -/
theorem runtobitShorts_length {runs : List Int} (lower : ∀ r ∈ runs, -32768 ≤ r) {out : List UInt8}
    (filled : runtobitShorts runs = some out) :
    8 * (out.length : Int) ≤ (runs.map (max · 0)).sum + 8 := by
  rw [runtobitShorts, Option.map_eq_some_iff] at filled
  obtain ⟨o, filled, rfl⟩ := filled
  have start : (⟨[], 0, 8⟩ : ShortOut).Within 0 := ⟨le_rfl, fun _ => le_rfl⟩
  have bytes := (start.fillShorts lower filled).bytes
  rw [List.length_append]
  split
  · rw [List.length_singleton]
    omega
  · rw [List.length_nil]
    omega

/-- Stored as a `short`, a run that is too long loses at least 32768 pels. -/
theorem sum_toShort {runs : List Int} (nonneg : ∀ r ∈ runs, 0 ≤ r) :
    ((runs.map toShort).map (max · 0)).sum ≤ runs.sum ∧
      ((∃ r ∈ runs, 32768 ≤ r) → ((runs.map toShort).map (max · 0)).sum + 32768 ≤ runs.sum) := by
  induction runs with
  | nil => exact ⟨le_rfl, fun ⟨r, member, _⟩ => absurd member (by simp)⟩
  | cons run runs ih =>
    obtain ⟨le, lost⟩ := ih fun r hr => nonneg r (List.mem_cons_of_mem run hr)
    have pos := nonneg run List.mem_cons_self
    obtain ⟨k, eq, low, high⟩ := toShort_spec run
    rw [List.map_cons, List.map_cons, List.sum_cons, List.sum_cons]
    refine ⟨by omega, ?_⟩
    rintro ⟨r, member, long⟩
    rcases List.mem_cons.mp member with rfl | member
    · omega
    · have more := lost ⟨r, member, long⟩
      omega

/-! ## Forth and back -/

theorem bytesBits_inj {as bs : List UInt8} (same : bytesBits as = bytesBits bs) : as = bs := by
  induction as generalizing bs with
  | nil =>
    have size := congrArg List.length same
    rw [length_bytesBits, length_bytesBits, List.length_nil] at size
    exact (List.length_eq_zero_iff.mp (by omega)).symm
  | cons a as ih =>
    cases bs with
    | nil =>
      have size := congrArg List.length same
      rw [length_bytesBits, length_bytesBits, List.length_nil, List.length_cons] at size
      omega
    | cons b bs =>
      rw [bytesBits_cons, bytesBits_cons] at same
      obtain ⟨first, rest⟩ := List.append_inj same (by rw [length_byteBits, length_byteBits])
      have byte : a = b := UInt8.toNat_inj.mp (toBits_inj a.toNat_lt b.toNat_lt first)
      rw [byte, ih rest]

/-- The runs of a line without a long run are stored as they are. -/
theorem pelRuns_short {bits : List Bool} (fits : ¬ LongRun bits) :
    (pelRuns .white 0 bits).map toShort = pelRuns .white 0 bits := by
  apply map_toShort_eq (pelRuns_nonneg .white le_rfl bits)
  intro r member
  by_contra long
  exact fits ((longRun_iff bits).mpr ⟨r, member, by omega⟩)

/-- The runs of a bit map that is not too wide have its pels. -/
theorem pels_bittorun {bits : List UInt8} (small : bits.length ≤ 4095) :
    (∀ r ∈ bittorun bits, 0 ≤ r) ∧ pels .white (bittorun bits) = bytesBits bits := by
  have fits : ¬ LongRun (bytesBits bits) := by
    rintro ⟨front, c, back, split⟩
    have size := congrArg List.length split
    rw [length_bytesBits, List.length_append, List.length_append, List.length_replicate] at size
    omega
  rw [bittorun_eq, pelRuns_short fits]
  exact ⟨pelRuns_nonneg .white le_rfl _, pels_pelRuns .white le_rfl _⟩

/-- A line of bytes survives `bittorun` and `runtobit` if and only if it has no long run. -/
theorem runtobit_bittorun_iff (line : List UInt8) :
    runtobitShorts (bittorun line) = some line ↔ ¬ LongRun (bytesBits line) := by
  have nonneg := pelRuns_nonneg .white le_rfl (bytesBits line)
  have pels' := pels_pelRuns .white le_rfl (bytesBits line)
  rw [bittorun_eq]
  constructor
  · intro same long
    have lower : ∀ r ∈ (pelRuns .white 0 (bytesBits line)).map toShort, -32768 ≤ r := by
      intro r member
      obtain ⟨n, -, rfl⟩ := List.mem_map.mp member
      obtain ⟨-, -, low, -⟩ := toShort_spec n
      exact low
    have size := runtobitShorts_length lower same
    have lost := (sum_toShort nonneg).2 ((longRun_iff _).mp long)
    have total := length_pels .white nonneg
    rw [pels', Int.toNat_zero, List.replicate_zero, List.nil_append, length_bytesBits] at total
    omega
  · intro fits
    rw [pelRuns_short fits, runtobitShorts_eq nonneg]
    have whole : (pels .white (pelRuns .white 0 (bytesBits line))).length = 8 * line.length := by
      rw [pels', Int.toNat_zero, List.replicate_zero, List.nil_append, length_bytesBits]
    have bits := (pels_runtobit whole).1
    rw [pels'] at bits
    exact congrArg some (bytesBits_inj bits)

/-- The runs of a line of `n` bytes in canonical form. -/
structure CanonicalRuns (runs : List Int) (bits : List Bool) (n : Nat) : Prop where
  nonneg : ∀ r ∈ runs, 0 ≤ r
  pels : pels .white runs = bits
  canonical : ∀ r ∈ runs.tail, 0 < r
  count : runs.length ≤ 8 * n + 1

/-- The runs that `bittorun` finds in a bit map are in canonical form if and only if the line has no
long run. -/
theorem bittorun_canonical_iff {line : List UInt8} {bits : List Bool} (same : bytesBits line = bits) :
    CanonicalRuns (bittorun line) bits line.length ↔ ¬ LongRun bits := by
  subst same
  have nonneg := pelRuns_nonneg .white le_rfl (bytesBits line)
  have pels' := pels_pelRuns .white le_rfl (bytesBits line)
  rw [bittorun_eq]
  constructor
  · intro form long
    -- too few pels are left
    have lost := (sum_toShort nonneg).2 ((longRun_iff _).mp long)
    have total := length_pels .white nonneg
    have stored := length_pels .white form.nonneg
    have kept : (((pelRuns .white 0 (bytesBits line)).map toShort).map (max · 0)).sum =
        ((pelRuns .white 0 (bytesBits line)).map toShort).sum := by
      congr 1
      refine (List.map_congr_left fun r member => ?_).trans (List.map_id _)
      exact max_eq_left (form.nonneg r member)
    rw [pels', Int.toNat_zero, List.replicate_zero, List.nil_append] at total
    rw [form.pels] at stored
    omega
  · intro fits
    rw [pelRuns_short fits]
    refine ⟨nonneg, pels', (pelRuns_canonical .white 0 (bytesBits line)).2, ?_⟩
    have count := length_pelRuns .white 0 (bytesBits line)
    rwa [length_bytesBits] at count

/-- The two forms of a line, from bits to runs and back and from runs to bits and back.  Both ways
keep the line if and only if it has no more than 32767 pels of one colour in a row. -/
theorem forms_iff (line : List UInt8) {runs : List Int} (shorts : ∀ r ∈ runs, 0 ≤ r ∧ r ≤ 32767)
    {n : Nat} (whole : runs.sum = 8 * n) :
    (runtobitShorts (bittorun line) = some line ↔ ¬ LongRun (bytesBits line)) ∧
      ∃ bits, runtobitShorts runs = some bits ∧ bits.length = n ∧
        (CanonicalRuns (bittorun bits) (pels .white runs) n ↔ ¬ LongRun (pels .white runs)) := by
  have nonneg : ∀ r ∈ runs, 0 ≤ r := fun r member => (shorts r member).1
  have size : (pels .white runs).length = 8 * n := by
    have total := length_pels .white nonneg
    omega
  obtain ⟨same, bytes⟩ := pels_runtobit size
  have canonical := bittorun_canonical_iff same
  rw [bytes] at canonical
  exact ⟨runtobit_bittorun_iff line, _, runtobitShorts_eq nonneg, bytes, canonical⟩

/-- A line of two bytes with runs of no pels. -/
theorem forms_iff_two :
    (runtobitShorts (bittorun [0x81, 0xff]) = some [0x81, 0xff] ↔ ¬ LongRun (bytesBits [0x81, 0xff])) ∧
      ∃ bits, runtobitShorts [0, 3, 0, 5, 8, 0] = some bits ∧ bits.length = 2 ∧
        (CanonicalRuns (bittorun bits) (pels .white [0, 3, 0, 5, 8, 0]) 2 ↔
          ¬ LongRun (pels .white [0, 3, 0, 5, 8, 0])) :=
  forms_iff [0x81, 0xff] (by decide) (by decide)

/-- The run of 4096 white bytes is stored as -32768, and one byte is filled from it. -/
theorem white_bytes_lost : bittorun (List.replicate 4096 0x00) = [-32768] ∧
    runtobitShorts [-32768] = some [0x00] ∧
    runtobitShorts (bittorun (List.replicate 4096 0x00)) ≠ some (List.replicate 4096 0x00) := by
  have stored : bittorun (List.replicate 4096 0x00) = [-32768] := by
    have bits := bytesBits_byte .white 4096
    have runs := pelRuns_replicate .white 0 (8 * 4096) []
    rw [List.append_nil, ← bits] at runs
    rw [bittorun_eq]
    exact (congrArg (List.map toShort) runs).trans (by decide)
  have filled : runtobitShorts [-32768] = some [0x00] := by decide
  refine ⟨stored, filled, fun same => ?_⟩
  rw [stored, filled, Option.some.injEq] at same
  have size := congrArg List.length same
  rw [List.length_replicate] at size
  exact absurd size (by decide)

end QFax.Efax

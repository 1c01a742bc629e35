import QFax.Efax.T4

/-!
# What the decoder's tables hold

`newDECODER` stores some two hundred ranges into four tables of 512 entries.  The ranges of one
table are compatible, so a lookup finds the code word that starts the window: in the primary table
of its colour when it has at most nine bits, and else in the secondary table, four bits later.
-/

namespace QFax.Efax

open Bits PrefixTable

/-- The primary table of a colour. -/
def Colour.first : Colour → TabName
  | .white => .tw1
  | .black => .tb1

/-- The secondary table of a colour. -/
def Colour.second : Colour → TabName
  | .white => .tw2
  | .black => .tb2

/-- The table to go on with after code number `i`: a make-up code is followed by a terminating
code of the same colour. -/
def Colour.next (c : Colour) (i : Nat) : TabName := if i > 63 then c.first else c.other.first

/-- The entry of code number `i`, `used` of whose bits are left to drop. -/
def Colour.entry (c : Colour) (p : T4Tab × Nat) (used : Nat) : Dtab :=
  ⟨c.next p.2, p.1.bits - used, p.1.rlen + 1⟩

/-- The range of a code in the primary table. -/
def Colour.firstSlot (c : Colour) (p : T4Tab × Nat) : Slot Dtab :=
  if p.1.bits ≤ 9 then ⟨p.1.code, 9 - p.1.bits, c.entry p 0⟩
  else ⟨p.1.code >>> (p.1.bits - 9), 0, ⟨c.second, 4, 0⟩⟩

/-- The range of a long code in the secondary table. -/
def Colour.secondSlot (c : Colour) (p : T4Tab × Nat) : Option (Slot Dtab) :=
  if p.1.bits ≤ 9 then none else some ⟨p.1.code, 13 - p.1.bits, c.entry p 4⟩

/-- All ranges of the primary table: the start of an EOL and the code words. -/
def Colour.firstSlots (c : Colour) : List (Slot Dtab) :=
  ⟨0, 0, ⟨c.second, 4, 0⟩⟩ :: c.codes.zipIdx.map c.firstSlot

/-- All ranges of the secondary table. -/
def Colour.secondSlots (c : Colour) : List (Slot Dtab) :=
  ⟨0, 2, ⟨.fill, 7, 0⟩⟩ :: c.codes.zipIdx.filterMap c.secondSlot

/-! ## The tables are filled ranges -/

/-- The rounds of `init1dtab` store the primary and the secondary ranges in order. -/
theorem init1dtab_eq_fill (c : Colour) (codes : List (T4Tab × Nat))
    (t : (Nat → Dtab) × (Nat → Dtab)) :
    codes.foldl (fun t p => initCode c.first c.second c.other.first t p.1 p.2) t =
      (PrefixTable.fill t.1 (codes.map c.firstSlot),
        PrefixTable.fill t.2 (codes.filterMap c.secondSlot)) := by
  induction codes generalizing t with
  | nil => rfl
  | cons p codes ih =>
    rw [List.foldl_cons, ih]
    by_cases short : p.1.bits ≤ 9
    · simp [initCode, short, addcode, Colour.firstSlot, Colour.secondSlot, Colour.entry,
        Colour.next]
    · simp [initCode, short, addcode, Colour.firstSlot, Colour.secondSlot, Colour.entry,
        Colour.next]

theorem dtabs_first (c : Colour) :
    dtabs c.first = PrefixTable.fill undefinedCode c.firstSlots := by
  cases c
  · exact congrArg Prod.fst (init1dtab_eq_fill .white wtab.zipIdx (eolTabs .tw2))
  · exact congrArg Prod.fst (init1dtab_eq_fill .black btab.zipIdx (eolTabs .tb2))

theorem dtabs_second (c : Colour) :
    dtabs c.second = PrefixTable.fill undefinedCode c.secondSlots := by
  cases c
  · exact congrArg Prod.snd (init1dtab_eq_fill .white wtab.zipIdx (eolTabs .tw2))
  · exact congrArg Prod.snd (init1dtab_eq_fill .black btab.zipIdx (eolTabs .tb2))

/-- The T.4 code is a prefix code, and no code word starts like an EOL: the ranges of the primary
tables overlap only where they agree. -/
theorem compatible_firstSlots (c : Colour) : Compatible c.firstSlots := by
  cases c <;> decide +kernel

/-- The same for the secondary tables. -/
theorem compatible_secondSlots (c : Colour) : Compatible c.secondSlots := by
  cases c <;> decide +kernel

/-! ## Lookups -/

/-- Every code has two to thirteen bits, and a code of more than nine bits starts with four
zeros. -/
theorem code_bounds (c : Colour) {p : T4Tab} (hp : p ∈ c.codes) :
    2 ≤ p.bits ∧ p.bits ≤ 13 ∧ p.code < 2 ^ p.bits ∧ (9 < p.bits → p.code < 2 ^ (p.bits - 4)) := by
  have all : ∀ p ∈ c.codes, 2 ≤ p.bits ∧ p.bits ≤ 13 ∧ p.code < 2 ^ p.bits ∧
      (9 < p.bits → p.code < 2 ^ (p.bits - 4)) := by
    cases c <;> decide +kernel
  exact all p hp

/-- Code number `i` of either colour stands for the run of length `i` below 64, and for the run
of length `64 * (i - 63)` from there on. -/
theorem code_rlen (c : Colour) {i : Nat} (lt : i < 104) :
    (c.code i).rlen = if i < 64 then i else 64 * (i - 63) := by
  have all : ∀ i < 104, (c.code i).rlen = if i < 64 then i else 64 * (i - 63) := by
    cases c <;> decide +kernel
  exact all i lt

theorem length_codes (c : Colour) : c.codes.length = 104 := by
  cases c <;> rfl

theorem mem_zipIdx_code (c : Colour) {i : Nat} (lt : i < 104) :
    (c.code i, i) ∈ c.codes.zipIdx := by
  have within : i < c.codes.length := by rw [length_codes]; exact lt
  rw [List.mk_mem_zipIdx_iff_getElem?, Colour.code, List.getD_eq_getElem?_getD,
    List.getElem?_eq_getElem within, Option.getD_some]

theorem code_mem (c : Colour) {i : Nat} (lt : i < 104) : c.code i ∈ c.codes :=
  List.fst_mem_of_mem_zipIdx (mem_zipIdx_code c lt)

/-- A window that starts with a code word of at most nine bits. -/
theorem lookup_short (c : Colour) {i w : Nat} (lt : i < 104) (short : (c.code i).bits ≤ 9)
    (starts : w >>> (9 - (c.code i).bits) = (c.code i).code) :
    dtabs c.first w = c.entry (c.code i, i) 0 := by
  have member : c.firstSlot (c.code i, i) ∈ c.firstSlots :=
    List.mem_cons_of_mem _ (List.mem_map_of_mem (mem_zipIdx_code c lt))
  have slot : c.firstSlot (c.code i, i) =
      ⟨(c.code i).code, 9 - (c.code i).bits, c.entry (c.code i, i) 0⟩ := if_pos short
  rw [dtabs_first, fill_of_mem (compatible_firstSlots c) member (by rw [slot]; exact starts), slot]

/-- A window with the first nine bits of a longer code word: four bits are dropped and the
secondary table takes over. -/
theorem lookup_long (c : Colour) {i w : Nat} (lt : i < 104) (long : 9 < (c.code i).bits)
    (starts : w = (c.code i).code >>> ((c.code i).bits - 9)) :
    dtabs c.first w = ⟨c.second, 4, 0⟩ := by
  have member : c.firstSlot (c.code i, i) ∈ c.firstSlots :=
    List.mem_cons_of_mem _ (List.mem_map_of_mem (mem_zipIdx_code c lt))
  have slot : c.firstSlot (c.code i, i) =
      ⟨(c.code i).code >>> ((c.code i).bits - 9), 0, ⟨c.second, 4, 0⟩⟩ :=
    if_neg (by simpa using long)
  rw [dtabs_first, fill_of_mem (compatible_firstSlots c) member (by rw [slot]; exact starts), slot]

/-- A window of the secondary table that starts with the rest of a long code word. -/
theorem lookup_rest (c : Colour) {i w : Nat} (lt : i < 104) (long : 9 < (c.code i).bits)
    (starts : w >>> (13 - (c.code i).bits) = (c.code i).code) :
    dtabs c.second w = c.entry (c.code i, i) 4 := by
  have slot : c.secondSlot (c.code i, i) =
      some ⟨(c.code i).code, 13 - (c.code i).bits, c.entry (c.code i, i) 4⟩ :=
    if_neg (by simpa using long)
  have member : (⟨(c.code i).code, 13 - (c.code i).bits, c.entry (c.code i, i) 4⟩ : Slot Dtab) ∈
      c.secondSlots :=
    List.mem_cons_of_mem _ (List.mem_filterMap.mpr ⟨_, mem_zipIdx_code c lt, slot⟩)
  rw [dtabs_second, fill_of_mem (compatible_secondSlots c) member starts]

/-- Nine zeros start an EOL. -/
theorem lookup_zeros (c : Colour) : dtabs c.first 0 = ⟨c.second, 4, 0⟩ := by
  rw [dtabs_first, fill_of_mem (compatible_firstSlots c) List.mem_cons_self rfl]

/-- Seven more zeros leave the rest of the EOL to the table `fill`. -/
theorem lookup_zeros_rest (c : Colour) {w : Nat} (zeros : w >>> 2 = 0) :
    dtabs c.second w = ⟨.fill, 7, 0⟩ := by
  rw [dtabs_second, fill_of_mem (compatible_secondSlots c) List.mem_cons_self zeros]

/-- The ranges of the table `fill`. -/
def fillSlots : List (Slot Dtab) :=
  ⟨0, 0, ⟨.fill, 9, 0⟩⟩ :: (List.range 9).map fun i => ⟨1, i, ⟨.tw1, 9 - i, -1⟩⟩

theorem dtabs_fill : dtabs .fill = PrefixTable.fill undefinedCode fillSlots := rfl

theorem compatible_fillSlots : Compatible fillSlots := by decide

theorem lookup_fill_zeros : dtabs .fill 0 = ⟨.fill, 9, 0⟩ := by
  rw [dtabs_fill, fill_of_mem compatible_fillSlots List.mem_cons_self rfl]

/-- A window of FILL whose first one is preceded by `8 - i` zeros ends the EOL there. -/
theorem lookup_fill_one {i w : Nat} (lt : i < 9) (one : w >>> i = 1) :
    dtabs .fill w = ⟨.tw1, 9 - i, -1⟩ := by
  have member : (⟨1, i, ⟨.tw1, 9 - i, -1⟩⟩ : Slot Dtab) ∈ fillSlots :=
    List.mem_cons_of_mem _ (List.mem_map.mpr ⟨i, List.mem_range.mpr lt, rfl⟩)
  rw [dtabs_fill, fill_of_mem compatible_fillSlots member one]

/-- A code of a lookup table: none, an EOL or a run of at most 2560 pels. -/
def Dtab.Stores (t : Dtab) : Prop := t.code = -1 ∨ (0 ≤ t.code ∧ t.code ≤ 2561)

theorem undefinedCode_stores (i : Nat) : (undefinedCode i).Stores := by
  have none (t : Nat → Dtab) (before : ∀ j, (t j).code = 0) (cword shift bits : Nat)
      (next : TabName) (j : Nat) : (addcode t cword shift 0 bits next j).code = 0 := by
    rw [addcode, Slot.store]
    split
    · rfl
    · exact before j
  have zero := none (fun _ => ⟨.tw1, 0, 0⟩) (fun _ => rfl) 0 9 1 .tw1 i
  exact Or.inr ⟨zero.ge, zero.le.trans (by decide)⟩

theorem entry_stores (c : Colour) {p : T4Tab × Nat} (member : p ∈ c.codes.zipIdx) (used : Nat) :
    (c.entry p used).Stores := by
  have small : ∀ p ∈ c.codes, p.rlen ≤ 2560 := by
    cases c <;> decide +kernel
  have upper := small p.1 (List.fst_mem_of_mem_zipIdx member)
  right
  constructor
  · show (0 : Int) ≤ p.1.rlen + 1
    omega
  · show (p.1.rlen : Int) + 1 ≤ 2561
    omega

theorem firstSlot_stores (c : Colour) {p : T4Tab × Nat} (member : p ∈ c.codes.zipIdx) :
    (c.firstSlot p).value.Stores := by
  unfold Colour.firstSlot
  split
  · exact entry_stores c member 0
  · right
    exact ⟨le_rfl, (by decide : (0 : Int) ≤ 2561)⟩

theorem secondSlot_stores (c : Colour) {p : T4Tab × Nat} (member : p ∈ c.codes.zipIdx)
    {s : Slot Dtab} (slot : c.secondSlot p = some s) : s.value.Stores := by
  unfold Colour.secondSlot at slot
  split at slot
  · cases slot
  · cases slot
    exact entry_stores c member 4

/-- What a lookup finds, whatever the window. -/
theorem dtabs_stores (tab : TabName) (i : Nat) : (dtabs tab i).Stores := by
  have skip : (0 : Int) ≤ 0 ∧ (0 : Int) ≤ 2561 := by decide
  have first (c : Colour) : (dtabs c.first i).Stores := by
    rw [dtabs_first]
    refine fill_forall (fun s member => ?_) undefinedCode_stores i
    rcases List.mem_cons.mp member with rfl | member
    · exact Or.inr skip
    · obtain ⟨p, code, rfl⟩ := List.mem_map.mp member
      exact firstSlot_stores c code
  have second (c : Colour) : (dtabs c.second i).Stores := by
    rw [dtabs_second]
    refine fill_forall (fun s member => ?_) undefinedCode_stores i
    rcases List.mem_cons.mp member with rfl | member
    · exact Or.inr skip
    · obtain ⟨p, code, slot⟩ := List.mem_filterMap.mp member
      exact secondSlot_stores c code slot
  cases tab with
  | tw1 => exact first .white
  | tb1 => exact first .black
  | tw2 => exact second .white
  | tb2 => exact second .black
  | fill =>
    rw [dtabs_fill]
    refine fill_forall (fun s member => ?_) undefinedCode_stores i
    rcases List.mem_cons.mp member with rfl | member
    · exact Or.inr skip
    · obtain ⟨j, -, rfl⟩ := List.mem_map.mp member
      exact Or.inl rfl

/-! ## All entries -/

/-- What a lookup finds, by the window. -/
inductive TableEntry : TabName → Nat → Dtab → Prop
  /-- For undefined codewords, one bit is skipped. -/
  | undefined (tab : TabName) (w : Nat) : TableEntry tab w ⟨.tw1, 1, 0⟩
  | start (c : Colour) : TableEntry c.first 0 ⟨c.second, 4, 0⟩
  | short (c : Colour) {p : T4Tab × Nat} {w : Nat} : p ∈ c.codes.zipIdx → p.1.bits ≤ 9 →
    w >>> (9 - p.1.bits) = p.1.code → TableEntry c.first w (c.entry p 0)
  | long (c : Colour) {p : T4Tab × Nat} {w : Nat} : p ∈ c.codes.zipIdx → 9 < p.1.bits →
    TableEntry c.first w ⟨c.second, 4, 0⟩
  | zeros (c : Colour) {w : Nat} : w >>> 2 = 0 → TableEntry c.second w ⟨.fill, 7, 0⟩
  | rest (c : Colour) {p : T4Tab × Nat} {w : Nat} : p ∈ c.codes.zipIdx → 9 < p.1.bits →
    w >>> (13 - p.1.bits) = p.1.code → TableEntry c.second w (c.entry p 4)
  | fill : TableEntry .fill 0 ⟨.fill, 9, 0⟩
  | eol {i w : Nat} : i < 9 → w >>> i = 1 → TableEntry .fill w ⟨.tw1, 9 - i, -1⟩

theorem undefinedCode_entry (tab : TabName) {w : Nat} (small : w < 512) :
    TableEntry tab w (undefinedCode w) := by
  have entry : undefinedCode w = ⟨.tw1, 1, 0⟩ := by
    have run : 0 <<< 9 ≤ w ∧ w < 0 <<< 9 + 1 <<< 9 := ⟨Nat.zero_le w, by simpa using small⟩
    rw [undefinedCode, addcode, Slot.store]
    exact if_pos run
  rw [entry]
  exact .undefined tab w

/-- The tables have no other entries. -/
theorem dtabs_entry (tab : TabName) {w : Nat} (small : w < 512) :
    TableEntry tab w (dtabs tab w) := by
  have first (c : Colour) : TableEntry c.first w (dtabs c.first w) := by
    rw [dtabs_first]
    refine fill_covers (fun s member covers => ?_) (undefinedCode_entry _ small)
    rcases List.mem_cons.mp member with rfl | member
    · have zero : w = 0 := covers
      rw [zero]
      exact .start c
    · obtain ⟨p, code, rfl⟩ := List.mem_map.mp member
      unfold Colour.firstSlot at covers ⊢
      split at covers
      case isTrue short =>
        rw [if_pos short]
        exact .short c code short covers
      case isFalse long =>
        rw [if_neg long]
        exact .long c code (by omega)
  have second (c : Colour) : TableEntry c.second w (dtabs c.second w) := by
    rw [dtabs_second]
    refine fill_covers (fun s member covers => ?_) (undefinedCode_entry _ small)
    rcases List.mem_cons.mp member with rfl | member
    · exact .zeros c covers
    · obtain ⟨p, code, slot⟩ := List.mem_filterMap.mp member
      unfold Colour.secondSlot at slot
      split at slot
      case isTrue => cases slot
      case isFalse long =>
        cases slot
        exact .rest c code (by omega) covers
  cases tab with
  | tw1 => exact first .white
  | tb1 => exact first .black
  | tw2 => exact second .white
  | tb2 => exact second .black
  | fill =>
    rw [dtabs_fill]
    refine fill_covers (fun s member covers => ?_) (undefinedCode_entry _ small)
    rcases List.mem_cons.mp member with rfl | member
    · have zero : w = 0 := covers
      rw [zero]
      exact .fill
    · obtain ⟨i, inside, rfl⟩ := List.mem_map.mp member
      exact .eol (List.mem_range.mp inside) covers

/-- A lookup drops one to nine bits. -/
theorem dtabs_bits (tab : TabName) {w : Nat} (small : w < 512) :
    1 ≤ (dtabs tab w).bits ∧ (dtabs tab w).bits ≤ 9 := by
  have bounds (c : Colour) {p : T4Tab × Nat} (member : p ∈ c.codes.zipIdx) :=
    code_bounds c (List.fst_mem_of_mem_zipIdx member)
  have entry := dtabs_entry tab small
  generalize dtabs tab w = t at entry ⊢
  cases entry with
  | undefined => exact ⟨le_rfl, by decide⟩
  | start c => exact ⟨(by decide : 1 ≤ 4), (by decide : 4 ≤ 9)⟩
  | short c member short =>
    have lower := (bounds c member).1
    exact ⟨by show 1 ≤ _ - 0; omega, by show _ - 0 ≤ 9; omega⟩
  | long c => exact ⟨(by decide : 1 ≤ 4), (by decide : 4 ≤ 9)⟩
  | zeros c => exact ⟨by decide, by decide⟩
  | rest c member long =>
    have upper := (bounds c member).2.1
    exact ⟨by show 1 ≤ _ - 4; omega, by show _ - 4 ≤ 9; omega⟩
  | fill => exact ⟨by decide, le_rfl⟩
  | eol inside => exact ⟨by show 1 ≤ 9 - _; omega, by show 9 - _ ≤ 9; omega⟩

/-- An EOL is followed by a white run. -/
theorem dtabs_eol (tab : TabName) {w : Nat} (small : w < 512) (eol : (dtabs tab w).code = -1) :
    (dtabs tab w).next = .tw1 := by
  have positive (c : Colour) (p : T4Tab × Nat) (used : Nat) : (c.entry p used).code ≠ -1 := by
    show (p.1.rlen : Int) + 1 ≠ -1
    omega
  have entry := dtabs_entry tab small
  generalize dtabs tab w = t at entry eol ⊢
  cases entry with
  | eol => rfl
  | short c => exact absurd eol (positive c _ _)
  | rest c => exact absurd eol (positive c _ _)
  | _ => cases eol

end QFax.Efax

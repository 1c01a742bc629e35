import QFax.Linmodem.V90Modulus

/-!
# V.90: the amplitude decision

The decoder looks for the ring whose value is closest to the magnitude of a sample.  Its binary search
ends with crossed bounds, one on each side of the magnitude, and compares the two entries there.  Above
the largest value and below the smallest one of them is outside of the table, so that the decision is
the nearest ring if and only if the magnitude is between the two (`decide_iff`).
-/

namespace QFax.Linmodem

/-! ## The decision with any table -/

/-- `val`: the magnitude of a sample. -/
def magnitude (sample : Int) : Int := if sample < 0 then -sample else sample

/-- The ring of a sample, from the linear values of the rings. -/
def ringOfTable (tab : List Int) (sample : Int) : Option Int :=
  searchLevel tab (magnitude sample) (tab.length + 1) 0 (tab.length - 1)

/-- `bitbuf` of a frame, from the tables and samples of its intervals. -/
def bitbufOfTables : List (List Int × Int) → Option Nat
  | [] => some 0
  | (tab, sample) :: rest => do
    let above ← bitbufOfTables rest
    let m ← ringOfTable tab sample
    some (above * tab.length + m.toNat)

/-- The decoder takes the tables of its constellations. -/
theorem bitbuf_tables (alaw : Bool) (frame : List (Constellation × Int)) :
    bitbuf alaw frame = bitbufOfTables (frame.map fun (c, sample) => (c.m_to_linear alaw, sample)) := by
  induction frame with
  | nil => rfl
  | cons interval frame ih =>
    obtain ⟨c, sample⟩ := interval
    rw [bitbuf, ih, List.map_cons, bitbufOfTables]
    simp only [ringOf, ringOfTable, magnitude, c.length_m_to_linear]
    cases bitbufOfTables (frame.map fun (c, sample) => (c.m_to_linear alaw, sample)) with
    | none => rfl
    | some above =>
      cases searchLevel (c.m_to_linear alaw) (if sample < 0 then -sample else sample) (c.M + 1) 0
        (c.M - 1) with
      | none => rfl
      | some m => rfl

/-- An entry of a table whose value is nearest. -/
def Nearest (tab : List Int) (val m : Int) : Prop :=
  ∃ v, filled tab m = some v ∧ ∀ w ∈ tab, |val - v| ≤ |val - w|

/-! ## The end of the search -/

/-- The comparison of two neighbouring entries, of which `b` is the second. -/
def settle (tab : List Int) (val : Int) (b : Nat) : Option Int := do
  let d1 := (← filled tab (b - 1)) - val
  let d2 := val - (← filled tab b)
  some (if d1 < d2 then b - 1 else b)

/-- The entries in front of `b` are larger than the value, and the others are smaller. -/
structure Cut (tab : List Int) (val : Int) (b : Nat) : Prop where
  le : b ≤ tab.length
  above : ∀ i, (inside : i < tab.length) → i < b → val < tab[i]
  below : ∀ i, (inside : i < tab.length) → b ≤ i → tab[i] < val

section Search

variable {tab : List Int}

/-- The search finds the value, or compares the entries on both sides of it. -/
theorem searchLevel_cut (descending : tab.Pairwise (· > ·)) {val : Int} {fuel : Nat}
    {m_min m_max : Int} (low : 0 ≤ m_min) (high : m_max < tab.length) (crossed : m_min ≤ m_max + 1)
    (left : ∀ i : Nat, (inside : i < tab.length) → (i : Int) < m_min → val < tab[i])
    (right : ∀ i : Nat, (inside : i < tab.length) → m_max < (i : Int) → tab[i] < val)
    (enough : m_max - m_min + 1 < fuel) :
    (∃ k : Nat, filled tab k = some val ∧ searchLevel tab val fuel m_min m_max = some (k : Int)) ∨
      ∃ b, Cut tab val b ∧ searchLevel tab val fuel m_min m_max = settle tab val b := by
  induction fuel generalizing m_min m_max with
  | zero => omega
  | succ fuel ih =>
    have strict := List.pairwise_iff_getElem.mp descending
    rw [searchLevel]
    by_cases more : m_min ≤ m_max
    · have lower : m_min ≤ (m_min + m_max) / 2 := by omega
      have upper : (m_min + m_max) / 2 ≤ m_max := by omega
      rw [if_pos more]
      generalize (m_min + m_max) / 2 = m at lower upper ⊢
      obtain ⟨k, rfl⟩ := Int.eq_ofNat_of_zero_le (show 0 ≤ m by omega)
      have inside : k < tab.length := by omega
      have entry : filled tab k = some tab[k] := filled_eq (by omega) (by omega)
      simp only [entry, Option.bind_eq_bind, Option.bind_some]
      by_cases same : tab[k] = val
      · rw [if_pos same]
        exact Or.inl ⟨k, by rw [entry, same], rfl⟩
      · rw [if_neg same]
        by_cases greater : val > tab[k]
        · rw [if_pos greater]
          refine ih low (by omega) (by omega) left (fun i here after => ?_) (by omega)
          rcases (show k ≤ i by omega).eq_or_lt with rfl | later
          · exact greater
          · exact (strict k i inside here later).trans greater
        · rw [if_neg greater]
          refine ih (by omega) high (by omega) (fun i here before => ?_) right (by omega)
          rcases (show i ≤ k by omega).eq_or_lt with rfl | earlier
          · omega
          · have order := strict i k here inside earlier
            omega
    · -- the bounds have crossed
      obtain ⟨b, rfl⟩ := Int.eq_ofNat_of_zero_le low
      have last : m_max = (b : Int) - 1 := by omega
      subst last
      rw [if_neg more]
      exact Or.inr ⟨b, ⟨by omega, fun i inside before => left i inside (by omega),
        fun i inside after => right i inside (by omega)⟩, rfl⟩

theorem ringOfTable_cut (descending : tab.Pairwise (· > ·)) (sample : Int) :
    (∃ k : Nat, filled tab k = some (magnitude sample) ∧ ringOfTable tab sample = some (k : Int)) ∨
      ∃ b, Cut tab (magnitude sample) b ∧ ringOfTable tab sample = settle tab (magnitude sample) b :=
  searchLevel_cut descending le_rfl (by omega) (by omega) (fun i _ before => absurd before (by omega))
    (fun i inside after => absurd after (by omega)) (by omega)

/-! ## The nearest ring -/

/-- A magnitude between the smallest and the largest value of a table. -/
def WithinRings (tab : List Int) (val : Int) : Prop := tab.getLastD 0 ≤ val ∧ val ≤ tab.headD 0

theorem withinRings_iff (ne : 0 < tab.length) (val : Int) :
    WithinRings tab val ↔ tab[tab.length - 1] ≤ val ∧ val ≤ tab[0] := by
  have first : tab.headD 0 = tab[0] := by
    obtain ⟨v, vs, rfl⟩ := List.exists_cons_of_length_pos ne
    rfl
  have last : tab.getLastD 0 = tab[tab.length - 1] := by
    rw [List.getLastD_eq_getLast?, List.getLast?_eq_getElem?, List.getElem?_eq_getElem (by omega),
      Option.getD_some]
  rw [WithinRings, first, last]

/-- A table in decreasing order. -/
theorem getElem_le_of_le (descending : tab.Pairwise (· > ·)) {i j : Nat} (le : i ≤ j)
    (inside : j < tab.length) : tab[j] ≤ tab[i] := by
  rcases le.eq_or_lt with rfl | lt
  · exact le_rfl
  · exact (List.pairwise_iff_getElem.mp descending i j (by omega) inside lt).le

/-- Between two entries, the nearer one of them is the nearest. -/
theorem Cut.nearest (descending : tab.Pairwise (· > ·)) {val : Int} {b : Nat}
    (cut : Cut tab val (b + 1)) (inside : b + 1 < tab.length) :
    ∃ m, settle tab val (b + 1) = some m ∧ Nearest tab val m := by
  have before : filled tab ((b + 1 : Nat) - 1) = some tab[b] := by
    rw [filled_eq (by omega) (by omega)]
    simp
  have after : filled tab ((b + 1 : Nat) : Int) = some tab[b + 1] := filled_eq (by omega) (by omega)
  have high := cut.above b (by omega) (by omega)
  have low := cut.below (b + 1) inside le_rfl
  -- the distance of an entry on either side
  have far : ∀ w ∈ tab, tab[b] - val ≤ |val - w| ∨ val - tab[b + 1] ≤ |val - w| := by
    intro w member
    obtain ⟨i, here, rfl⟩ := List.getElem_of_mem member
    rcases Nat.lt_or_ge b i with later | earlier
    · have order : tab[i] ≤ tab[b + 1] := getElem_le_of_le descending later here
      exact Or.inr (le_abs.mpr (Or.inl (by omega)))
    · have order := getElem_le_of_le descending earlier (by omega)
      exact Or.inl (le_abs.mpr (Or.inr (by omega)))
  simp only [settle, before, after, Option.bind_eq_bind, Option.bind_some]
  by_cases closer : tab[b] - val < val - tab[b + 1]
  · rw [if_pos closer]
    refine ⟨_, rfl, _, before, fun w member => ?_⟩
    rw [abs_of_neg (by omega)]
    rcases far w member with le | le <;> omega
  · rw [if_neg closer]
    refine ⟨_, rfl, _, after, fun w member => ?_⟩
    rw [abs_of_pos (by omega)]
    rcases far w member with le | le <;> omega

/-- An entry outside of the table leaves the comparison without a result. -/
theorem settle_outside {val : Int} {b : Nat} (outside : b = 0 ∨ tab.length ≤ b) :
    settle tab val b = none := by
  rcases outside with rfl | beyond
  · rfl
  · have missing : filled tab b = none := by
      rw [filled, if_neg (by omega), Int.toNat_natCast, List.getElem?_eq_none beyond]
    simp only [settle, missing, Option.bind_eq_bind, Option.bind_none]
    cases filled tab (b - 1) <;> rfl

/-- The decision is an entry with the nearest value if and only if the magnitude is between the
smallest and the largest one. -/
theorem ringOfTable_iff (ne : tab ≠ []) (descending : tab.Pairwise (· > ·)) (sample : Int) :
    (∃ m, ringOfTable tab sample = some m ∧ Nearest tab (magnitude sample) m) ↔
      WithinRings tab (magnitude sample) := by
  have pos := List.length_pos_iff.mpr ne
  rw [withinRings_iff pos]
  rcases ringOfTable_cut descending sample with ⟨k, entry, result⟩ | ⟨b, cut, result⟩
  · have inside : k < tab.length := by
      by_contra beyond
      rw [filled, if_neg (by omega), Int.toNat_natCast, List.getElem?_eq_none (by omega)] at entry
      cases entry
    have value : tab[k] = magnitude sample := by
      rw [filled_eq (by omega) (by omega), Option.some.injEq] at entry
      simpa using entry
    refine iff_of_true ⟨_, result, _, entry, fun w _ => ?_⟩ ?_
    · rw [sub_self, abs_zero]
      exact abs_nonneg _
    · rw [← value]
      exact ⟨getElem_le_of_le descending (by omega) _, getElem_le_of_le descending (by omega) _⟩
  · rw [result]
    cases b with
    | zero =>
      rw [settle_outside (Or.inl rfl)]
      have low := cut.below 0 pos le_rfl
      refine iff_of_false ?_ fun within => by omega
      rintro ⟨m, eq, -⟩
      cases eq
    | succ b =>
      rcases Nat.lt_or_ge (b + 1) tab.length with inside | beyond
      · have high := cut.above 0 pos (by omega)
        have low := cut.below (tab.length - 1) (by omega) (by omega)
        exact iff_of_true (cut.nearest descending inside) ⟨low.le, high.le⟩
      · rw [settle_outside (Or.inr beyond)]
        have high := cut.above (tab.length - 1) (by omega) (by omega)
        refine iff_of_false ?_ fun within => by omega
        rintro ⟨m, eq, -⟩
        cases eq

end Search

/-! ## The modulo value of a frame -/

/-- A digit below each radix makes a number below their product. -/
theorem bitbufOfTables_lt {frame : List (List Int × Int)}
    (decided : ∀ x ∈ frame, ∃ m, ringOfTable x.1 x.2 = some m ∧ Nearest x.1 (magnitude x.2) m) :
    ∃ bits, bitbufOfTables frame = some bits ∧ bits < (frame.map (·.1.length)).prod := by
  induction frame with
  | nil => exact ⟨0, rfl, by decide⟩
  | cons interval frame ih =>
    obtain ⟨above, rest, lt⟩ := ih fun x member => decided x (List.mem_cons_of_mem interval member)
    obtain ⟨m, ring, v, entry, -⟩ := decided interval List.mem_cons_self
    have digit : m.toNat < interval.1.length := by
      by_contra beyond
      unfold filled at entry
      split at entry
      · cases entry
      · rw [List.getElem?_eq_none (by omega)] at entry
        cases entry
    refine ⟨above * interval.1.length + m.toNat, ?_, ?_⟩
    · simp only [bitbufOfTables, rest, ring, Option.bind_eq_bind, Option.bind_some]
    · rw [List.map_cons, List.prod_cons]
      calc above * interval.1.length + m.toNat < (above + 1) * interval.1.length := by
            rw [Nat.add_mul, Nat.one_mul]
            omega
        _ ≤ (frame.map (·.1.length)).prod * interval.1.length :=
            Nat.mul_le_mul_right _ lt
        _ = interval.1.length * (frame.map (·.1.length)).prod := Nat.mul_comm _ _

/-- The samples of a frame get the nearest rings, and a modulo value below the product of the ring
counts, if and only if each magnitude is between the smallest and the largest value of its ring.  The
decoder's own modulo value is this one with the tables of its constellations. -/
theorem decide_iff {frame : List (List Int × Int)}
    (tables : ∀ x ∈ frame, x.1 ≠ [] ∧ x.1.Pairwise (· > ·)) :
    (((∀ x ∈ frame, ∃ m, ringOfTable x.1 x.2 = some m ∧ Nearest x.1 (magnitude x.2) m) ∧
        ∃ bits, bitbufOfTables frame = some bits ∧ bits < (frame.map (·.1.length)).prod) ↔
      ∀ x ∈ frame, WithinRings x.1 (magnitude x.2)) ∧
    ∀ alaw (intervals : List (Constellation × Int)), bitbuf alaw intervals =
      bitbufOfTables (intervals.map fun (c, sample) => (c.m_to_linear alaw, sample)) := by
  refine ⟨?_, bitbuf_tables⟩
  constructor
  · rintro ⟨decided, -⟩ x member
    exact (ringOfTable_iff (tables x member).1 (tables x member).2 x.2).mp (decided x member)
  · intro within
    have decided : ∀ x ∈ frame, ∃ m, ringOfTable x.1 x.2 = some m ∧ Nearest x.1 (magnitude x.2) m :=
      fun x member =>
        (ringOfTable_iff (tables x member).1 (tables x member).2 x.2).mpr (within x member)
    exact ⟨decided, bitbufOfTables_lt decided⟩

/-- Six samples with three levels, some of them between two. -/
def sixSamples : List (List Int × Int) :=
  [([100, 40, 8], 70), ([100, 40, 8], -71), ([100, 40, 8], 8), ([100, 40, 8], -100),
    ([100, 40, 8], 25), ([100, 40, 8], 23)]

theorem decide_iff_six :
    ((∀ x ∈ sixSamples, ∃ m, ringOfTable x.1 x.2 = some m ∧ Nearest x.1 (magnitude x.2) m) ∧
        ∃ bits, bitbufOfTables sixSamples = some bits ∧ bits < (sixSamples.map (·.1.length)).prod) ↔
      ∀ x ∈ sixSamples, WithinRings x.1 (magnitude x.2) :=
  (decide_iff (by decide)).1

/-- A sample above the largest value reads in front of the table. -/
theorem ringOfTable_above : ringOfTable [8] 16 = none ∧
    ¬ ∃ m, ringOfTable [8] 16 = some m ∧ Nearest [8] (magnitude 16) m := by
  have outside : ringOfTable [8] 16 = none := by decide
  refine ⟨outside, fun ⟨m, eq, _⟩ => ?_⟩
  rw [outside] at eq
  cases eq

end QFax.Linmodem

import QFax.Efax.ReadRuns

/-!
# What the row reader makes of code words

The reader undoes the encoder: on a window that holds a scan line and an EOL, `readRow` returns the
runs of the line, whatever the alignment, and leaves the window right after the EOL.  The EOL may be
preceded by any number of zeros (FILL).
-/

namespace QFax.Efax

open Bits

variable {σ : Type} {get : σ → Int × σ} {R : σ → List UInt8 → Prop} {w : Window σ}
  {rest : List Bool}

/-! ## Single lookups -/

theorem code_lt (c : Colour) {i : Nat} (lt : i < 104) : (c.code i).code < 2 ^ (c.code i).bits :=
  (code_bounds c (code_mem c lt)).2.2.1

/-- A window that starts with a short code word finds its entry. -/
theorem entry_short (c : Colour) {i : Nat} (lt : i < 104) (short : (c.code i).bits ≤ 9) :
    ∀ j < 512, toBits 9 j = ((c.code i).word ++ rest).take 9 →
      dtabs c.first j = c.entry (c.code i, i) 0 := by
  intro j small starts
  have width : 9 = (c.code i).bits + (9 - (c.code i).bits) := by omega
  have small' : j < 2 ^ ((c.code i).bits + (9 - (c.code i).bits)) := by rw [← width]; exact small
  rw [width] at starts
  exact lookup_short c lt short (shiftRight_eq_of_toBits small' (code_lt c lt) starts)

/-- A window that starts with a long code word leads to the secondary table. -/
theorem entry_long (c : Colour) {i : Nat} (lt : i < 104) (long : 9 < (c.code i).bits) :
    ∀ j < 512, toBits 9 j = ((c.code i).word ++ rest).take 9 → dtabs c.first j = ⟨c.second, 4, 0⟩ := by
  intro j small starts
  have width : (c.code i).bits = 9 + ((c.code i).bits - 9) := by omega
  have prefix' : (c.code i).word = toBits 9 ((c.code i).code >>> ((c.code i).bits - 9)) ++
      toBits ((c.code i).bits - 9) (c.code i).code := by
    rw [← toBits_add, ← width]
    rfl
  have top : (c.code i).code >>> ((c.code i).bits - 9) < 2 ^ 9 := by
    rw [Nat.shiftRight_eq_div_pow]
    apply Nat.div_lt_of_lt_mul
    rw [← Nat.pow_add, Nat.add_comm, ← width]
    exact code_lt c lt
  rw [prefix', List.append_assoc, List.take_left' (length_toBits 9 _)] at starts
  exact lookup_long c lt long (toBits_inj small top starts)

/-- Four bits later, the secondary table finds the entry of the long code word. -/
theorem entry_rest (c : Colour) {i : Nat} (lt : i < 104) (long : 9 < (c.code i).bits) :
    ∀ j < 512, toBits 9 j = (((c.code i).word ++ rest).drop 4).take 9 →
      dtabs c.second j = c.entry (c.code i, i) 4 := by
  intro j small starts
  obtain ⟨-, upper, -, zeros⟩ := code_bounds c (code_mem c lt)
  have width : (c.code i).bits = 4 + ((c.code i).bits - 4) := by omega
  have suffix' : ((c.code i).word ++ rest).drop 4 =
      toBits ((c.code i).bits - 4) (c.code i).code ++ rest := by
    rw [T4Tab.word, width, toBits_add, List.append_assoc, List.drop_left' (length_toBits 4 _),
      ← width]
  have total : 9 = (c.code i).bits - 4 + (13 - (c.code i).bits) := by omega
  have small' : j < 2 ^ ((c.code i).bits - 4 + (13 - (c.code i).bits)) := by
    rw [← total]; exact small
  rw [suffix', total] at starts
  exact lookup_rest c lt long (shiftRight_eq_of_toBits small' (zeros long) starts)

/-! ## Code words -/

/-- The table that goes on after a lookup that stores no code. -/
theorem readCodes_skip {t : Dtab} {tab : TabName} {w' : Window σ} {codes : List Int}
    (found : w.lookup get tab = (w', t)) (skip : t.code = 0) (n : Nat) :
    readCodes get (n + 1) w tab codes = readCodes get n w' t.next codes := by
  simp only [readCodes, found, skip, if_true]

/-- A lookup that stores a run code. -/
theorem readCodes_store {t : Dtab} {tab : TabName} {w' : Window σ} {codes : List Int}
    (found : w.lookup get tab = (w', t)) (code : 0 < t.code) (room : codes.length < maxRuns)
    (n : Nat) :
    readCodes get (n + 1) w tab codes = readCodes get n w' t.next (codes ++ [t.code]) := by
  have nonzero : t.code ≠ 0 := by omega
  have noEol : t.code ≠ -1 := by omega
  simp only [readCodes, found, nonzero, noEol, room, if_true, if_false]

/-- A lookup that ends the row. -/
theorem readCodes_stop {t : Dtab} {tab : TabName} {w' : Window σ} {codes : List Int}
    (found : w.lookup get tab = (w', t)) (code : t.code = -1) (room : codes.length < maxRuns)
    (n : Nat) :
    readCodes get (n + 1) w tab codes = some (w', t.next, codes ++ [-1]) := by
  simp only [readCodes, found, code, room, if_true]
  rfl

/-- A code word stores its run length plus one. -/
theorem decode_word (codes : List Int) (delivers : Delivers get R) (c : Colour) {i : Nat} (lt : i < 104)
    (holds : w.Holds R ((c.code i).word ++ rest)) (left : 9 ≤ rest.length)
    (room : codes.length < maxRuns) :
    ∃ k w', w'.Holds R rest ∧ ∀ n, readCodes get (n + k) w c.first codes =
      readCodes get n w' (c.next i) (codes ++ [((c.code i).rlen : Int) + 1]) := by
  have width : (c.code i).word.length = (c.code i).bits := length_toBits _ _
  have lower : 2 ≤ (c.code i).bits := (code_bounds c (code_mem c lt)).1
  have code : 0 < (c.entry (c.code i, i) 0).code := Int.natCast_succ_pos _
  by_cases short : (c.code i).bits ≤ 9
  · obtain ⟨w', found, holds', -⟩ := holds.lookup delivers (by simp; omega) _ _
      (entry_short c lt short) short
    refine ⟨1, w', ?_, fun n => readCodes_store found code room n⟩
    have drop : ((c.code i).word ++ rest).drop (c.entry (c.code i, i) 0).bits = rest :=
      List.drop_left' width
    rw [drop] at holds'
    exact holds'
  · have long : 9 < (c.code i).bits := by omega
    have upper : (c.code i).bits ≤ 13 := (code_bounds c (code_mem c lt)).2.1
    obtain ⟨w₁, found₁, holds₁, -⟩ := holds.lookup delivers (by simp; omega) _ _
      (entry_long c lt long) (by show 4 ≤ 9; omega)
    obtain ⟨w', found, holds', -⟩ := holds₁.lookup delivers
      (by show 9 ≤ (List.drop 4 _).length; simp; omega) _ _ (entry_rest c lt long)
      (by show (c.code i).bits - 4 ≤ 9; omega)
    refine ⟨2, w', ?_, fun n => ?_⟩
    · have drop : (((c.code i).word ++ rest).drop 4).drop (c.entry (c.code i, i) 4).bits = rest := by
        have four : 4 + (c.entry (c.code i, i) 4).bits = (c.code i).bits := by
          show 4 + ((c.code i).bits - 4) = (c.code i).bits
          omega
        rw [List.drop_drop, four]
        exact List.drop_left' width
      have dropped := holds'
      rw [drop] at dropped
      exact dropped
    · rw [readCodes_skip found₁ rfl (n + 1)]
      exact readCodes_store found code room n

/-! ## EOLs -/

/-- A window of zeros. -/
theorem index_zero {j : Nat} {bits : List Bool} (small : j < 512)
    (starts : toBits 9 j = (List.replicate 9 false ++ bits).take 9) : j = 0 := by
  rw [List.take_left' (by simp), ← toBits_of_zero] at starts
  exact toBits_inj small (by decide) starts

/-- A window of `m` zeros and a one. -/
theorem index_one {j m : Nat} {bits : List Bool} (small : j < 512) (le : m ≤ 8)
    (starts : toBits 9 j = (List.replicate m false ++ true :: bits).take 9) :
    j >>> (8 - m) = 1 := by
  have width : 9 = m + 1 + (8 - m) := by omega
  have one : (1 : Nat) < 2 ^ (m + 1) := Nat.one_lt_two_pow (by omega)
  have split : List.replicate m false ++ true :: bits = toBits (m + 1) 1 ++ bits := by
    rw [toBits_one, List.append_assoc]
    rfl
  rw [split, width] at starts
  exact shiftRight_eq_of_toBits (by rw [← width]; exact small) one starts

theorem replicate_drop {z k : Nat} (le : k ≤ z) (bits : List Bool) :
    (List.replicate z false ++ bits).drop k = List.replicate (z - k) false ++ bits := by
  rw [List.drop_append_of_le_length (by simpa using le), List.drop_replicate]

theorem replicate_split {z k : Nat} (le : k ≤ z) (bits : List Bool) :
    List.replicate z false ++ bits =
      List.replicate k false ++ (List.replicate (z - k) false ++ bits) := by
  rw [← List.append_assoc, ← List.replicate_add, Nat.add_sub_cancel' le]

/-- Zeros in a primary table lead to the secondary one. -/
theorem Window.Holds.lookup_first (delivers : Delivers get R) (c : Colour) {z : Nat}
    (zeros : 9 ≤ z) (holds : w.Holds R (List.replicate z false ++ rest)) :
    ∃ w', w.lookup get c.first = (w', ⟨c.second, 4, 0⟩) ∧
      w'.Holds R (List.replicate (z - 4) false ++ rest) ∧
      (w.shift < 0 ∨ w'.shift = w.shift - 4) ∧ (0 ≤ w.c ∨ w.shift < 0 → 0 ≤ w'.c) := by
  obtain ⟨w', found, holds', -, kept, read⟩ := holds.lookup delivers (by simp; omega)
    c.first ⟨c.second, 4, 0⟩
    (by
      intro j small starts
      rw [replicate_split zeros] at starts
      rw [index_zero small starts]
      exact lookup_zeros c)
    (by decide : 4 ≤ 9)
  rw [replicate_drop (show 4 ≤ z by omega)] at holds'
  exact ⟨w', found, holds', kept, read⟩

/-- Zeros in a secondary table lead to the one for FILL. -/
theorem Window.Holds.lookup_second (delivers : Delivers get R) (c : Colour) {z : Nat}
    (zeros : 7 ≤ z) (holds : w.Holds R (List.replicate z false ++ rest)) (left : 9 ≤ z + rest.length) :
    ∃ w', w.lookup get c.second = (w', ⟨.fill, 7, 0⟩) ∧
      w'.Holds R (List.replicate (z - 7) false ++ rest) ∧
      (w.shift < 0 ∨ w'.shift = w.shift - 7) ∧ (0 ≤ w.c ∨ w.shift < 0 → 0 ≤ w'.c) := by
  obtain ⟨w', found, holds', -, kept, read⟩ := holds.lookup delivers (by simp; omega)
    c.second ⟨.fill, 7, 0⟩
    (by
      intro j small starts
      rw [replicate_split zeros, ← toBits_of_zero 7] at starts
      exact lookup_zeros_rest c
        (shiftRight_eq_of_toBits (a := 7) (b := 2) small (by decide) starts))
    (by decide : 7 ≤ 9)
  rw [replicate_drop zeros] at holds'
  exact ⟨w', found, holds', kept, read⟩

/-- Nine zeros of FILL. -/
theorem Window.Holds.lookup_fill (delivers : Delivers get R) {z : Nat} (zeros : 9 ≤ z)
    (holds : w.Holds R (List.replicate z false ++ rest)) :
    ∃ w', w.lookup get .fill = (w', ⟨.fill, 9, 0⟩) ∧
      w'.Holds R (List.replicate (z - 9) false ++ rest) ∧ (0 ≤ w.c ∨ w.shift < 0 → 0 ≤ w'.c) := by
  obtain ⟨w', found, holds', -, -, read⟩ := holds.lookup delivers (by simp; omega)
    .fill ⟨.fill, 9, 0⟩
    (by
      intro j small starts
      rw [replicate_split zeros] at starts
      rw [index_zero small starts]
      exact lookup_fill_zeros)
    le_rfl
  rw [replicate_drop zeros] at holds'
  exact ⟨w', found, holds', read⟩

/-- The last zeros of FILL, and the one that ends an EOL. -/
theorem Window.Holds.lookup_one (delivers : Delivers get R) {m : Nat} (few : m < 9)
    (holds : w.Holds R (List.replicate m false ++ true :: rest)) (left : 8 ≤ rest.length) :
    ∃ w', w.lookup get .fill = (w', ⟨.tw1, 9 - (8 - m), -1⟩) ∧ w'.Holds R rest ∧
      (0 ≤ w.c ∨ w.shift < 0 → 0 ≤ w'.c) := by
  obtain ⟨w', found, holds', -, -, read⟩ := holds.lookup delivers (by simp; omega)
    .fill ⟨.tw1, 9 - (8 - m), -1⟩
    (fun j small starts => lookup_fill_one (by omega) (index_one small (by omega) starts))
    (by show 9 - (8 - m) ≤ 9; omega)
  have drop : (List.replicate m false ++ true :: rest).drop (9 - (8 - m)) = rest := by
    have width : 9 - (8 - m) = m + 1 := by omega
    have split : List.replicate m false ++ true :: rest =
        (List.replicate m false ++ [true]) ++ rest := by simp
    rw [width, split]
    exact List.drop_left' (by simp)
  rw [drop] at holds'
  exact ⟨w', found, holds', read⟩

/-- The first eleven zeros of an EOL take two lookups. -/
theorem decode_zeros (codes : List Int) (delivers : Delivers get R) (c : Colour) {z : Nat}
    (zeros : 11 ≤ z) (holds : w.Holds R (List.replicate z false ++ rest))
    (left : 13 ≤ z + rest.length) :
    ∃ w', w'.Holds R (List.replicate (z - 11) false ++ rest) ∧ (0 ≤ w'.c ∨ w'.shift < 0) ∧
      ∀ n, readCodes get (n + 2) w c.first codes = readCodes get n w' .fill codes := by
  have upper := holds.upper
  obtain ⟨w₁, found₁, holds₁, kept₁, read₁⟩ := holds.lookup_first delivers c (by omega)
  obtain ⟨w₂, found₂, holds₂, kept₂, read₂⟩ :=
    holds₁.lookup_second delivers c (by omega) (by omega)
  rw [Nat.sub_sub] at holds₂
  refine ⟨w₂, holds₂, ?_, fun n => ?_⟩
  · -- with nothing fetched so far, eleven of at most sixteen bits are gone
    rcases kept₁ with few | kept₁
    · exact Or.inl (read₂ (Or.inl (read₁ (Or.inr few))))
    · rcases kept₂ with few | kept₂
      · exact Or.inl (read₂ (Or.inr few))
      · right
        omega
  · rw [readCodes_skip found₁ rfl (n + 1)]
    exact readCodes_skip found₂ rfl n

/-- FILL up to the one that ends an EOL. -/
theorem decode_fill (codes : List Int) (delivers : Delivers get R) (m : Nat)
    (holds : w.Holds R (List.replicate m false ++ true :: rest)) (left : 8 ≤ rest.length)
    (read : 0 ≤ w.c ∨ w.shift < 0) (room : codes.length < maxRuns) :
    ∃ k w', w'.Holds R rest ∧ 0 ≤ w'.c ∧
      ∀ n, readCodes get (n + k) w .fill codes = some (w', .tw1, codes ++ [-1]) := by
  induction m using Nat.strongRecOn generalizing w with
  | ind m ih =>
    by_cases far : 9 ≤ m
    · obtain ⟨w₁, found, holds₁, read₁⟩ := holds.lookup_fill delivers far
      obtain ⟨k, w', holds', read', run⟩ := ih (m - 9) (by omega) holds₁ (Or.inl (read₁ read))
      refine ⟨k + 1, w', holds', read', fun n => ?_⟩
      rw [← Nat.add_assoc, readCodes_skip found rfl]
      exact run n
    · obtain ⟨w₁, found, holds₁, read₁⟩ := holds.lookup_one delivers (not_le.mp far) left
      exact ⟨1, w₁, holds₁, read₁ read, fun n => readCodes_stop found rfl room n⟩

/-- An EOL ends the row, after at least one character was read. -/
theorem decode_eol (codes : List Int) (delivers : Delivers get R) (c : Colour) {z : Nat}
    (zeros : 11 ≤ z)
    (holds : w.Holds R (List.replicate z false ++ true :: rest)) (left : 8 ≤ rest.length)
    (room : codes.length < maxRuns) :
    ∃ k w', w'.Holds R rest ∧ 0 ≤ w'.c ∧
      ∀ n, readCodes get (n + k) w c.first codes = some (w', .tw1, codes ++ [-1]) := by
  obtain ⟨w₁, holds₁, read₁, run₁⟩ := decode_zeros codes delivers c zeros holds
    (by simp; omega)
  obtain ⟨k, w', holds', read', run'⟩ := decode_fill codes delivers _ holds₁ left read₁ room
  refine ⟨k + 2, w', holds', read', fun n => ?_⟩
  rw [← Nat.add_assoc, run₁]
  exact run' n

/-! ## The end of the data -/

/-- With fewer than nine bits left, refilling runs into the EOL pad. -/
theorem refill_end (delivers : Delivers get R) {bits : List Bool} (holds : w.Holds R bits)
    (few : bits.length < 9) {n : Nat} (fuel : -w.shift ≤ n) :
    toBits 9 (w.refill get n).index = (bits ++ toBits 15 1).take 9 ∧ (w.refill get n).c < 0 := by
  induction n generalizing w with
  | zero =>
    obtain ⟨lower, upper, data, related, content⟩ := holds
    rw [← content, List.length_append, length_toBits] at few
    omega
  | succ n ih =>
    have short : w.shift < 0 := by
      obtain ⟨lower, upper, data, related, content⟩ := holds
      rw [← content, List.length_append, length_toBits] at few
      omega
    rw [Window.refill, if_pos short]
    by_cases more : w.shift + 9 < bits.length
    · obtain ⟨holds', read, shift⟩ := holds.fetch delivers more short
      exact ih holds' (by omega)
    · obtain ⟨lower, upper, data, related, content⟩ := holds
      have empty : data = [] := by
        rw [← content, List.length_append, length_toBits, length_bytesBits] at more
        exact List.eq_nil_of_length_eq_zero (by omega)
      subst empty
      obtain ⟨negative, -⟩ := delivers.done related
      have fetched : w.fetch get = ⟨(get w.src).2, (w.x <<< 15 ||| 1) % 2 ^ 32, w.shift + 15,
          (get w.src).1⟩ := by
        simp only [Window.fetch, if_pos negative]
      have stop : (w.fetch get).refill get n = w.fetch get := by
        have enough : ¬ (w.fetch get).shift < 0 := by
          rw [fetched]
          show ¬ w.shift + 15 < 0
          omega
        cases n with
        | zero => rfl
        | succ n => rw [Window.refill, if_neg enough]
      rw [stop, fetched]
      refine ⟨?_, negative⟩
      rw [bytesBits_nil, List.append_nil] at content
      have pad : toBits ((w.shift + 15).toNat + 9) ((w.x <<< 15 ||| 1) % 2 ^ 32) =
          bits ++ toBits 15 1 := by
        have width : (w.shift + 15).toNat + 9 = (w.shift + 9).toNat + 15 := by omega
        rw [width, toBits_mod _ (by omega), toBits_shiftLeft_or _ _ (by decide), content]
      rw [Nat.add_comm, toBits_add] at pad
      have value : (⟨(get w.src).2, (w.x <<< 15 ||| 1) % 2 ^ 32, w.shift + 15,
          (get w.src).1⟩ : Window σ).index =
          ((w.x <<< 15 ||| 1) % 2 ^ 32) >>> (w.shift + 15).toNat % 2 ^ 9 := rfl
      rw [value, toBits_mod _ le_rfl, ← pad, List.take_left' (length_toBits 9 _)]

/-- An EOL with FILL at the very end of the data is found through the pad. -/
theorem decode_eol_end (codes : List Int) (delivers : Delivers get R) (c : Colour) {z : Nat}
    (lower : 12 ≤ z)
    (upper : z ≤ 18) (holds : w.Holds R (List.replicate z false ++ [true]))
    (room : codes.length < maxRuns) :
    ∃ k w', w'.c < 0 ∧
      ∀ n, readCodes get (n + k) w c.first codes = some (w', .tw1, codes ++ [-1]) := by
  obtain ⟨w₁, holds₁, -, run₁⟩ := decode_zeros codes delivers c (by omega) holds
    (by simp; omega)
  obtain ⟨index, negative⟩ := refill_end delivers holds₁ (by simp; omega)
    (n := (-w₁.shift).toNat) (by omega)
  rw [List.append_assoc] at index
  have small : (w₁.refill get (-w₁.shift).toNat).index < 512 := Nat.mod_lt _ (by decide)
  have entry : dtabs .fill (w₁.refill get (-w₁.shift).toNat).index =
      ⟨.tw1, 9 - (8 - (z - 11)), -1⟩ :=
    lookup_fill_one (by omega) (index_one small (by omega) index)
  let w' : Window σ := { w₁.refill get (-w₁.shift).toNat with
    shift := (w₁.refill get (-w₁.shift).toNat).shift - (9 - (8 - (z - 11)) : Nat) }
  have found : w₁.lookup get .fill = (w', ⟨.tw1, 9 - (8 - (z - 11)), -1⟩) := by
    rw [Window.lookup, entry]
  refine ⟨3, w', negative, fun n => ?_⟩
  rw [run₁ (n + 1)]
  exact readCodes_stop found rfl room n

/-! ## Scan lines -/

/-- The codes stored for a run. -/
def runVals (run : Int) : List Int :=
  if run > 63 then [64 * (run / 64) + 1, run % 64 + 1] else [run + 1]

theorem length_runVals (c : Colour) (run : Int) : (runVals run).length = (runCodes c run).length := by
  unfold runVals runCodes
  split <;> rfl

/-- The code words of a run that is not too long store its codes. -/
theorem decode_run (codes : List Int) (delivers : Delivers get R) (c : Colour) {run : Int}
    (nonneg : 0 ≤ run)
    (short : run ≤ maxRunLen) (holds : w.Holds R (wordsBits (runCodes c run) ++ rest))
    (left : 9 ≤ rest.length) (room : codes.length + (runVals run).length ≤ maxRuns) :
    ∃ k w', w'.Holds R rest ∧ ∀ n, readCodes get (n + k) w c.first codes =
      readCodes get n w' c.other.first (codes ++ runVals run) := by
  by_cases long : run > 63
  · have cut : (if run > maxRunLen then maxRunLen else run) = run := if_neg (by omega)
    unfold maxRunLen at short
    have runs : runVals run = [64 * (run / 64) + 1, run % 64 + 1] := if_pos long
    have words : runCodes c run = [c.code (63 + run / 64).toNat, c.code (run % 64).toNat] := by
      simp only [runCodes, if_pos long, cut]
    rw [runs] at room ⊢
    simp only [List.length_cons, List.length_nil] at room
    rw [words, wordsBits_cons, wordsBits_cons, wordsBits_nil, List.append_nil,
      List.append_assoc] at holds
    obtain ⟨k₁, w₁, holds₁, run₁⟩ := decode_word codes delivers c (by omega) holds
      (by simp; omega) (by omega)
    obtain ⟨k₂, w₂, holds₂, run₂⟩ := decode_word
      (codes ++ [((c.code (63 + run / 64).toNat).rlen : Int) + 1]) delivers c (by omega)
      holds₁ left (by simp; omega)
    have next₁ : c.next (63 + run / 64).toNat = c.first := if_pos (by omega)
    have next₂ : c.next (run % 64).toNat = c.other.first := if_neg (by omega)
    have makeup : (c.code (63 + run / 64).toNat).rlen = 64 * ((63 + run / 64).toNat - 63) := by
      rw [code_rlen c (by omega), if_neg (by omega)]
    have terminating : (c.code (run % 64).toNat).rlen = (run % 64).toNat := by
      rw [code_rlen c (by omega), if_pos (by omega)]
    refine ⟨k₂ + k₁, w₂, holds₂, fun n => ?_⟩
    rw [← Nat.add_assoc, run₁, next₁, run₂, next₂, makeup, terminating, List.append_assoc]
    congr 2
    simp only [List.cons_append, List.nil_append]
    congr 2 <;> omega
  · have words : runCodes c run = [c.code (run % 64).toNat] := if_neg long
    have runs : runVals run = [run + 1] := if_neg long
    rw [runs] at room ⊢
    simp only [List.length_cons, List.length_nil] at room
    rw [words, wordsBits_cons, wordsBits_nil, List.append_nil] at holds
    obtain ⟨k, w', holds', run'⟩ := decode_word codes delivers c (by omega) holds left
      (by omega)
    have next : c.next (run % 64).toNat = c.other.first := if_neg (by omega)
    have terminating : (c.code (run % 64).toNat).rlen = (run % 64).toNat := by
      rw [code_rlen c (by omega), if_pos (by omega)]
    refine ⟨k, w', holds', fun n => ?_⟩
    rw [run', next, terminating]
    congr 3
    omega

/-- The code words of a scan line store its codes, run by run. -/
theorem decode_runs (codes : List Int) (delivers : Delivers get R) (c : Colour) {runs : List Int}
    (nonneg : ∀ r ∈ runs, 0 ≤ r) (short : ∀ r ∈ runs, r ≤ maxRunLen)
    (holds : w.Holds R (wordsBits (lineCodes c runs) ++ rest)) (left : 9 ≤ rest.length)
    (room : codes.length + (runs.flatMap runVals).length ≤ maxRuns) :
    ∃ k w' c', w'.Holds R rest ∧ ∀ n, readCodes get (n + k) w c.first codes =
      readCodes get n w' (Colour.first c') (codes ++ runs.flatMap runVals) := by
  induction runs generalizing w c codes with
  | nil => exact ⟨0, w, c, holds, fun n => by rw [List.flatMap_nil, List.append_nil]; rfl⟩
  | cons run runs ih =>
    rw [lineCodes, wordsBits_append, List.append_assoc] at holds
    rw [List.flatMap_cons, List.length_append] at room
    obtain ⟨k₁, w₁, holds₁, run₁⟩ := decode_run codes delivers c
      (nonneg run List.mem_cons_self) (short run List.mem_cons_self) holds (by simp; omega)
      (by omega)
    obtain ⟨k₂, w₂, c', holds₂, run₂⟩ := ih (codes ++ runVals run) c.other
      (fun r hr => nonneg r (List.mem_cons_of_mem run hr))
      (fun r hr => short r (List.mem_cons_of_mem run hr)) holds₁
      (by rw [List.length_append]; omega)
    refine ⟨k₂ + k₁, w₂, c', holds₂, fun n => ?_⟩
    rw [← Nat.add_assoc, run₁, run₂, List.flatMap_cons, List.append_assoc]

/-- Combining the codes of a run gives the run back. -/
theorem combine_runVals {run : Int} (nonneg : 0 ≤ run) (codes : List Int) :
    combine (runVals run ++ codes) = run :: combine codes := by
  unfold runVals
  split
  case isTrue long =>
    have makeup : 64 * (run / 64) + 1 > 64 := by omega
    have sum : 64 * (run / 64) + 1 + (run % 64 + 1) - 2 = run := by omega
    simp only [List.cons_append, List.nil_append, combine, if_pos makeup, sum]
  case isFalse short =>
    have terminating : ¬ run + 1 > 64 := by omega
    have value : run + 1 - 1 = run := by omega
    cases codes with
    | nil => simp only [List.cons_append, List.nil_append, combine, value]
    | cons code codes =>
      simp only [List.cons_append, List.nil_append, combine, if_neg terminating, value]

theorem combine_flatMap {runs : List Int} (nonneg : ∀ r ∈ runs, 0 ≤ r) :
    combine (runs.flatMap runVals) = runs := by
  induction runs with
  | nil => rfl
  | cons run runs ih =>
    rw [List.flatMap_cons, combine_runVals (nonneg run List.mem_cons_self),
      ih fun r hr => nonneg r (List.mem_cons_of_mem run hr)]

/-- The pel count of a line that fits a `short` is its width. -/
theorem rowLen_eq {runs : List Int} (nonneg : ∀ r ∈ runs, 0 ≤ r) (width : runs.sum ≤ 32767) :
    rowLen runs = runs.sum := by
  have loop : ∀ (runs : List Int) (len : Int), (∀ r ∈ runs, 0 ≤ r) → 0 ≤ len →
      len + runs.sum ≤ 32767 →
      runs.foldl (fun len run => toShort (len + run)) len = len + runs.sum := by
    intro runs
    induction runs with
    | nil => simp
    | cons run runs ih =>
      intro len nonneg start width
      have here := nonneg run List.mem_cons_self
      have later : 0 ≤ runs.sum := List.sum_nonneg fun r hr => nonneg r (List.mem_cons_of_mem run hr)
      rw [List.sum_cons] at width ⊢
      rw [List.foldl_cons, toShort_of_small (by omega) (by omega),
        ih _ (fun r hr => nonneg r (List.mem_cons_of_mem run hr)) (by omega) (by omega)]
      omega
  rw [rowLen, loop runs 0 nonneg le_rfl (by omega), Int.zero_add]

end QFax.Efax

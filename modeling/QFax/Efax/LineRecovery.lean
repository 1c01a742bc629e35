import QFax.Efax.ReadTotal

/-!
# Where the decoder recognises an EOL

An EOL at the position of the decoder ends the row in progress, whatever table is current.  No code
word ends in more than three zeros, so the code word in front of an EOL that starts with fourteen
zeros leaves eleven of them, whatever bits it is made of.  The row after that EOL is decoded as it was
written.
-/

namespace QFax.Efax

open Bits

variable {σ : Type} {get : σ → Int × σ} {R : σ → List UInt8 → Prop} {w w' : Window σ}
  {bits rest u : List Bool} {tab : TabName}

/-! ## Single lookups -/

/-- A lookup finds the entry of the next nine bits. -/
theorem Window.Holds.entry (delivers : Delivers get R) (holds : w.Holds R bits)
    (left : 9 ≤ bits.length) (tab : TabName) :
    ∃ w' t i, w.lookup get tab = (w', t) ∧ w'.Holds R (bits.drop t.bits) ∧ 1 ≤ t.bits ∧
      toBits 9 i = bits.take 9 ∧ TableEntry tab i t := by
  obtain ⟨holds', enough, -⟩ := holds.refill delivers left (n := (-w.shift).toNat) (by omega)
  have small : (w.refill get (-w.shift).toNat).index < 512 := Nat.mod_lt _ (by decide)
  obtain ⟨some, few⟩ := dtabs_bits tab small
  exact ⟨_, _, _, rfl, holds'.drop enough few, some, holds'.index enough, dtabs_entry tab small⟩

/-- No code word ends in four zeros. -/
theorem code_mod (c : Colour) {p : T4Tab} (member : p ∈ c.codes) : p.code % 16 ≠ 0 := by
  have all : ∀ p ∈ c.codes, p.code % 16 ≠ 0 := by
    cases c <;> decide +kernel
  exact all p member

/-- A number whose bits end in zeros. -/
theorem mod_of_toBits {a m n : Nat} {u : List Bool} (size : u.length = a)
    (ends : toBits (a + m) n = u ++ List.replicate m false) : n % 2 ^ m = 0 := by
  rw [toBits_add] at ends
  have low := (List.append_inj ends (by rw [length_toBits, size])).2
  have small : n % 2 ^ m < 2 ^ m := Nat.mod_lt n (Nat.two_pow_pos m)
  apply toBits_inj small (Nat.two_pow_pos m)
  rw [toBits_mod n le_rfl, low, toBits_of_zero]

/-- The zeros of an EOL that a table needs. -/
def TabName.zeros : TabName → Nat
  | .tw1 | .tb1 => 11
  | .tw2 | .tb2 => 7
  | .fill => 0

theorem Colour.first_zeros (c : Colour) : c.first.zeros = 11 := by
  cases c <;> rfl

theorem Colour.second_zeros (c : Colour) : c.second.zeros = 7 := by
  cases c <;> rfl

theorem Colour.next_zeros (c : Colour) (i : Nat) : (c.next i).zeros = 11 := by
  unfold Colour.next
  split
  · exact c.first_zeros
  · exact c.other.first_zeros

/-- The bits that a lookup drops end in the zeros of the EOL that it takes. -/
theorem dropped_mod {i k z word : Nat} (le : k ≤ 9) (zeros : 9 ≤ z) (beyond : u.length ≤ k)
    (starts : toBits 9 i = (u ++ (List.replicate z false ++ bits)).take 9)
    (covers : i >>> (9 - k) = word) : word % 2 ^ (k - u.length) = 0 := by
  apply mod_of_toBits (u := u) rfl
  have width : u.length + (k - u.length) = k := by omega
  have nine : 9 = k + (9 - k) := by omega
  have short : min (k - u.length) z = k - u.length := by omega
  have top := congrArg (List.take k) starts
  rw [List.take_take, Nat.min_eq_left le, List.take_append, List.take_of_length_le beyond,
    List.take_append_of_le_length (by rw [List.length_replicate]; omega), List.take_replicate, short,
    nine, toBits_add, List.take_left' (length_toBits k _), covers] at top
  rw [width, top]

/-- A code word takes at most three zeros of an EOL. -/
theorem code_takes (c : Colour) {p : T4Tab} (member : p ∈ c.codes) {i k z : Nat} (le : k ≤ 9)
    (zeros : 9 ≤ z) (beyond : u.length ≤ k)
    (starts : toBits 9 i = (u ++ (List.replicate z false ++ bits)).take 9)
    (covers : i >>> (9 - k) = p.code) : k - u.length ≤ 3 := by
  have multiple := dropped_mod le zeros beyond starts covers
  by_contra more
  have divides : 2 ^ 4 ∣ 2 ^ (k - u.length) := Nat.pow_dvd_pow 2 (by omega)
  exact code_mod c member (Nat.mod_eq_zero_of_dvd (divides.trans (Nat.dvd_of_mod_eq_zero multiple)))

/-- A lookup that takes zeros of an EOL together with bits in front of it is not the end of a row,
and leaves the zeros that the next table needs. -/
theorem TableEntry.crossing {i : Nat} {t : Dtab} (entry : TableEntry tab i t) {z : Nat}
    (zeros : 14 ≤ z) (some : u ≠ []) (beyond : u.length < t.bits)
    (starts : toBits 9 i = (u ++ (List.replicate z false ++ bits)).take 9) :
    t.code ≠ -1 ∧ t.next.zeros + (t.bits - u.length) ≤ z := by
  have pos : 0 < u.length := List.length_pos_iff.mpr some
  have run (c : Colour) (p : T4Tab × Nat) (used : Nat) : (c.entry p used).code ≠ -1 := by
    show (p.1.rlen : Int) + 1 ≠ -1
    omega
  have second (c : Colour) : c.second.zeros + (4 - u.length) ≤ z := by
    rw [c.second_zeros]
    omega
  cases entry with
  | undefined =>
    have one : u.length < 1 := beyond
    omega
  | start c => exact ⟨(by decide : (0 : Int) ≠ -1), second c⟩
  | @short c p w member short covers =>
    have three := code_takes c (List.fst_mem_of_mem_zipIdx member) short (by omega) (Nat.le_of_lt beyond)
      starts covers
    refine ⟨run c p 0, ?_⟩
    show (c.next p.2).zeros + (p.1.bits - u.length) ≤ z
    rw [c.next_zeros]
    omega
  | long c => exact ⟨(by decide : (0 : Int) ≠ -1), second c⟩
  | zeros c =>
    refine ⟨(by decide : (0 : Int) ≠ -1), ?_⟩
    show 0 + (7 - u.length) ≤ z
    omega
  | @rest c p w member long covers =>
    have upper := (code_bounds c (List.fst_mem_of_mem_zipIdx member)).2.1
    have beyond' : u.length < p.1.bits - 4 := beyond
    have used : 13 - p.1.bits = 9 - (p.1.bits - 4) := by omega
    rw [used] at covers
    have three := code_takes c (List.fst_mem_of_mem_zipIdx member) (by omega) (by omega)
      (Nat.le_of_lt beyond') starts covers
    refine ⟨run c p 4, ?_⟩
    show (c.next p.2).zeros + (p.1.bits - 4 - u.length) ≤ z
    rw [c.next_zeros]
    omega
  | fill =>
    refine ⟨(by decide : (0 : Int) ≠ -1), ?_⟩
    show 0 + (9 - u.length) ≤ z
    omega
  | @eol j w inside one =>
    have beyond' : u.length < 9 - j := beyond
    have used : j = 9 - (9 - j) := by omega
    rw [used] at one
    have multiple := dropped_mod (by omega) (by omega) (Nat.le_of_lt beyond') starts one
    have proper : 1 < 2 ^ (9 - j - u.length) := Nat.one_lt_two_pow (by omega)
    rw [Nat.mod_eq_of_lt proper] at multiple
    cases multiple

/-! ## Up to the EOL -/

/-- Lookups from a window and a table on come to the end of a row, with these bits left, after they
have ended this number of rows before. -/
inductive Resumes (get : σ → Int × σ) (R : σ → List UInt8 → Prop) (rest : List Bool) :
    Nat → Window σ → TabName → Prop
  | eol {w w' : Window σ} {tab : TabName} {t : Dtab} : w.lookup get tab = (w', t) → t.code = -1 →
    w'.Holds R rest → Resumes get R rest 0 w tab
  | lookup {w w' : Window σ} {tab : TabName} {t : Dtab} {n : Nat} : w.lookup get tab = (w', t) →
    t.code ≠ -1 → Resumes get R rest n w' t.next → Resumes get R rest n w tab
  | row {w w' : Window σ} {tab : TabName} {t : Dtab} {n : Nat} : w.lookup get tab = (w', t) →
    t.code = -1 → Resumes get R rest n { w' with c := -1 } .tw1 → Resumes get R rest (n + 1) w tab

/-- The table that skips FILL finds the end of an EOL. -/
theorem resumes_fill (delivers : Delivers get R) (m : Nat)
    (holds : w.Holds R (List.replicate m false ++ true :: rest)) (left : 8 ≤ rest.length) :
    Resumes get R rest 0 w .fill := by
  induction m using Nat.strongRecOn generalizing w with
  | ind m ih =>
    by_cases far : 9 ≤ m
    · obtain ⟨w₁, found, holds₁, -⟩ := holds.lookup_fill delivers far
      exact .lookup found (by decide : (0 : Int) ≠ -1) (ih (m - 9) (by omega) holds₁)
    · obtain ⟨w₁, found, holds₁, -⟩ := holds.lookup_one delivers (not_le.mp far) left
      exact .eol found rfl holds₁

/-- A secondary table needs seven zeros. -/
theorem resumes_second (delivers : Delivers get R) (c : Colour) {z : Nat} (zeros : 7 ≤ z)
    (holds : w.Holds R (List.replicate z false ++ true :: rest)) (left : 8 ≤ rest.length) :
    Resumes get R rest 0 w c.second := by
  obtain ⟨w₁, found, holds₁, -⟩ := holds.lookup_second delivers c zeros (by simp; omega)
  exact .lookup found (by decide : (0 : Int) ≠ -1) (resumes_fill delivers _ holds₁ left)

/-- A primary table needs eleven zeros. -/
theorem resumes_first (delivers : Delivers get R) (c : Colour) {z : Nat} (zeros : 11 ≤ z)
    (holds : w.Holds R (List.replicate z false ++ true :: rest)) (left : 8 ≤ rest.length) :
    Resumes get R rest 0 w c.first := by
  obtain ⟨w₁, found, holds₁, -⟩ := holds.lookup_first delivers c (by omega)
  exact .lookup found (by decide : (0 : Int) ≠ -1)
    (resumes_second delivers c (by omega) holds₁ left)

/-- An EOL at the position of the decoder ends the row in progress. -/
theorem resumes_eol (delivers : Delivers get R) (tab : TabName) {z : Nat} (zeros : tab.zeros ≤ z)
    (holds : w.Holds R (List.replicate z false ++ true :: rest)) (left : 8 ≤ rest.length) :
    Resumes get R rest 0 w tab := by
  cases tab with
  | tw1 => exact resumes_first delivers .white zeros holds left
  | tb1 => exact resumes_first delivers .black zeros holds left
  | tw2 => exact resumes_second delivers .white zeros holds left
  | tb2 => exact resumes_second delivers .black zeros holds left
  | fill => exact resumes_fill delivers z holds left

theorem TabName.zeros_le (tab : TabName) : tab.zeros ≤ 11 := by
  cases tab <;> decide

/-- What a window holds does not depend on the last character read. -/
theorem Window.Holds.restart (holds : w.Holds R bits) :
    ({ w with c := -1 } : Window σ).Holds R bits :=
  ⟨holds.lower, holds.upper, holds.content⟩

/-- An EOL of fourteen zeros is found whatever bits are in front of it. -/
theorem resumes (delivers : Delivers get R) (u : List Bool) {z : Nat} (zeros : 14 ≤ z)
    (holds : w.Holds R (u ++ (List.replicate z false ++ true :: rest))) (left : 8 ≤ rest.length) :
    ∃ n, Resumes get R rest n w tab := by
  induction size : u.length using Nat.strong_induction_on generalizing u w tab with
  | h m ih =>
    by_cases none : u = []
    · subst none
      have enough : tab.zeros ≤ z := tab.zeros_le.trans (by omega)
      exact ⟨0, resumes_eol delivers tab enough holds left⟩
    · obtain ⟨w', t, i, found, holds', some, starts, entry⟩ :=
        holds.entry delivers (by simp; omega) tab
      by_cases beyond : u.length < t.bits
      · obtain ⟨more, enough⟩ := entry.crossing zeros none beyond starts
        have drop : (u ++ (List.replicate z false ++ true :: rest)).drop t.bits =
            List.replicate (z - (t.bits - u.length)) false ++ true :: rest := by
          rw [List.drop_append, List.drop_eq_nil_of_le (Nat.le_of_lt beyond), List.nil_append,
            replicate_drop (by omega)]
        rw [drop] at holds'
        exact ⟨0, .lookup found more (resumes_eol delivers t.next (by omega) holds' left)⟩
      · rw [List.drop_append_of_le_length (by omega)] at holds'
        have shorter : (u.drop t.bits).length < m := by
          rw [List.length_drop]
          omega
        by_cases last : t.code = -1
        · obtain ⟨n, later⟩ : ∃ n, Resumes get R rest n { w' with c := -1 } .tw1 :=
            ih _ shorter _ holds'.restart rfl
          exact ⟨n + 1, .row found last later⟩
        · obtain ⟨n, later⟩ : ∃ n, Resumes get R rest n w' t.next := ih _ shorter _ holds' rfl
          exact ⟨n, .lookup found last later⟩

/-! ## Rows -/

theorem lookup_eol {t : Dtab} (found : w.lookup get tab = (w', t)) (eol : t.code = -1) :
    t.next = .tw1 := by
  have entry := congrArg Prod.snd found
  rw [← show dtabs tab (w.refill get (-w.shift).toNat).index = t from entry] at eol ⊢
  exact dtabs_eol tab (Nat.mod_lt _ (by decide)) eol

/-- The row in progress ends, at the EOL if no other one ends it before. -/
theorem Resumes.ends_row {n : Nat} (resumes : Resumes get R rest n w tab) (codes : List Int) :
    ∃ k w' codes', (∀ m, readCodes get (m + k) w tab codes = some (w', .tw1, codes')) ∧
      (n = 0 ∧ w'.Holds R rest ∨
        ∃ m, n = m + 1 ∧ Resumes get R rest m { w' with c := -1 } .tw1) := by
  have stop {w w' : Window σ} {tab : TabName} {t : Dtab} (codes : List Int)
      (found : w.lookup get tab = (w', t)) (eol : t.code = -1) :
      ∃ codes', ∀ m, readCodes get (m + 1) w tab codes = some (w', .tw1, codes') := by
    refine ⟨if codes.length < maxRuns then codes ++ [t.code] else codes, fun m => ?_⟩
    rw [readCodes, found]
    dsimp only
    rw [if_neg (by omega), if_pos eol, lookup_eol found eol]
  induction resumes generalizing codes with
  | eol found eol holds =>
    obtain ⟨codes', run⟩ := stop codes found eol
    exact ⟨1, _, codes', run, Or.inl ⟨rfl, holds⟩⟩
  | row found eol later =>
    obtain ⟨codes', run⟩ := stop codes found eol
    exact ⟨1, _, codes', run, Or.inr ⟨_, rfl, later⟩⟩
  | @lookup w w' tab t n found more later ih =>
    have step : ∃ next, ∀ m, readCodes get (m + 1) w tab codes =
        readCodes get m w' t.next next := by
      by_cases skip : t.code = 0
      · exact ⟨codes, fun m => readCodes_skip found skip m⟩
      · refine ⟨if codes.length < maxRuns then codes ++ [t.code] else codes, fun m => ?_⟩
        rw [readCodes, found]
        dsimp only
        rw [if_neg skip, if_neg more]
    obtain ⟨next, step⟩ := step
    obtain ⟨k, w'', codes', run, final⟩ := ih next
    refine ⟨k + 1, w'', codes', fun m => ?_, final⟩
    rw [← Nat.add_assoc, step, run]

/-- Calls of a row reader one after the other, the rows that they return, and the decoder after
them. -/
inductive Calls (get : σ → Int × σ) : Decoder → σ → List Row → Decoder → σ → Prop
  | done (d : Decoder) (src : σ) : Calls get d src [] d src
  | call {d d₁ d' : Decoder} {src src₁ src' : σ} {row : Row} {rows : List Row} (k : Nat) :
    (∀ n, readRow get (n + k) d src = some (row, d₁, src₁)) → Calls get d₁ src₁ rows d' src' →
    Calls get d src (row :: rows) d' src'

/-- What a row reader returns for codes that end in front of a white run. -/
theorem readRow_of_codes {d : Decoder} {src : σ} {k : Nat} {codes : List Int}
    (run : ∀ m, readCodes get (m + k) (d.window src) d.tab [] = some (w', .tw1, codes)) :
    ∃ row eolcnt, ∀ m, readRow get (m + k) d src =
      some (row, ⟨w'.x, w'.shift, .tw1, eolcnt⟩, w'.src) := by
  have window (m : Nat) : readCodes get (m + k) ⟨src, d.x, d.shift, -1⟩ d.tab [] =
      some (w', .tw1, codes) := run m
  have first : ∃ row eolcnt, readRow get (0 + k) d src =
      some (row, ⟨w'.x, w'.shift, .tw1, eolcnt⟩, w'.src) := by
    rw [readRow, window]
    exact ⟨_, _, rfl⟩
  obtain ⟨row, eolcnt, read⟩ := first
  refine ⟨row, eolcnt, fun m => ?_⟩
  rw [← read, readRow, readRow, window, window]

/-- The row in progress and the rows that end before the EOL; the decoder is then ready for the bits
after it. -/
theorem Resumes.rows {n : Nat} (resumes : Resumes get R rest n w tab) (codes : List Int) :
    ∃ k w' codes', (∀ m, readCodes get (m + k) w tab codes = some (w', .tw1, codes')) ∧
      ∀ eolcnt, ∃ rows d src, Calls get ⟨w'.x, w'.shift, .tw1, eolcnt⟩ w'.src rows d src ∧
        rows.length = n ∧ d.Ready R src rest := by
  induction n generalizing w tab codes with
  | zero =>
    obtain ⟨k, w', codes', run, ⟨-, holds⟩ | ⟨m, count, -⟩⟩ := resumes.ends_row codes
    · exact ⟨k, w', codes', run, fun eolcnt => ⟨[], _, _, .done _ _, rfl, rfl, holds.restart⟩⟩
    · cases count
  | succ n ih =>
    obtain ⟨k, w', codes', run, ⟨count, -⟩ | ⟨m, count, later⟩⟩ := resumes.ends_row codes
    · cases count
    · cases count
      obtain ⟨k₁, w₁, codes₁, run₁, following⟩ := ih later []
      refine ⟨k, w', codes', run, fun eolcnt => ?_⟩
      obtain ⟨row, eolcnt₁, read⟩ := readRow_of_codes (d := ⟨w'.x, w'.shift, .tw1, eolcnt⟩) run₁
      obtain ⟨rows, d, src, calls, size, ready⟩ := following eolcnt₁
      exact ⟨row :: rows, d, src, .call k₁ read calls, by rw [List.length_cons, size], ready⟩

/-! ## Files -/

/-- The windows and tables of the loop after this number of bits was dropped, from the starting state
on.  Each row starts with the last character read forgotten. -/
inductive Decodes (get : σ → Int × σ) (src : σ) : Nat → Window σ → TabName → Prop
  | start : Decodes get src 0 (newDecoder.window src) .tw1
  | lookup {n : Nat} {w w' : Window σ} {tab : TabName} {t : Dtab} : Decodes get src n w tab →
    w.lookup get tab = (w', t) → Decodes get src (n + t.bits) w' t.next
  | row {n : Nat} {w w' : Window σ} {tab : TabName} {t : Dtab} : Decodes get src n w tab →
    w.lookup get tab = (w', t) → t.code = -1 →
    Decodes get src (n + t.bits) { w' with c := -1 } t.next

/-- As long as nine bits of the data are left, the windows hold the bits that were not dropped. -/
theorem Decodes.holds (delivers : Delivers get R) {data : List UInt8} (related : R src data) {n : Nat}
    (decodes : Decodes get src n w tab) (left : n + 9 ≤ (bytesBits data).length) :
    w.Holds R ((bytesBits data).drop n) := by
  have step {n : Nat} {w w' : Window σ} {tab : TabName} {t : Dtab}
      (holds : n + 9 ≤ (bytesBits data).length → w.Holds R ((bytesBits data).drop n))
      (found : w.lookup get tab = (w', t)) (left : n + t.bits + 9 ≤ (bytesBits data).length) :
      w'.Holds R ((bytesBits data).drop (n + t.bits)) := by
    obtain ⟨v, t', i, found', holds', -⟩ := (holds (by omega)).entry delivers
      (by rw [List.length_drop]; omega) tab
    rw [found] at found'
    cases found'
    rwa [List.drop_drop] at holds'
  induction decodes with
  | start => exact (newDecoder_ready related).holds
  | lookup decodes found ih => exact step ih found left
  | row decodes found eol ih => exact (step ih found left).restart

/-- Errors are confined to one line.  Wherever the decoder is in its data, if the bits that come next
are an EOL, or any bits and an EOL of fourteen zeros at least, then the row in progress ends, the calls
that follow end at that EOL, at once if it comes next, and the call after them returns the scan line
behind it as it was written. -/
theorem line_after_eol (reverse : Bool) (file : List UInt8) {n : Nat} {w : Window (List UInt8)}
    {tab : TabName} (decodes : Decodes (fgetcReverse reverse) file n w tab) {u rest : List Bool}
    {runs : List Int} {z z' : Nat}
    (next : (bytesBits (normalBytes reverse file)).drop n =
      u ++ (List.replicate z false ++ true :: (lineBits runs ++
        (List.replicate z' false ++ true :: rest))))
    (eol : u = [] ∧ 11 ≤ z ∨ 14 ≤ z) (line : ScanLine runs) (zeros : 11 ≤ z') (left : 8 ≤ rest.length)
    (codes : List Int) :
    ∃ k w' codes', (∀ m, readCodes (fgetcReverse reverse) (m + k) w tab codes =
        some (w', .tw1, codes')) ∧
      ∀ eolcnt, ∃ rows d src,
        Calls (fgetcReverse reverse) ⟨w'.x, w'.shift, .tw1, eolcnt⟩ w'.src rows d src ∧
        (u = [] → rows = []) ∧
        ∃ k d' src', ∀ m, readRow (fgetcReverse reverse) (m + k) d src =
          some (lineRow d.eolcnt runs, d', src') := by
  have delivers := fgetcReverse_delivers reverse
  have size := congrArg List.length next
  have behind : 8 ≤ (lineBits runs ++ (List.replicate z' false ++ true :: rest)).length := by
    simp only [List.length_append, List.length_cons]
    omega
  have holds := decodes.holds delivers rfl (by
    simp only [List.length_drop, List.length_append, List.length_cons, List.length_replicate] at size
    omega)
  rw [next] at holds
  have found : ∃ n, (u = [] → n = 0) ∧ Resumes (fgetcReverse reverse)
      (fun file data => data = normalBytes reverse file)
      (lineBits runs ++ (List.replicate z' false ++ true :: rest)) n w tab := by
    by_cases none : u = []
    · subst none
      have enough : tab.zeros ≤ z := by
        have le := tab.zeros_le
        omega
      exact ⟨0, fun _ => rfl, resumes_eol delivers tab enough holds behind⟩
    · have long : 14 ≤ z := by
        rcases eol with ⟨empty, -⟩ | long
        · exact absurd empty none
        · exact long
      obtain ⟨n, resumes⟩ := resumes delivers u long holds behind
      exact ⟨n, fun empty => absurd empty none, resumes⟩
  obtain ⟨n, first, resumes⟩ := found
  obtain ⟨k, w', codes', run, following⟩ := resumes.rows codes
  refine ⟨k, w', codes', run, fun eolcnt => ?_⟩
  obtain ⟨rows, d, src, calls, count, ready⟩ := following eolcnt
  refine ⟨rows, d, src, calls, fun empty => ?_, ?_⟩
  · rw [first empty] at count
    exact List.eq_nil_of_length_eq_zero count
  · obtain ⟨k, d', src', -, -, read⟩ := readRow_line delivers line zeros left ready
    exact ⟨k, d', src', read⟩

theorem scanLine_white : ScanLine [1728] :=
  ⟨by decide, by decide, by decide, by decide⟩

/-- One bit in front of an EOL of fourteen zeros. -/
theorem line_after_eol_white :
    ∃ k w' codes', (∀ m, readCodes (fgetcReverse false) (m + k)
        (newDecoder.window [128, 1, 77, 154, 128, 1, 1]) .tw1 [] = some (w', .tw1, codes')) ∧
      ∀ eolcnt, ∃ rows d src,
        Calls (fgetcReverse false) ⟨w'.x, w'.shift, .tw1, eolcnt⟩ w'.src rows d src ∧
        ([true] = [] → rows = []) ∧
        ∃ k d' src', ∀ m, readRow (fgetcReverse false) (m + k) d src =
          some (lineRow d.eolcnt [1728], d', src') :=
  @line_after_eol false [128, 1, 77, 154, 128, 1, 1] 0 _ .tw1 .start [true] (toBits 8 1) [1728] 14 14
    (by decide +kernel) (Or.inr le_rfl) scanLine_white (by decide) (by decide) []

/-- The bit in front of an EOL of thirteen zeros is taken with three of them for a white run of three
pels: the EOL is not recognised and the line behind it goes into the row in progress.  The line of a
file that ends with its EOL is returned as the end of the data. -/
theorem line_after_eol_lost :
    (∃ rest, 8 ≤ rest.length ∧ bytesBits [128, 2, 155, 53, 0, 2, 0, 32, 2, 0] =
        [true] ++ (List.replicate 13 false ++ true :: (lineBits [1728] ++
          (List.replicate 14 false ++ true :: rest)))) ∧
      readPage 100 [128, 2, 155, 53, 0, 2, 0, 32, 2, 0] =
        some ([⟨4, [3, 46, 5, 779], 833⟩, plainRow [], plainRow []], ⟨-2, [], 0⟩) ∧
      bytesBits [0, 20, 217, 168, 0, 1] = List.replicate 11 false ++ true :: (lineBits [1728] ++
        (List.replicate 18 false ++ [true])) ∧
      readPage 100 [0, 20, 217, 168, 0, 1] = some ([plainRow []], ⟨-2, [1728], 1728⟩) :=
  ⟨⟨(bytesBits [128, 2, 155, 53, 0, 2, 0, 32, 2, 0]).drop 47, by decide +kernel, by decide +kernel⟩,
    by decide +kernel, by decide +kernel, by decide +kernel⟩

end QFax.Efax

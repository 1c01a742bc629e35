import QFax.Efax.FaxPage
import QFax.Efax.LineWidth
import Mathlib.Data.Stream.Init

/-!
# Every call of `readruns` returns

The inner loop of `readruns` ends only on an EOL.  Past the end of the data it reads a pad of fourteen
zeros and a one, over and over.  From every table and at every alignment, six lookups find an EOL in
the pad; before the pad, every lookup drops a bit of the data.
-/

namespace QFax.Efax

open Bits
open Stream' hiding length_take

variable {σ : Type} {get : σ → Int × σ} {R : σ → List UInt8 → Prop} {w w' : Window σ}
  {data data' : List UInt8} {bits s s' : Stream' Bool}

/-! ## The pad -/

/-- The bits past the end of the data. -/
def eolPad : Stream' Bool := fun i => i % 15 == 14

theorem drop_eolPad (n : Nat) : eolPad.drop n = eolPad.drop (n % 15) := by
  apply Stream'.ext
  intro i
  rw [get_drop, get_drop]
  show ((n + i) % 15 == 14) = ((n % 15 + i) % 15 == 14)
  rw [Nat.mod_add_mod]

theorem eolPad_eq : toBits 15 1 ++ₛ eolPad = eolPad :=
  calc
    toBits 15 1 ++ₛ eolPad = eolPad.take 15 ++ₛ eolPad.drop 15 := by
      rw [drop_eolPad 15]
      rfl
    _ = eolPad := append_take_drop 15 eolPad

/-- What a lookup of the bits ahead finds. -/
def entryAt (tab : TabName) (s : Stream' Bool) : Dtab := dtabs tab (ofBits (s.take 9))

/-- An EOL is found within this number of lookups. -/
def endsWithin : Nat → TabName → Stream' Bool → Bool
  | 0, _, _ => false
  | n + 1, tab, s =>
    let t := entryAt tab s
    t.code == -1 || endsWithin n t.next (s.drop t.bits)

theorem eolPad_ends (tab : TabName) {j : Nat} (lt : j < 15) :
    endsWithin 6 tab (eolPad.drop j) = true := by
  have all : ∀ tab ∈ [TabName.tw1, .tb1, .tw2, .tb2, .fill], ∀ j < 15,
      endsWithin 6 tab (eolPad.drop j) = true := by
    decide +kernel
  exact all tab (by cases tab <;> simp) j lt

theorem endsWithin_mono {n m : Nat} (le : n ≤ m) {tab : TabName} (ends : endsWithin n tab s = true) :
    endsWithin m tab s = true := by
  induction n generalizing m tab s with
  | zero => cases ends
  | succ n ih =>
    obtain ⟨m, rfl⟩ : ∃ k, m = k + 1 := ⟨m - 1, by omega⟩
    rw [endsWithin, Bool.or_eq_true] at ends ⊢
    rcases ends with eol | later
    · exact Or.inl eol
    · exact Or.inr (ih (by omega) later)

theorem entryAt_bits (tab : TabName) (s : Stream' Bool) :
    1 ≤ (entryAt tab s).bits ∧ (entryAt tab s).bits ≤ 9 := by
  apply dtabs_bits
  have small := ofBits_lt (s.take 9)
  rwa [Stream'.length_take] at small

theorem drop_padded (bits : List Bool) (j k : Nat) : (bits ++ₛ eolPad.drop j).drop k =
    bits.drop k ++ₛ eolPad.drop (j + (k - bits.length)) := by
  rcases Nat.le_total k bits.length with within | beyond
  · rw [drop_append_of_le_length _ _ _ within, Nat.sub_eq_zero_of_le within, Nat.add_zero]
  · have split : k = bits.length + (k - bits.length) := by omega
    calc
      _ = (bits ++ₛ eolPad.drop j).drop (bits.length + (k - bits.length)) := by rw [← split]
      _ = (eolPad.drop j).drop (k - bits.length) := by rw [← drop_drop, drop_append_stream]
      _ = [] ++ₛ eolPad.drop (j + (k - bits.length)) := by rw [drop_drop, nil_append_stream]
      _ = _ := by rw [List.drop_eq_nil_of_le beyond]

/-- Each lookup drops a bit in front of the pad. -/
theorem padded_ends (bits : List Bool) (tab : TabName) (j : Nat) :
    endsWithin (bits.length + 6) tab (bits ++ₛ eolPad.drop j) = true := by
  induction size : bits.length using Nat.strong_induction_on generalizing bits tab j with
  | h n ih =>
    by_cases none : bits = []
    · subst none
      rw [nil_append_stream, drop_eolPad]
      exact endsWithin_mono (by omega) (eolPad_ends tab (Nat.mod_lt j (by decide)))
    · have some : 0 < bits.length := List.length_pos_iff.mpr none
      obtain ⟨lower, upper⟩ := entryAt_bits tab (bits ++ₛ eolPad.drop j)
      obtain ⟨m, rfl⟩ : ∃ m, n = m + 1 := ⟨n - 1, by omega⟩
      rw [Nat.add_right_comm, endsWithin, Bool.or_eq_true]
      right
      generalize entryAt tab (bits ++ₛ eolPad.drop j) = t at lower upper
      have shorter : (bits.drop t.bits).length < m + 1 := by
        rw [List.length_drop]
        omega
      have later := ih _ shorter (bits.drop t.bits) t.next (j + (t.bits - bits.length)) rfl
      rw [← drop_padded] at later
      exact endsWithin_mono (by omega) later

/-! ## Windows -/

/-- The bits ahead: those in hand, those of the bytes that the source still delivers, and the pad.
At most twenty-three bits are in hand. -/
structure Window.Ahead (R : σ → List UInt8 → Prop) (w : Window σ) (data : List UInt8)
    (s : Stream' Bool) : Prop where
  lower : -9 ≤ w.shift
  upper : w.shift ≤ 14
  related : R w.src data
  content : toBits (w.shift + 9).toNat w.x ++ bytesBits data ++ₛ eolPad = s

/-- Between two windows no data comes back, and if the last character read is one at the second,
then one was read on the way or it is one at the first already. -/
structure Progress (w : Window σ) (data : List UInt8) (w' : Window σ) (data' : List UInt8) : Prop where
  size : data'.length ≤ data.length
  read : 0 ≤ w'.c → data'.length < data.length ∨ 0 ≤ w.c

theorem Progress.refl (w : Window σ) (data : List UInt8) : Progress w data w data :=
  ⟨le_rfl, Or.inr⟩

theorem Progress.trans {w₁ w₂ w₃ : Window σ} {data₁ data₂ data₃ : List UInt8}
    (first : Progress w₁ data₁ w₂ data₂) (second : Progress w₂ data₂ w₃ data₃) :
    Progress w₁ data₁ w₃ data₃ := by
  refine ⟨second.size.trans first.size, fun some => ?_⟩
  rcases second.read some with less | before
  · exact Or.inl (lt_of_lt_of_le less first.size)
  · rcases first.read before with less | before
    · exact Or.inl (lt_of_le_of_lt second.size less)
    · exact Or.inr before

/-- A fetch moves bits from the source into the register. -/
theorem Window.Ahead.fetch (delivers : Delivers get R) (ahead : w.Ahead R data s)
    (few : w.shift < 0) :
    ∃ data', (w.fetch get).Ahead R data' s ∧ Progress w data (w.fetch get) data' ∧
      w.shift < (w.fetch get).shift := by
  obtain ⟨lower, upper, related, content⟩ := ahead
  cases data with
  | nil =>
    obtain ⟨value, related'⟩ := delivers.done related
    have fetched : w.fetch get =
        ⟨(get w.src).2, (w.x <<< 15 ||| 1) % 2 ^ 32, w.shift + 15, (get w.src).1⟩ := by
      simp only [Window.fetch, if_pos value]
    rw [fetched]
    refine ⟨[], ⟨by show -9 ≤ w.shift + 15; omega, by show w.shift + 15 ≤ 14; omega, related', ?_⟩,
      ⟨le_rfl, fun some => absurd value (not_lt.mpr some)⟩, by show w.shift < w.shift + 15; omega⟩
    show toBits (w.shift + 15 + 9).toNat ((w.x <<< 15 ||| 1) % 2 ^ 32) ++ [] ++ₛ eolPad = s
    have width : (w.shift + 15 + 9).toNat = (w.shift + 9).toNat + 15 := by omega
    rw [width, toBits_mod _ (by omega), toBits_shiftLeft_or _ _ (by decide), List.append_nil,
      append_append_stream, eolPad_eq, ← content, bytesBits_nil, List.append_nil]
  | cons b bs =>
    obtain ⟨related', fetched⟩ := delivers.fetch_eq related
    rw [fetched]
    refine ⟨bs, ⟨by show -9 ≤ w.shift + 8; omega, by show w.shift + 8 ≤ 14; omega, related', ?_⟩,
      ⟨by simp, fun _ => Or.inl (by simp)⟩, by show w.shift < w.shift + 8; omega⟩
    show toBits (w.shift + 8 + 9).toNat ((w.x <<< 8 ||| b.toNat) % 2 ^ 32) ++ bytesBits bs ++ₛ
      eolPad = s
    rw [toBits_fetch lower few, ← content, bytesBits_cons, List.append_assoc]

theorem Window.Ahead.refill (delivers : Delivers get R) (ahead : w.Ahead R data s) {n : Nat}
    (fuel : -w.shift ≤ n) :
    ∃ data', (w.refill get n).Ahead R data' s ∧ Progress w data (w.refill get n) data' ∧
      0 ≤ (w.refill get n).shift := by
  induction n generalizing w data with
  | zero =>
    have enough : 0 ≤ w.shift := by simpa using fuel
    exact ⟨data, ahead, .refl w data, enough⟩
  | succ n ih =>
    rw [Window.refill]
    split
    case isTrue few =>
      obtain ⟨data₁, ahead₁, progress₁, more⟩ := ahead.fetch delivers few
      obtain ⟨data', ahead', progress', enough⟩ := ih ahead₁ (by omega)
      exact ⟨data', ahead', progress₁.trans progress', enough⟩
    case isFalse enough => exact ⟨data, ahead, .refl w data, by omega⟩

/-- The index of a window is the number of the next nine bits. -/
theorem Window.Ahead.index (ahead : w.Ahead R data s) (enough : 0 ≤ w.shift) :
    w.index = ofBits (s.take 9) := by
  have width : (w.shift + 9).toNat = 9 + w.shift.toNat := by omega
  have value : w.index = w.x >>> w.shift.toNat % 2 ^ 9 := rfl
  have small : w.index < 2 ^ 9 := Nat.mod_lt _ (by decide)
  have nine : s.take 9 = toBits 9 w.index := by
    rw [← ahead.content, width, toBits_add, List.append_assoc, append_append_stream,
      take_append_of_le_length 9 _ _ (length_toBits 9 _).ge, value, toBits_mod _ le_rfl,
      List.take_of_length_le (length_toBits 9 _).le]
  rw [nine, ofBits_toBits small]

theorem Window.Ahead.drop (ahead : w.Ahead R data s) (enough : 0 ≤ w.shift) {k : Nat} (le : k ≤ 9) :
    ({ w with shift := w.shift - k } : Window σ).Ahead R data (s.drop k) := by
  obtain ⟨lower, upper, related, content⟩ := ahead
  refine ⟨by show -9 ≤ w.shift - k; omega, by show w.shift - k ≤ 14; omega, related, ?_⟩
  show toBits (w.shift - k + 9).toNat w.x ++ bytesBits data ++ₛ eolPad = s.drop k
  have width : (w.shift + 9).toNat = k + (w.shift - k + 9).toNat := by omega
  have dropped (rest : Stream' Bool) :
      (toBits k (w.x >>> (w.shift - k + 9).toNat) ++ₛ rest).drop k = rest := by
    have whole := drop_append_stream (toBits k (w.x >>> (w.shift - k + 9).toNat)) rest
    rwa [length_toBits] at whole
  rw [← content, width, toBits_add, List.append_assoc (toBits k _),
    append_append_stream (toBits k _), dropped]

/-- A lookup finds the entry of the next nine bits and drops its bits. -/
theorem Window.Ahead.lookup (delivers : Delivers get R) (ahead : w.Ahead R data s) (tab : TabName) :
    ∃ w' data', w.lookup get tab = (w', entryAt tab s) ∧
      w'.Ahead R data' (s.drop (entryAt tab s).bits) ∧ Progress w data w' data' := by
  obtain ⟨data', ahead', progress, enough⟩ := ahead.refill delivers (n := (-w.shift).toNat) (by omega)
  have found : dtabs tab (w.refill get (-w.shift).toNat).index = entryAt tab s := by
    rw [ahead'.index enough]
    rfl
  refine ⟨{ w.refill get (-w.shift).toNat with
    shift := (w.refill get (-w.shift).toNat).shift - (entryAt tab s).bits }, data', ?_,
    ahead'.drop enough (entryAt_bits tab s).2, ⟨progress.size, progress.read⟩⟩
  rw [Window.lookup, found]

/-! ## The loop -/

/-- The loop ends where an EOL is found. -/
theorem readCodes_returns (delivers : Delivers get R) {n : Nat} {tab : TabName}
    (ends : endsWithin n tab s = true) (ahead : w.Ahead R data s) (codes : List Int) :
    ∃ w' tab' codes', readCodes get n w tab codes = some (w', tab', codes') := by
  induction n generalizing w data tab s codes with
  | zero => cases ends
  | succ n ih =>
    obtain ⟨w₁, data₁, found, ahead₁, -⟩ := ahead.lookup delivers tab
    rw [endsWithin, Bool.or_eq_true, beq_iff_eq] at ends
    rw [readCodes, found]
    dsimp only
    generalize entryAt tab s = t at ends ahead₁ ⊢
    by_cases last : t.code = -1
    · rw [if_neg (by omega), if_pos last]
      exact ⟨_, _, _, rfl⟩
    · have later := ends.resolve_left last
      rw [if_neg last]
      split <;> exact ih later ahead₁ _

/-- What is ahead of the loop when it ends. -/
theorem readCodes_ahead (delivers : Delivers get R) {n : Nat} {tab tab' : TabName}
    {codes codes' : List Int} (ahead : w.Ahead R data s)
    (read : readCodes get n w tab codes = some (w', tab', codes')) :
    ∃ data' s', w'.Ahead R data' s' ∧ Progress w data w' data' := by
  induction n generalizing w data tab s codes with
  | zero => cases read
  | succ n ih =>
    obtain ⟨w₁, data₁, found, ahead₁, progress₁⟩ := ahead.lookup delivers tab
    rw [readCodes, found] at read
    dsimp only at read
    have later {codes : List Int}
        (read : readCodes get n w₁ (entryAt tab s).next codes = some (w', tab', codes')) :
        ∃ data' s', w'.Ahead R data' s' ∧ Progress w data w' data' := by
      obtain ⟨data', s', ahead', progress'⟩ := ih ahead₁ read
      exact ⟨data', s', ahead', progress₁.trans progress'⟩
    split at read
    · exact later read
    · split at read
      · cases read
        exact ⟨data₁, _, ahead₁, progress₁⟩
      · exact later read

/-- The windows that the loop looks up, each one after its fetches. -/
inductive Looks (get : σ → Int × σ) : Window σ → TabName → Window σ → Prop
  | first (w : Window σ) (tab : TabName) : Looks get w tab (w.refill get (-w.shift).toNat)
  | later {w v : Window σ} {tab : TabName} : (w.lookup get tab).2.code ≠ -1 →
    Looks get (w.lookup get tab).1 (w.lookup get tab).2.next v → Looks get w tab v

/-- Nine to twenty-three bits are in hand at every lookup. -/
theorem Window.Ahead.looks (delivers : Delivers get R) {v : Window σ} {tab : TabName}
    (ahead : w.Ahead R data s) (looks : Looks get w tab v) : 0 ≤ v.shift ∧ v.shift ≤ 14 := by
  induction looks generalizing data s with
  | first w tab =>
    obtain ⟨data', ahead', -, enough⟩ := ahead.refill delivers (n := (-w.shift).toNat) (by omega)
    exact ⟨enough, ahead'.upper⟩
  | later more looks ih =>
    obtain ⟨w₁, data₁, found, ahead₁, -⟩ := ahead.lookup delivers _
    rw [found] at ih
    exact ih ahead₁

/-! ## Rows -/

/-- A decoder that a row reader can go on with, whatever the source. -/
structure Decoder.Sound (d : Decoder) : Prop where
  lower : -9 ≤ d.shift
  upper : d.shift ≤ 14

variable {d d' : Decoder} {src src' : σ} {row : Row}

theorem Decoder.Sound.ahead (sound : d.Sound) (related : R src data) :
    (d.window src).Ahead R data
      (toBits (d.shift + 9).toNat d.x ++ bytesBits data ++ₛ eolPad) :=
  ⟨sound.lower, sound.upper, related, rfl⟩

/-- A row that is not the last one takes a byte. -/
theorem readRow_progress (delivers : Delivers get R) (sound : d.Sound) (related : R src data)
    {fuel : Nat} (read : readRow get fuel d src = some (row, d', src')) :
    d'.Sound ∧ ∃ data', R src' data' ∧ data'.length ≤ data.length ∧
      (0 ≤ row.nr → data'.length < data.length) := by
  obtain ⟨w, tab, codes, stored, -, -, shift, rfl, value⟩ := readRow_codes read
  obtain ⟨data', s', ahead, progress⟩ := readCodes_ahead delivers (sound.ahead related) stored
  refine ⟨⟨by rw [shift]; exact ahead.lower, by rw [shift]; exact ahead.upper⟩, data', ahead.related,
    progress.size, fun nonneg => ?_⟩
  rcases value with ⟨-, some⟩ | rtc | done
  · rcases progress.read some with less | before
    · exact less
    · exact absurd before (by show ¬ (0 : Int) ≤ -1; decide)
  · omega
  · omega

theorem readRow_returns (delivers : Delivers get R) (sound : d.Sound) (related : R src data)
    {fuel : Nat} (enough : 8 * data.length + 29 ≤ fuel) :
    ∃ row d' src', readRow get fuel d src = some (row, d', src') := by
  have size : (toBits (d.shift + 9).toNat d.x ++ bytesBits data).length + 6 ≤ fuel := by
    have upper := sound.upper
    rw [List.length_append, length_toBits, length_bytesBits]
    omega
  have ends := endsWithin_mono size (padded_ends _ d.tab 0)
  obtain ⟨w, tab, codes, read⟩ := readCodes_returns delivers ends (sound.ahead related) []
  have window : readCodes get fuel ⟨src, d.x, d.shift, -1⟩ d.tab [] = some (w, tab, codes) := read
  rw [readRow, window]
  exact ⟨_, _, _, rfl⟩

/-- Rows are read up to a negative value, at most one for each byte. -/
theorem readRows_returns (delivers : Delivers get R) (sound : d.Sound) (related : R src data)
    {fuel n : Nat} (enough : 8 * data.length + 29 ≤ fuel) (rows : data.length < n) :
    ∃ rows last src', readRows get fuel n d src = some (rows, last, src') ∧ last.nr < 0 := by
  induction n generalizing d src data with
  | zero => cases rows
  | succ n ih =>
    obtain ⟨row, d', src', read⟩ := readRow_returns delivers sound related enough
    obtain ⟨sound', data', related', size, less⟩ := readRow_progress delivers sound related read
    rw [readRows, read]
    dsimp only
    by_cases negative : row.nr < 0
    · rw [if_pos negative]
      exact ⟨[], row, src', rfl, negative⟩
    · have shorter := less (not_lt.mp negative)
      obtain ⟨rows, last, final, later, negative'⟩ := ih sound' related' (by omega) (by omega)
      rw [if_neg negative, later]
      exact ⟨row :: rows, last, final, rfl, negative'⟩

/-! ## Files -/

/-- The next byte of a file as `readruns` takes it: when the fill order of the file is least
significant bit first, every byte is turned around. -/
def fgetcReverse (reverse : Bool) (file : List UInt8) : Int × List UInt8 :=
  let (c, file) := fgetc file
  if c < 0 then (c, file)
  else if reverse then ((BitOrder.normalbits.byte (UInt8.ofNat c.toNat)).toNat, file)
  else (c, file)

/-- The bytes in which the most significant bit comes first. -/
def normalBytes (reverse : Bool) (file : List UInt8) : List UInt8 :=
  if reverse then file.map BitOrder.normalbits.byte else file

theorem length_normalBytes (reverse : Bool) (file : List UInt8) :
    (normalBytes reverse file).length = file.length := by
  cases reverse with
  | false => rfl
  | true => exact List.length_map _

theorem fgetcReverse_delivers (reverse : Bool) :
    Delivers (fgetcReverse reverse) fun file data => data = normalBytes reverse file where
  byte := by
    rintro file b bs whole
    cases file with
    | nil => cases reverse <;> cases whole
    | cons c file =>
      have nonneg : ¬ (c.toNat : Int) < 0 := by omega
      cases reverse with
      | false =>
        cases whole
        simp only [fgetcReverse, fgetc, if_neg nonneg, Bool.false_eq_true, if_false]
        exact ⟨trivial, rfl⟩
      | true =>
        cases whole
        simp only [fgetcReverse, fgetc, if_neg nonneg, if_true, Int.toNat_natCast, UInt8.ofNat_toNat]
        exact ⟨trivial, rfl⟩
  done := by
    rintro file whole
    cases file with
    | nil => exact ⟨(by decide : (-1 : Int) < 0), by cases reverse <;> rfl⟩
    | cons c file => cases reverse <;> cases whole

/-- The decoders that `readruns` leaves from the starting state on, whatever files it reads. -/
inductive Decoder.Reached : Decoder → Prop
  | new : newDecoder.Reached
  | row {d d' : Decoder} {reverse : Bool} {fuel : Nat} {file file' : List UInt8} {row : Row} :
    d.Reached → readRow (fgetcReverse reverse) fuel d file = some (row, d', file') → d'.Reached

theorem Decoder.Reached.sound (reached : d.Reached) : d.Sound := by
  induction reached with
  | new => exact ⟨le_rfl, by decide⟩
  | row reached read ih => exact (readRow_progress (fgetcReverse_delivers _) ih rfl read).1

theorem length_combine (codes : List Int) : (combine codes).length ≤ codes.length := by
  fun_induction combine codes with
  | case1 => exact le_rfl
  | case2 c => exact le_rfl
  | case3 c d codes long ih =>
    rw [List.length_cons, List.length_cons, List.length_cons]
    omega
  | case4 c d codes short ih =>
    rw [List.length_cons, List.length_cons]
    omega

/-- `readruns` always returns: within a number of lookups, none of which needs more than 32 bits in
the register, with at most `maxRuns` values stored, and with fewer than `maxRuns` runs or a negative
value.  A file of `n` bytes is read to a negative value with at most `n + 1` calls. -/
theorem readruns_total (reached : d.Reached) (reverse : Bool) (file : List UInt8) {fuel : Nat}
    (enough : 8 * file.length + 29 ≤ fuel) :
    (∃ w tab codes row d' file',
      readCodes (fgetcReverse reverse) fuel (d.window file) d.tab [] = some (w, tab, codes) ∧
      codes.length ≤ maxRuns ∧
      readRow (fgetcReverse reverse) fuel d file = some (row, d', file') ∧
      row.runs = combine codes.dropLast ∧
      (row.nr = row.runs.length ∧ row.runs.length < maxRuns ∨ row.nr = -1 ∨ row.nr = -2)) ∧
    (∀ v, Looks (fgetcReverse reverse) (d.window file) d.tab v → 0 ≤ v.shift ∧ v.shift + 9 ≤ 32) ∧
    ∃ rows last file', readRows (fgetcReverse reverse) fuel (file.length + 1) d file =
      some (rows, last, file') ∧ last.nr < 0 := by
  have delivers := fgetcReverse_delivers reverse
  have sound := reached.sound
  obtain ⟨data, related⟩ : ∃ data, data = normalBytes reverse file := ⟨_, rfl⟩
  have size : data.length = file.length := by rw [related, length_normalBytes]
  rw [← size] at enough ⊢
  refine ⟨?_, fun v looks => ?_, ?_⟩
  · obtain ⟨row, d', file', read⟩ := readRow_returns delivers sound related enough
    obtain ⟨w, tab, codes, stored, runs, -, -, -, value⟩ := readRow_codes read
    have room := (readCodes_bounds (by simp) (Nat.zero_le _) stored).2
    refine ⟨w, tab, codes, row, d', file', stored, room, read, runs, ?_⟩
    rcases value with ⟨value, -⟩ | rtc | done
    · left
      have fewer := length_combine codes.dropLast
      rw [← runs, List.length_dropLast] at fewer
      have positive : 0 < maxRuns := by decide
      exact ⟨value, by omega⟩
    · exact Or.inr (Or.inl rtc)
    · exact Or.inr (Or.inr done)
  · have bounds := Window.Ahead.looks delivers (sound.ahead related) looks
    omega
  · exact readRows_returns delivers sound related enough (Nat.lt_succ_self _)

/-- A truncated file: three bytes of a line. -/
theorem readruns_total_truncated :
    (∃ w tab codes row d' file',
      readCodes (fgetcReverse true) 53 (newDecoder.window [1, 2, 3]) .tw1 [] = some (w, tab, codes) ∧
      codes.length ≤ maxRuns ∧
      readRow (fgetcReverse true) 53 newDecoder [1, 2, 3] = some (row, d', file') ∧
      row.runs = combine codes.dropLast ∧
      (row.nr = row.runs.length ∧ row.runs.length < maxRuns ∨ row.nr = -1 ∨ row.nr = -2)) ∧
    (∀ v, Looks (fgetcReverse true) (newDecoder.window [1, 2, 3]) .tw1 v →
      0 ≤ v.shift ∧ v.shift + 9 ≤ 32) ∧
    ∃ rows last file', readRows (fgetcReverse true) 53 4 newDecoder [1, 2, 3] =
      some (rows, last, file') ∧ last.nr < 0 :=
  readruns_total .new true [1, 2, 3] (by decide)

end QFax.Efax

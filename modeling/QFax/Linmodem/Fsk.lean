import QFax.Lib.Accumulator
import QFax.Lib.SlidingWindow
import QFax.Linmodem.Lm

/-!
# The FSK demodulator

Each sample goes into a sliding window, whose correlation with two frequencies tells a one from a zero.
A counter of bit times is moved towards the middle of a bit at every transition, and gives a bit when it
overflows.  The cosines of the filters are computed in floating point, so that they are parameters here.
-/

namespace QFax.Linmodem

open Accumulator SlidingWindow

/-- The parameters of `FSK_demod_state`. -/
structure FskSettings where
  f_lo : Nat
  f_hi : Nat
  sample_rate : Nat
  baud_rate : Nat

/-- `SAMPLE_RATE` of V.21 and of V.23. -/
def FSK_SAMPLE_RATE : Nat := 8000

def V21_demod_init (calling : Bool) : FskSettings :=
  if !calling then ⟨1080 + 100, 1080 - 100, FSK_SAMPLE_RATE, 300⟩
  else ⟨1750 + 100, 1750 - 100, FSK_SAMPLE_RATE, 300⟩

def V23_demod_init (calling : Bool) : FskSettings :=
  if !calling then ⟨390, 450, FSK_SAMPLE_RATE, 75⟩ else ⟨1300, 2100, FSK_SAMPLE_RATE, 1200⟩

/-- The demodulators of the program, on either side of a call. -/
inductive FskLine
  | v21 (calling : Bool)
  | v23 (calling : Bool)
  deriving DecidableEq

def FskLine.settings : FskLine → FskSettings
  | .v21 calling => V21_demod_init calling
  | .v23 calling => V23_demod_init calling

def FSK_FILTER_BUF_SIZE : Nat := 256

/-- `shift` is counted up while `a` is halved. -/
def shiftLoop : Nat → Int → Nat → Int
  | 0, shift, _ => shift
  | fuel + 1, shift, a => if a ≠ 0 then shiftLoop fuel (shift + 1) (a / 2) else shift

namespace FskSettings

variable (v : FskSettings)

def baud_incr : Nat := v.baud_rate * 0x10000 / v.sample_rate

def baud_pll_adj : Nat := v.baud_incr / 4

def filter_size : Nat := v.sample_rate / v.baud_rate

def shift : Int := shiftLoop v.filter_size (-2) v.filter_size

end FskSettings

/-- In phase and quadrature, for the lower and the higher frequency of the source. -/
structure FskFilters where
  filter_lo_i : Nat → Int
  filter_lo_q : Nat → Int
  filter_hi_i : Nat → Int
  filter_hi_q : Nat → Int

/-- The local variables of `FSK_demod_state` that change. -/
structure FskDemod where
  filter_buf : Nat → Int
  buf_ptr : Nat
  baud_pll : Int
  lastsample : Bool

def FSK_demod_init (v : FskSettings) : FskDemod where
  filter_buf := fun _ => 0
  buf_ptr := v.filter_size
  baud_pll := 0
  lastsample := false

/-- The sum of `n` products, in 32 bits. -/
def dsp_dot_prod (tab1 tab2 : Nat → Int) : Nat → BitVec 32 → BitVec 32
  | 0, sum => sum
  | n + 1, sum => dsp_dot_prod tab1 tab2 n sum + BitVec.ofInt 32 (tab1 n * tab2 n)

namespace FskDemod

variable (v : FskSettings) (k : FskFilters)

/-- A sample as the filter takes it. -/
def scaled (x : BitVec 16) : Int := x.toInt >>> v.shift.toNat

/-- Add a new sample in the demodulation filter. -/
def insert (s : FskDemod) (x : BitVec 16) : FskDemod :=
  let filter_buf := Function.update s.filter_buf s.buf_ptr (scaled v x)
  if s.buf_ptr + 1 = FSK_FILTER_BUF_SIZE then
    -- the overlap is moved to the front
    { s with
      filter_buf := fun i =>
        if i < v.filter_size then filter_buf (FSK_FILTER_BUF_SIZE - v.filter_size + i) else filter_buf i
      buf_ptr := v.filter_size }
  else { s with filter_buf := filter_buf, buf_ptr := s.buf_ptr + 1 }

/-- `filter_buf + buf_ptr - filter_size`. -/
def slice (s : FskDemod) : Nat → Int := fun i => s.filter_buf (s.buf_ptr - v.filter_size + i)

/-- A correlation of the window. -/
def corr (slice filter : Nat → Int) : BitVec 32 :=
  (dsp_dot_prod slice filter v.filter_size 0).sshiftRight COS_BITS

/-- The sum of the four squares. -/
def sum (slice : Nat → Int) : BitVec 32 :=
  corr v slice k.filter_hi_i * corr v slice k.filter_hi_i +
    corr v slice k.filter_hi_q * corr v slice k.filter_hi_q -
    corr v slice k.filter_lo_i * corr v slice k.filter_lo_i -
    corr v slice k.filter_lo_q * corr v slice k.filter_lo_q

/-- Non coherent FSK demodulation. -/
def newsample (slice : Nat → Int) : Bool := decide (0 < (sum v k slice).toInt)

/-- A transition modifies the bit phase so that it is in the middle of two bits. -/
def adjusted (s : FskDemod) (newsample : Bool) : Int :=
  if s.lastsample ≠ newsample then
    if s.baud_pll < 0x8000 then s.baud_pll + v.baud_pll_adj else s.baud_pll - v.baud_pll_adj
  else s.baud_pll

/-- The bit clock, and the bit that it gives when it overflows. -/
def clock (s : FskDemod) (newsample : Bool) : Option Bool × FskDemod :=
  let baud_pll := s.adjusted v newsample + v.baud_incr
  let s := { s with lastsample := newsample }
  if 0x10000 ≤ baud_pll then (some s.lastsample, { s with baud_pll := baud_pll - 0x10000 })
  else (none, { s with baud_pll := baud_pll })

/-- One turn of the loop of `FSK_demod`. -/
def sample (s : FskDemod) (x : BitVec 16) : Option Bool × FskDemod :=
  let s := s.insert v x
  s.clock v (newsample v k (s.slice v))

end FskDemod

/-- The bits of a call and the state behind it. -/
def FSK_demod (v : FskSettings) (k : FskFilters) : List (BitVec 16) → FskDemod → List Bool × FskDemod
  | [], s => ([], s)
  | x :: samples, s =>
    let (bit, s) := s.sample v k x
    let (bits, s) := FSK_demod v k samples s
    (bit.toList ++ bits, s)

/-- One call after the other, with the bits of all of them. -/
def fskCalls (v : FskSettings) (k : FskFilters) :
    List (List (BitVec 16)) → FskDemod → List Bool × FskDemod
  | [], s => ([], s)
  | samples :: blocks, s =>
    let (bits, s) := FSK_demod v k samples s
    let (later, s) := fskCalls v k blocks s
    (bits ++ later, s)

/-! ## Streams of samples -/

section Streams

variable {v : FskSettings} {k : FskFilters}

theorem demod_append (xs ys : List (BitVec 16)) (s : FskDemod) : FSK_demod v k (xs ++ ys) s =
    ((FSK_demod v k xs s).1 ++ (FSK_demod v k ys (FSK_demod v k xs s).2).1,
      (FSK_demod v k ys (FSK_demod v k xs s).2).2) := by
  induction xs generalizing s with
  | nil => rfl
  | cons x xs ih =>
    rw [List.cons_append, FSK_demod, FSK_demod]
    dsimp only
    rw [ih, List.append_assoc]

/-- How a stream is split into calls makes no difference. -/
theorem calls_eq_demod (blocks : List (List (BitVec 16))) (s : FskDemod) :
    fskCalls v k blocks s = FSK_demod v k blocks.flatten s := by
  induction blocks generalizing s with
  | nil => rfl
  | cons samples blocks ih =>
    rw [fskCalls, List.flatten_cons, demod_append]
    dsimp only
    rw [ih]

end Streams

/-- What the program's settings have in common: a window that fits the buffer, and a clock that
neither a correction nor a step takes twice around. -/
structure FskSettings.Sane (v : FskSettings) : Prop where
  positive : 0 < v.filter_size
  room : v.filter_size < FSK_FILTER_BUF_SIZE
  slow : v.baud_pll_adj + v.baud_incr ≤ 0x8000

theorem FskLine.sane (line : FskLine) : line.settings.Sane := by
  cases line with
  | v21 calling => cases calling <;> exact ⟨by decide, by decide, by decide⟩
  | v23 calling => cases calling <;> exact ⟨by decide, by decide, by decide⟩

/-! ## The window -/

section Window

variable {v : FskSettings} {k : FskFilters} {s : FskDemod}

/-- The buffer of an instance. -/
def FskDemod.buffer (s : FskDemod) : Buffer Int := ⟨s.filter_buf, s.buf_ptr⟩

theorem buffer_insert (s : FskDemod) (x : BitVec 16) : (s.insert v x).buffer =
    push FSK_FILTER_BUF_SIZE v.filter_size s.buffer (FskDemod.scaled v x) := by
  unfold FskDemod.insert push FskDemod.buffer
  dsimp only
  split <;> rfl

theorem buffer_clock (s : FskDemod) (newsample : Bool) : (s.clock v newsample).2.buffer = s.buffer := by
  unfold FskDemod.clock
  dsimp only
  split <;> rfl

theorem buffer_sample (s : FskDemod) (x : BitVec 16) : (s.sample v k x).2.buffer =
    push FSK_FILTER_BUF_SIZE v.filter_size s.buffer (FskDemod.scaled v x) := by
  rw [FskDemod.sample, buffer_clock, buffer_insert]

theorem buffer_demod (xs : List (BitVec 16)) (s : FskDemod) : (FSK_demod v k xs s).2.buffer =
    (xs.map (FskDemod.scaled v)).foldl (push FSK_FILTER_BUF_SIZE v.filter_size) s.buffer := by
  induction xs generalizing s with
  | nil => rfl
  | cons x xs ih =>
    rw [FSK_demod]
    dsimp only
    rw [ih, buffer_sample]
    rfl

theorem buffer_init (sane : v.Sane) :
    Placed FSK_FILTER_BUF_SIZE v.filter_size (FSK_demod_init v).buffer ∧
    window v.filter_size (FSK_demod_init v).buffer = latest v.filter_size 0 [] := by
  refine ⟨⟨Nat.le_refl _, sane.room⟩, ?_⟩
  rw [latest, List.append_nil, List.length_nil, List.drop_zero]
  show (List.range v.filter_size).map (fun _ => (0 : Int)) = _
  rw [List.map_const', List.length_range]

/-- Behind a stream the buffer has the latest samples before its pointer. -/
theorem demod_window (sane : v.Sane) (xs : List (BitVec 16)) :
    Placed FSK_FILTER_BUF_SIZE v.filter_size (FSK_demod v k xs (FSK_demod_init v)).2.buffer ∧
      window v.filter_size (FSK_demod v k xs (FSK_demod_init v)).2.buffer =
        latest v.filter_size 0 (xs.map (FskDemod.scaled v)) := by
  obtain ⟨placed, start⟩ := buffer_init sane
  rw [buffer_demod]
  exact window_pushes sane.room sane.positive placed start _

/-- The window that a sample is demodulated with. -/
theorem insert_window (sane : v.Sane) (xs : List (BitVec 16)) (x : BitVec 16) :
    Placed FSK_FILTER_BUF_SIZE v.filter_size ((FSK_demod v k xs (FSK_demod_init v)).2.insert v x).buffer ∧
      window v.filter_size ((FSK_demod v k xs (FSK_demod_init v)).2.insert v x).buffer =
        latest v.filter_size 0 ((xs ++ [x]).map (FskDemod.scaled v)) := by
  obtain ⟨placed, start⟩ := demod_window (k := k) sane xs
  rw [buffer_insert, List.map_append]
  exact window_pushes sane.room sane.positive placed start [FskDemod.scaled v x]

end Window

/-! ## The bit clock -/

section Clock

variable {v : FskSettings} {k : FskFilters} {s : FskDemod} {b : Bool}

/-- The clock is within one bit. -/
def FskDemod.InBit (s : FskDemod) : Prop := 0 ≤ s.baud_pll ∧ s.baud_pll < 0x10000

/-- A correction stays within the bit. -/
theorem adjusted_inBit (sane : v.Sane) (inBit : s.InBit) (b : Bool) :
    0 ≤ s.adjusted v b ∧ s.adjusted v b < 0x10000 := by
  have slow := sane.slow
  have low := inBit.1
  have high := inBit.2
  unfold FskDemod.adjusted
  split
  · split <;> constructor <;> omega
  · exact inBit

/-- The clock is a fractional counter behind the correction. -/
theorem clock_eq (sane : v.Sane) (inBit : s.InBit) (b : Bool) :
    let step := advance 0x10000 v.baud_incr (s.adjusted v b).toNat
    s.clock v b = (if step.2 then some b else none,
      { s with lastsample := b, baud_pll := step.1 }) := by
  have slow := sane.slow
  obtain ⟨low, high⟩ := adjusted_inBit sane inBit b
  intro step
  unfold FskDemod.clock
  dsimp only
  by_cases overflow : 0x10000 ≤ s.adjusted v b + v.baud_incr
  · have step_eq : step = ((s.adjusted v b).toNat + v.baud_incr - 0x10000, true) := if_neg (by omega)
    have pll : s.adjusted v b + v.baud_incr - 0x10000 =
        ((s.adjusted v b).toNat + v.baud_incr - 0x10000 : Nat) := by omega
    rw [if_pos overflow, step_eq, pll]
    rfl
  · have step_eq : step = ((s.adjusted v b).toNat + v.baud_incr, false) := if_pos (by omega)
    have pll : s.adjusted v b + v.baud_incr = ((s.adjusted v b).toNat + v.baud_incr : Nat) := by omega
    rw [if_neg overflow, step_eq, pll]
    rfl

theorem insert_clock (s : FskDemod) (x : BitVec 16) : (s.insert v x).baud_pll = s.baud_pll ∧
    (s.insert v x).lastsample = s.lastsample := by
  unfold FskDemod.insert
  dsimp only
  split <;> exact ⟨rfl, rfl⟩

theorem sample_inBit (sane : v.Sane) (inBit : s.InBit) (x : BitVec 16) : (s.sample v k x).2.InBit := by
  have inserted : (s.insert v x).InBit := by
    unfold FskDemod.InBit
    rw [(insert_clock s x).1]
    exact inBit
  have slow := sane.slow
  obtain ⟨low, high⟩ := adjusted_inBit sane inserted (FskDemod.newsample v k ((s.insert v x).slice v))
  have start : ((s.insert v x).adjusted v
      (FskDemod.newsample v k ((s.insert v x).slice v))).toNat < 0x10000 := by
    omega
  have rate : v.baud_incr ≤ 0x10000 := by omega
  rw [FskDemod.sample, clock_eq sane inserted]
  exact ⟨Int.natCast_nonneg _, Int.ofNat_lt.mpr (advance_lt start rate)⟩

theorem demod_inBit (sane : v.Sane) (xs : List (BitVec 16)) (inBit : s.InBit) :
    (FSK_demod v k xs s).2.InBit := by
  induction xs generalizing s with
  | nil => exact inBit
  | cons x xs ih =>
    rw [FSK_demod]
    exact ih (sample_inBit sane inBit x)

/-- What the demodulator takes each sample of a stretch for. -/
def decisions (v : FskSettings) (k : FskFilters) : List (BitVec 16) → FskDemod → List Bool
  | [], _ => []
  | x :: xs, s => FskDemod.newsample v k ((s.insert v x).slice v) :: decisions v k xs (s.sample v k x).2

/-- Without a transition in it, a stretch gives the bits that the counter overflows for. -/
theorem steady_stretch (sane : v.Sane) (xs : List (BitVec 16)) (inBit : s.InBit)
    (last : s.lastsample = b)
    (steady : ∀ d ∈ decisions v k xs s, d = b) : (FSK_demod v k xs s).1 =
      List.replicate ((s.baud_pll.toNat + xs.length * v.baud_incr) / 0x10000) b := by
  induction xs generalizing s with
  | nil =>
    have small : s.baud_pll.toNat + 0 * v.baud_incr < 0x10000 := by
      have high := inBit.2
      omega
    rw [List.length_nil, Nat.div_eq_of_lt small]
    rfl
  | cons x xs ih =>
    rw [decisions, List.forall_mem_cons] at steady
    obtain ⟨now, later⟩ := steady
    obtain ⟨pll, lastsample⟩ := insert_clock (v := v) s x
    have inserted : (s.insert v x).InBit := by
      unfold FskDemod.InBit
      rw [pll]
      exact inBit
    have kept : (s.insert v x).adjusted v b = s.baud_pll := by
      rw [FskDemod.adjusted, lastsample, last, pll]
      exact if_neg (fun differ => differ rfl)
    have clocked := clock_eq sane inserted b
    rw [kept] at clocked
    have sampled : s.sample v k x = (s.insert v x).clock v b := by rw [FskDemod.sample, now]
    have small : s.baud_pll.toNat < 0x10000 := by
      have high := inBit.2
      omega
    have rest := ih (sample_inBit sane inBit x) (by rw [sampled, clocked]) later
    rw [FSK_demod, List.length_cons, quotient_advance small]
    dsimp only
    rw [rest, sampled, clocked]
    dsimp only
    rw [Int.toNat_natCast, List.replicate_add]
    congr 1
    cases (advance 0x10000 v.baud_incr s.baud_pll.toNat).2 <;> rfl

/-- A correction made beforehand. -/
def FskDemod.corrected (v : FskSettings) (s : FskDemod) (b : Bool) : FskDemod :=
  { s with lastsample := b, baud_pll := s.adjusted v b }

theorem insert_corrected (s : FskDemod) (b : Bool) (x : BitVec 16) :
    (s.corrected v b).insert v x = (s.insert v x).corrected v b := by
  have adjusted : (s.insert v x).adjusted v b = s.adjusted v b := by
    rw [FskDemod.adjusted, (insert_clock s x).1, (insert_clock s x).2, FskDemod.adjusted]
  rw [FskDemod.corrected, FskDemod.corrected, adjusted]
  unfold FskDemod.insert
  dsimp only
  split <;> rfl

theorem clock_corrected (s : FskDemod) (b : Bool) : (s.corrected v b).clock v b = s.clock v b := by
  have kept : (s.corrected v b).adjusted v b = s.adjusted v b := if_neg (fun differ => differ rfl)
  rw [FskDemod.clock, kept, FskDemod.clock]
  rfl

/-- The first sample of a stretch may be a transition, which moves the clock within the bit. -/
theorem stretch_bits (sane : v.Sane) (xs : List (BitVec 16)) (inBit : s.InBit)
    (steady : ∀ d ∈ decisions v k xs s, d = b) : ∃ acc < 0x10000, (FSK_demod v k xs s).1 =
      List.replicate ((acc + xs.length * v.baud_incr) / 0x10000) b := by
  cases xs with
  | nil => exact ⟨0, by decide, by rw [List.length_nil, Nat.zero_mul]; rfl⟩
  | cons x xs =>
    obtain ⟨low, high⟩ := adjusted_inBit sane inBit b
    have slice : ((s.corrected v b).insert v x).slice v = (s.insert v x).slice v := by
      rw [insert_corrected]
      rfl
    rw [decisions, List.forall_mem_cons] at steady
    have same : (s.corrected v b).sample v k x = s.sample v k x := by
      rw [FskDemod.sample, slice, steady.1, insert_corrected, clock_corrected, FskDemod.sample,
        steady.1]
    have steady' : ∀ d ∈ decisions v k (x :: xs) (s.corrected v b), d = b := by
      rw [decisions, List.forall_mem_cons, slice, same]
      exact steady
    have bits := steady_stretch sane (x :: xs) (s := s.corrected v b) ⟨low, high⟩ rfl steady'
    refine ⟨(s.adjusted v b).toNat, by omega, ?_⟩
    rw [FSK_demod, same] at bits
    rw [FSK_demod]
    exact bits

end Clock

/-- However the samples of a line are split into calls, every one of them is demodulated with the latest
samples in the window, and the bit clock stays within a bit.  A stretch of samples taken for the same
frequency gives the bits of its length, but for a fraction. -/
theorem fsk_window_and_clock (line : FskLine) (k : FskFilters) (blocks : List (List (BitVec 16))) :
    let v := line.settings
    let behind := fun samples => (FSK_demod v k samples (FSK_demod_init v)).2
    fskCalls v k blocks (FSK_demod_init v) = FSK_demod v k blocks.flatten (FSK_demod_init v) ∧
    (∀ before x later, blocks.flatten = before ++ x :: later →
      let s := (behind before).insert v x
      (List.range v.filter_size).map (s.slice v) =
        latest v.filter_size 0 ((before ++ [x]).map (FskDemod.scaled v)) ∧
      v.filter_size ≤ s.buf_ptr ∧ s.buf_ptr < FSK_FILTER_BUF_SIZE ∧
      (FSK_demod v k [x] (behind before)).1.length ≤ 1) ∧
    (∀ before later, blocks.flatten = before ++ later →
      0 ≤ (behind before).baud_pll ∧ (behind before).baud_pll < 0x10000) ∧
    ∀ before stretch later b, blocks.flatten = before ++ stretch ++ later →
      (∀ d ∈ decisions v k stretch (behind before), d = b) →
      let n := (FSK_demod v k stretch (behind before)).1.length
      stretch.length * v.baud_incr / 0x10000 ≤ n ∧
        n ≤ (stretch.length * v.baud_incr + 0xffff) / 0x10000 := by
  intro v behind
  have sane : v.Sane := line.sane
  have start : (FSK_demod_init v).InBit := ⟨Int.le_refl 0, show (0 : Int) < 0x10000 by decide⟩
  refine ⟨calls_eq_demod blocks _, ?_, ?_, ?_⟩
  · intro before x later _ s
    obtain ⟨placed, window⟩ := insert_window (k := k) sane before x
    refine ⟨window, placed.behind, placed.inside, ?_⟩
    have one : ∀ bit : Option Bool, (bit.toList ++ ([] : List Bool)).length ≤ 1 := by
      intro bit
      cases bit with
      | none => exact Nat.zero_le 1
      | some => exact Nat.le_refl 1
    exact one _
  · intro before later _
    exact demod_inBit sane before start
  · intro before stretch later b _ steady n
    obtain ⟨acc, small, bits⟩ := stretch_bits sane stretch (demod_inBit sane before start) steady
    have length : n = (acc + stretch.length * v.baud_incr) / 0x10000 := by
      show (FSK_demod v k stretch (behind before)).1.length = _
      rw [bits, List.length_replicate]
    rw [length]
    constructor <;> apply Nat.div_le_div_right <;> omega

end QFax.Linmodem

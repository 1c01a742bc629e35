import QFax.Lib.Accumulator
import QFax.Linmodem.FrameStream
import Mathlib.Algebra.BigOperators.Intervals
import Mathlib.Data.Nat.Periodic

/-!
# V.34: how many bits the mapping frames carry

The counters `rcnt` and `acnt` are raised by `r` and `W` for every mapping frame and cleared with
every data frame.  The sizes of any `P` frames in a row add up to `N`, and `W` of the frames take a
bit from the auxiliary channel (`frame_accounting`).  The first bit of a frame is fetched and put
out whatever its size, so that the frames carry `N` bits when none of them is empty, which is when
`P ≤ N`.
-/

namespace QFax.Linmodem

open Accumulator Bits

/-- Sizes as `V34_init_low` computes them. -/
structure Accounted (p : V34Params) : Prop where
  frames : 1 ≤ p.P
  some : 1 ≤ p.N
  b : p.b = frameSize p.N p.P
  r : p.r = p.N - ((p.b : Int) - 1) * p.P
  aux : p.W < p.P
  K : p.K = (mappingBits p.b).1
  q : p.q = (mappingBits p.b).2

theorem accounted_init {v : V34State} (some : 1 ≤ (V34_init_low v).N) : Accounted (V34_init_low v) := by
  have columns : ∀ S : Fin 6, 1 ≤ (S_tab S).2 ∧ 15 - (S_tab S).1 < (S_tab S).2 := by decide
  refine ⟨(columns v.S).1, some, rfl, rfl, ?_, rfl, rfl⟩
  show (if v.use_aux_channel then 15 - (S_tab v.S).1 else 0) < (S_tab v.S).2
  have column := columns v.S
  split <;> omega

/-- At every V.34 data rate there is a bit for every mapping frame. -/
theorem enough_bits {v : V34State} (rate : 2400 ≤ v.R) : (V34_init_low v).P ≤ (V34_init_low v).N := by
  have whole : ∀ (S : Fin 6) (R : Nat), 2400 ≤ R → (S_tab S).2 ≤ R * 28 / ((S_tab S).1 * 100) := by
    intro S R le
    fin_cases S <;> simp only [S_tab] <;> simp <;> omega
  refine whole v.S (V34_init_low v).R ?_
  show 2400 ≤ if v.use_aux_channel then v.R + 200 else v.R
  split <;> omega

section Counters

variable {p : V34Params}

/-- The largest frame is `⌈N / P⌉` bits. -/
theorem frameSize_bounds {N P : Nat} (positive : 0 < P) (some : 1 ≤ N) :
    1 ≤ frameSize N P ∧ (frameSize N P - 1) * P < N ∧ N ≤ frameSize N P * P := by
  have parts := Nat.div_add_mod N P
  have lt := Nat.mod_lt N positive
  have order : N / P * P = P * (N / P) := Nat.mul_comm _ _
  unfold frameSize
  generalize N / P = whole at *
  split
  case isTrue short =>
    have next : (whole + 1) * P = whole * P + P := Nat.succ_mul _ _
    rw [Nat.add_sub_cancel, next]
    omega
  case isFalse fits =>
    have one : 1 ≤ whole := by
      by_contra none
      obtain rfl : whole = 0 := by omega
      rw [Nat.zero_mul] at fits
      omega
    have previous : (whole - 1) * P + P = whole * P := by
      rw [← Nat.succ_mul, Nat.succ_eq_add_one, Nat.sub_add_cancel one]
    omega

/-- The step of the counter as a natural number. -/
theorem Accounted.step (accounted : Accounted p) :
    ∃ r : Nat, p.r = r ∧ 1 ≤ r ∧ r ≤ p.P ∧ p.N = (p.b - 1) * p.P + r ∧ 1 ≤ p.b := by
  obtain ⟨one, below, above⟩ := frameSize_bounds accounted.frames accounted.some
  rw [← accounted.b] at one below above
  obtain ⟨k, eq⟩ := Nat.exists_eq_add_of_le one
  have parts : p.b * p.P = p.P + (p.b - 1) * p.P := by
    rw [eq, Nat.add_sub_cancel_left, Nat.add_mul, Nat.one_mul]
  refine ⟨p.N - (p.b - 1) * p.P, ?_, by omega, by omega, by omega, one⟩
  rw [accounted.r]
  push_cast [Nat.cast_sub below.le, Nat.cast_sub one]
  ring

variable (p) in
/-- The counters in front of a frame, in a run that starts with a data frame. -/
def countersAt : Nat → Counters
  | 0 => ⟨0, 0, 0⟩
  | n + 1 => ((countersAt n).next p).2.2

variable (p) in
/-- The bits of a frame. -/
def sizeAt (n : Nat) : Nat := ((countersAt p n).next p).1

variable (p) in
/-- Whether the first bit of a frame belongs to the auxiliary channel. -/
def auxAt (n : Nat) : Bool := ((countersAt p n).next p).2.1

/-- A counter of the source is an accumulator. -/
theorem counter_step {α : Type} (P r acc : Nat) (x y : α) :
    (if (acc : Int) + r < P then (x, (acc : Int) + r) else (y, (acc : Int) + r - P)) =
      (if (advance P r acc).2 then y else x, ((advance P r acc).1 : Int)) := by
  unfold advance
  by_cases small : acc + r < P
  · have small' : (acc : Int) + r < P := by omega
    rw [if_pos small, if_pos small', if_neg Bool.false_ne_true, Nat.cast_add]
  · have large : ¬ (acc : Int) + r < P := by omega
    have difference : ((acc + r - P : Nat) : Int) = acc + r - P := by omega
    rw [if_neg small, if_neg large, if_pos rfl, difference]

/-- One frame of a data frame. -/
theorem next_counters {r : Nat} (step : p.r = r) (positive : 1 ≤ p.P) (le : r ≤ p.P) (aux : p.W < p.P)
    (m : Nat) :
    Counters.next p ⟨m, after p.P r 0 m, after p.P p.W 0 m⟩ =
      (if overflows p.P r 0 m then p.b else p.b - 1, overflows p.P p.W 0 m,
        if p.P ≤ m + 1 then ⟨0, 0, 0⟩
        else ⟨m + 1, after p.P r 0 (m + 1), after p.P p.W 0 (m + 1)⟩) := by
  have size := counter_step p.P r (after p.P r 0 m) (p.b - 1) p.b
  have turn := counter_step p.P p.W (after p.P p.W 0 m) false true
  rw [advance_after _ positive le] at size
  rw [advance_after _ positive aux.le] at turn
  have flag : (if overflows p.P p.W 0 m = true then true else false) = overflows p.P p.W 0 m := by
    cases overflows p.P p.W 0 m <;> rfl
  unfold Counters.next
  rw [step]
  dsimp only
  rw [size, turn, flag]

/-- In a run the counters are those of the place in the data frame. -/
theorem countersAt_eq {r : Nat} (step : p.r = r) (positive : 1 ≤ p.P) (le : r ≤ p.P) (aux : p.W < p.P)
    (n : Nat) :
    countersAt p n = ⟨n % p.P, after p.P r 0 (n % p.P), after p.P p.W 0 (n % p.P)⟩ := by
  have zero (x : Nat) : ((after p.P x 0 0 : Nat) : Int) = 0 := by
    rw [after, Nat.zero_mul, Nat.add_zero, Nat.zero_mod, Nat.cast_zero]
  induction n with
  | zero =>
    rw [countersAt, Nat.zero_mod, zero, zero]
  | succ n ih =>
    obtain ⟨inside, last⟩ := div_mod_add (a := n) (r := 1) positive positive
    have lt := Nat.mod_lt n positive
    rw [countersAt, ih, next_counters step positive le aux]
    dsimp only
    split
    case isTrue full =>
      have first : (n + 1) % p.P = 0 := by
        rw [(last full).2]
        omega
      rw [first, zero, zero]
    case isFalse more => rw [(inside (by omega)).2]

variable (accounted : Accounted p)

include accounted

/-- The counters stay below `P`. -/
theorem counters_range (n : Nat) : (countersAt p n).mapping_frame = n % p.P ∧
    0 ≤ (countersAt p n).rcnt ∧ (countersAt p n).rcnt < p.P ∧
    0 ≤ (countersAt p n).acnt ∧ (countersAt p n).acnt < p.P := by
  obtain ⟨r, step, -, le, -⟩ := accounted.step
  have below (x m : Nat) : after p.P x 0 m < p.P := Nat.mod_lt _ accounted.frames
  have first := below r (n % p.P)
  have second := below p.W (n % p.P)
  rw [countersAt_eq step accounted.frames le accounted.aux]
  dsimp only
  omega

theorem auxAt_eq (n : Nat) : auxAt p n = overflows p.P p.W 0 (n % p.P) := by
  obtain ⟨r, step, -, le, -⟩ := accounted.step
  rw [auxAt, countersAt_eq step accounted.frames le accounted.aux,
    next_counters step accounted.frames le accounted.aux]

theorem sizeAt_eq {r : Nat} (step : p.r = r) (le : r ≤ p.P) (n : Nat) :
    sizeAt p n = if overflows p.P r 0 (n % p.P) then p.b else p.b - 1 := by
  rw [sizeAt, countersAt_eq step accounted.frames le accounted.aux,
    next_counters step accounted.frames le accounted.aux]

/-- The overflows in any `P` frames in a row. -/
theorem overflows_window {r : Nat} (le : r ≤ p.P) (n : Nat) :
    ((Finset.Ico n (n + p.P)).filter fun i => overflows p.P r 0 (i % p.P) = true).card = r := by
  have positive := accounted.frames
  have same (i : Nat) : overflows p.P r 0 (i % p.P) = overflows p.P r 0 i := by
    have periodic : Function.Periodic (overflows p.P r 0) p.P := overflows_periodic p.P r 0
    exact periodic.map_mod_nat i
  have periodic : Function.Periodic (fun i => overflows p.P r 0 i = true) p.P :=
    fun i => congrArg (· = true) (overflows_periodic p.P r 0 i)
  simp only [same]
  rw [Nat.filter_Ico_card_eq_of_periodic n p.P _ periodic, count_overflows positive le, Nat.zero_add,
    Nat.mul_div_cancel_left r positive]

/-- Any `P` frames in a row carry `N` bits, in `r` longer frames and `P - r` shorter ones, and `W` of
them are auxiliary. -/
theorem window_accounting (n : Nat) :
    ∑ i ∈ Finset.Ico n (n + p.P), sizeAt p i = p.N ∧
      (((Finset.Ico n (n + p.P)).filter fun i => sizeAt p i = p.b).card : Int) = p.r ∧
      (∀ i, sizeAt p i = p.b ∨ sizeAt p i = p.b - 1) ∧
      ((Finset.Ico n (n + p.P)).filter fun i => auxAt p i = true).card = p.W := by
  obtain ⟨r, step, some, le, total, one⟩ := accounted.step
  have long (i : Nat) : sizeAt p i = p.b ↔ overflows p.P r 0 (i % p.P) = true := by
    rw [sizeAt_eq accounted step le]
    split
    case isTrue overflow => exact iff_of_true rfl overflow
    case isFalse under => exact iff_of_false (by omega) under
  have size (i : Nat) : sizeAt p i = p.b - 1 + if overflows p.P r 0 (i % p.P) = true then 1 else 0 := by
    rw [sizeAt_eq accounted step le]
    split <;> omega
  refine ⟨?_, ?_, fun i => ?_, ?_⟩
  · simp only [size]
    rw [Finset.sum_add_distrib, Finset.sum_const, Nat.card_Ico, Nat.add_sub_cancel_left,
      ← Finset.card_filter, overflows_window accounted le, smul_eq_mul, total, Nat.mul_comm]
  · simp only [long]
    rw [overflows_window accounted le, step]
  · rw [sizeAt_eq accounted step le]
    split
    · exact Or.inl rfl
    · exact Or.inr rfl
  · simp only [auxAt_eq accounted]
    exact overflows_window accounted accounted.aux.le n

end Counters

/-! ## Transmitter and receiver -/

section Sides

variable {σ : Type} (p : V34Params) (callback : σ → Option Bool × σ)

/-- Frames of the transmitter, one for each element of the list, which tells what its array held. -/
def sendFrames : List (Nat → Nat) → Encoder σ → Option (List (EncodedFrame σ))
  | [], _ => some []
  | stale :: rest, e => do
    let f ← encode_mapping_frame p callback stale e
    let fs ← sendFrames rest f.next
    some (f :: fs)

/-- The bits that the receiver puts out for received frames. -/
def receiveFrames : List (List (Point × Point)) → Decoder → Option (List (List Bool))
  | [], _ => some []
  | rx :: rest, d => do
    let (d, put) ← decode_mapping_frame p d rx
    let puts ← receiveFrames rest d
    some (put :: puts)

/-- The bits of a frame, with the one of the auxiliary channel in its turn. -/
def carried (n : Nat) (bits : List Bool) : Nat := bits.length + (auxAt p n).toNat

variable {p callback}

theorem length_fetched (mp_size : Nat) (aux : Bool) (s : BitSource σ) :
    (fetchFrame p callback mp_size aux s).1.length = mp_size - 1 + 1 := by
  cases aux <;> simp [fetchFrame, length_get_bits]

theorem frame_sent_size {e : Encoder σ} {stale : Nat → Nat} {f : EncodedFrame σ}
    (sent : encode_mapping_frame p callback stale e = some f) :
    f.next.counters = (e.counters.next p).2.2 ∧
      f.fetched.length + (e.counters.next p).2.1.toNat = (e.counters.next p).1 - 1 + 1 := by
  have size := @length_fetched σ p callback (e.counters.next p).1
    (e.counters.next p).2.1 e.bits
  unfold encode_mapping_frame at sent
  dsimp only at sent
  split at sent
  case isTrue => cases sent
  case isFalse =>
    simp only [Option.bind_eq_bind, Option.bind_eq_some_iff, Option.some.injEq] at sent
    obtain ⟨symbols, -, ⟨mapper, points⟩, -, rfl⟩ := sent
    refine ⟨rfl, ?_⟩
    cases aux : (e.counters.next p).2.1 with
    | false =>
      rw [aux] at size
      dsimp only
      rw [if_neg Bool.false_ne_true, size]
      rfl
    | true =>
      rw [aux] at size
      dsimp only
      rw [if_pos rfl, List.length_tail, size]
      rfl

theorem length_decodeSymbols (q : Nat) (Z_1 : Int) (rx : List (Point × Point)) :
    (decodeSymbols q Z_1 rx).1.length = rx.length := by
  induction rx generalizing Z_1 with
  | nil => rfl
  | cons x rx ih => exact congrArg Nat.succ (ih _)

theorem length_writeSymbols (q : Nat) (symbols : List Symbol4D) :
    (symbols.flatMap (writeSymbol q)).length = symbols.length * (3 + 2 * q) := by
  induction symbols with
  | nil => exact (Nat.zero_mul _).symm
  | cons symbol symbols ih =>
    have one : (writeSymbol q symbol).length = 3 + 2 * q := by
      simp only [writeSymbol, List.length_append, length_lowBits, List.length_cons, List.length_nil]
      omega
    rw [List.flatMap_cons, List.length_append, ih, one, List.length_cons, Nat.add_comm, ← Nat.succ_mul]

/-- The receiver's array holds all bits of the frame. -/
theorem writeFrame_size (accounted : Accounted p) {mp_size : Nat} (kind : mp_size = p.b ∨ mp_size = p.b - 1)
    {symbols : List (Symbol4D × (Int × Int))} (four : symbols.length = 4) {data : List Bool}
    (written : writeFrame p mp_size symbols = some data) : mp_size ≤ data.length := by
  unfold writeFrame at written
  split at written
  case isTrue short =>
    obtain rfl := Option.some.inj written
    simp only [List.length_map, List.length_take, List.length_append, four]
    omega
  case isFalse long =>
    simp only [Option.bind_eq_bind, Option.bind_eq_some_iff, Option.some.injEq] at written
    obtain ⟨r0, -, rfl⟩ := written
    obtain ⟨whole, positive, -⟩ := mappingBits_long (Nat.lt_of_not_le long)
    rw [← accounted.K, ← accounted.q] at whole
    rw [← accounted.K] at positive
    rw [List.length_append, length_lowBits, length_writeSymbols, List.length_map, four, shellBits]
    split <;> omega

theorem frame_received_size (accounted : Accounted p) {d d' : Decoder} {rx : List (Point × Point)}
    (four : rx.length = 4) {put : List Bool} (kind : (d.counters.next p).1 = p.b ∨
      (d.counters.next p).1 = p.b - 1)
    (received : decode_mapping_frame p d rx = some (d', put)) :
    d'.counters = (d.counters.next p).2.2 ∧
      put.length + (d.counters.next p).2.1.toNat = (d.counters.next p).1 - 1 + 1 := by
  unfold decode_mapping_frame at received
  dsimp only at received
  split at received
  case isTrue => cases received
  case isFalse =>
    simp only [Option.bind_eq_bind, Option.bind_eq_some_iff, Option.some.injEq, Prod.mk.injEq] at received
    obtain ⟨data, written, rfl, rfl⟩ := received
    have room := writeFrame_size accounted kind ((length_decodeSymbols _ _ _).trans four) written
    refine ⟨rfl, ?_⟩
    rw [List.length_append, List.length_drop, List.length_take, Nat.min_eq_left room]
    cases (d.counters.next p).2.1 with
    | false => exact Nat.add_comm 1 _
    | true => exact congrArg (· + 1) (Nat.zero_add _)

/-- With a bit for every mapping frame no frame is empty. -/
theorem sizeAt_pos (accounted : Accounted p) (enough : p.P ≤ p.N) (n : Nat) : 1 ≤ sizeAt p n := by
  obtain ⟨r, step, some, le, total, one⟩ := accounted.step
  rw [sizeAt_eq accounted step le]
  split
  case isTrue => exact one
  case isFalse under =>
    -- an empty frame would need `b = 1` and `r < P`
    by_contra none
    have single : p.b = 1 := by omega
    rw [single, Nat.sub_self, Nat.zero_mul, Nat.zero_add] at total
    obtain rfl : r = p.P := by omega
    rw [overflows, decide_eq_true_eq] at under
    omega

/-- Frame `n + i` of a run that goes on with frame `n`. -/
theorem sent_from (stales : List (Nat → Nat)) {n : Nat} {e : Encoder σ}
    (start : e.counters = countersAt p n) {fs : List (EncodedFrame σ)}
    (run : sendFrames p callback stales e = some fs) (i : Nat) {f : EncodedFrame σ}
    (frame : fs[i]? = some f) : carried p (n + i) f.fetched = sizeAt p (n + i) - 1 + 1 := by
  induction stales generalizing n e fs i with
  | nil =>
    cases run
    cases frame
  | cons stale rest ih =>
    simp only [sendFrames, Option.bind_eq_bind, Option.bind_eq_some_iff, Option.some.injEq] at run
    obtain ⟨first, sent, others, later, rfl⟩ := run
    obtain ⟨counters, size⟩ := frame_sent_size sent
    cases i with
    | zero =>
      cases frame
      rw [start] at size
      exact size
    | succ i =>
      rw [start] at counters
      have next := ih (n := n + 1) counters later i frame
      rwa [Nat.add_assoc, Nat.add_comm 1] at next

theorem received_from (accounted : Accounted p) (rxs : List (List (Point × Point)))
    (four : ∀ rx ∈ rxs, rx.length = 4) {n : Nat} {d : Decoder} (start : d.counters = countersAt p n)
    {puts : List (List Bool)} (run : receiveFrames p rxs d = some puts) (i : Nat) {put : List Bool}
    (frame : puts[i]? = some put) : carried p (n + i) put = sizeAt p (n + i) - 1 + 1 := by
  induction rxs generalizing n d puts i with
  | nil =>
    cases run
    cases frame
  | cons rx rest ih =>
    simp only [receiveFrames, Option.bind_eq_bind, Option.bind_eq_some_iff, Option.some.injEq,
      Prod.exists] at run
    obtain ⟨d', first, received, others, later, rfl⟩ := run
    obtain ⟨counters, size⟩ := frame_received_size accounted (four rx List.mem_cons_self)
      (next_size d.counters) received
    cases i with
    | zero =>
      cases frame
      rw [start] at size
      exact size
    | succ i =>
      rw [start] at counters
      have next := ih (n := n + 1) (fun rx member => four rx (List.mem_cons_of_mem _ member)) counters
        later i frame
      rwa [Nat.add_assoc, Nat.add_comm 1] at next

end Sides

end QFax.Linmodem

import Mathlib.Data.Int.ModEq
import QFax.Lib.Accumulator
import QFax.Lib.Machine
import QFax.Lib.RingBuffer
import QFax.Linmodem.Lm
import QFax.Linmodem.V34Demod

/-!
# V.34: the transmit queue

`put_sym` writes baseband symbols into a ring; `V34_baseband_to_carrier` reads a window of the ring
for each sample, weighs it with every `baud_denom`-th coefficient of the shaping filter, and moves
the window on when the symbol clock overflows.  What both do is kept as a list of events, from which
the contents of every window can be told (`Tracks`).  `& (TX_BUF_SIZE - 1)` is the remainder.
-/

namespace QFax.Linmodem

open Accumulator Machine RingBuffer

/-- Size of the raised root cosine filter, in symbols. -/
def RC_FILTER_SIZE : Nat := 40

def TX_BUF_SIZE : Nat := 2048

/-- What does not change behind `build_tx_filter`; the tables and the increment of the carrier are
computed in floating point. -/
structure TxFilter where
  /-- Index of the symbol rate. -/
  S : Fin 6
  rc_filter : Fin 6 → Nat → Int
  carrier_incr : BitVec 32
  cos_tab : CosTab

namespace TxFilter

variable (f : TxFilter)

def tx_filter : Nat → Int := f.rc_filter f.S

def baud_num : Nat := (baud_tab f.S).1

def baud_denom : Nat := (baud_tab f.S).2

/-- One component of the window behind the filter. -/
def weigh (xs : List Int) (taps : List Nat) : BitVec 32 :=
  (BitVec.ofInt 32 (List.zipWith (fun x tap => x * f.tx_filter tap) xs taps).sum).sshiftRight 14

/-- The sample that a window gives: filtered, and centered on the carrier. -/
def sample (symbols : List Point) (taps : List Nat) (carrier_phase : BitVec 32) : BitVec 16 :=
  let si := f.weigh (symbols.map Prod.fst) taps
  let sq := f.weigh (symbols.map Prod.snd) taps
  let cos := BitVec.ofInt 32 (dsp_cos f.cos_tab carrier_phase)
  let sin := BitVec.ofInt 32 (dsp_cos f.cos_tab (BitVec.ofNat 32 (PHASE_BASE / 4) - carrier_phase))
  ((si * cos - sq * sin).sshiftRight COS_BITS).setWidth 16

end TxFilter

/-- The fields of `V34DSPState` for the queue and its clocks. -/
structure TxQueue where
  tx_buf : Nat → Point
  tx_buf_ptr : Nat
  tx_outbuf_ptr : Nat
  tx_buf_size : Nat
  tx_filter_wsize : Nat
  baud_phase : Nat
  carrier_phase : BitVec 32

/-- The ring is left as it was. -/
def build_tx_filter (tx_buf : Nat → Point) : TxQueue where
  tx_buf := tx_buf
  tx_buf_ptr := 0
  tx_outbuf_ptr := RC_FILTER_SIZE
  tx_buf_size := 0
  tx_filter_wsize := RC_FILTER_SIZE
  baud_phase := 4
  carrier_phase := 0

/-- What happens to the queue, and the samples that go out. -/
inductive TxEvent
  /-- `put_sym` stored a symbol. -/
  | queued (symbol : Point)
  /-- The filter read these symbols with these coefficients and gave a sample. -/
  | shaped (symbols : List Point) (taps : List Nat) (sample : BitVec 16)
  /-- A sample without a signal. -/
  | silence

namespace TxQueue

/-- `put_sym`, up to its assertion. -/
def store (q : TxQueue) (symbol : Point) : TxQueue :=
  { q with
    tx_buf := Function.update q.tx_buf q.tx_buf_ptr symbol
    tx_buf_ptr := (q.tx_buf_ptr + 1) % TX_BUF_SIZE
    tx_buf_size := q.tx_buf_size + 1 }

/-- The slots of the window, the latest first. -/
def slots (q : TxQueue) : List Nat :=
  (List.range q.tx_filter_wsize).map fun j : Nat =>
    (((q.tx_outbuf_ptr : Int) - j - 1) % TX_BUF_SIZE).toNat

/-- The coefficients of the window. -/
def taps (f : TxFilter) (q : TxQueue) : List Nat :=
  (List.range q.tx_filter_wsize).map fun j => q.baud_phase + j * f.baud_denom

/-- One turn of the loop of `V34_baseband_to_carrier`. -/
def shape (f : TxFilter) (q : TxQueue) : TxEvent :=
  let symbols := q.slots.map q.tx_buf
  .shaped symbols (q.taps f) (f.sample symbols (q.taps f) q.carrier_phase)

/-- The clocks behind it. -/
def next (f : TxFilter) (q : TxQueue) : TxQueue :=
  let baud_phase := q.baud_phase + f.baud_num
  let carrier_phase := q.carrier_phase + f.carrier_incr
  if f.baud_denom ≤ baud_phase then
    { q with
      baud_phase := baud_phase - f.baud_denom
      tx_outbuf_ptr := (q.tx_outbuf_ptr + 1) % TX_BUF_SIZE
      tx_buf_size := q.tx_buf_size - 1
      carrier_phase := carrier_phase }
  else { q with baud_phase := baud_phase, carrier_phase := carrier_phase }

end TxQueue

/-- Put a new baseband symbol in the queue, 9 bits of amplitude with 7 of fraction; an assertion that
fails has no result. -/
def put_sym (tx_amp : Int) (q : TxQueue) (s : Point) : Option (TxEvent × TxQueue) :=
  let symbol := (int16 ((s.1 * tx_amp) >>> (7 : Nat)), int16 ((s.2 * tx_amp) >>> (7 : Nat)))
  let q := q.store symbol
  if q.tx_buf_size ≤ TX_BUF_SIZE then some (.queued symbol, q) else none

/-- Several symbols, one after the other. -/
def put_syms (tx_amp : Int) : TxQueue → List Point → Option (List TxEvent × TxQueue)
  | q, [] => some ([], q)
  | q, s :: rest => do
    let (e, q) ← put_sym tx_amp q s
    let (es, q) ← put_syms tx_amp q rest
    some (e :: es, q)

/-- Write at most `nb` samples; stops if there are no more symbols in the queue. -/
def V34_baseband_to_carrier (f : TxFilter) : Nat → TxQueue → List TxEvent × TxQueue
  | 0, q => ([], q)
  | nb + 1, q =>
    if q.tx_buf_size < q.tx_filter_wsize then ([], q)
    else
      let (es, q') := V34_baseband_to_carrier f nb (q.next f)
      (q.shape f :: es, q')

/-- The loop of `V34_mod` around it, with the samples that are left; a pass writes one or more. -/
def modulateQueue (f : TxFilter) : Nat → TxQueue → Nat → List TxEvent × TxQueue × Nat
  | 0, q, nb => ([], q, nb)
  | passes + 1, q, nb =>
    if q.tx_filter_wsize ≤ q.tx_buf_size ∧ 0 < nb then
      let (es, q) := V34_baseband_to_carrier f nb q
      let (later, q, left) := modulateQueue f passes q (nb - es.length)
      (es ++ later, q, left)
    else ([], q, nb)

/-! ## Histories of the queue -/

namespace TxEvent

def symbol? : TxEvent → Option Point
  | .queued symbol => some symbol
  | _ => none

def sample? : TxEvent → Option (BitVec 16)
  | .queued _ => none
  | .shaped _ _ sample => some sample
  | .silence => some 0

def isShaped : TxEvent → Bool
  | .shaped _ _ _ => true
  | _ => false

/-- What an event does to the queue. -/
def replay (f : TxFilter) (q : TxQueue) : TxEvent → TxQueue
  | .queued symbol => q.store symbol
  | .shaped _ _ _ => q.next f
  | .silence => q

end TxEvent

/-- The symbols queued so far. -/
def queued (h : List TxEvent) : List Point := h.filterMap TxEvent.symbol?

/-- The samples that went out. -/
def samples (h : List TxEvent) : List (BitVec 16) := h.filterMap TxEvent.sample?

/-- The windows read so far. -/
def windows (h : List TxEvent) : Nat := h.countP TxEvent.isShaped

/-- The symbols that the next window has left behind: one for each overflow of the symbol clock. -/
def passed (f : TxFilter) (h : List TxEvent) : Nat := (4 + windows h * f.baud_num) / f.baud_denom

/-- The queue that a history leaves. -/
def replayed (f : TxFilter) (q : TxQueue) (h : List TxEvent) : TxQueue := h.foldl (TxEvent.replay f) q

/-- A window has the `RC_FILTER_SIZE` symbols that follow those passed, the latest first, and its
coefficients are `baud_denom` apart and within the table. -/
def WindowRight (f : TxFilter) (h : List TxEvent) : TxEvent → Prop
  | .shaped symbols taps sample =>
    passed f h + RC_FILTER_SIZE ≤ (queued h).length ∧
    symbols = (((queued h).drop (passed f h)).take RC_FILTER_SIZE).reverse ∧
    taps = (List.range RC_FILTER_SIZE).map (fun j =>
      (4 + windows h * f.baud_num) % f.baud_denom + j * f.baud_denom) ∧
    (∀ tap ∈ taps, tap < f.baud_denom * RC_FILTER_SIZE) ∧
    sample = f.sample symbols taps (BitVec.ofNat 32 (windows h) * f.carrier_incr)
  | _ => True

theorem queued_append (h es : List TxEvent) : queued (h ++ es) = queued h ++ queued es :=
  List.filterMap_append

theorem samples_append (h es : List TxEvent) : samples (h ++ es) = samples h ++ samples es :=
  List.filterMap_append

theorem replayed_append (f : TxFilter) (q : TxQueue) (h es : List TxEvent) :
    replayed f q (h ++ es) = replayed f (replayed f q h) es := List.foldl_append

/-! ## The queue and its history -/

section Clock

variable (f : TxFilter)

theorem four_lt_baud_denom : 4 < f.baud_denom := by
  have all : ∀ S : Fin 6, 4 < (baud_tab S).2 := by decide
  exact all f.S

theorem baud_num_le : f.baud_num ≤ f.baud_denom := by
  have all : ∀ S : Fin 6, (baud_tab S).1 ≤ (baud_tab S).2 := by decide
  exact all f.S

/-- A coefficient of the window is in the table. -/
theorem tap_lt {phase j : Nat} (small : phase < f.baud_denom) (lt : j < RC_FILTER_SIZE) :
    phase + j * f.baud_denom < f.baud_denom * RC_FILTER_SIZE := by
  calc phase + j * f.baud_denom < f.baud_denom + j * f.baud_denom := Nat.add_lt_add_right small _
    _ = (j + 1) * f.baud_denom := by rw [Nat.succ_mul, Nat.add_comm]
    _ ≤ RC_FILTER_SIZE * f.baud_denom := Nat.mul_le_mul_right _ lt
    _ = f.baud_denom * RC_FILTER_SIZE := Nat.mul_comm _ _

end Clock

/-- The queue is the one that the history leaves: the last symbols in its ring, a window behind those
passed, and the clocks after as many samples as there were windows. -/
structure Tracks (f : TxFilter) (h : List TxEvent) (q : TxQueue) : Prop where
  ring : Holds TX_BUF_SIZE q.tx_buf (queued h)
  put : q.tx_buf_ptr = (queued h).length % TX_BUF_SIZE
  out : q.tx_outbuf_ptr = (RC_FILTER_SIZE + passed f h) % TX_BUF_SIZE
  size : q.tx_buf_size + passed f h = (queued h).length
  width : q.tx_filter_wsize = RC_FILTER_SIZE
  phase : q.baud_phase = after f.baud_denom f.baud_num 4 (windows h)
  carrier : q.carrier_phase = BitVec.ofNat 32 (windows h) * f.carrier_incr

namespace Tracks

variable {f : TxFilter} {h : List TxEvent} {q : TxQueue}

theorem init (f : TxFilter) (tx_buf : Nat → Point) : Tracks f [] (build_tx_filter tx_buf) := by
  have start : 4 < f.baud_denom := four_lt_baud_denom f
  have none_passed : passed f [] = 0 := by
    rw [passed, windows, List.countP_nil, Nat.zero_mul, Nat.add_zero, Nat.div_eq_of_lt start]
  refine ⟨holds_nil _ _, rfl, ?_, ?_, rfl, ?_, ?_⟩
  · rw [none_passed]
    rfl
  · rw [none_passed]
    rfl
  · show 4 = (4 + windows [] * f.baud_num) % f.baud_denom
    rw [windows, List.countP_nil, Nat.zero_mul, Nat.add_zero, Nat.mod_eq_of_lt start]
  · exact BitVec.zero_mul.symm

theorem store (tracks : Tracks f h q) (symbol : Point) :
    Tracks f (h ++ [.queued symbol]) (q.store symbol) := by
  have symbols : queued (h ++ [.queued symbol]) = queued h ++ [symbol] := queued_append _ _
  have samples_same : windows (h ++ [.queued symbol]) = windows h := List.countP_append
  have passed_same : passed f (h ++ [.queued symbol]) = passed f h :=
    by rw [passed, samples_same, passed]
  have length : (queued h ++ [symbol]).length = (queued h).length + 1 := List.length_append
  refine ⟨?_, ?_, ?_, ?_, tracks.width, ?_, ?_⟩
  · rw [symbols, TxQueue.store, tracks.put]
    exact tracks.ring.snoc symbol
  · rw [symbols, length, TxQueue.store, tracks.put, Nat.mod_add_mod]
  · rw [passed_same]
    exact tracks.out
  · have size := tracks.size
    rw [symbols, length, passed_same]
    show q.tx_buf_size + 1 + passed f h = _
    omega
  · rw [samples_same]
    exact tracks.phase
  · rw [samples_same]
    exact tracks.carrier

/-- The clocks move on behind a window. -/
theorem next (tracks : Tracks f h q) (nonempty : 0 < q.tx_buf_size) {e : TxEvent}
    (shaped : e.isShaped = true) : Tracks f (h ++ [e]) (q.next f) := by
  have start : 0 < f.baud_denom := Nat.lt_trans (by decide) (four_lt_baud_denom f)
  have same : queued (h ++ [e]) = queued h := by
    cases e with
    | shaped symbols taps sample => rw [queued_append]; exact List.append_nil _
    | queued symbol => cases shaped
    | silence => cases shaped
  have one : windows (h ++ [e]) = windows h + 1 := by
    rw [windows, List.countP_append, List.countP_singleton, if_pos shaped, windows]
  have step := advance_after 4 start (baud_num_le f) (windows h)
  have count := quotient_succ 4 start (baud_num_le f) (windows h)
  have turned : passed f (h ++ [e]) =
      passed f h + (overflows f.baud_denom f.baud_num 4 (windows h)).toNat := by
    rw [passed, one, count, passed]
  have carrier : q.carrier_phase + f.carrier_incr =
    BitVec.ofNat 32 (windows h + 1) * f.carrier_incr := by
    rw [tracks.carrier, BitVec.ofNat_add, BitVec.add_mul, BitVec.one_mul]
  rw [advance, ← tracks.phase] at step
  by_cases overflow : f.baud_denom ≤ q.baud_phase + f.baud_num
  · rw [if_neg (Nat.not_lt.mpr overflow), Prod.mk.injEq] at step
    have clock : q.next f = { q with
        baud_phase := q.baud_phase + f.baud_num - f.baud_denom
        tx_outbuf_ptr := (q.tx_outbuf_ptr + 1) % TX_BUF_SIZE
        tx_buf_size := q.tx_buf_size - 1
        carrier_phase := q.carrier_phase + f.carrier_incr } := if_pos overflow
    rw [← step.2] at turned
    rw [clock]
    refine ⟨?_, ?_, ?_, ?_, tracks.width, ?_, ?_⟩
    · rw [same]
      exact tracks.ring
    · rw [same]
      exact tracks.put
    · rw [turned]
      show (q.tx_outbuf_ptr + 1) % TX_BUF_SIZE = (RC_FILTER_SIZE + (passed f h + 1)) % TX_BUF_SIZE
      rw [tracks.out, Nat.mod_add_mod, Nat.add_assoc]
    · have size := tracks.size
      rw [turned, same]
      show q.tx_buf_size - 1 + (passed f h + 1) = _
      omega
    · rw [one]
      exact step.1
    · rw [one]
      exact carrier
  · rw [if_pos (Nat.not_le.mp overflow), Prod.mk.injEq] at step
    have clock : q.next f = { q with
        baud_phase := q.baud_phase + f.baud_num
        carrier_phase := q.carrier_phase + f.carrier_incr } := if_neg overflow
    rw [← step.2] at turned
    rw [clock]
    refine ⟨?_, ?_, ?_, ?_, tracks.width, ?_, ?_⟩
    · rw [same]
      exact tracks.ring
    · rw [same]
      exact tracks.put
    · rw [turned]
      exact tracks.out
    · rw [turned, same]
      exact tracks.size
    · rw [one]
      exact step.1
    · rw [one]
      exact carrier

/-- A window that is full of symbols reads those that it should. -/
theorem shape (tracks : Tracks f h q) (enough : RC_FILTER_SIZE ≤ q.tx_buf_size)
    (bounded : q.tx_buf_size ≤ TX_BUF_SIZE) : WindowRight f h (q.shape f) := by
  have size := tracks.size
  have start : 0 < f.baud_denom := Nat.lt_trans (by decide) (four_lt_baud_denom f)
  have slots : q.slots = (List.range RC_FILTER_SIZE).map fun j =>
      (passed f h + RC_FILTER_SIZE - 1 - j) % TX_BUF_SIZE := by
    rw [TxQueue.slots, tracks.width]
    apply List.map_congr_left
    intro j inside
    have lt : j < RC_FILTER_SIZE := List.mem_range.mp inside
    rw [tracks.out]
    unfold RC_FILTER_SIZE TX_BUF_SIZE at *
    omega
  have symbols : q.slots.map q.tx_buf =
      (((queued h).drop (passed f h)).take RC_FILTER_SIZE).reverse := by
    rw [slots, List.map_map]
    exact tracks.ring.window (by omega) (by omega)
  have taps : q.taps f = (List.range RC_FILTER_SIZE).map fun j =>
      (4 + windows h * f.baud_num) % f.baud_denom + j * f.baud_denom := by
    rw [TxQueue.taps, tracks.width, tracks.phase, after]
  refine ⟨by omega, symbols, taps, ?_, ?_⟩
  · intro tap read
    rw [taps, List.mem_map] at read
    obtain ⟨j, inside, rfl⟩ := read
    exact tap_lt f (Nat.mod_lt _ start) (List.mem_range.mp inside)
  · rw [tracks.carrier]

/-- Where the pointers are, from the size of the queue. -/
theorem pointers (tracks : Tracks f h q) :
    (q.tx_buf_ptr : Int) - q.tx_outbuf_ptr ≡ q.tx_buf_size - q.tx_filter_wsize [ZMOD TX_BUF_SIZE] := by
  have size := tracks.size
  have put := tracks.put
  have out := tracks.out
  have width := tracks.width
  unfold Int.ModEq
  unfold RC_FILTER_SIZE TX_BUF_SIZE at *
  omega

end Tracks

/-- The queue holds no more than the ring has slots, and its pointers are a window apart from its
size. -/
def QueueSafe (q : TxQueue) : Prop :=
  q.tx_buf_size ≤ TX_BUF_SIZE ∧
    (q.tx_buf_ptr : Int) - q.tx_outbuf_ptr ≡ q.tx_buf_size - q.tx_filter_wsize [ZMOD TX_BUF_SIZE]

/-- What is required of every event: that it is no sample out of nothing, the window that it reads, and
the queue behind it. -/
def EventRight (f : TxFilter) (start : TxQueue) (h : List TxEvent) (e : TxEvent) : Prop :=
  e ≠ .silence ∧ WindowRight f h e ∧ QueueSafe (replayed f start (h ++ [e]))

/-- A queue that a history has reached without going wrong. -/
structure Sound (f : TxFilter) (start : TxQueue) (h : List TxEvent) (q : TxQueue) : Prop where
  tracks : Tracks f h q
  replay : replayed f start h = q
  right : Always (EventRight f start) h

namespace Sound

variable {f : TxFilter} {start : TxQueue} {h : List TxEvent} {q : TxQueue}

theorem init (f : TxFilter) (tx_buf : Nat → Point) :
    Sound f (build_tx_filter tx_buf) [] (build_tx_filter tx_buf) :=
  ⟨.init f tx_buf, rfl, always_nil⟩

/-- One more event. -/
theorem event (sound : Sound f start h q) {e : TxEvent} (heard : e ≠ .silence)
    (tracks : Tracks f (h ++ [e]) (e.replay f q)) (window : WindowRight f h e)
    (bounded : (TxEvent.replay f q e).tx_buf_size ≤ TX_BUF_SIZE) :
    Sound f start (h ++ [e]) (e.replay f q) := by
  have replay : replayed f start (h ++ [e]) = e.replay f q := by
    rw [replayed_append, sound.replay]
    rfl
  refine ⟨tracks, replay, always_snoc.mpr ⟨sound.right, heard, window, ?_⟩⟩
  rw [replay]
  exact ⟨bounded, tracks.pointers⟩

theorem store (sound : Sound f start h q) (room : q.tx_buf_size < TX_BUF_SIZE) (symbol : Point) :
    Sound f start (h ++ [.queued symbol]) (q.store symbol) :=
  sound.event TxEvent.noConfusion (sound.tracks.store symbol) trivial room

theorem next_size (f : TxFilter) (q : TxQueue) : (q.next f).tx_buf_size ≤ q.tx_buf_size ∧
    q.tx_buf_size ≤ (q.next f).tx_buf_size + 1 := by
  rw [TxQueue.next]
  split
  · exact ⟨Nat.sub_le _ _, by show q.tx_buf_size ≤ q.tx_buf_size - 1 + 1; omega⟩
  · exact ⟨Nat.le_refl _, Nat.le_succ _⟩

theorem shape (sound : Sound f start h q) (enough : RC_FILTER_SIZE ≤ q.tx_buf_size)
    (bounded : q.tx_buf_size ≤ TX_BUF_SIZE) : Sound f start (h ++ [q.shape f]) (q.next f) := by
  have nonempty : 0 < q.tx_buf_size := Nat.lt_of_lt_of_le (by decide) enough
  exact sound.event TxEvent.noConfusion (sound.tracks.next nonempty rfl)
    (sound.tracks.shape enough bounded) (Nat.le_trans (next_size f q).1 bounded)

/-- A history without fault is safe throughout. -/
theorem safe (sound : Sound f start h q) (first : QueueSafe start) {before after : List TxEvent}
    (split : h = before ++ after) : QueueSafe (replayed f start before) := by
  rcases List.eq_nil_or_concat' before with rfl | ⟨earlier, e, rfl⟩
  · exact first
  · rw [List.append_assoc] at split
    exact (sound.right earlier e after split).2.2

end Sound

/-! ## Filling and draining -/

/-- What a function that takes samples out of the queue leaves. -/
structure Drained (f : TxFilter) (start : TxQueue) (h : List TxEvent) (q : TxQueue) (nb : Nat)
    (es : List TxEvent) (q' : TxQueue) (left : Nat) : Prop where
  sound : Sound f start (h ++ es) q'
  count : (samples es).length + left = nb
  bounded : q'.tx_buf_size ≤ q.tx_buf_size
  finished : left = 0 ∨ q'.tx_buf_size < RC_FILTER_SIZE
  /-- Nothing is taken but from a whole window. -/
  keeps : q.tx_buf_size ≤ q'.tx_buf_size ∨ RC_FILTER_SIZE ≤ q'.tx_buf_size + 1
  progress : RC_FILTER_SIZE ≤ q.tx_buf_size → 0 < nb → left < nb

section Draining

variable {f : TxFilter} {start : TxQueue} {h : List TxEvent} {q : TxQueue}

theorem baseband_to_carrier_drained (nb : Nat) (sound : Sound f start h q)
    (bounded : q.tx_buf_size ≤ TX_BUF_SIZE) :
    Drained f start h q nb (V34_baseband_to_carrier f nb q).1 (V34_baseband_to_carrier f nb q).2
        (nb - (V34_baseband_to_carrier f nb q).1.length) ∧
      (samples (V34_baseband_to_carrier f nb q).1).length =
        (V34_baseband_to_carrier f nb q).1.length := by
  induction nb generalizing h q with
  | zero =>
    refine ⟨⟨?_, rfl, Nat.le_refl _, Or.inl rfl, Or.inl (Nat.le_refl _), fun _ some => some⟩, rfl⟩
    show Sound f start (h ++ []) q
    rwa [List.append_nil]
  | succ nb ih =>
    have width := sound.tracks.width
    rw [V34_baseband_to_carrier]
    split
    case isTrue short =>
      rw [width] at short
      refine ⟨⟨?_, Nat.zero_add _, Nat.le_refl _, Or.inr short, Or.inl (Nat.le_refl _), ?_⟩, rfl⟩
      · rwa [List.append_nil]
      · intro enough
        exact absurd short (Nat.not_lt.mpr enough)
    case isFalse long =>
      rw [width, Nat.not_lt] at long
      have size := Sound.next_size f q
      obtain ⟨drained, length⟩ := ih (sound.shape long bounded) (Nat.le_trans size.1 bounded)
      have count := drained.count
      have shorter := drained.bounded
      have one : samples (q.shape f :: (V34_baseband_to_carrier f nb (q.next f)).1) =
          f.sample (q.slots.map q.tx_buf) (q.taps f) q.carrier_phase ::
            samples (V34_baseband_to_carrier f nb (q.next f)).1 := rfl
      dsimp only
      rw [one, List.length_cons, List.length_cons, Nat.succ_sub_succ]
      refine ⟨⟨?_, ?_, ?_, drained.finished, Or.inr ?_, fun _ _ => ?_⟩, ?_⟩
      · rw [List.append_cons]
        exact drained.sound
      · rw [one, List.length_cons]
        omega
      · omega
      · rcases drained.keeps with all | some <;> omega
      · omega
      · rw [length]

/-- The loop around it. -/
theorem modulateQueue_drained (passes nb : Nat) (enough : nb ≤ passes) (sound : Sound f start h q)
    (bounded : q.tx_buf_size ≤ TX_BUF_SIZE) :
    Drained f start h q nb (modulateQueue f passes q nb).1 (modulateQueue f passes q nb).2.1
      (modulateQueue f passes q nb).2.2 := by
  have width := sound.tracks.width
  induction passes generalizing h q nb with
  | zero =>
    rw [modulateQueue]
    refine ⟨?_, Nat.zero_add nb, Nat.le_refl _, Or.inl (Nat.le_zero.mp enough),
      Or.inl (Nat.le_refl _), ?_⟩
    · rwa [List.append_nil]
    · intro _ some
      omega
  | succ passes ih =>
    rw [modulateQueue]
    split
    case isTrue run =>
      rw [width] at run
      obtain ⟨drained, length⟩ := baseband_to_carrier_drained nb sound bounded
      generalize V34_baseband_to_carrier f nb q = pass at drained length
      obtain ⟨es, q₁⟩ := pass
      have fewer : nb - es.length < nb := drained.progress run.1 run.2
      have rest := ih (nb - es.length) (by omega) drained.sound (Nat.le_trans drained.bounded bounded)
        drained.sound.tracks.width
      dsimp only
      generalize modulateQueue f passes q₁ (nb - es.length) = passed at rest
      obtain ⟨later, q₂, left⟩ := passed
      have first : (samples es).length + (nb - es.length) = nb := drained.count
      have second : (samples later).length + left = nb - es.length := rest.count
      refine ⟨?_, ?_, Nat.le_trans rest.bounded drained.bounded, rest.finished, Or.inr ?_,
        fun _ _ => ?_⟩
      · rw [← List.append_assoc]
        exact rest.sound
      · rw [samples_append, List.length_append]
        show (samples es).length + (samples later).length + left = nb
        omega
      · rcases rest.keeps with all | some
        · rcases drained.keeps with all' | some'
          · exact Nat.le_succ_of_le (Nat.le_trans run.1 (Nat.le_trans all' all))
          · exact Nat.le_trans some' (Nat.succ_le_succ all)
        · exact some
      · show left < nb
        omega
    case isFalse stop =>
      rw [width, not_and_or, Nat.not_le] at stop
      refine ⟨?_, Nat.zero_add nb, Nat.le_refl _, ?_, Or.inl (Nat.le_refl _), fun long some => ?_⟩
      · rwa [List.append_nil]
      · show nb = 0 ∨ q.tx_buf_size < RC_FILTER_SIZE
        omega
      · omega

/-- Symbols for which there is room are all stored. -/
theorem put_syms_stored (tx_amp : Int) (symbols : List Point) (sound : Sound f start h q)
    (room : q.tx_buf_size + symbols.length ≤ TX_BUF_SIZE) :
    ∃ es q', put_syms tx_amp q symbols = some (es, q') ∧ Sound f start (h ++ es) q' ∧
      samples es = [] ∧ q'.tx_buf_size = q.tx_buf_size + symbols.length := by
  induction symbols generalizing h q with
  | nil =>
    refine ⟨[], q, rfl, ?_, rfl, rfl⟩
    rwa [List.append_nil]
  | cons s symbols ih =>
    rw [List.length_cons] at room
    let symbol := (int16 ((s.1 * tx_amp) >>> (7 : Nat)), int16 ((s.2 * tx_amp) >>> (7 : Nat)))
    have first : put_sym tx_amp q s = some (.queued symbol, q.store symbol) :=
      if_pos (by show q.tx_buf_size + 1 ≤ TX_BUF_SIZE; omega)
    have stored : (q.store symbol).tx_buf_size = q.tx_buf_size + 1 := rfl
    obtain ⟨es, q', rest, sound', silent, size⟩ :=
      ih (sound.store (by omega) symbol) (by rw [stored]; omega)
    refine ⟨.queued symbol :: es, q', ?_, ?_, ?_, ?_⟩
    · rw [put_syms, first]
      show (put_syms tx_amp (q.store symbol) symbols).bind _ = _
      rw [rest]
      rfl
    · rw [List.append_cons]
      exact sound'
    · exact silent
    · rw [size, stored, List.length_cons]
      omega

end Draining

end QFax.Linmodem

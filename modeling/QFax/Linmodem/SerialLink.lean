import QFax.Linmodem.Serial

/-!
# A serial line

Every bit of a sender goes to a receiver with the same settings, while bytes are queued at any time.
The receiver has no states of its own: what keeps it in step is that the bits since the last word
are idle ones followed by the part of a word sent so far.
-/

namespace QFax.Linmodem

open Machine

structure SerialLink where
  tx : SerialTx
  rx : SerialRx

inductive LineInput where
  /-- A byte is put into the sender's queue. -/
  | put (data : BitVec 8)
  /-- The line asks for a bit. -/
  | request

inductive LineEvent where
  /-- A byte found room in the queue. -/
  | queued (data : BitVec 8)
  /-- A byte left the queue to be sent. -/
  | taken (data : BitVec 8)
  /-- The receiver put a byte into its queue. -/
  | received (data : BitVec 8)

namespace SerialLink

variable (p : SerialParams)

/-- Both sides freshly initialised. -/
def init (size : Nat) : SerialLink := ⟨⟨sm_init_fifo size, 0, 0⟩, ⟨0, 0⟩⟩

def step : Step SerialLink LineInput LineEvent
  | .put data, s =>
    ({ s with tx := { s.tx with tx_fifo := sm_put_bit s.tx.tx_fifo data } },
      if s.tx.tx_fifo.items.length < s.tx.tx_fifo.max_size then [.queued data] else [])
  | .request, s =>
    let next := if s.tx.serial_tx_cnt = 0 then (sm_get_bit s.tx.tx_fifo).1 else none
    let (bit, tx) := serial_get_bit p s.tx
    let (put, rx) := serial_put_bit p bit s.rx
    (⟨tx, rx⟩, (next.map .taken).toList ++ (put.map .received).toList)

end SerialLink

def queuedBytes (h : List LineEvent) : List (BitVec 8) :=
  h.filterMap fun | .queued data => some data | _ => none

def takenBytes (h : List LineEvent) : List (BitVec 8) :=
  h.filterMap fun | .taken data => some data | _ => none

def receivedBytes (h : List LineEvent) : List (BitVec 8) :=
  h.filterMap fun | .received data => some data | _ => none

/-- The bytes whose words have been sent. -/
def sentBytes (h : List LineEvent) (s : SerialLink) : List (BitVec 8) :=
  if s.tx.serial_tx_cnt = 0 then takenBytes h else (takenBytes h).dropLast

/-! ## The receiver's window -/

/-- The receiver's bits since the last word: idle ones, then `j` bits of a word. -/
structure Tail (p : SerialParams) (word : BitVec 32) (j q : Nat) (rx : SerialRx) : Prop where
  count : rx.serial_cnt = min q (p.serial_wordsize - 1)
  begun : j ≤ q
  sent : ∀ i < j, rx.serial_buf.getLsbD i = word.getLsbD (p.serial_wordsize - j + i)
  idle : ∀ i, j ≤ i → i < q → i < 32 → rx.serial_buf.getLsbD i = true

section Tail

variable {p : SerialParams} {word : BitVec 32} {j q : Nat} {rx : SerialRx}

/-- The window stays a tail while the next bit comes in. -/
theorem Tail.push (tail : Tail p word j q rx) (unsaturated : j < p.serial_wordsize) :
    ∀ cnt, cnt = min (q + 1) (p.serial_wordsize - 1) →
      Tail p word (j + 1) (q + 1)
        ⟨window (word.getLsbD (p.serial_wordsize - (j + 1))) rx, cnt⟩ := by
  intro cnt count
  have size := wordsize_range p
  refine ⟨count, Nat.succ_le_succ tail.begun, fun i inside => ?_, fun i after before bound => ?_⟩
  · rcases i with - | i
    · exact window_zero _ _
    · rw [window_succ _ _ (by omega), tail.sent i (by omega)]
      congr 1
      omega
  · obtain ⟨i, rfl⟩ := Nat.exists_eq_succ_of_ne_zero (show i ≠ 0 by omega)
    rw [window_succ _ _ bound, tail.idle i (by omega) (by omega) (by omega)]

/-- Before the word is complete its first bit is not at the end of the window. -/
theorem Tail.high (tail : Tail p word j q rx) (incomplete : j + 1 < p.serial_wordsize) (bit : Bool)
    (ready : p.serial_wordsize - 1 ≤ rx.serial_cnt) :
    (window bit rx).getLsbD (p.serial_wordsize - 1) = true := by
  have size := wordsize_range p
  have count := tail.count
  rw [show p.serial_wordsize - 1 = p.serial_wordsize - 2 + 1 by omega, window_succ _ _ (by omega)]
  exact tail.idle _ (by omega) (by omega) (by omega)

theorem Tail.waits (tail : Tail p word j q rx) (incomplete : j + 1 < p.serial_wordsize)
    (bit : Bool) : ∃ cnt, cnt = min (q + 1) (p.serial_wordsize - 1) ∧
      serial_put_bit p bit rx = (none, ⟨window bit rx, cnt⟩) := by
  have count := tail.count
  rcases Nat.lt_or_ge rx.serial_cnt (p.serial_wordsize - 1) with early | ready
  · exact ⟨_, by omega, serial_put_bit_early early⟩
  · refine ⟨rx.serial_cnt, by omega, ?_⟩
    rw [serial_put_bit_none (tail.high incomplete bit ready), if_pos ready]

/-- An idle bit. -/
theorem Tail.idleBit (tail : Tail p word 0 q rx) : ∃ rx', serial_put_bit p true rx = (none, rx') ∧
    Tail p word 0 (q + 1) rx' := by
  have size := wordsize_range p
  obtain ⟨cnt, count, put⟩ := tail.waits (by omega) true
  refine ⟨_, put, count, Nat.zero_le _, nofun, fun i _ before bound => ?_⟩
  rcases i with - | i
  · exact window_zero _ _
  · exact (window_succ _ _ bound).trans (tail.idle i (Nat.zero_le i) (by omega) (by omega))

/-- A bit of a word, before the last one. -/
theorem Tail.wordBit (tail : Tail p word j q rx) (incomplete : j + 1 < p.serial_wordsize) :
    ∃ rx', serial_put_bit p (word.getLsbD (p.serial_wordsize - (j + 1))) rx = (none, rx') ∧
      Tail p word (j + 1) (q + 1) rx' := by
  obtain ⟨cnt, count, put⟩ := tail.waits incomplete (word.getLsbD (p.serial_wordsize - (j + 1)))
  exact ⟨_, put, tail.push (by omega) cnt count⟩

end Tail

section Last

variable {p : SerialParams} {data : BitVec 8} {q : Nat} {rx : SerialRx}

/-- With the last bit the window is the word. -/
theorem Tail.whole (tail : Tail p (txWord p data) (p.serial_wordsize - 1) q rx) {i : Nat}
    (inside : i < p.serial_wordsize) :
    (window ((txWord p data).getLsbD 0) rx).getLsbD i = (txWord p data).getLsbD i := by
  have size := wordsize_range p
  have pushed := (tail.push (by omega) _ rfl).sent i (by omega)
  rw [show p.serial_wordsize - 1 + 1 = p.serial_wordsize by omega, Nat.sub_self, Nat.zero_add]
    at pushed
  exact pushed

/-- The last bit of a word with a start bit. -/
theorem Tail.lastBit (tail : Tail p (txWord p data) (p.serial_wordsize - 1) q rx)
    (start : data.getLsbD p.serial_data_bits = false) (word : BitVec 32) :
    ∃ rx', serial_put_bit p ((txWord p data).getLsbD 0) rx = (some (lowData p data), rx') ∧
      Tail p word 0 0 rx' := by
  have count := tail.count
  have begun := tail.begun
  refine ⟨_, serial_put_bit_word (by omega) (fun i => tail.whole) start, ?_, le_rfl, nofun, nofun⟩
  exact (Nat.zero_min _).symm

/-- A word whose start bit is one is not received. -/
theorem Tail.lost (tail : Tail p (txWord p data) (p.serial_wordsize - 1) q rx)
    (noStart : data.getLsbD p.serial_data_bits = true) :
    (serial_put_bit p ((txWord p data).getLsbD 0) rx).1 = none := by
  have size := wordsize_range p
  rw [serial_put_bit_none]
  rw [tail.whole (by omega), txWord_start, noStart]

end Last

/-! ## Steps -/

section Step

variable {p : SerialParams}

/-- What a bit of a word does to the receiver. -/
theorem wordBit_cases {data : BitVec 8} {q c : Nat} {rx : SerialRx}
    (tail : Tail p (txWord p data) (p.serial_wordsize - c) q rx)
    (inside : 0 < c ∧ c ≤ p.serial_wordsize) :
    (1 < c ∧ ∃ rx', serial_put_bit p ((txWord p data).getLsbD (c - 1)) rx = (none, rx') ∧
        Tail p (txWord p data) (p.serial_wordsize - (c - 1)) (q + 1) rx') ∨
      (c = 1 ∧ data.getLsbD p.serial_data_bits = false ∧
        ∃ rx', serial_put_bit p ((txWord p data).getLsbD (c - 1)) rx =
          (some (lowData p data), rx') ∧ Tail p 0 0 0 rx') ∨
      (c = 1 ∧ data.getLsbD p.serial_data_bits = true ∧
        (serial_put_bit p ((txWord p data).getLsbD (c - 1)) rx).1 = none) := by
  rcases Nat.lt_or_ge 1 c with more | last
  · have next : p.serial_wordsize - (p.serial_wordsize - c + 1) = c - 1 := by omega
    obtain ⟨rx', put, tail'⟩ := tail.wordBit (by omega)
    rw [next] at put
    rw [show p.serial_wordsize - c + 1 = p.serial_wordsize - (c - 1) by omega] at tail'
    exact Or.inl ⟨more, rx', put, tail'⟩
  · obtain rfl : c = 1 := by omega
    cases start : data.getLsbD p.serial_data_bits
    · exact Or.inr (Or.inl ⟨rfl, rfl, tail.lastBit start 0⟩)
    · exact Or.inr (Or.inr ⟨rfl, rfl, tail.lost start⟩)

/-- The sender's word and the receiver's window agree, and all words before were received. -/
inductive Framed (p : SerialParams) (h : List LineEvent) (s : SerialLink) : Prop
  | idle {q : Nat} (quiet : s.tx.serial_tx_cnt = 0) (tail : Tail p 0 0 q s.rx)
    (received : receivedBytes h = (takenBytes h).map (lowData p))
  | word {q : Nat} {before : List (BitVec 8)} {data : BitVec 8} (busy : 0 < s.tx.serial_tx_cnt)
    (within : s.tx.serial_tx_cnt < p.serial_wordsize) (taken : takenBytes h = before ++ [data])
    (buf : s.tx.serial_tx_buf = txWord p data)
    (tail : Tail p (txWord p data) (p.serial_wordsize - s.tx.serial_tx_cnt) q s.rx)
    (received : receivedBytes h = before.map (lowData p))

theorem Framed.received {h : List LineEvent} {s : SerialLink} (framed : Framed p h s) :
    receivedBytes h = (sentBytes h s).map (lowData p) := by
  cases framed with
  | idle quiet tail received => rw [sentBytes, if_pos quiet, received]
  | word busy within taken buf tail received =>
    rw [sentBytes, if_neg (by omega), taken, List.dropLast_concat, received]

/-- A step keeps the two sides in step or completes a word: one with a start bit is received, one
without is not. -/
def Progress (p : SerialParams) (h h' : List LineEvent) (s s' : SerialLink) : Prop :=
  (Framed p h' s' ∧ (sentBytes h' s' = sentBytes h s ∨ ∃ data,
      sentBytes h' s' = sentBytes h s ++ [data] ∧ data.getLsbD p.serial_data_bits = false)) ∨
    ∃ data, sentBytes h' s' = sentBytes h s ++ [data] ∧
      data.getLsbD p.serial_data_bits = true ∧ receivedBytes h' = receivedBytes h

/-- A bit of the word of `data`, the last byte taken. -/
theorem progress_word {h h' : List LineEvent} {s : SerialLink} {q c : Nat}
    {before : List (BitVec 8)} {data : BitVec 8} {tx : SerialTx} {rx rx' : SerialRx}
    {put : Option (BitVec 8)} (sent : sentBytes h s = before)
    (received : receivedBytes h = before.map (lowData p))
    (count : tx.serial_tx_cnt = c) (inside : 0 < c ∧ c ≤ p.serial_wordsize)
    (buf : tx.serial_tx_buf = txWord p data)
    (tail : Tail p (txWord p data) (p.serial_wordsize - c) q rx)
    (result : serial_put_bit p (nextBit tx).1 rx = (put, rx'))
    (taken : takenBytes h' = before ++ [data])
    (now : receivedBytes h' = receivedBytes h ++ put.toList) :
    Progress p h h' s ⟨(nextBit tx).2, rx'⟩ := by
  have size := wordsize_range p
  have bit : (nextBit tx).1 = (txWord p data).getLsbD (c - 1) := by rw [nextBit, buf, count]
  have left : (nextBit tx).2.serial_tx_cnt = c - 1 := by rw [← count]; rfl
  rw [bit] at result
  rcases wordBit_cases tail inside with ⟨more, rx'', put', tail'⟩ | ⟨last, start, rx'', put', tail'⟩ |
      ⟨last, noStart, none'⟩
  · rw [put', Prod.mk.injEq] at result
    obtain ⟨rfl, rfl⟩ := result
    rw [Option.toList_none, List.append_nil] at now
    refine Or.inl ⟨.word (by rw [left]; omega) (by rw [left]; omega) taken buf
      (by rw [left]; exact tail') (now.trans received), Or.inl ?_⟩
    rw [sentBytes, if_neg (by rw [left]; omega), taken, List.dropLast_concat, sent]
  · rw [put', Prod.mk.injEq] at result
    obtain ⟨rfl, rfl⟩ := result
    have done : sentBytes h' ⟨(nextBit tx).2, rx''⟩ = before ++ [data] := by
      rw [sentBytes, if_pos (by rw [left]; omega), taken]
    refine Or.inl ⟨.idle (by rw [left]; omega) tail' ?_, Or.inr ⟨data, by rw [done, sent], start⟩⟩
    rw [now, received, taken, List.map_append]
    rfl
  · rw [result] at none'
    obtain rfl : put = none := none'
    have done : sentBytes h' ⟨(nextBit tx).2, rx'⟩ = before ++ [data] := by
      rw [sentBytes, if_pos (by rw [left]; omega), taken]
    exact Or.inr ⟨data, by rw [done, sent], noStart, by rw [now]; exact List.append_nil _⟩

theorem takenBytes_request (h : List LineEvent) (next put : Option (BitVec 8)) :
    takenBytes (h ++ ((next.map .taken).toList ++ (put.map .received).toList)) =
      takenBytes h ++ next.toList := by
  cases next <;> cases put <;> simp [takenBytes]

theorem receivedBytes_request (h : List LineEvent) (next put : Option (BitVec 8)) :
    receivedBytes (h ++ ((next.map .taken).toList ++ (put.map .received).toList)) =
      receivedBytes h ++ put.toList := by
  cases next <;> cases put <;> simp [receivedBytes]

theorem queuedBytes_request (h : List LineEvent) (next put : Option (BitVec 8)) :
    queuedBytes (h ++ ((next.map .taken).toList ++ (put.map .received).toList)) =
      queuedBytes h := by
  cases next <;> cases put <;> simp [queuedBytes]

/-- Queueing a byte changes neither word nor window. -/
theorem Framed.put {h : List LineEvent} {s : SerialLink} (framed : Framed p h s)
    (data : BitVec 8) : Progress p h (h ++ (SerialLink.step p (.put data) s).2) s
      (SerialLink.step p (.put data) s).1 := by
  have taken : takenBytes (h ++ (SerialLink.step p (.put data) s).2) = takenBytes h := by
    simp only [SerialLink.step]
    split <;> simp [takenBytes]
  have now : receivedBytes (h ++ (SerialLink.step p (.put data) s).2) = receivedBytes h := by
    simp only [SerialLink.step]
    split <;> simp [receivedBytes]
  have same : (SerialLink.step p (.put data) s).1.tx.serial_tx_cnt = s.tx.serial_tx_cnt := rfl
  refine Or.inl ⟨?_, Or.inl (by simp only [sentBytes, same, taken])⟩
  cases framed with
  | idle quiet tail received => exact .idle quiet tail (by rw [now, taken, received])
  | word busy within taken' buf tail received =>
    exact .word busy within (by rw [taken, taken']) buf tail (by rw [now, received])

/-- A bit goes from the sender to the receiver. -/
theorem Framed.request {h : List LineEvent} {s : SerialLink} (framed : Framed p h s) :
    Progress p h (h ++ (SerialLink.step p .request s).2) s (SerialLink.step p .request s).1 := by
  have size := wordsize_range p
  have sent := framed.received
  simp only [SerialLink.step]
  cases framed with
  | @idle q quiet tail received =>
    rw [if_pos quiet, serial_get_bit, if_pos quiet]
    have done : sentBytes h s = takenBytes h := if_pos quiet
    generalize sm_get_bit s.tx.tx_fifo = read
    obtain ⟨next, fifo⟩ := read
    cases next with
    | none =>
      obtain ⟨rx', put, tail'⟩ := tail.idleBit
      simp only [put]
      refine Or.inl ⟨.idle quiet tail' ?_, Or.inl ?_⟩
      · rw [takenBytes_request, receivedBytes_request, received]
        simp
      · rw [sentBytes, if_pos quiet, takenBytes_request, done]
        simp
    | some data =>
      have start : Tail p (txWord p data) (p.serial_wordsize - p.serial_wordsize) q s.rx := by
        rw [Nat.sub_self]
        exact ⟨tail.count, tail.begun, nofun, tail.idle⟩
      exact progress_word (c := p.serial_wordsize) done received rfl ⟨by omega, le_rfl⟩ rfl start rfl
        (takenBytes_request _ _ _) (receivedBytes_request _ _ _)
  | @word q before data busy within taken buf tail received =>
    rw [if_neg (by omega), serial_get_bit, if_neg (by omega)]
    have done : sentBytes h s = before := by
      rw [sentBytes, if_neg (by omega), taken, List.dropLast_concat]
    exact progress_word done received rfl ⟨busy, within.le⟩ buf tail rfl
      ((takenBytes_request _ _ _).trans (by rw [taken]; simp)) (receivedBytes_request _ _ _)

/-- Every step of a line in step makes progress. -/
theorem Framed.step {h : List LineEvent} {s : SerialLink} (framed : Framed p h s)
    (input : LineInput) :
    Progress p h (h ++ (SerialLink.step p input s).2) s (SerialLink.step p input s).1 := by
  cases input with
  | put data => exact framed.put data
  | request => exact framed.request

/-- Bytes leave the queue in the order in which they came. -/
theorem order_step {h : List LineEvent} {s : SerialLink}
    (order : queuedBytes h = takenBytes h ++ s.tx.tx_fifo.items) (input : LineInput) :
    queuedBytes (h ++ (SerialLink.step p input s).2) =
      takenBytes (h ++ (SerialLink.step p input s).2) ++
        (SerialLink.step p input s).1.tx.tx_fifo.items := by
  cases input with
  | put data =>
    simp only [SerialLink.step, sm_put_bit]
    split
    · simp only [queuedBytes, takenBytes, List.filterMap_append] at order ⊢
      rw [order]
      simp
    · rwa [List.append_nil]
  | request =>
    simp only [SerialLink.step]
    rw [queuedBytes_request, takenBytes_request, order, List.append_assoc]
    congr 1
    by_cases quiet : s.tx.serial_tx_cnt = 0
    · rw [if_pos quiet, serial_get_bit, if_pos quiet]
      obtain ⟨⟨items, size, bounded⟩, buf, cnt⟩ := s.tx
      cases items <;> rfl
    · rw [if_neg quiet, serial_get_bit, if_neg quiet]
      rfl

/-- What was sent stays sent. -/
theorem sentBytes_step (h : List LineEvent) (s : SerialLink) (input : LineInput) :
    sentBytes h s <+:
      sentBytes (h ++ (SerialLink.step p input s).2) (SerialLink.step p input s).1 := by
  have size := wordsize_range p
  cases input with
  | put data =>
    have taken : takenBytes (h ++ (SerialLink.step p (.put data) s).2) = takenBytes h := by
      simp only [SerialLink.step]
      split <;> simp [takenBytes]
    have same : (SerialLink.step p (.put data) s).1.tx.serial_tx_cnt = s.tx.serial_tx_cnt := rfl
    rw [sentBytes, sentBytes, taken, same]
  | request =>
    simp only [SerialLink.step]
    rw [sentBytes, sentBytes, takenBytes_request]
    by_cases quiet : s.tx.serial_tx_cnt = 0
    · rw [if_pos quiet, if_pos quiet, serial_get_bit, if_pos quiet]
      generalize sm_get_bit s.tx.tx_fifo = read
      obtain ⟨next, fifo⟩ := read
      cases next with
      | none => simp [quiet]
      | some data =>
        have busy : (nextBit ⟨fifo, txWord p data, p.serial_wordsize⟩).2.serial_tx_cnt ≠ 0 := by
          simp only [nextBit]
          omega
        simp only [if_neg busy, Option.toList_some, List.dropLast_concat]
        exact List.prefix_refl _
    · rw [if_neg quiet, if_neg quiet, serial_get_bit, if_neg quiet, Option.toList_none,
        List.append_nil]
      split
      · exact List.dropLast_prefix _
      · exact List.prefix_refl _

end Step

/-! ## Runs -/

section Run

variable (p : SerialParams) (size : Nat)

/-- History and state after some inputs. -/
abbrev lineRun (inputs : List LineInput) : List LineEvent × SerialLink :=
  feed (SerialLink.step p) inputs [] (SerialLink.init size)

/-- The bytes sent during a run. -/
def sentIn (inputs : List LineInput) : List (BitVec 8) :=
  sentBytes (lineRun p size inputs).1 (lineRun p size inputs).2

/-- The low data bits of every byte sent so far were received, and the bytes leave the queue in the
order in which they came. -/
structure LineOK (inputs : List LineInput) : Prop where
  received : receivedBytes (lineRun p size inputs).1 = (sentIn p size inputs).map (lowData p)
  order : queuedBytes (lineRun p size inputs).1 =
    takenBytes (lineRun p size inputs).1 ++ (lineRun p size inputs).2.tx.tx_fifo.items

variable {p size}

theorem lineRun_snoc (inputs : List LineInput) (input : LineInput) :
    lineRun p size (inputs ++ [input]) =
      ((lineRun p size inputs).1 ++ (SerialLink.step p input (lineRun p size inputs).2).2,
        (SerialLink.step p input (lineRun p size inputs).2).1) := by
  rw [lineRun, feed_append]
  rfl

variable (p size) in
theorem lineRun_order (inputs : List LineInput) :
    queuedBytes (lineRun p size inputs).1 =
      takenBytes (lineRun p size inputs).1 ++ (lineRun p size inputs).2.tx.tx_fifo.items := by
  induction inputs using List.reverseRecOn with
  | nil => rfl
  | append_singleton inputs input ih =>
    rw [lineRun_snoc]
    exact order_step ih input

theorem sentIn_snoc (inputs : List LineInput) (input : LineInput) :
    sentIn p size inputs <+: sentIn p size (inputs ++ [input]) := by
  simp only [sentIn, lineRun_snoc]
  exact sentBytes_step _ _ input

theorem sentIn_append (inputs more : List LineInput) :
    sentIn p size inputs <+: sentIn p size (inputs ++ more) := by
  induction more using List.reverseRecOn with
  | nil => rw [List.append_nil]
  | append_singleton more input ih =>
    rw [← List.append_assoc]
    exact ih.trans (sentIn_snoc _ input)

/-- Both sides stay in step while every word sent has a start bit. -/
theorem lineRun_framed (inputs : List LineInput)
    (starts : ∀ data ∈ sentIn p size inputs, data.getLsbD p.serial_data_bits = false) :
    Framed p (lineRun p size inputs).1 (lineRun p size inputs).2 := by
  induction inputs using List.reverseRecOn with
  | nil => exact .idle (q := 0) rfl ⟨(Nat.zero_min _).symm, le_rfl, nofun, nofun⟩ rfl
  | append_singleton inputs input ih =>
    have framed := ih fun data sent => starts data ((sentIn_snoc inputs input).subset sent)
    rcases framed.step input with ⟨framed', -⟩ | ⟨data, sent, noStart, -⟩
    · rwa [lineRun_snoc]
    · have start := starts data (by
        rw [sentIn, lineRun_snoc, sent]
        exact List.mem_append_right _ List.mem_cons_self)
      rw [start] at noStart
      cases noStart

/-- Every byte sent so far has been received at every moment of a run exactly when bit `data_bits`
of every byte sent is zero. -/
theorem serial_round_trip_iff (p : SerialParams) (size : Nat) (inputs : List LineInput) :
    (∀ before after, inputs = before ++ after → LineOK p size before) ↔
      ∀ data ∈ sentIn p size inputs, data.getLsbD p.serial_data_bits = false := by
  constructor
  · intro all
    induction inputs using List.reverseRecOn with
    | nil => exact nofun
    | append_singleton inputs input ih =>
      have earlier := ih fun before after split =>
        all before (after ++ [input]) (by rw [split, List.append_assoc])
      have now := (all (inputs ++ [input]) [] (List.append_nil _).symm).received
      have until_ := (all inputs [input] rfl).received
      simp only [sentIn, lineRun_snoc] at now until_ earlier ⊢
      rcases (lineRun_framed inputs earlier).step input with
        ⟨-, same | ⟨data, sent, start⟩⟩ | ⟨data, sent, -, none_⟩
      · rwa [same]
      · rw [sent]
        intro data' member
        rcases List.mem_append.mp member with old | new
        · exact earlier data' old
        · rwa [List.mem_singleton.mp new]
      · rw [sent, none_, until_, List.map_append] at now
        exact absurd now (by simp)
  · rintro starts before after rfl
    have framed := lineRun_framed before fun data sent =>
      starts data ((sentIn_append before after).subset sent)
    exact ⟨framed.received, lineRun_order p size before⟩

/-- Two bytes with five data bits and odd parity, the second queued after some idle time. -/
theorem serial_round_trip_two :
    ∀ before after, [.put 0x15] ++ List.replicate 12 .request ++ [.put 0x0a] ++
        List.replicate 9 .request = before ++ after →
      LineOK (serial_init 5 'O' (by decide)) 4096 before :=
  (serial_round_trip_iff _ _ _).mpr (by decide +kernel)

/-- The byte 0xff with seven data bits has no start bit and is lost. -/
theorem high_byte_lost : ¬ ∀ before after,
    [.put 0xff] ++ List.replicate 9 .request = before ++ after →
      LineOK (serial_init 7 'N' (by decide)) 4096 before := by
  intro all
  have received := (all _ [] (List.append_nil _).symm).received
  revert received
  decide +kernel

end Run

end QFax.Linmodem

import QFax.Lib.Machine

/-!
# Packet modem: the samples for the sound card

`send` puts the samples of a transmission into a queue, and `output_callback` plays them when the
sound card asks for more; the two run on threads of their own.  A step is what a thread does under
the lock, together with what follows on data of its own.  The buffer of the sound card takes the
channels one after the other, so every sample is written once for each channel.
-/

namespace QFax.Extmodem

open Machine

/-! ## The two threads -/

/-- Where `output_callback` is, with the size of the buffer and the number of entries written. -/
inductive Player
  | waiting
  | looking (size i : Nat)
  | popping (size i : Nat)
  | ending (size : Nat)
  deriving DecidableEq, Repr

/-- The queue, the keying of the transmitter, and the transmission that `send` has let in but not
put into the queue yet. -/
structure SampleQueue (α : Type) where
  out_queue : List (List α)
  out_queue_ptr : Nat
  tx : Bool
  player : Player
  out : Option (List α)

/-- The sound card asks for a buffer, its thread goes on, a transmission is to be sent, or its
samples are ready. -/
inductive QueueTurn (α : Type)
  | callback (size : Nat)
  | play
  | send (samples : List α)
  | push

/-- What the threads do: the begin and the end of a callback, the entries it writes, the keying, and
what becomes of a transmission. -/
inductive QueueEvent (α : Type)
  | began (empty : Bool)
  | entry (x : α) (keyed : Bool)
  | silence
  | ended (size : Nat)
  | set_tx (tx : Bool)
  | accepted (samples : List α)
  | dropped
  deriving DecidableEq, Repr

variable {α : Type}

/-- The inner loop: the samples that are copied to the buffer, and the number of entries then. -/
def copySamples (channels size : Nat) : List α → Nat → List α × Nat
  | [], i => ([], i)
  | x :: xs, i =>
    if i < size then
      let rest := copySamples channels size xs (i + channels)
      (x :: rest.1, rest.2)
    else ([], i)

/-- Every sample is written once for each channel. -/
def entries (channels : Nat) (tx : Bool) (xs : List α) : List (QueueEvent α) :=
  xs.flatMap fun x => List.replicate channels (.entry x tx)

namespace SampleQueue

/-- Nothing to play, and the transmitter off. -/
def init : SampleQueue α where
  out_queue := []
  out_queue_ptr := 0
  tx := false
  player := .waiting
  out := none

/-- The rest of the buffer is silence. -/
def fill (size i : Nat) (s : SampleQueue α) : SampleQueue α × List (QueueEvent α) :=
  ({ s with player := .ending size }, List.replicate (size - i) .silence)

/-- One step of `output_callback`. -/
def play (channels : Nat) (s : SampleQueue α) : SampleQueue α × List (QueueEvent α) :=
  match s.player with
  | .waiting => (s, [])
  | .looking size i =>
    if channels ≥ 1 ∧ i < size then
      match s.out_queue with
      | [] => s.fill size i
      | p :: _ =>
        let copied := copySamples channels size (p.drop s.out_queue_ptr) i
        let ptr := s.out_queue_ptr + copied.1.length
        ({ s with
            out_queue_ptr := ptr
            player := if ptr = p.length then .popping size copied.2 else .looking size copied.2 },
          entries channels s.tx copied.1)
    else s.fill size i
  | .popping size i =>
    ({ s with out_queue := s.out_queue.tail, out_queue_ptr := 0, player := .looking size i }, [])
  | .ending size =>
    if s.out_queue = [] ∧ s.tx then
      ({ s with tx := false, player := .waiting }, [.set_tx false, .ended size])
    else ({ s with player := .waiting }, [.ended size])

/-- One step of either thread. -/
def step (channels : Nat) : Machine.Step (SampleQueue α) (QueueTurn α) (QueueEvent α)
  | .callback size, s =>
    if s.player = .waiting then
      if s.out_queue ≠ [] ∧ ¬ s.tx then
        ({ s with tx := true, player := .looking size 0 }, [.began false, .set_tx true])
      else ({ s with player := .looking size 0 }, [.began (s.out_queue = [])])
    else (s, [])
  | .play, s => s.play channels
  | .send samples, s =>
    match s.out with
    | none => if s.out_queue.length > 5 then (s, [.dropped]) else ({ s with out := some samples }, [])
    | some _ => (s, [])
  | .push, s =>
    match s.out with
    | none => (s, [])
    | some samples =>
      ({ s with out_queue := s.out_queue ++ [samples], out := none }, [.accepted samples])

end SampleQueue

/-! ## Accounts -/

/-- The sample of an entry. -/
def QueueEvent.entry? : QueueEvent α → Option α
  | .entry x _ => some x
  | _ => none

/-- The samples of a transmission that gets into the queue. -/
def QueueEvent.accepted? : QueueEvent α → Option (List α)
  | .accepted samples => some samples
  | _ => none

/-- The entries that are not silent, of all callbacks so far. -/
def played (h : List (QueueEvent α)) : List α := h.filterMap QueueEvent.entry?

/-- Samples as they stand in a buffer. -/
def interleaved (channels : Nat) (xs : List α) : List α := xs.flatMap (List.replicate channels)

/-- The entries for all transmissions that got into the queue. -/
def due (channels : Nat) (h : List (QueueEvent α)) : List α :=
  interleaved channels (h.filterMap QueueEvent.accepted?).flatten

/-- The samples still to be played. -/
def SampleQueue.left (s : SampleQueue α) : List α := s.out_queue.flatten.drop s.out_queue_ptr

/-- The number of entries since the begin of the last callback. -/
def written : Nat → QueueEvent α → Nat
  | _, .began _ => 0
  | n, .entry _ _ | n, .silence => n + 1
  | n, _ => n

/-- Whether the last callback began with an empty queue. -/
def beganEmpty : Bool → QueueEvent α → Bool
  | _, .began empty => empty
  | before, _ => before

variable {h es : List (QueueEvent α)} {s : SampleQueue α} {channels : Nat}

theorem played_append : played (h ++ es) = played h ++ played es := List.filterMap_append

theorem interleaved_append (xs ys : List α) :
    interleaved channels (xs ++ ys) = interleaved channels xs ++ interleaved channels ys :=
  List.flatMap_append

theorem due_append : due channels (h ++ es) = due channels h ++ due channels es := by
  unfold due
  rw [List.filterMap_append, List.flatten_append, interleaved_append]

/-- Neither an entry nor a transmission. -/
def QueueEvent.Idle (e : QueueEvent α) : Prop := e.entry? = none ∧ e.accepted? = none

theorem idle_append (idle : ∀ e ∈ es, e.Idle) :
    played (h ++ es) = played h ∧ due channels (h ++ es) = due channels h := by
  have none : played es = [] := List.filterMap_eq_nil_iff.2 fun e mem => (idle e mem).1
  have none' : es.filterMap QueueEvent.accepted? = [] :=
    List.filterMap_eq_nil_iff.2 fun e mem => (idle e mem).2
  rw [played_append, due_append, none, List.append_nil]
  refine ⟨rfl, ?_⟩
  unfold due
  rw [none']
  exact List.append_nil _

/-- What the inner loop copies is the beginning of the samples; it stops at the end of them or of the
buffer. -/
theorem copySamples_eq (channels size : Nat) (xs : List α) (i : Nat) :
    ∃ rest, xs = (copySamples channels size xs i).1 ++ rest ∧
      (copySamples channels size xs i).2 = i + (copySamples channels size xs i).1.length * channels ∧
      (rest = [] ∨ size ≤ (copySamples channels size xs i).2) := by
  induction xs generalizing i with
  | nil => exact ⟨[], rfl, by simp [copySamples], .inl rfl⟩
  | cons x xs ih =>
    unfold copySamples
    split
    · obtain ⟨rest, split, count, ends⟩ := ih (i + channels)
      refine ⟨rest, congrArg (x :: ·) split, ?_, ends⟩
      show (copySamples channels size xs (i + channels)).2 = _
      rw [count, List.length_cons, Nat.succ_mul]
      omega
    · rename_i full
      exact ⟨x :: xs, rfl, by simp, .inr (Nat.le_of_not_lt full)⟩

/-- The buffer is overrun by less than one sample for each channel. -/
theorem copySamples_le {channels size : Nat} {xs : List α} {i : Nat} (inside : i < size + channels) :
    (copySamples channels size xs i).2 < size + channels := by
  induction xs generalizing i with
  | nil => exact inside
  | cons x xs ih =>
    unfold copySamples
    split
    · exact ih (by omega)
    · exact inside

/-- A multiple that is not a whole step beyond another one is not beyond it at all. -/
theorem le_of_dvd_of_lt_add {channels size i : Nat} (divides : channels ∣ i) (whole : channels ∣ size)
    (inside : i < size + channels) : i ≤ size := by
  by_contra beyond
  have apart : channels ∣ i - size := Nat.dvd_sub divides whole
  have := Nat.le_of_dvd (by omega) apart
  omega

theorem played_entries (channels : Nat) (xs : List α) (tx : Bool) :
    played (entries channels tx xs) = interleaved channels xs := by
  unfold played interleaved entries
  rw [List.filterMap_flatMap]
  congr 1
  funext x
  exact List.filterMap_replicate_of_some rfl

theorem due_entries (channels n : Nat) (xs : List α) (tx : Bool) :
    due n (entries channels tx xs) = [] := by
  have none : (entries channels tx xs).filterMap QueueEvent.accepted? = [] := by
    rw [List.filterMap_eq_nil_iff]
    intro e mem
    obtain ⟨x, -, mem⟩ := List.mem_flatMap.1 mem
    rw [List.eq_of_mem_replicate mem]
    rfl
  unfold due
  rw [none]
  rfl

/-- A sample takes as many entries as there are channels. -/
theorem written_entries (channels : Nat) (xs : List α) (tx : Bool) (n : Nat) :
    (entries channels tx xs).foldl written n = n + xs.length * channels := by
  unfold entries
  have each : ∀ (x : α) (k n : Nat),
      (List.replicate k (.entry x tx)).foldl written n = n + k := by
    intro x k
    induction k with
    | zero => exact fun n => rfl
    | succ k ih => exact fun n => (ih (n + 1)).trans (by omega)
  induction xs generalizing n with
  | nil => simp
  | cons x xs ih =>
    rw [List.flatMap_cons, List.foldl_append, each, ih, List.length_cons, Nat.succ_mul]
    omega

theorem written_silence (k n : Nat) :
    (List.replicate k (QueueEvent.silence (α := α))).foldl written n = n + k := by
  induction k generalizing n with
  | zero => rfl
  | succ k ih => exact (ih (n + 1)).trans (by omega)

/-- Only the begin of a callback changes how the last one began. -/
theorem beganEmpty_append (same : ∀ e ∈ es, ∀ before, beganEmpty before e = before) (before : Bool) :
    (h ++ es).foldl beganEmpty before = h.foldl beganEmpty before := by
  rw [List.foldl_append]
  induction es with
  | nil => rfl
  | cons e es ih =>
    rw [List.foldl_cons, same e List.mem_cons_self]
    exact ih fun f mem => same f (List.mem_cons_of_mem e mem)

/-! ## What holds between the steps -/

/-- Where the callback is, the buffer is written up to there, and the transmitter is keyed unless
the callback began with an empty queue. -/
def SampleQueue.Placed (channels : Nat) (h : List (QueueEvent α)) (s : SampleQueue α) : Prop :=
  match s.player with
  | .waiting => s.tx = true → s.out_queue ≠ []
  | .looking size i =>
    h.foldl written 0 = i ∧ i < size + channels ∧ channels ∣ i ∧ s.tx = !h.foldl beganEmpty false
  | .popping size i =>
    h.foldl written 0 = i ∧ i < size + channels ∧ channels ∣ i ∧ (s.tx = !h.foldl beganEmpty false) ∧
      s.out_queue ≠ [] ∧ s.out_queue_ptr = (s.out_queue.headD []).length
  | .ending size =>
    size ≤ h.foldl written 0 ∧ h.foldl written 0 < size + channels ∧
      (channels ∣ size → h.foldl written 0 = size)

/-- What was played and what is left make up what got into the queue. -/
structure Balanced (channels : Nat) (h : List (QueueEvent α)) (s : SampleQueue α) : Prop where
  account : played h ++ interleaved channels s.left = due channels h
  pointer : s.out_queue_ptr ≤ (s.out_queue.headD []).length
  room : s.out_queue.length + s.out.toList.length ≤ 6
  placed : s.Placed channels h

/-- What silence and the end of a buffer say of the events before them. -/
def InOrder (channels : Nat) (before : List (QueueEvent α)) : QueueEvent α → Prop
  | .silence => played before = due channels before
  | .ended size => size ≤ before.foldl written 0 ∧ before.foldl written 0 < size + channels ∧
      (channels ∣ size → before.foldl written 0 = size)
  | _ => True

/-- What the keying of the transmitter goes by. -/
def Keyed (channels : Nat) (before : List (QueueEvent α)) : QueueEvent α → Prop
  | .entry _ keyed => keyed = !before.foldl beganEmpty false
  | .set_tx false => played before = due channels before
  | _ => True

/-- What an event says of the events before it. -/
def Proper (channels : Nat) (before : List (QueueEvent α)) (e : QueueEvent α) : Prop :=
  InOrder channels before e ∧ Keyed channels before e

/-- All is played when the queue is empty. -/
theorem Balanced.empty (inv : Balanced channels h s) (queue : s.out_queue = []) :
    played h = due channels h := by
  have account := inv.account
  unfold SampleQueue.left at account
  rw [queue, List.flatten_nil, List.drop_nil] at account
  exact (List.append_nil _).symm.trans account

/-! ## The steps -/

/-- Samples of the front are the first of those left. -/
theorem SampleQueue.left_front {p xs rest : List α} {queue : List (List α)}
    (front : s.out_queue = p :: queue) (pointer : s.out_queue_ptr ≤ p.length)
    (split : p.drop s.out_queue_ptr = xs ++ rest) :
    s.left = xs ++ s.out_queue.flatten.drop (s.out_queue_ptr + xs.length) := by
  unfold SampleQueue.left
  rw [← List.drop_drop, front, List.flatten_cons, List.drop_append_of_le_length pointer, split,
    List.append_assoc, List.drop_left]

/-- At the end of the front, what is left is the rest of the queue. -/
theorem SampleQueue.left_tail (ends : s.out_queue_ptr = (s.out_queue.headD []).length) :
    s.left = s.out_queue.tail.flatten := by
  unfold SampleQueue.left
  rw [ends]
  cases s.out_queue with
  | nil => rfl
  | cons p queue => exact List.drop_left

theorem mem_entries {e : QueueEvent α} {xs : List α} {tx : Bool}
    (mem : e ∈ entries channels tx xs) : ∃ x, e = .entry x tx := by
  obtain ⟨x, -, mem⟩ := List.mem_flatMap.1 mem
  exact ⟨x, List.eq_of_mem_replicate mem⟩

/-- The entries of the inner loop carry the keying of the callback. -/
theorem proper_entries (proper : Always (Proper channels) h)
    (keyed : s.tx = !h.foldl beganEmpty false) (xs : List α) :
    Always (Proper channels) (h ++ entries channels s.tx xs) := by
  refine proper.extend fun part e rest split => ?_
  have all : ∀ f ∈ part ++ e :: rest, ∃ x, f = .entry x s.tx := by
    intro f mem
    exact mem_entries (split ▸ mem)
  obtain ⟨x, rfl⟩ := all e (List.mem_append_right _ List.mem_cons_self)
  refine ⟨trivial, ?_⟩
  show s.tx = _
  rw [beganEmpty_append, keyed]
  intro f mem before
  obtain ⟨y, rfl⟩ := all f (List.mem_append_left _ mem)
  rfl

/-- The inner loop takes its samples off what is left. -/
theorem Balanced.copy (inv : Balanced channels h s) {size i : Nat}
    (looking : s.player = .looking size i)
    {p : List α} {queue : List (List α)} (front : s.out_queue = p :: queue) {xs : List α} {j : Nat}
    (copied : copySamples channels size (p.drop s.out_queue_ptr) i = (xs, j)) :
    let ptr := s.out_queue_ptr + xs.length
    Balanced channels (h ++ entries channels s.tx xs)
      { s with
        out_queue_ptr := ptr
        player := if ptr = p.length then .popping size j else .looking size j } := by
  obtain ⟨account, pointer, room, placed⟩ := inv
  obtain ⟨rest, split, count, -⟩ := copySamples_eq channels size (p.drop s.out_queue_ptr) i
  unfold SampleQueue.Placed at placed
  simp only [looking] at placed
  obtain ⟨begun, inside, divides, keyed⟩ := placed
  have bound := @copySamples_le _ channels size (p.drop s.out_queue_ptr) i inside
  rw [copied] at split count bound
  simp only at split count bound
  rw [front, List.headD_cons] at pointer
  have length : (p.drop s.out_queue_ptr).length = xs.length + rest.length := by
    rw [split, List.length_append]
  rw [List.length_drop] at length
  have fits : s.out_queue_ptr + xs.length ≤ p.length := by
    omega
  have place : (h ++ entries channels s.tx xs).foldl written 0 = j ∧ j < size + channels ∧
      channels ∣ j ∧ s.tx = !(h ++ entries channels s.tx xs).foldl beganEmpty false := by
    refine ⟨?_, bound, ?_, ?_⟩
    · rw [List.foldl_append, begun, written_entries]
      exact count.symm
    · rw [count]
      exact Nat.dvd_add divides (Nat.dvd_mul_left _ _)
    · rw [beganEmpty_append, keyed]
      intro e mem before
      obtain ⟨x, rfl⟩ := mem_entries mem
      rfl
  refine ⟨?_, by rwa [front], room, ?_⟩
  · rw [played_append, played_entries, due_append, due_entries, List.append_nil, ← account,
      SampleQueue.left_front front pointer split, interleaved_append, List.append_assoc]
    rfl
  · unfold SampleQueue.Placed
    by_cases done : s.out_queue_ptr + xs.length = p.length
    · simp only [if_pos done]
      obtain ⟨begun, inside, divides, keyed⟩ := place
      exact ⟨begun, inside, divides, keyed, front ▸ List.cons_ne_nil p queue, by rw [front]; exact done⟩
    · simp only [if_neg done]
      exact place

/-- Silence, up to the end of the buffer. -/
theorem Balanced.fill (positive : 0 < channels) (inv : Balanced channels h s) {size i : Nat}
    (looking : s.player = .looking size i)
    (stops : size ≤ i ∨ s.out_queue = []) :
    Balanced channels (h ++ (s.fill size i).2) (s.fill size i).1 ∧
      (Always (Proper channels) h → Always (Proper channels) (h ++ (s.fill size i).2)) := by
  have idle : ∀ e ∈ (s.fill size i).2, e = .silence := fun e mem => List.eq_of_mem_replicate mem
  have same := @idle_append _ h _ channels fun e mem => by
    rw [idle e mem]
    exact ⟨rfl, rfl⟩
  constructor
  · obtain ⟨account, pointer, room, placed⟩ := inv
    unfold SampleQueue.Placed at placed
    simp only [looking] at placed
    obtain ⟨begun, inside, divides, -⟩ := placed
    have total : (h ++ (s.fill size i).2).foldl written 0 = i + (size - i) := by
      rw [List.foldl_append, begun]
      exact written_silence _ _
    refine ⟨?_, pointer, room, ?_⟩
    · rw [same.1, same.2]
      exact account
    · show size ≤ _ ∧ _ < size + channels ∧ (channels ∣ size → _ = size)
      rw [total]
      refine ⟨by omega, by omega, fun whole => ?_⟩
      have within := le_of_dvd_of_lt_add divides whole inside
      omega
  · intro proper
    refine proper.extend fun part e rest split => ?_
    have all : ∀ f ∈ part ++ e :: rest, f = .silence := fun f mem => idle f (split ▸ mem)
    rw [all e (List.mem_append_right _ List.mem_cons_self)]
    have queue : s.out_queue = [] := by
      rcases stops with full | queue
      · have none : (s.fill size i).2 = [] := by
          show List.replicate (size - i) _ = _
          rw [Nat.sub_eq_zero_of_le full]
          rfl
        rw [none] at split
        cases part <;> cases split
      · exact queue
    have before := @idle_append _ h part channels fun f mem => by
      rw [all f (List.mem_append_left _ mem)]
      exact ⟨rfl, rfl⟩
    refine ⟨?_, trivial⟩
    show played _ = due channels _
    rw [before.1, before.2]
    exact inv.empty queue

/-- A callback begins, and keys the transmitter if there is something to play. -/
theorem Balanced.callback (positive : 0 < channels) (inv : Balanced channels h s) (size : Nat) :
    Balanced channels (h ++ (SampleQueue.step channels (.callback size) s).2)
        (SampleQueue.step channels (.callback size) s).1 ∧
      ∀ e ∈ (SampleQueue.step channels (.callback size) s).2, ∀ before, Proper channels before e := by
  unfold SampleQueue.step
  simp only
  split
  case isFalse =>
    rw [List.append_nil]
    exact ⟨inv, fun e mem => absurd mem List.not_mem_nil⟩
  case isTrue waiting =>
    obtain ⟨account, pointer, room, placed⟩ := inv
    unfold SampleQueue.Placed at placed
    simp only [waiting] at placed
    have start : 0 < size + channels := by omega
    split
    case isTrue =>
      have same := @idle_append _ h [.began false, .set_tx true] channels
        (List.forall_mem_cons.2 ⟨⟨rfl, rfl⟩, List.forall_mem_singleton.2 ⟨rfl, rfl⟩⟩)
      refine ⟨⟨by rw [same.1, same.2]; exact account, pointer, room, ?_⟩, ?_⟩
      · refine ⟨?_, start, Nat.dvd_zero _, ?_⟩ <;> rw [List.foldl_append] <;> rfl
      · exact List.forall_mem_cons.2
          ⟨fun _ => ⟨trivial, trivial⟩, List.forall_mem_singleton.2 fun _ => ⟨trivial, trivial⟩⟩
    case isFalse keeps =>
      have same := @idle_append _ h [.began (s.out_queue = [])] channels
        (List.forall_mem_singleton.2 ⟨rfl, rfl⟩)
      refine ⟨⟨by rw [same.1, same.2]; exact account, pointer, room, ?_⟩, ?_⟩
      · refine ⟨?_, start, Nat.dvd_zero _, ?_⟩ <;> rw [List.foldl_append]
        · rfl
        · show s.tx = !decide (s.out_queue = [])
          by_cases queue : s.out_queue = []
          · rw [decide_eq_true queue]
            cases on : s.tx
            · rfl
            · exact absurd queue (placed on)
          · rw [decide_eq_false queue]
            by_contra off
            exact keeps ⟨queue, off⟩
      · exact List.forall_mem_singleton.2 fun _ => ⟨trivial, trivial⟩

/-- A front that is played to its end makes room. -/
theorem Balanced.pop (inv : Balanced channels h s) {size i : Nat}
    (popping : s.player = .popping size i) :
    Balanced channels h
      { s with out_queue := s.out_queue.tail, out_queue_ptr := 0, player := .looking size i } := by
  obtain ⟨account, pointer, room, placed⟩ := inv
  unfold SampleQueue.Placed at placed
  simp only [popping] at placed
  obtain ⟨begun, inside, divides, keyed, -, ends⟩ := placed
  refine ⟨?_, Nat.zero_le _, ?_, begun, inside, divides, keyed⟩
  · rw [← account, SampleQueue.left_tail ends]
    rfl
  · refine Nat.le_trans (Nat.add_le_add_right ?_ _) room
    exact Nat.le_trans (Nat.le_of_eq List.length_tail) (Nat.sub_le _ _)

/-- A callback ends, and takes the key off if there is nothing left to play. -/
theorem Balanced.finish (inv : Balanced channels h s) (proper : Always (Proper channels) h) {size : Nat}
    (ending : s.player = .ending size) :
    Balanced channels (h ++ (s.play channels).2) (s.play channels).1 ∧
      Always (Proper channels) (h ++ (s.play channels).2) := by
  have all := inv.empty
  obtain ⟨account, pointer, room, placed⟩ := inv
  unfold SampleQueue.Placed at placed
  simp only [ending] at placed
  unfold SampleQueue.play
  simp only [ending]
  split
  case isTrue off =>
    have same := @idle_append _ h [.set_tx false, .ended size] channels
      (List.forall_mem_cons.2 ⟨⟨rfl, rfl⟩, List.forall_mem_singleton.2 ⟨rfl, rfl⟩⟩)
    constructor
    · refine ⟨?_, pointer, room, fun on => nomatch on⟩
      rw [same.1, same.2]
      exact account
    · rw [List.append_cons]
      refine always_snoc.2 ⟨always_snoc.2 ⟨proper, trivial, all off.1⟩, ?_, trivial⟩
      show size ≤ (h ++ [QueueEvent.set_tx false]).foldl written 0 ∧ _
      rw [List.foldl_append]
      exact placed
  case isFalse keeps =>
    have same := @idle_append _ h [.ended size] channels (List.forall_mem_singleton.2 ⟨rfl, rfl⟩)
    refine ⟨⟨?_, pointer, room, fun on queue => keeps ⟨queue, on⟩⟩,
      always_snoc.2 ⟨proper, placed, trivial⟩⟩
    rw [same.1, same.2]
    exact account

/-- A step of the sound card's thread. -/
theorem Balanced.play (positive : 0 < channels) (inv : Balanced channels h s)
    (proper : Always (Proper channels) h) :
    Balanced channels (h ++ (s.play channels).2) (s.play channels).1 ∧
      Always (Proper channels) (h ++ (s.play channels).2) := by
  cases pc : s.player with
  | waiting =>
    unfold SampleQueue.play
    simp only [pc]
    rw [List.append_nil]
    exact ⟨inv, proper⟩
  | looking size i =>
    unfold SampleQueue.play
    simp only [pc]
    split
    case isFalse full =>
      have stops : size ≤ i := by
        by_contra room
        exact full ⟨positive, Nat.lt_of_not_le room⟩
      obtain ⟨kept, shown⟩ := inv.fill positive pc (.inl stops)
      exact ⟨kept, shown proper⟩
    case isTrue =>
      split
      case h_1 queue =>
        obtain ⟨kept, shown⟩ := inv.fill positive pc (.inr queue)
        exact ⟨kept, shown proper⟩
      case h_2 p queue front =>
        have keyed := inv.placed
        unfold SampleQueue.Placed at keyed
        simp only [pc] at keyed
        exact ⟨inv.copy pc front rfl, proper_entries proper keyed.2.2.2 _⟩
  | popping size i =>
    unfold SampleQueue.play
    simp only [pc]
    rw [List.append_nil]
    exact ⟨inv.pop pc, proper⟩
  | ending size => exact inv.finish proper pc

/-- Events that are no entries do not move the callback. -/
theorem SampleQueue.Placed.append (placed : s.Placed channels h) (count : ∀ n, es.foldl written n = n)
    (began : ∀ empty, es.foldl beganEmpty empty = empty) : s.Placed channels (h ++ es) := by
  unfold SampleQueue.Placed at placed ⊢
  split at placed <;> simpa only [List.foldl_append, count, began] using placed

/-- A transmission goes to the end of the queue. -/
theorem Balanced.push (inv : Balanced channels h s) {samples : List α} (out : s.out = some samples) :
    Balanced channels (h ++ [.accepted samples])
      { s with out_queue := s.out_queue ++ [samples], out := none } := by
  obtain ⟨account, pointer, room, placed⟩ := inv
  have head : s.out_queue = [] ∧ s.out_queue_ptr = 0 ∨
      (s.out_queue ++ [samples]).headD [] = s.out_queue.headD [] := by
    cases queue : s.out_queue with
    | nil =>
      rw [queue] at pointer
      exact .inl ⟨rfl, Nat.le_zero.1 pointer⟩
    | cons p queue' => exact .inr rfl
  refine ⟨?_, ?_, ?_, ?_⟩
  · have fits : s.out_queue_ptr ≤ s.out_queue.flatten.length := by
      refine Nat.le_trans pointer ?_
      cases s.out_queue with
      | nil => exact Nat.le_refl _
      | cons p queue => simp
    have left : (s.out_queue ++ [samples]).flatten.drop s.out_queue_ptr = s.left ++ samples := by
      rw [List.flatten_append, List.flatten_singleton, List.drop_append_of_le_length fits]
      rfl
    unfold SampleQueue.left
    rw [played_append, due_append, left, interleaved_append, ← account]
    simp [played, due, QueueEvent.entry?, QueueEvent.accepted?]
  · rcases head with ⟨-, start⟩ | same
    · exact start ▸ Nat.zero_le _
    · exact same ▸ pointer
  · rw [out] at room
    rw [List.length_append]
    exact room
  · refine SampleQueue.Placed.append ?_ (fun _ => rfl) fun _ => rfl
    unfold SampleQueue.Placed at placed ⊢
    split at placed
    case h_1 pc =>
      simp only [pc]
      exact fun _ => List.append_ne_nil_of_right_ne_nil _ (List.cons_ne_nil _ _)
    case h_3 pc =>
      simp only [pc]
      obtain ⟨begun, inside, divides, keyed, some, ends⟩ := placed
      have same := head.resolve_left fun none => some none.1
      exact ⟨begun, inside, divides, keyed, List.append_ne_nil_of_left_ne_nil some _, same ▸ ends⟩
    all_goals
      rename_i pc
      simpa only [pc] using placed

/-- A step of the thread that sends. -/
theorem Balanced.sends (inv : Balanced channels h s) (proper : Always (Proper channels) h)
    {turn : QueueTurn α} (sends : turn = .push ∨ ∃ samples, turn = .send samples) :
    Balanced channels (h ++ (SampleQueue.step channels turn s).2) (SampleQueue.step channels turn s).1 ∧
      Always (Proper channels) (h ++ (SampleQueue.step channels turn s).2) := by
  have same : Balanced channels (h ++ []) s ∧ Always (Proper channels) (h ++ []) := by
    rw [List.append_nil]
    exact ⟨inv, proper⟩
  rcases sends with rfl | ⟨samples, rfl⟩
  · unfold SampleQueue.step
    simp only
    split
    case h_1 => exact same
    case h_2 samples out => exact ⟨inv.push out, always_snoc.2 ⟨proper, trivial, trivial⟩⟩
  · unfold SampleQueue.step
    simp only
    split
    case h_2 => exact same
    case h_1 out =>
      obtain ⟨account, pointer, room, placed⟩ := inv
      split
      · have idle := @idle_append _ h [.dropped] channels (List.forall_mem_singleton.2 ⟨rfl, rfl⟩)
        refine ⟨⟨?_, pointer, room, placed.append (fun _ => rfl) fun _ => rfl⟩, ?_⟩
        · rw [idle.1, idle.2]
          exact account
        · exact always_snoc.2 ⟨proper, trivial, trivial⟩
      · rw [List.append_nil]
        refine ⟨⟨account, pointer, ?_, placed⟩, proper⟩
        show s.out_queue.length + 1 ≤ 6
        omega

/-- At every moment of any order of the steps. -/
theorem balanced (positive : 0 < channels)
    (run : Runs (SampleQueue.step channels) (fun _ _ _ => True) .init h s) :
    Balanced channels h s ∧ Always (Proper channels) h := by
  refine run.invariant (P := fun h s => Balanced channels h s ∧ Always (Proper channels) h) ?_ ?_
  · exact ⟨⟨rfl, Nat.le_refl _, Nat.zero_le _, fun on => nomatch on⟩, always_nil⟩
  · rintro h s turn ⟨inv, proper⟩ -
    cases turn with
    | callback size =>
      obtain ⟨kept, free⟩ := inv.callback positive size
      exact ⟨kept, proper.append free⟩
    | play => exact inv.play positive proper
    | send samples => exact inv.sends proper (.inr ⟨samples, rfl⟩)
    | push => exact inv.sends proper (.inl rfl)

/-- A transmission of three samples gets into the queue while the first of two callbacks is under
way. -/
def meanwhile : List (QueueTurn Nat) :=
  [.callback 4, .send [1, 2, 3], .push, .play, .play, .play, .callback 4, .play, .play, .play, .play]

/-- However the two threads are interleaved, the samples of the transmissions that got into the
queue are played once for each channel, in order and without a gap: there is silence only when all
of them are played.  A buffer is filled, and overrun only if its size is no multiple of the number
of channels.  The queue holds six transmissions at most. -/
theorem samples_in_order (positive : 0 < channels)
    (run : Runs (SampleQueue.step channels) (fun _ _ _ => True) .init h s) :
    played h ++ interleaved channels s.left = due channels h ∧ s.out_queue.length ≤ 6 ∧
      Always (InOrder channels) h := by
  obtain ⟨inv, proper⟩ := balanced positive run
  refine ⟨inv.account, Nat.le_trans (Nat.le_add_right _ _) inv.room, ?_⟩
  exact fun before e after split => (proper before e after split).1

theorem samples_in_order_meanwhile :
    let after := feed (SampleQueue.step 2) meanwhile [] .init
    played after.1 = [1, 1, 2, 2, 3, 3] ∧
      played after.1 ++ interleaved 2 after.2.left = due 2 after.1 ∧ after.2.out_queue.length ≤ 6 ∧
        Always (InOrder 2) after.1 :=
  ⟨by decide, samples_in_order (by decide) (runs_feed _ meanwhile _)⟩

/-- An entry is played with the transmitter on unless its callback began with an empty queue, which
leaves the beginning of a transmission that gets into the queue meanwhile unsent.  The transmitter
is not taken off before all is played. -/
theorem ptt_follows (positive : 0 < channels)
    (run : Runs (SampleQueue.step channels) (fun _ _ _ => True) .init h s) :
    Always (Keyed channels) h := by
  obtain ⟨-, proper⟩ := balanced positive run
  exact fun before e after split => (proper before e after split).2

theorem ptt_follows_meanwhile :
    let after := feed (SampleQueue.step 2) meanwhile [] .init
    .entry 2 false ∈ after.1 ∧ .entry 3 true ∈ after.1 ∧ Always (Keyed 2) after.1 :=
  ⟨by decide, by decide, ptt_follows (by decide) (runs_feed _ meanwhile _)⟩

/-! ## A callback on its own -/

/-- The steps of a callback that are still to come, with `n` transmissions in the queue. -/
def Player.stepsLeft (n : Nat) : Player → Nat
  | .waiting => 0
  | .ending _ => 1
  | .looking size i => if size ≤ i then 2 else 2 * n + 3
  | .popping _ _ => 2 * n + 2

theorem Player.two_le_stepsLeft (n size i : Nat) : 2 ≤ (Player.looking size i).stepsLeft n := by
  show 2 ≤ if size ≤ i then 2 else 2 * n + 3
  split <;> omega

/-- A step of the callback takes one of them. -/
theorem Balanced.stepsLeft_play (inv : Balanced channels h s) (busy : s.player ≠ .waiting) :
    (s.play channels).1.player.stepsLeft (s.play channels).1.out_queue.length <
      s.player.stepsLeft s.out_queue.length := by
  have placed := inv.placed
  unfold SampleQueue.Placed at placed
  unfold SampleQueue.play
  cases pc : s.player with
  | waiting => exact absurd pc busy
  | ending size =>
    simp only
    split <;> exact Nat.one_pos
  | popping size i =>
    simp only [pc] at placed
    have some := List.length_pos_of_ne_nil placed.2.2.2.2.1
    have shorter : s.out_queue.tail.length = s.out_queue.length - 1 := List.length_tail
    show (if size ≤ i then 2 else 2 * s.out_queue.tail.length + 3) < 2 * s.out_queue.length + 2
    split <;> omega
  | looking size i =>
    simp only
    split
    case isFalse => exact Nat.lt_of_succ_le (Player.two_le_stepsLeft _ size i)
    case isTrue room =>
      split
      case h_1 => exact Nat.lt_of_succ_le (Player.two_le_stepsLeft _ size i)
      case h_2 p queue front =>
        obtain ⟨rest, samples, -, ends⟩ := copySamples_eq channels size (p.drop s.out_queue_ptr) i
        have before : (Player.looking size i).stepsLeft s.out_queue.length =
            2 * s.out_queue.length + 3 := if_neg (Nat.not_le_of_lt room.2)
        rw [before]
        simp only
        split
        case isTrue => exact Nat.lt_succ_self _
        case isFalse unfinished =>
          have full : size ≤ (copySamples channels size (p.drop s.out_queue_ptr) i).2 := by
            rcases ends with rfl | full
            · rw [List.append_nil] at samples
              have length := congrArg List.length samples
              have pointer := inv.pointer
              rw [front, List.headD_cons] at pointer
              rw [List.length_drop] at length
              omega
            · exact full
          show (if size ≤ _ then 2 else _) < _
          rw [if_pos full]
          omega

/-- What an event puts into the buffer: a sample or silence. -/
def QueueEvent.cell? : QueueEvent α → Option (Option α)
  | .entry x _ => some (some x)
  | .silence => some none
  | _ => none

/-- The buffer that a callback leaves. -/
def cells (h : List (QueueEvent α)) : List (Option α) := h.filterMap QueueEvent.cell?

/-- The first `size` samples, or all of them and silence. -/
def buffer (size : Nat) (xs : List α) : List (Option α) :=
  (xs.take size).map some ++ List.replicate (size - xs.length) none

theorem cells_append : cells (h ++ es) = cells h ++ cells es := List.filterMap_append

theorem cells_entries (channels : Nat) (xs : List α) (tx : Bool) :
    cells (entries channels tx xs) = (interleaved channels xs).map some := by
  unfold cells entries interleaved
  rw [List.filterMap_flatMap, List.map_flatMap]
  congr 1
  funext x
  rw [List.map_replicate]
  exact List.filterMap_replicate_of_some rfl

theorem cells_silence (k : Nat) :
    cells (List.replicate k (QueueEvent.silence (α := α))) = List.replicate k none :=
  List.filterMap_replicate_of_some rfl

theorem buffer_append {size : Nat} {xs : List α} (fits : xs.length ≤ size) (ys : List α) :
    buffer size (xs ++ ys) = xs.map some ++ buffer (size - xs.length) ys := by
  unfold buffer
  rw [List.take_append, List.take_of_length_le fits, List.map_append, List.append_assoc,
    List.length_append, Nat.sub_add_eq]

theorem length_interleaved (channels : Nat) (xs : List α) :
    (interleaved channels xs).length = xs.length * channels := by
  induction xs with
  | nil => exact (Nat.zero_mul _).symm
  | cons x xs ih =>
    unfold interleaved at ih ⊢
    rw [List.flatMap_cons, List.length_append, List.length_replicate, ih, List.length_cons,
      Nat.succ_mul]
    omega

/-- What the sound card's thread shows in so many steps, and where it gets. -/
def SampleQueue.plays (channels n : Nat) (s : SampleQueue α) : List (QueueEvent α) × SampleQueue α :=
  feed (SampleQueue.step channels) (List.replicate n .play) [] s

theorem SampleQueue.plays_succ (n : Nat) (s : SampleQueue α) :
    s.plays channels (n + 1) =
      ((s.play channels).2 ++ ((s.play channels).1.plays channels n).1,
        ((s.play channels).1.plays channels n).2) :=
  feed_history (SampleQueue.step channels) (List.replicate n .play) (s.play channels).2 (s.play channels).1

/-- After the last entry the callback ends with two more steps at most. -/
theorem SampleQueue.fill_plays {size i : Nat} (filled : s.play channels = s.fill size i) :
    (s.plays channels 2).2.player = .waiting ∧
      cells (s.plays channels 2).1 = List.replicate (size - i) none := by
  rw [SampleQueue.plays_succ, SampleQueue.plays_succ, filled, cells_append]
  have ending : (s.fill size i).1.player = .ending size := rfl
  unfold SampleQueue.play
  simp only [ending]
  split <;> exact ⟨rfl, (congrArg (· ++ []) (cells_silence _)).trans (List.append_nil _)⟩

/-- The loop of a callback without another thread in between: what is left goes into the rest of the
buffer. -/
theorem Balanced.plays (positive : 0 < channels) {size i : Nat} (divides : channels ∣ size)
    (inv : Balanced channels h s) (proper : Always (Proper channels) h)
    (loop : s.player = .looking size i ∨ s.player = .popping size i) :
    ∃ n, n ≤ s.player.stepsLeft s.out_queue.length ∧ (s.plays channels n).2.player = .waiting ∧
      cells (s.plays channels n).1 = buffer (size - i) (interleaved channels s.left) := by
  induction steps : s.player.stepsLeft s.out_queue.length using Nat.strongRecOn
    generalizing h s i with
  | ind k ih =>
    have busy : s.player ≠ .waiting := by
      rcases loop with pc | pc <;> rw [pc] <;> exact Player.noConfusion
    have fewer := inv.stepsLeft_play busy
    obtain ⟨kept, shown⟩ := inv.play positive proper
    have placed := inv.placed
    unfold SampleQueue.Placed at placed
    rcases loop with pc | pc
    · simp only [pc] at placed
      obtain ⟨-, inside, count, -⟩ := placed
      by_cases stops : size ≤ i ∨ s.out_queue = []
      · have filled : s.play channels = s.fill size i := by
          unfold SampleQueue.play
          simp only [pc]
          split
          case isFalse => rfl
          case isTrue room =>
            rw [stops.resolve_left (Nat.not_le_of_lt room.2)]
        obtain ⟨ends, shows⟩ := s.fill_plays filled
        refine ⟨2, steps ▸ pc ▸ Player.two_le_stepsLeft _ size i, ends, shows.trans ?_⟩
        rcases stops with full | queue
        · rw [Nat.sub_eq_zero_of_le full]
          unfold buffer
          simp
        · unfold SampleQueue.left buffer
          rw [queue]
          simp [interleaved]
      · obtain ⟨room, some⟩ := not_or.1 stops
        obtain ⟨p, queue, front⟩ := List.exists_cons_of_ne_nil some
        obtain ⟨rest, split, written, -⟩ := copySamples_eq channels size (p.drop s.out_queue_ptr) i
        have bound := @copySamples_le _ channels size (p.drop s.out_queue_ptr) i inside
        have pointer := inv.pointer
        rw [front, List.headD_cons] at pointer
        have left := SampleQueue.left_front front pointer split
        generalize copied : copySamples channels size (p.drop s.out_queue_ptr) i =
          c at written bound left
        have taken : s.play channels =
            ({ s with
                out_queue_ptr := s.out_queue_ptr + c.1.length
                player := if s.out_queue_ptr + c.1.length = p.length then .popping size c.2
                  else .looking size c.2 },
              entries channels s.tx c.1) := by
          unfold SampleQueue.play
          simp only [pc]
          rw [if_pos ⟨positive, Nat.lt_of_not_le room⟩]
          split
          · rename_i none
            exact absurd none some
          · rename_i front'
            rw [front] at front'
            cases front'
            rw [copied]
        have next : (s.play channels).1.player = .looking size c.2 ∨
            (s.play channels).1.player = .popping size c.2 := by
          rw [taken]
          simp only
          split
          · exact .inr rfl
          · exact .inl rfl
        rw [taken] at fewer kept shown next
        obtain ⟨n, le, ends, shows⟩ := ih _ (steps ▸ fewer) kept shown next rfl
        have within : c.2 ≤ size := by
          refine le_of_dvd_of_lt_add ?_ divides bound
          rw [written]
          exact Nat.dvd_add count (Nat.dvd_mul_left _ _)
        have length := length_interleaved channels c.1
        refine ⟨n + 1, by omega, ?_, ?_⟩
        · rw [SampleQueue.plays_succ, taken]
          exact ends
        · rw [SampleQueue.plays_succ, taken, left, interleaved_append, buffer_append (by omega),
            cells_append, cells_entries, shows, length]
          have rest : size - i - c.1.length * channels = size - c.2 := by omega
          rw [rest]
          rfl
    · simp only [pc] at placed
      obtain ⟨-, -, -, -, -, atEnd⟩ := placed
      have popped : s.play channels =
          ({ s with out_queue := s.out_queue.tail, out_queue_ptr := 0, player := .looking size i },
            []) := by
        unfold SampleQueue.play
        simp only [pc]
      rw [popped] at fewer kept shown
      obtain ⟨n, le, ends, shows⟩ := ih _ (steps ▸ fewer) kept shown (.inl rfl) rfl
      refine ⟨n + 1, by omega, ?_, ?_⟩
      · rw [SampleQueue.plays_succ, popped]
        exact ends
      · rw [SampleQueue.plays_succ, popped, SampleQueue.left_tail atEnd]
        exact shows

/-- A callback that no other thread comes between ends after at most `2 n + 3` further steps, with `n`
transmissions in the queue, and leaves in the buffer what is next to be played, with silence after
it. -/
theorem callback_buffer (positive : 0 < channels)
    (run : Runs (SampleQueue.step channels) (fun _ _ _ => True) .init h s)
    (waiting : s.player = .waiting) {size : Nat} (divides : channels ∣ size) :
    ∃ n ≤ 2 * s.out_queue.length + 3,
      let called := feed (SampleQueue.step channels) (.callback size :: List.replicate n .play) [] s
      called.2.player = .waiting ∧ cells called.1 = buffer size (interleaved channels s.left) := by
  obtain ⟨inv, proper⟩ := balanced positive run
  obtain ⟨kept, free⟩ := inv.callback positive size
  have shown := proper.append free
  have begun : (SampleQueue.step channels (.callback size) s).1.player = .looking size 0 ∧
      (SampleQueue.step channels (.callback size) s).1.left = s.left ∧
      (SampleQueue.step channels (.callback size) s).1.out_queue = s.out_queue ∧
      cells (SampleQueue.step channels (.callback size) s).2 = [] := by
    unfold SampleQueue.step
    simp only
    rw [if_pos waiting]
    split <;> exact ⟨rfl, rfl, rfl, rfl⟩
  obtain ⟨looking, left, queue, none⟩ := begun
  obtain ⟨n, le, ends, shows⟩ := kept.plays positive divides shown (.inl looking)
  refine ⟨n, ?_, ?_⟩
  · refine Nat.le_trans le ?_
    rw [looking, queue]
    show (if size ≤ 0 then 2 else 2 * s.out_queue.length + 3) ≤ _
    split <;> omega
  · rw [feed, feed_history]
    refine ⟨ends, ?_⟩
    rw [List.nil_append, cells_append, none, ← left]
    exact shows

theorem callback_buffer_three :
    let s := (feed (SampleQueue.step 2) [.send [1, 2, 3], .push] [] .init).2
    ∃ n ≤ 5,
      let called := feed (SampleQueue.step 2) (.callback 8 :: List.replicate n .play) [] s
      called.2.player = .waiting ∧
        cells called.1 = [some 1, some 1, some 2, some 2, some 3, some 3, none, none] :=
  callback_buffer (by decide) (runs_feed (SampleQueue.step 2) [.send [1, 2, 3], .push] .init) rfl
    (by decide : 2 ∣ 8)

end QFax.Extmodem

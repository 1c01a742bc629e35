import Mathlib.Algebra.Ring.Nat
import QFax.Lib.Machine
import QFax.Lib.RingBuffer
import QFax.Linmodem.Lm

/-!
# The ring behind a bounded queue

`struct sm_fifo` keeps the bytes of a queue in a buffer, with a pointer to the next byte to write and
one to the next byte to read; either goes back to the start of the buffer when it reaches its end.  The
operations on it, in any order, are those of the bounded queue (`fifo_refines`).
-/

namespace QFax.Linmodem

open Machine RingBuffer

/-- `struct sm_fifo` with the memory that its pointers are addresses of. -/
structure FifoRing where
  mem : Nat → BitVec 8
  sptr : Nat
  wptr : Nat
  rptr : Nat
  eptr : Nat
  size : Nat
  max_size : Nat

namespace FifoRing

def sm_init_fifo (mem : Nat → BitVec 8) (buf size : Nat) : FifoRing where
  mem := mem
  sptr := buf
  wptr := buf
  rptr := buf
  eptr := buf + size
  size := 0
  max_size := size

def sm_flush (f : FifoRing) : FifoRing := { f with wptr := f.sptr, rptr := f.sptr, size := 0 }

def sm_size (f : FifoRing) : Nat := f.size

/-- A pointer behind one byte. -/
def next (f : FifoRing) (ptr : Nat) : Nat := if ptr + 1 = f.eptr then f.sptr else ptr + 1

/-- The value is stored into an `unsigned char`. -/
def sm_put_bit (f : FifoRing) (v : BitVec 32) : FifoRing :=
  if f.size < f.max_size then
    { f with
      mem := Function.update f.mem f.wptr (v.setWidth 8)
      wptr := f.next f.wptr
      size := f.size + 1 }
  else f

/-- The loop of `sm_put_bits` for the low bits of `v`. -/
def putLow (v : BitVec 32) : Nat → FifoRing → FifoRing
  | 0, f => f
  | i + 1, f => putLow v i (f.sm_put_bit (v.sshiftRight i &&& 1#32))

def sm_put_bits (f : FifoRing) (v : BitVec 32) (n : Int) : FifoRing := putLow v n.toNat f

def sm_peek_bit (f : FifoRing) : BitVec 32 :=
  if 0 < f.size then (f.mem f.rptr).setWidth 32 else -1

def sm_get_bit (f : FifoRing) : BitVec 32 × FifoRing :=
  if 0 < f.size then
    ((f.mem f.rptr).setWidth 32, { f with size := f.size - 1, rptr := f.next f.rptr })
  else (-1, f)

/-- The loop of `sm_get_bits`, with the bits read so far. -/
def getLow (v : BitVec 32) : Nat → FifoRing → BitVec 32 × FifoRing
  | 0, f => (v, f)
  | i + 1, f =>
    let (bit, f') := f.sm_get_bit
    getLow (v ||| bit <<< i) i f'

def sm_get_bits (f : FifoRing) (n : Int) : BitVec 32 × FifoRing :=
  if (f.size : Int) < n then (-1, f) else getLow 0#32 n.toNat f

end FifoRing

/-! ## Runs -/

/-- A call of one of the operations.  Counts of more than 32 bits, for which C leaves the shifts open,
shift everything out. -/
inductive FifoOp
  | put_bit (v : BitVec 32)
  | put_bits (v : BitVec 32) (n : Int)
  | peek_bit
  | get_bit
  | get_bits (n : Int)
  | size
  | flush
  deriving DecidableEq

/-- What a call returns. -/
inductive FifoResult
  | value (v : BitVec 32)
  | size (n : Nat)
  deriving DecidableEq

def ringStep : Step FifoRing FifoOp FifoResult
  | .put_bit v, f => (f.sm_put_bit v, [])
  | .put_bits v n, f => (f.sm_put_bits v n, [])
  | .peek_bit, f => (f, [.value f.sm_peek_bit])
  | .get_bit, f => (f.sm_get_bit.2, [.value f.sm_get_bit.1])
  | .get_bits n, f => ((f.sm_get_bits n).2, [.value (f.sm_get_bits n).1])
  | .size, f => (f, [.size f.sm_size])
  | .flush, f => (f.sm_flush, [])

/-! ## The queue -/

namespace SmFifo

variable {α : Type} (q : SmFifo α)

/-- Entries come in as long as there is room. -/
def accept (xs : List α) : SmFifo α :=
  ⟨(q.items ++ xs).take q.max_size, q.max_size, List.length_take_le _ _⟩

/-- The first entries leave. -/
def leave (n : Nat) : SmFifo α :=
  ⟨q.items.drop n, q.max_size, by
    rw [List.length_drop]
    exact Nat.le_trans (Nat.sub_le _ _) q.bounded⟩

theorem eq_of_items {p q : SmFifo α} (items : p.items = q.items) (max_size : p.max_size = q.max_size) :
    p = q := by
  cases p
  cases q
  cases items
  cases max_size
  rfl

theorem items_accept (xs : List α) : (q.accept xs).items = (q.items ++ xs).take q.max_size := rfl

theorem accept_nil : q.accept [] = q := by
  refine eq_of_items ?_ rfl
  rw [items_accept, List.append_nil, List.take_of_length_le q.bounded]

theorem accept_of_full (xs : List α) (full : q.items.length = q.max_size) : q.accept xs = q :=
  eq_of_items (List.take_left' full) rfl

theorem items_accept_of_room (xs : List α) (room : q.items.length + xs.length ≤ q.max_size) :
    (q.accept xs).items = q.items ++ xs :=
  List.take_of_length_le (by rwa [List.length_append])

theorem accept_accept (xs ys : List α) : (q.accept xs).accept ys = q.accept (xs ++ ys) := by
  refine eq_of_items ?_ rfl
  have max_size : (q.accept xs).max_size = q.max_size := rfl
  rw [items_accept, items_accept, items_accept, max_size, ← List.append_assoc]
  rcases Nat.le_total (q.items ++ xs).length q.max_size with room | full
  · rw [List.take_of_length_le room]
  · have kept : q.max_size ≤ ((q.items ++ xs).take q.max_size).length := by
      rw [List.length_take]
      omega
    rw [List.take_append_of_le_length kept, List.take_take, Nat.min_self,
      List.take_append_of_le_length full]

theorem sm_put_bit_eq (v : α) : Linmodem.sm_put_bit q v = q.accept [v] := by
  have le : q.items.length ≤ q.max_size := q.bounded
  rw [Linmodem.sm_put_bit]
  split
  case isTrue room => exact eq_of_items (q.items_accept_of_room [v] room).symm rfl
  case isFalse full => exact (q.accept_of_full [v] (by omega)).symm

theorem sm_get_bit_eq : Linmodem.sm_get_bit q = (q.items.head?, q.leave 1) := by
  obtain ⟨items, size, bounded⟩ := q
  cases items <;> rfl

theorem items_leave (n : Nat) : (q.leave n).items = q.items.drop n := rfl

theorem leave_leave (m n : Nat) : (q.leave m).leave n = q.leave (m + n) :=
  eq_of_items (List.drop_drop ..) rfl

end SmFifo

/-- The low bits of `v` as they are queued, from the most significant one on. -/
def queuedBits (v : BitVec 32) : Nat → List (BitVec 8)
  | 0 => []
  | i + 1 => (v.sshiftRight i &&& 1#32).setWidth 8 :: queuedBits v i

/-- The number with these bits. -/
def wordOf : List (BitVec 8) → BitVec 32
  | [] => 0#32
  | bit :: bits => bit.setWidth 32 <<< bits.length ||| wordOf bits

/-- A byte as it is returned, `-1` when there is none. -/
def returned : Option (BitVec 8) → BitVec 32
  | none => -1
  | some v => v.setWidth 32

/-- The operations on a queue that holds at most `max_size` entries. -/
def queueStep : Step (SmFifo (BitVec 8)) FifoOp FifoResult
  | .put_bit v, q => (Linmodem.sm_put_bit q (v.setWidth 8), [])
  | .put_bits v n, q => (q.accept (queuedBits v n.toNat), [])
  | .peek_bit, q => (q, [.value (returned q.items.head?)])
  | .get_bit, q => ((Linmodem.sm_get_bit q).2, [.value (returned (Linmodem.sm_get_bit q).1)])
  | .get_bits n, q =>
    if (q.items.length : Int) < n then (q, [.value (-1)])
    else (q.leave n.toNat, [.value (wordOf (q.items.take n.toNat))])
  | .size, q => (q, [.size (Linmodem.sm_size q)])
  | .flush, q => (Linmodem.sm_flush q, [])

/-! ## Bits of a number -/

@[simp] theorem length_queuedBits (v : BitVec 32) (n : Nat) : (queuedBits v n).length = n := by
  induction n with
  | zero => rfl
  | succ i ih => rw [queuedBits, List.length_cons, ih]

/-- A bit of a number, in its place in the number that is put together. -/
theorem getLsbD_placed (v : BitVec 32) (i : Nat) {j : Nat} (lt : j < 32) :
    (((v.sshiftRight i &&& 1#32).setWidth 8).setWidth 32 <<< i).getLsbD j =
      (decide (j = i) && v.getLsbD j) := by
  rw [BitVec.getLsbD_shiftLeft, BitVec.getLsbD_setWidth, BitVec.getLsbD_setWidth, BitVec.getLsbD_and,
    BitVec.getLsbD_one, BitVec.getLsbD_sshiftRight]
  rcases Nat.lt_trichotomy j i with below | rfl | above
  · simp [below, Nat.ne_of_lt below]
  · simp [lt]
  · have later : j - i ≠ 0 := by omega
    simp [later, Nat.ne_of_gt above]

theorem getLsbD_wordOf (v : BitVec 32) (n : Nat) {j : Nat} (lt : j < 32) :
    (wordOf (queuedBits v n)).getLsbD j = (decide (j < n) && v.getLsbD j) := by
  induction n with
  | zero => simp [queuedBits, wordOf]
  | succ i ih =>
    rw [queuedBits, wordOf, length_queuedBits, BitVec.getLsbD_or, getLsbD_placed v i lt, ih,
      ← Bool.and_or_distrib_right, ← Bool.decide_or]
    congr 2
    exact propext (by omega)

/-- Bits that are put and then got are the number again. -/
theorem wordOf_queuedBits {v : BitVec 32} {n : Nat} (lt : v.toNat < 2 ^ n) :
    wordOf (queuedBits v n) = v := by
  apply BitVec.eq_of_getLsbD_eq
  intro j inside
  rw [getLsbD_wordOf v n inside]
  by_cases low : j < n
  · rw [decide_eq_true low, Bool.true_and]
  · have clear : v.getLsbD j = false :=
      Nat.testBit_lt_two_pow (Nat.lt_of_lt_of_le lt (Nat.pow_le_pow_right (by omega) (by omega)))
    rw [clear, Bool.and_false]

/-! ## One operation -/

namespace FifoRing

/-- The slots of the ring. -/
def ring (f : FifoRing) (i : Nat) : BitVec 8 := f.mem (f.sptr + i)

/-- The bytes in the ring, from the next one to read on. -/
def contents (f : FifoRing) : List (BitVec 8) := slice f.max_size f.ring (f.rptr - f.sptr) f.size

/-- The pointers are in the buffer and the one to write to is `size` bytes, around the ring, behind the
one to read from. -/
structure RingRelation (f : FifoRing) : Prop where
  eptr_eq : f.eptr = f.sptr + f.max_size
  size_le : f.size ≤ f.max_size
  le_rptr : f.sptr ≤ f.rptr
  rptr_lt : 0 < f.max_size → f.rptr < f.eptr
  wptr_eq : f.wptr = f.sptr + (f.rptr - f.sptr + f.size) % f.max_size

variable {f : FifoRing}

theorem RingRelation.read_inside (relation : f.RingRelation) (some : 0 < f.size) :
    f.rptr = f.sptr + (f.rptr - f.sptr) % f.max_size := by
  have inside : f.rptr < f.eptr := relation.rptr_lt (Nat.lt_of_lt_of_le some relation.size_le)
  have start : f.eptr = f.sptr + f.max_size := relation.eptr_eq
  have le : f.sptr ≤ f.rptr := relation.le_rptr
  rw [Nat.mod_eq_of_lt (by omega)]
  omega

/-- A pointer moves on to the next slot. -/
theorem RingRelation.next_eq (relation : f.RingRelation) (positive : 0 < f.max_size) (i : Nat) :
    f.next (f.sptr + i % f.max_size) = f.sptr + (i + 1) % f.max_size := by
  rw [next, next_slot i positive, relation.eptr_eq]
  by_cases last : i % f.max_size + 1 = f.max_size
  · rw [if_pos last, if_pos (by omega), Nat.add_zero]
  · rw [if_neg last, if_neg (by omega), Nat.add_assoc]

/-- Writing to an address of the buffer is writing into a slot. -/
theorem ring_update (f : FifoRing) (i : Nat) (v : BitVec 8) :
    (fun j => Function.update f.mem (f.sptr + i) v (f.sptr + j)) = Function.update f.ring i v :=
  Function.update_comp_eq_of_injective f.mem (fun _ _ => Nat.add_left_cancel) i v

/-- The ring has what the queue has. -/
structure Represents (f : FifoRing) (q : SmFifo (BitVec 8)) : Prop where
  relation : f.RingRelation
  contents_eq : f.contents = q.items
  max_size_eq : f.max_size = q.max_size

variable {q : SmFifo (BitVec 8)}

theorem Represents.size_eq (rep : f.Represents q) : f.size = q.items.length := by
  rw [← rep.contents_eq, contents, length_slice]

theorem Represents.init (mem : Nat → BitVec 8) (buf size : Nat) :
    (sm_init_fifo mem buf size).Represents (Linmodem.sm_init_fifo size) where
  relation := {
    eptr_eq := rfl
    size_le := Nat.zero_le size
    le_rptr := Nat.le_refl buf
    rptr_lt := Nat.lt_add_of_pos_right
    wptr_eq := by simp [sm_init_fifo] }
  contents_eq := rfl
  max_size_eq := rfl

theorem Represents.flush (rep : f.Represents q) : f.sm_flush.Represents (Linmodem.sm_flush q) where
  relation := {
    eptr_eq := rep.relation.eptr_eq
    size_le := Nat.zero_le f.max_size
    le_rptr := Nat.le_refl f.sptr
    rptr_lt := fun positive => by
      rw [sm_flush, rep.relation.eptr_eq]
      exact Nat.lt_add_of_pos_right positive
    wptr_eq := by simp [sm_flush] }
  contents_eq := rfl
  max_size_eq := rep.max_size_eq

theorem Represents.put (rep : f.Represents q) (v : BitVec 32) :
    (f.sm_put_bit v).Represents (q.accept [v.setWidth 8]) := by
  have size : f.size = q.items.length := rep.size_eq
  have max : f.max_size = q.max_size := rep.max_size_eq
  have relation : f.RingRelation := rep.relation
  have le : f.size ≤ f.max_size := relation.size_le
  rw [sm_put_bit]
  split
  case isTrue room =>
    refine ⟨⟨relation.eptr_eq, room, relation.le_rptr, relation.rptr_lt, ?_⟩, ?_, max⟩
    · exact (congrArg f.next relation.wptr_eq).trans (relation.next_eq (by omega) _)
    · have items : (q.accept [v.setWidth 8]).items = f.contents ++ [v.setWidth 8] := by
        rw [q.items_accept_of_room _ (by rw [List.length_singleton]; omega), rep.contents_eq]
      have slot : f.wptr = f.sptr + (f.rptr - f.sptr + f.size) % f.max_size := relation.wptr_eq
      rw [items, contents, contents, ← slice_snoc room, ← ring_update, ← slot]
      rfl
  case isFalse full =>
    rwa [q.accept_of_full _ (by omega)]

theorem Represents.putLow (rep : f.Represents q) (v : BitVec 32) (n : Nat) :
    (putLow v n f).Represents (q.accept (queuedBits v n)) := by
  induction n generalizing f q with
  | zero =>
    rw [queuedBits, q.accept_nil]
    exact rep
  | succ i ih =>
    rw [FifoRing.putLow, queuedBits, ← List.singleton_append, ← q.accept_accept]
    exact ih (rep.put _)

theorem Represents.peek (rep : f.Represents q) : f.sm_peek_bit = returned q.items.head? := by
  rw [← rep.contents_eq, contents, sm_peek_bit]
  cases size : f.size with
  | zero => rfl
  | succ s =>
    have place : f.rptr = f.sptr + (f.rptr - f.sptr) % f.max_size :=
      rep.relation.read_inside (by omega)
    rw [if_pos (Nat.succ_pos s), slice_succ, List.head?_cons, returned, ring, ← place]

theorem Represents.got (rep : f.Represents q) : f.sm_get_bit.1 = returned q.items.head? := by
  rw [← rep.peek, sm_get_bit, sm_peek_bit]
  split <;> rfl

/-- The pointer to read from, behind a byte that was read. -/
theorem RingRelation.read_next (relation : f.RingRelation) (some : 0 < f.size) :
    f.next f.rptr = f.sptr + (f.rptr - f.sptr + 1) % f.max_size := by
  have positive : 0 < f.max_size := Nat.lt_of_lt_of_le some relation.size_le
  rw [relation.read_inside some, relation.next_eq positive, Nat.add_sub_cancel_left, Nat.mod_add_mod]

theorem RingRelation.get (relation : f.RingRelation) : f.sm_get_bit.2.RingRelation := by
  rw [sm_get_bit]
  split
  case isTrue some =>
    have le : f.size ≤ f.max_size := relation.size_le
    have start : f.eptr = f.sptr + f.max_size := relation.eptr_eq
    have moved : f.next f.rptr - f.sptr = (f.rptr - f.sptr + 1) % f.max_size := by
      rw [relation.read_next some, Nat.add_sub_cancel_left]
    have below : (f.rptr - f.sptr + 1) % f.max_size < f.max_size := Nat.mod_lt _ (by omega)
    have inside : f.sptr ≤ f.next f.rptr := by
      rw [relation.read_next some]
      exact Nat.le_add_right ..
    refine ⟨start, Nat.le_trans (Nat.sub_le ..) le, inside, fun _ => ?_, ?_⟩
    · change f.next f.rptr < f.eptr
      omega
    · change f.wptr = f.sptr + (f.next f.rptr - f.sptr + (f.size - 1)) % f.max_size
      have count : f.rptr - f.sptr + 1 + (f.size - 1) = f.rptr - f.sptr + f.size := by omega
      rw [moved, Nat.mod_add_mod, count]
      exact relation.wptr_eq
  case isFalse none => exact relation

theorem RingRelation.contents_get (relation : f.RingRelation) :
    f.sm_get_bit.2.contents = f.contents.drop 1 := by
  rw [sm_get_bit]
  split
  case isTrue some =>
    have count : f.size = f.size - 1 + 1 := by omega
    have moved : f.next f.rptr - f.sptr = (f.rptr - f.sptr + 1) % f.max_size := by
      rw [relation.read_next some, Nat.add_sub_cancel_left]
    change slice f.max_size f.ring (f.next f.rptr - f.sptr) (f.size - 1) = _
    rw [contents, count, slice_succ, List.drop_one, List.tail_cons, moved, slice_mod]
    rfl
  case isFalse none =>
    have empty : f.size = 0 := by omega
    rw [contents, empty, slice_zero, List.drop_nil]

theorem Represents.get (rep : f.Represents q) : f.sm_get_bit.2.Represents (q.leave 1) where
  relation := rep.relation.get
  contents_eq := rep.relation.contents_get.trans (congrArg (List.drop 1) rep.contents_eq)
  max_size_eq := by
    rw [sm_get_bit]
    split <;> exact rep.max_size_eq

theorem Represents.getLow (rep : f.Represents q) (v : BitVec 32) {n : Nat} (le : n ≤ q.items.length) :
    (getLow v n f).1 = v ||| wordOf (q.items.take n) ∧ (getLow v n f).2.Represents (q.leave n) := by
  induction n generalizing f q v with
  | zero => exact ⟨(BitVec.or_zero).symm, rep⟩
  | succ i ih =>
    have fewer : i ≤ (q.leave 1).items.length := by
      rw [q.items_leave, List.length_drop]
      omega
    obtain ⟨read, left⟩ := ih rep.get (v ||| f.sm_get_bit.1 <<< i) fewer
    rw [q.leave_leave, Nat.add_comm] at left
    refine ⟨?_, left⟩
    rw [FifoRing.getLow, read, rep.got, BitVec.or_assoc, q.items_leave]
    cases items : q.items with
    | nil => rw [items] at le; cases le
    | cons x rest =>
      have length : (rest.take i).length = i := by
        rw [items, List.length_cons] at le
        exact List.length_take_of_le (by omega)
      rw [List.drop_one, List.tail_cons, List.take_succ_cons, wordOf, length]
      rfl

end FifoRing

/-- Every operation does what it does on the queue, and returns what it returns there. -/
theorem ringStep_refines : Refines ringStep queueStep FifoRing.Represents := by
  intro op f q rep
  cases op with
  | put_bit v =>
    rw [queueStep, q.sm_put_bit_eq]
    exact ⟨rfl, rep.put v⟩
  | put_bits v n => exact ⟨rfl, rep.putLow v n.toNat⟩
  | peek_bit => exact ⟨congrArg (fun v => [FifoResult.value v]) rep.peek, rep⟩
  | get_bit =>
    rw [queueStep, q.sm_get_bit_eq]
    exact ⟨congrArg (fun v => [FifoResult.value v]) rep.got, rep.get⟩
  | get_bits n =>
    have size : f.size = q.items.length := rep.size_eq
    rw [ringStep, queueStep, FifoRing.sm_get_bits, size]
    split
    case isTrue few => exact ⟨rfl, rep⟩
    case isFalse enough =>
      obtain ⟨read, left⟩ := rep.getLow 0#32 (by omega : n.toNat ≤ q.items.length)
      rw [BitVec.zero_or] at read
      exact ⟨congrArg (fun v => [FifoResult.value v]) read, left⟩
  | size => exact ⟨congrArg (fun n => [FifoResult.size n]) rep.size_eq, rep⟩
  | flush => exact ⟨rfl, rep.flush⟩

theorem queueStep_max_size (op : FifoOp) (q : SmFifo (BitVec 8)) :
    (queueStep op q).1.max_size = q.max_size := by
  cases op with
  | put_bit v => rw [queueStep, q.sm_put_bit_eq, SmFifo.accept]
  | get_bit => rw [queueStep, q.sm_get_bit_eq, SmFifo.leave]
  | get_bits n =>
    rw [queueStep]
    split <;> rfl
  | _ => rfl

namespace FifoRing

variable {f : FifoRing} {q : SmFifo (BitVec 8)}

/-- Putting into a full ring, and getting more than there is, change nothing. -/
structure Bounded (f : FifoRing) : Prop where
  put_full : f.size = f.max_size →
    ∀ (v : BitVec 32) (n : Int), f.sm_put_bit v = f ∧ f.sm_put_bits v n = f
  get_few : ∀ n : Int, f.size < n → f.sm_get_bits n = (-1, f)

/-- Bits that fit are appended, and the bits of a number at the front come back as the number. -/
structure ReadsBack (f : FifoRing) : Prop where
  put : ∀ (v : BitVec 32) (n : Nat), f.size + n ≤ f.max_size →
    (f.sm_put_bits v n).contents = f.contents ++ queuedBits v n
  get : ∀ (v : BitVec 32) (n : Nat) (rest : List (BitVec 8)), v.toNat < 2 ^ n →
    f.contents = queuedBits v n ++ rest →
    (f.sm_get_bits n).1 = v ∧ (f.sm_get_bits n).2.contents = rest

theorem bounded (f : FifoRing) : f.Bounded where
  put_full full v n := by
    have one (bit : BitVec 32) : f.sm_put_bit bit = f := if_neg (by omega)
    have all (i : Nat) : putLow v i f = f := by
      induction i with
      | zero => rfl
      | succ i ih => rw [FifoRing.putLow, one, ih]
    exact ⟨one v, all n.toNat⟩
  get_few n few := if_pos few

theorem Represents.readsBack (rep : f.Represents q) : f.ReadsBack where
  put v n room := by
    have fits : q.items.length + (queuedBits v n).length ≤ q.max_size := by
      rw [length_queuedBits, ← rep.size_eq, ← rep.max_size_eq]
      exact room
    rw [rep.contents_eq, ← q.items_accept_of_room _ fits]
    exact (rep.putLow v n).contents_eq
  get v n rest lt front := by
    have items : q.items = queuedBits v n ++ rest := rep.contents_eq.symm.trans front
    have enough : n ≤ q.items.length := by
      rw [items, List.length_append, length_queuedBits]
      exact Nat.le_add_right ..
    have size : f.size = q.items.length := rep.size_eq
    obtain ⟨read, left⟩ := rep.getLow 0#32 enough
    rw [sm_get_bits, if_neg (by omega), Int.toNat_natCast, read, left.contents_eq, q.items_leave, items,
      List.take_left' (length_queuedBits v n), List.drop_left' (length_queuedBits v n), BitVec.zero_or,
      wordOf_queuedBits lt]
    exact ⟨rfl, rfl⟩

end FifoRing

/-- Any calls of the operations return what they return on a queue that holds at most `max_size` bytes.
The ring then has the bytes of the queue, between pointers as far apart as its size says. -/
theorem fifo_refines (mem : Nat → BitVec 8) (buf max_size : Nat) (ops : List FifoOp) :
    let ring := feed ringStep ops [] (FifoRing.sm_init_fifo mem buf max_size)
    let queue := feed queueStep ops [] (sm_init_fifo max_size)
    ring.1 = queue.1 ∧ ring.2.contents = queue.2.items ∧ ring.2.max_size = max_size ∧
      ring.2.RingRelation ∧ ring.2.Bounded ∧ ring.2.ReadsBack := by
  intro ring queue
  have refines : Refines ringStep queueStep fun f q => f.Represents q ∧ q.max_size = max_size := by
    intro op f q ⟨rep, size⟩
    obtain ⟨events, rep'⟩ := ringStep_refines op rep
    exact ⟨events, rep', (queueStep_max_size op q).trans size⟩
  obtain ⟨same, rep, size⟩ :=
    refines.feed ops ⟨FifoRing.Represents.init mem buf max_size, rfl⟩ []
  exact ⟨same, rep.contents_eq, rep.max_size_eq.trans size, rep.relation, FifoRing.bounded _,
    rep.readsBack⟩

end QFax.Linmodem

import QFax.Extmodem.Kiss
import Mathlib.Data.List.TakeWhile
import Mathlib.Data.BitVec

/-!
# Packet modem: a KISS client

What a client sends arrives in segments.  The session keeps what is left behind the last frame and looks
for frames again when more arrives.  How much it drops is counted in 32 bits, which a 64-bit address does
not forget: when nothing comes before a frame that has begun, it erases more than it holds.  Until then
the packets handed on are those of the whole stream, wherever it was cut (`kiss_session_frames`).
-/

namespace QFax.Extmodem

open Machine

/-- `for (; i < inbuff_.size(); ++i) if (inbuff_[i] == KISS_FEND) break;` -/
def nextFend (inbuff : List UInt8) (i : Nat) : Nat :=
  i + ((inbuff.drop i).takeWhile (· ≠ KISS_FEND)).length

/-- The packet of a frame, when it can be read and is not empty. -/
def deliver (buffer : List UInt8) : List (List UInt8) :=
  let (ret, data) := kiss_decode buffer
  if ret = true ∧ 0 < data.length then [data] else []

theorem deliver_fails {buffer : List UInt8} (fails : (kiss_decode buffer).1 = false) :
    deliver buffer = [] := by
  rw [deliver]
  generalize kiss_decode buffer = result at fails
  obtain ⟨ret, data⟩ := result
  exact if_neg fun both => absurd both.1 (by rw [show ret = false from fails]; decide)

/-- The turns of the outer loop of `handle_incoming_data`, `fuel` of them at most: `last_good_pos` and
the packets handed to `output_packet_to_sc`. -/
def kissLoop (inbuff : List UInt8) : Nat → Nat → BitVec 32 → List (List UInt8) →
    BitVec 32 × List (List UInt8)
  | 0, _, last_good_pos, out => (last_good_pos, out)
  | fuel + 1, i, last_good_pos, out =>
    if i < inbuff.length then
      let start := nextFend inbuff i
      let last_good_pos := BitVec.ofNat 32 start - 1
      if start < inbuff.length then
        let finish := nextFend inbuff (start + 1)
        if finish < inbuff.length then
          -- found a KISS frame
          kissLoop inbuff fuel (finish + 1) (BitVec.ofNat 32 finish)
            (out ++ deliver ((inbuff.drop start).take (finish - start + 1)))
        else (last_good_pos, out)
      else (last_good_pos, out)
    else (last_good_pos, out)

/-- What is kept of the buffer, and the packets; nothing when more would be erased than there is. -/
def kiss_handle_incoming_data (inbuff buffer : List UInt8) : Option (List UInt8 × List (List UInt8)) :=
  let inbuff := inbuff ++ buffer
  let (last_good_pos, out) := kissLoop inbuff (inbuff.length + 1) 0 (-1) []
  -- `inbuff_.begin() + last_good_pos + 1`, where only the counter has 32 bits
  if last_good_pos.toNat + 1 ≤ inbuff.length then some (inbuff.drop (last_good_pos.toNat + 1), out)
  else none

/-- A session that receives segments one after another. -/
def kissSession : List UInt8 → List (List UInt8) → Option (List UInt8 × List (List UInt8))
  | inbuff, [] => some (inbuff, [])
  | inbuff, segment :: segments => do
    let (inbuff, out) ← kiss_handle_incoming_data inbuff segment
    let (inbuff, more) ← kissSession inbuff segments
    return (inbuff, out ++ more)

/-! ## The frames of a stream -/

/-- Between frames, or inside one behind some octets. -/
def kissHear : Step (Option (List UInt8)) UInt8 (List UInt8) := fun b state =>
  match state with
  | none => if b = KISS_FEND then (some [], []) else (none, [])
  | some frame =>
    if b = KISS_FEND then (none, deliver (KISS_FEND :: (frame ++ [KISS_FEND])))
    else (some (frame ++ [b]), [])

theorem feed_outside {bytes : List UInt8} (free : KISS_FEND ∉ bytes) (h : List (List UInt8)) :
    feed kissHear bytes h none = (h, none) := by
  induction bytes generalizing h with
  | nil => rfl
  | cons b bytes ih =>
    rw [List.mem_cons, not_or] at free
    have step : kissHear b none = (none, []) := if_neg (Ne.symm free.1)
    rw [feed, step, List.append_nil]
    exact ih free.2 h

theorem feed_inside {bytes : List UInt8} (free : KISS_FEND ∉ bytes) (frame : List UInt8)
    (h : List (List UInt8)) : feed kissHear bytes h (some frame) = (h, some (frame ++ bytes)) := by
  induction bytes generalizing h frame with
  | nil => exact congrArg (fun bs => (h, some bs)) (List.append_nil frame).symm
  | cons b bytes ih =>
    rw [List.mem_cons, not_or] at free
    have step : kissHear b (some frame) = (some (frame ++ [b]), []) := if_neg (Ne.symm free.1)
    rw [feed, step, List.append_nil]
    show feed kissHear bytes h (some (frame ++ [b])) = _
    rw [ih free.2, List.append_assoc]
    rfl

theorem nextFend_found {inbuff before after : List UInt8} {i : Nat}
    (split : inbuff.drop i = before ++ KISS_FEND :: after) (free : KISS_FEND ∉ before) :
    nextFend inbuff i = i + before.length := by
  have others : ∀ b ∈ before, decide (b ≠ KISS_FEND) = true := fun b member =>
    decide_eq_true fun fend => free (fend ▸ member)
  have stop : (KISS_FEND :: after).takeWhile (· ≠ KISS_FEND) = [] := rfl
  rw [nextFend, split, List.takeWhile_append_of_pos others, stop, List.append_nil]

theorem nextFend_none {inbuff : List UInt8} {i : Nat} (inside : i ≤ inbuff.length)
    (free : KISS_FEND ∉ inbuff.drop i) : nextFend inbuff i = inbuff.length := by
  have others : ∀ b ∈ inbuff.drop i, decide (b ≠ KISS_FEND) = true := fun b member =>
    decide_eq_true fun fend => free (fend ▸ member)
  have all := List.takeWhile_eq_self_iff.2 others
  rw [nextFend, all, List.length_drop]
  omega

/-- The place from which the buffer is kept, and the packets up to it. -/
theorem kissLoop_eq (inbuff : List UInt8) (fuel : Nat) {i : Nat} {good : BitVec 32}
    (out : List (List UInt8)) (enough : inbuff.length - i < fuel) (inside : i ≤ inbuff.length)
    (start : good = BitVec.ofNat 32 i - 1) :
    ∃ n out' state, kissLoop inbuff fuel i good out = (BitVec.ofNat 32 n - 1, out ++ out') ∧
      n ≤ inbuff.length ∧ feed kissHear (inbuff.drop i) [] none = (out', state) ∧
      (state = none ∧ n = inbuff.length ∨
        ∃ frame, state = some frame ∧ KISS_FEND ∉ frame ∧ inbuff.drop n = KISS_FEND :: frame) := by
  induction fuel generalizing i good out with
  | zero => cases enough
  | succ fuel ih =>
    rw [kissLoop]
    by_cases more : i < inbuff.length
    · rw [if_pos more]
      by_cases opens : KISS_FEND ∈ inbuff.drop i
      · obtain ⟨before, rest, split, free⟩ := List.eq_append_cons_of_mem opens
        have place := nextFend_found split free
        have tail : inbuff.drop (i + before.length) = KISS_FEND :: rest := by
          rw [← List.drop_drop, split, List.drop_left]
        have behind : inbuff.drop (i + before.length + 1) = rest := by
          rw [← List.drop_drop, tail]
          rfl
        have sizes := congrArg List.length tail
        rw [List.length_drop, List.length_cons] at sizes
        have at' : i + before.length < inbuff.length := by omega
        have opened : feed kissHear (before ++ [KISS_FEND]) [] none = ([], some []) := by
          rw [feed_append, feed_outside free]
          rfl
        have parts : inbuff.drop i = before ++ [KISS_FEND] ++ rest := by
          rw [split, List.append_assoc]
          rfl
        rw [place, if_pos at', parts, feed_append, opened]
        by_cases closes : KISS_FEND ∈ rest
        · -- found a KISS frame
          obtain ⟨frame, later, split', free'⟩ := List.eq_append_cons_of_mem closes
          have place' := nextFend_found (behind.trans split') free'
          have lengths := congrArg List.length split'
          rw [List.length_append, List.length_cons] at lengths
          have finish : i + before.length + 1 + frame.length < inbuff.length := by omega
          have later' : inbuff.drop (i + before.length + 1 + frame.length + 1) = later := by
            rw [← List.drop_drop, ← List.drop_drop, behind, split', List.drop_left]
            rfl
          have whole : (inbuff.drop (i + before.length)).take
              (i + before.length + 1 + frame.length - (i + before.length) + 1) =
                KISS_FEND :: (frame ++ [KISS_FEND]) := by
            have size : i + before.length + 1 + frame.length - (i + before.length) + 1 =
                (KISS_FEND :: (frame ++ [KISS_FEND])).length := by
              rw [List.length_cons, List.length_append, List.length_singleton]
              omega
            have shape : KISS_FEND :: rest = KISS_FEND :: (frame ++ [KISS_FEND]) ++ later := by
              rw [split', List.cons_append, List.append_assoc]
              rfl
            rw [tail, shape, size, List.take_left]
          have closed : feed kissHear rest [] (some []) =
              feed kissHear later (deliver (KISS_FEND :: (frame ++ [KISS_FEND]))) none := by
            rw [split', feed_append, feed_inside free', List.nil_append]
            rfl
          have counted : BitVec.ofNat 32 (i + before.length + 1 + frame.length) =
              BitVec.ofNat 32 (i + before.length + 1 + frame.length + 1) - 1 := by
            rw [BitVec.ofNat_add (i + before.length + 1 + frame.length) 1]
            exact (BitVec.add_sub_cancel _ _).symm
          obtain ⟨n, out', state, run, bound, fed, last⟩ := ih
            (out ++ deliver (KISS_FEND :: (frame ++ [KISS_FEND]))) (by omega) finish counted
          rw [place', if_pos finish, whole, run, closed, feed_history]
          rw [later'] at fed
          rw [fed]
          exact ⟨n, _, state, by rw [List.append_assoc], bound, rfl, last⟩
        · have place' : nextFend inbuff (i + before.length + 1) = inbuff.length :=
            nextFend_none (by omega) (behind.symm ▸ closes)
          rw [place', if_neg (Nat.lt_irrefl _), feed_inside closes]
          exact ⟨i + before.length, [], some rest, by rw [List.append_nil], at'.le, rfl,
            Or.inr ⟨rest, rfl, closes, tail⟩⟩
      · have place := nextFend_none more.le opens
        rw [place, if_neg (Nat.lt_irrefl _)]
        exact ⟨inbuff.length, [], none, by rw [List.append_nil], le_rfl, feed_outside opens [],
          Or.inl ⟨rfl, rfl⟩⟩
    · have done : i = inbuff.length := by omega
      rw [if_neg more, start, done, List.drop_length]
      exact ⟨inbuff.length, [], none, by rw [List.append_nil], le_rfl, rfl, Or.inl ⟨rfl, rfl⟩⟩

/-! ## Segments -/

/-- The buffer holds a frame that has begun, or nothing. -/
def Keeps (inbuff : List UInt8) : Option (List UInt8) → Prop
  | none => inbuff = []
  | some frame => KISS_FEND ∉ frame ∧ inbuff = KISS_FEND :: frame

/-- A segment that begins a frame with its first octet and does not end it, or that does not end the frame
begun before. -/
def Stalls (segment : List UInt8) : Option (List UInt8) → Prop
  | none => ∃ frame, segment = KISS_FEND :: frame ∧ KISS_FEND ∉ frame
  | some _ => KISS_FEND ∉ segment

variable {inbuff segment : List UInt8} {state : Option (List UInt8)}

/-- The frame in the buffer is found again. -/
theorem Keeps.feed (keeps : Keeps inbuff state) :
    feed kissHear (inbuff ++ segment) [] none = Machine.feed kissHear segment [] state := by
  cases state with
  | none => rw [(keeps : inbuff = []), List.nil_append]
  | some frame =>
    obtain ⟨free, rfl⟩ := keeps
    have opened : Machine.feed kissHear (KISS_FEND :: frame) [] none = ([], some frame) := feed_inside free [] []
    rw [feed_append, opened]

theorem Keeps.stalls_iff (keeps : Keeps inbuff state) :
    Stalls segment state ↔ ∃ frame, inbuff ++ segment = KISS_FEND :: frame ∧ KISS_FEND ∉ frame := by
  cases state with
  | none => rw [(keeps : inbuff = []), List.nil_append]; rfl
  | some frame =>
    obtain ⟨free, rfl⟩ := keeps
    constructor
    · intro none
      exact ⟨frame ++ segment, rfl, fun member => (List.mem_append.mp member).elim free none⟩
    · rintro ⟨frame', same, free'⟩ member
      obtain rfl := (List.cons.inj same).2
      exact free' (List.mem_append_right _ member)

/-- What is kept of a buffer, counted in 32 bits. -/
theorem dropped_toNat {n : Nat} (small : n < 2 ^ 32) :
    (BitVec.ofNat 32 n - 1).toNat + 1 = if n = 0 then 2 ^ 32 else n := by
  cases n with
  | zero => rfl
  | succ n =>
    have before : BitVec.ofNat 32 (n + 1) - 1 = BitVec.ofNat 32 n := by
      rw [BitVec.ofNat_add n 1]
      exact BitVec.add_sub_cancel _ _
    rw [before, BitVec.toNat_ofNat, Nat.mod_eq_of_lt (Nat.lt_of_succ_lt small), if_neg (Nat.succ_ne_zero n)]

/-- One segment: the session fails when it stalls, and else goes on as the stream does. -/
theorem kiss_handle_incoming_data_eq (keeps : Keeps inbuff state) (some' : segment ≠ [])
    (small : (inbuff ++ segment).length < 2 ^ 32) :
    (Stalls segment state → kiss_handle_incoming_data inbuff segment = none) ∧
    (¬ Stalls segment state → ∃ kept,
      kiss_handle_incoming_data inbuff segment = some (kept, (feed kissHear segment [] state).1) ∧
        Keeps kept (feed kissHear segment [] state).2 ∧ kept.length ≤ segment.length) := by
  obtain ⟨n, out, last, run, bound, fed, place⟩ := kissLoop_eq (inbuff ++ segment)
    ((inbuff ++ segment).length + 1) [] (by omega) (Nat.zero_le _) (rfl : (-1 : BitVec 32) = _)
  rw [List.drop_zero] at fed
  have length : (inbuff ++ segment).length ≠ 0 := by
    rw [List.length_append]
    have one := List.length_pos_iff.mpr some'
    omega
  have zero : n = 0 ↔ Stalls segment state := by
    rw [keeps.stalls_iff]
    constructor
    · rintro rfl
      rcases place with ⟨-, none⟩ | ⟨frame, -, free, tail⟩
      · exact absurd none.symm length
      · exact ⟨frame, tail, free⟩
    · rintro ⟨frame, whole, free⟩
      have begun : feed kissHear (inbuff ++ segment) [] none = ([], some frame) := by
        rw [whole]
        exact feed_inside free [] []
      obtain ⟨-, rfl⟩ := Prod.mk.inj (fed.symm.trans begun)
      rcases place with ⟨none, -⟩ | ⟨frame', same, -, tail⟩
      · cases none
      · cases same
        have lengths := congrArg List.length (tail.trans whole.symm)
        rw [List.length_drop] at lengths
        omega
  have handled : kiss_handle_incoming_data inbuff segment =
      if (if n = 0 then 2 ^ 32 else n) ≤ (inbuff ++ segment).length then
        some ((inbuff ++ segment).drop (if n = 0 then 2 ^ 32 else n), out) else none := by
    rw [kiss_handle_incoming_data, run, ← dropped_toNat (by omega)]
    rfl
  rw [keeps.feed] at fed
  rw [handled, fed]
  constructor
  · intro stalls
    rw [if_pos (zero.mpr stalls), if_neg (by omega)]
  · intro goes
    have positive := mt zero.mp goes
    rw [if_neg positive, if_pos bound]
    rcases place with ⟨rfl, rfl⟩ | ⟨frame, rfl, free, tail⟩
    · exact ⟨_, rfl, List.drop_length, by rw [List.drop_length]; exact Nat.zero_le _⟩
    · refine ⟨_, rfl, ⟨free, tail⟩, Nat.not_lt.mp fun long => ?_⟩
      -- the frame that is left would have begun before the segment
      rw [List.length_drop, List.length_append] at long
      have early : n < inbuff.length := by omega
      rw [List.drop_append_of_le_length early.le] at tail
      obtain ⟨b, rest, split⟩ := List.exists_cons_of_ne_nil
        (mt List.drop_eq_nil_iff.mp (Nat.not_le.mpr early))
      rw [split, List.cons_append] at tail
      obtain ⟨-, rfl⟩ := List.cons.inj tail
      cases state with
      | none =>
        rw [(keeps : inbuff = [])] at early
        exact absurd early (Nat.not_lt_zero n)
      | some begun => exact goes fun member => free (List.mem_append_right _ member)

/-- No segment stalls behind those before it. -/
def Flows (state : Option (List UInt8)) (segments : List (List UInt8)) : Prop :=
  ∀ before segment after, segments = before ++ segment :: after →
    ¬ Stalls segment (feed kissHear before.flatten [] state).2

theorem flows_cons {segments : List (List UInt8)} :
    Flows state (segment :: segments) ↔
      ¬ Stalls segment state ∧ Flows (feed kissHear segment [] state).2 segments := by
  have states (before : List (List UInt8)) : (feed kissHear (segment :: before).flatten [] state).2 =
      (feed kissHear before.flatten [] (feed kissHear segment [] state).2).2 := by
    rw [List.flatten_cons, feed_append, feed_history]
  constructor
  · intro flows
    refine ⟨flows [] segment segments rfl, fun before other after split => ?_⟩
    rw [← states]
    exact flows (segment :: before) other after (congrArg (segment :: ·) split)
  · rintro ⟨now, later⟩ before other after split
    rcases before with - | ⟨first, before⟩
    · obtain ⟨rfl, -⟩ := List.cons.inj split
      exact now
    · obtain ⟨rfl, rest⟩ := List.cons.inj split
      rw [states]
      exact later before other after rest

/-- The session over all segments, from a buffer that holds at most a segment. -/
theorem kissSession_eq {segments : List (List UInt8)} (keeps : Keeps inbuff state)
    (short : inbuff.length ≤ 4096) (sizes : ∀ s ∈ segments, s ≠ [] ∧ s.length ≤ 4096) :
    (¬ Flows state segments → kissSession inbuff segments = none) ∧
    (Flows state segments → ∃ kept,
      kissSession inbuff segments = some (kept, (feed kissHear segments.flatten [] state).1) ∧
        Keeps kept (feed kissHear segments.flatten [] state).2) := by
  induction segments generalizing inbuff state with
  | nil =>
    refine ⟨fun stalls => ?_, fun _ => ⟨inbuff, rfl, keeps⟩⟩
    refine absurd (fun before segment after split => ?_) stalls
    exact absurd split.symm (by simp)
  | cons segment segments ih =>
    obtain ⟨some', fits⟩ := sizes segment List.mem_cons_self
    have small : (inbuff ++ segment).length < 2 ^ 32 := by
      rw [List.length_append]
      omega
    obtain ⟨fails, goes⟩ := kiss_handle_incoming_data_eq keeps some' small
    rw [flows_cons, kissSession]
    by_cases stalls : Stalls segment state
    · rw [fails stalls]
      exact ⟨fun _ => rfl, fun flows => absurd stalls flows.1⟩
    · obtain ⟨kept, handled, keeps', bound⟩ := goes stalls
      obtain ⟨fails', goes'⟩ := ih keeps' (bound.trans fits) fun s member =>
        sizes s (List.mem_cons_of_mem segment member)
      rw [handled]
      constructor
      · intro stops
        have later : ¬ Flows (feed kissHear segment [] state).2 segments := fun flows =>
          stops ⟨stalls, flows⟩
        show (do let (inbuff, more) ← kissSession kept segments; some (inbuff, _ ++ more)) = none
        rw [fails' later]
        rfl
      · rintro ⟨-, later⟩
        obtain ⟨last, rest, keeps''⟩ := goes' later
        have all : feed kissHear (segment :: segments).flatten [] state =
            ((feed kissHear segment [] state).1 ++
              (feed kissHear segments.flatten [] (feed kissHear segment [] state).2).1,
              (feed kissHear segments.flatten [] (feed kissHear segment [] state).2).2) := by
          rw [List.flatten_cons, feed_append, feed_history kissHear segments.flatten]
        refine ⟨last, ?_, ?_⟩
        · show (do let (inbuff, more) ← kissSession kept segments; some (inbuff, _ ++ more)) = _
          rw [rest, all]
          rfl
        · rw [all]
          exact keeps''

/-- The session goes on as long as no segment stalls, and then the packets are those of the stream, however
it was cut. -/
theorem kiss_session_frames {segments : List (List UInt8)}
    (sizes : ∀ s ∈ segments, s ≠ [] ∧ s.length ≤ 4096) :
    ((kissSession [] segments).isSome ↔ Flows none segments) ∧
      ∀ kept out, kissSession [] segments = some (kept, out) →
        out = (feed kissHear segments.flatten [] none).1 := by
  have keeps : Keeps [] none := rfl
  obtain ⟨fails, goes⟩ := kissSession_eq keeps (Nat.zero_le 4096) sizes
  by_cases flows : Flows none segments
  · obtain ⟨kept, run, -⟩ := goes flows
    rw [run]
    refine ⟨iff_of_true rfl flows, ?_⟩
    rintro _ _ ⟨⟩
    rfl
  · rw [fails flows]
    exact ⟨iff_of_false Bool.false_ne_true flows, fun _ _ none => nomatch none⟩

/-- A frame that begins behind an octet of noise and is cut once. -/
theorem kiss_session_frames_cut :
    ((kissSession [] [[7, KISS_FEND, 0], [65, KISS_FEND]]).isSome ↔
        Flows none [[7, KISS_FEND, 0], [65, KISS_FEND]]) ∧
      ∀ kept out, kissSession [] [[7, KISS_FEND, 0], [65, KISS_FEND]] = some (kept, out) →
        out = (feed kissHear [[7, KISS_FEND, 0], [65, KISS_FEND]].flatten [] none).1 :=
  kiss_session_frames fun segment member => by
    rcases List.mem_pair.mp member with rfl | rfl <;> exact ⟨List.cons_ne_nil _ _, by decide⟩

/-! ## A client's packets -/

/-- The frames of packets are taken apart again; those with an escape in them are left out. -/
theorem feed_encoded (packets : List (List UInt8)) (h : List (List UInt8)) :
    feed kissHear (packets.flatMap kiss_encode) h none =
      (h ++ packets.filter fun data => data ≠ [] ∧ KISS_FESC ∉ data, none) := by
  induction packets generalizing h with
  | nil => exact congrArg (·, none) (List.append_nil h).symm
  | cons data packets ih =>
    have framed : feed kissHear (kiss_encode data) h none = (h ++ deliver (kiss_encode data), none) := by
      have inside := feed_inside (fend_notMem_escaped data) [] h
      show feed kissHear ((0 :: data.flatMap kiss_escape) ++ [KISS_FEND]) (h ++ []) (some []) = _
      rw [List.append_nil, feed_append, inside]
      rfl
    have delivered : deliver (kiss_encode data) =
        if data ≠ [] ∧ KISS_FESC ∉ data then [data] else [] := by
      by_cases escape : KISS_FESC ∈ data
      · have fails : (kiss_decode (kiss_encode data)).1 = false := kiss_decode_escape escape
        rw [if_neg fun both => both.2 escape]
        exact deliver_fails fails
      · rw [deliver, kiss_decode_free escape]
        refine if_congr ?_ rfl rfl
        exact ⟨fun both => ⟨List.length_pos_iff.mp both.2, escape⟩,
          fun both => ⟨rfl, List.length_pos_iff.mpr both.1⟩⟩
    rw [List.flatMap_cons, feed_append, framed]
    show feed kissHear (packets.flatMap kiss_encode) (h ++ deliver (kiss_encode data)) none = _
    rw [ih, delivered, List.append_assoc, List.filter_cons]
    congr 2
    split <;> simp_all

end QFax.Extmodem

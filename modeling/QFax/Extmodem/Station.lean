import QFax.Extmodem.RadioLink
import QFax.Extmodem.KissSession
import Mathlib.Data.List.Destutter

/-!
# Packet modem: from client to client

Several demodulators listen to one signal, and the modem hands on what they hear unless it has the check
of the packet before.  What a client of one station sends reaches the clients of another: each packet once
however many demodulators hear it, and all of them as long as no two in a row have the same check.
-/

namespace QFax.Extmodem

open Machine

/-- One callback of the sound card: every demodulator takes its filtered samples in turn. -/
def input_callback (samples_per_bit : Nat) : List demod_state → List (List Int) →
    List demod_state × List Frame
  | s :: states, buffer :: buffers =>
    let (frames, s) := feed (demod_sample samples_per_bit) buffer [] s
    let (states, more) := input_callback samples_per_bit states buffers
    (s :: states, frames ++ more)
  | states, _ => (states, [])

/-- `last_packet_crc_`, and the packets handed to the servers. -/
def dispatch_packet : Step (BitVec 32) Frame Frame := fun fp last_packet_crc_ =>
  if fp.crc ≠ last_packet_crc_ then (fp.crc, [fp]) else (last_packet_crc_, [])

/-- Callbacks one after another. -/
def callbacks (samples_per_bit : Nat) : List demod_state → List (List (List Int)) →
    List demod_state × List Frame
  | states, [] => (states, [])
  | states, buffers :: later =>
    let (states, frames) := input_callback samples_per_bit states buffers
    let (states, more) := callbacks samples_per_bit states later
    (states, frames ++ more)

/-- The packets that the servers of a station get, which it has begun to listen with `ears` demodulators. -/
def handedOn (samples_per_bit ears : Nat) (inputs : List (List (List Int))) : List Frame :=
  (feed dispatch_packet (callbacks samples_per_bit (List.replicate ears .init) inputs).2 [] 0).1

/-- `kiss_session::write`. -/
def kiss_write (fp : Frame) : List UInt8 := kiss_encode fp.data

/-! ## Suppressed packets -/

/-- The check is that of another packet. -/
def OtherCrc (f g : Frame) : Prop := f.crc ≠ g.crc

instance : DecidableRel OtherCrc := fun f g => inferInstanceAs (Decidable (f.crc ≠ g.crc))

theorem dispatch_eq (frames : List Frame) (last : Frame) :
    last :: (feed dispatch_packet frames [] last.crc).1 = frames.destutter' OtherCrc last := by
  induction frames generalizing last with
  | nil => rfl
  | cons fp frames ih =>
    rw [feed, dispatch_packet]
    by_cases other : fp.crc ≠ last.crc
    · have changed : OtherCrc last fp := Ne.symm other
      rw [if_pos other, List.destutter'_cons_pos _ changed, ← ih fp, feed_history]
      rfl
    · have same : ¬ OtherCrc last fp := fun ne => other (Ne.symm ne)
      rw [if_neg other, List.destutter'_cons_neg _ same]
      exact ih last

/-- Any number of repetitions. -/
theorem dispatch_repeated {frames : List Frame} {fp : Frame} (some' : frames ≠ [])
    (same : ∀ f ∈ frames, f = fp) (last : BitVec 32) :
    feed dispatch_packet frames [] last = feed dispatch_packet [fp] [] last := by
  have quiet : ∀ more : List Frame, (∀ f ∈ more, f = fp) → ∀ h,
      feed dispatch_packet more h fp.crc = (h, fp.crc) := by
    intro more
    induction more with
    | nil => exact fun _ _ => rfl
    | cons f more ih =>
      intro all h
      obtain rfl := all f List.mem_cons_self
      have step : dispatch_packet f f.crc = (f.crc, []) := if_neg fun ne => ne rfl
      rw [feed, step, List.append_nil]
      exact ih (fun g member => all g (List.mem_cons_of_mem f member)) h
  obtain ⟨f, more, rfl⟩ := List.exists_cons_of_ne_nil some'
  obtain rfl := same f List.mem_cons_self
  have after : (dispatch_packet f last).1 = f.crc := by
    rw [dispatch_packet]
    split
    · rfl
    · next ne => exact (not_not.mp ne).symm
  rw [feed, after, quiet more fun g member => same g (List.mem_cons_of_mem f member), feed, feed, after]

/-! ## Demodulators side by side -/

/-- What every demodulator gets over some callbacks. -/
def columns (ears : Nat) (inputs : List (List (List Int))) : List (List Int) :=
  inputs.foldr (List.zipWith (· ++ ·)) (List.replicate ears [])

/-- What the demodulators hear, and where it leaves them. -/
def HeardAll (samples_per_bit : Nat) (states : List demod_state) (columns : List (List Int))
    (result : List demod_state × List Frame) : Prop :=
  result.1 = List.zipWith (fun s samples => (feed (demod_sample samples_per_bit) samples [] s).2) states columns ∧
    ∀ f, f ∈ result.2 ↔ ∃ ear ∈ states.zip columns, f ∈ (feed (demod_sample samples_per_bit) ear.2 [] ear.1).1

variable {samples_per_bit : Nat} {states : List demod_state}

theorem input_callback_heard {buffers : List (List Int)} (all : states.length = buffers.length) :
    HeardAll samples_per_bit states buffers (input_callback samples_per_bit states buffers) := by
  induction states generalizing buffers with
  | nil =>
    obtain rfl := List.length_eq_zero_iff.mp all.symm
    exact ⟨rfl, fun f => by simp [input_callback]⟩
  | cons s states ih =>
    obtain ⟨buffer, buffers, rfl⟩ := List.exists_cons_of_length_eq_add_one all.symm
    obtain ⟨after, heard⟩ := ih (Nat.succ.inj all)
    refine ⟨congrArg (_ :: ·) after, fun f => ?_⟩
    rw [input_callback, List.mem_append, List.zip_cons_cons, List.exists_mem_cons_iff]
    exact or_congr_right (heard f)

theorem length_columns {inputs : List (List (List Int))} {ears : Nat}
    (all : ∀ buffers ∈ inputs, buffers.length = ears) : (columns ears inputs).length = ears := by
  induction inputs with
  | nil => exact List.length_replicate
  | cons buffers inputs ih =>
    rw [columns, List.foldr_cons, List.length_zipWith, all buffers List.mem_cons_self]
    exact min_eq_left (ih fun other member => all other (List.mem_cons_of_mem buffers member)).ge

/-- Samples that go on where others ended. -/
theorem HeardAll.next {buffers later : List (List Int)} {mid : List demod_state}
    (size : buffers.length = states.length) (size' : later.length = states.length)
    {result : List demod_state × List Frame} {frames : List Frame}
    (now : HeardAll samples_per_bit states buffers (mid, frames))
    (then' : HeardAll samples_per_bit mid later result) :
    HeardAll samples_per_bit states (List.zipWith (· ++ ·) buffers later)
      (result.1, frames ++ result.2) := by
  obtain ⟨rfl, heard⟩ := now
  obtain ⟨after, heard'⟩ := then'
  refine ⟨after.trans ?_, fun f => ?_⟩
  · clear heard heard' after
    induction states generalizing buffers later with
    | nil => rfl
    | cons s states ih =>
      obtain ⟨buffer, buffers, rfl⟩ := List.exists_cons_of_length_eq_add_one size
      obtain ⟨more, later, rfl⟩ := List.exists_cons_of_length_eq_add_one size'
      have rest := ih (Nat.succ.inj size) (Nat.succ.inj size')
      simp only [List.zipWith_cons_cons, rest, feed_append, feed_history _ more (feed _ buffer [] s).1]
  · rw [List.mem_append, heard, heard']
    clear heard heard' after
    induction states generalizing buffers later with
    | nil => simp
    | cons s states ih =>
      obtain ⟨buffer, buffers, rfl⟩ := List.exists_cons_of_length_eq_add_one size
      obtain ⟨more, later, rfl⟩ := List.exists_cons_of_length_eq_add_one size'
      have rest := ih (Nat.succ.inj size) (Nat.succ.inj size')
      simp only [List.zipWith_cons_cons, List.zip_cons_cons, List.exists_mem_cons_iff, ← rest,
        feed_append, feed_history _ more (feed _ buffer [] s).1, List.mem_append]
      exact or_or_or_comm

/-- Over callbacks every demodulator hears what it gets in all of them. -/
theorem callbacks_heard {inputs : List (List (List Int))}
    (all : ∀ buffers ∈ inputs, buffers.length = states.length) :
    HeardAll samples_per_bit states (columns states.length inputs)
      (callbacks samples_per_bit states inputs) := by
  induction inputs generalizing states with
  | nil =>
    refine ⟨?_, fun f => iff_of_false (fun none => nomatch none) ?_⟩
    · show states = List.zipWith _ states (List.replicate states.length [])
      induction states with
      | nil => rfl
      | cons s states ih => exact congrArg (s :: ·) (ih fun _ none => nomatch none)
    · rintro ⟨⟨s, samples⟩, ear, heard⟩
      obtain rfl := List.eq_of_mem_replicate (List.of_mem_zip ear).2
      cases heard
  | cons buffers inputs ih =>
    have size := all buffers List.mem_cons_self
    have now := @input_callback_heard samples_per_bit _ _ size.symm
    have size' : (input_callback samples_per_bit states buffers).1.length = states.length := by
      rw [now.1, List.length_zipWith, size, min_self]
    have later := @ih (input_callback samples_per_bit states buffers).1 fun other member => by
      rw [size']
      exact all other (List.mem_cons_of_mem buffers member)
    have sizes : (columns states.length inputs).length = states.length :=
      length_columns fun other member => all other (List.mem_cons_of_mem buffers member)
    rw [size'] at later
    exact HeardAll.next size sizes now later

theorem callbacks_cons (buffers : List (List Int)) (inputs : List (List (List Int))) :
    callbacks samples_per_bit states (buffers :: inputs) =
      ((callbacks samples_per_bit (input_callback samples_per_bit states buffers).1 inputs).1,
        (input_callback samples_per_bit states buffers).2 ++
          (callbacks samples_per_bit (input_callback samples_per_bit states buffers).1 inputs).2) := rfl

theorem callbacks_append (inputs later : List (List (List Int))) :
    callbacks samples_per_bit states (inputs ++ later) =
      ((callbacks samples_per_bit (callbacks samples_per_bit states inputs).1 later).1,
        (callbacks samples_per_bit states inputs).2 ++
          (callbacks samples_per_bit (callbacks samples_per_bit states inputs).1 later).2) := by
  induction inputs generalizing states with
  | nil => rfl
  | cons buffers inputs ih =>
    rw [List.cons_append, callbacks_cons, ih, callbacks_cons, List.append_assoc]

/-! ## Packets through the air -/

variable {tx_delay tx_tail : Nat}

/-- At most flags have come in since the last packet. -/
def Ready (s : demod_state) : Prop := ∃ heard, Receives s heard ∧ ∀ body ∈ heard.body, body = []

theorem ready_init : Ready .init := ⟨_, receives_init, fun _ none => nomatch none⟩

theorem Ready.feed {r : Reception} {s : demod_state} (ready : Ready s)
    (clear : r.Clear samples_per_bit tx_delay tx_tail) (positive : 0 < samples_per_bit)
    (preamble : 2 ≤ flagCount tx_delay) (tail : 1 ≤ flagCount tx_tail) :
    (Machine.feed (demod_sample samples_per_bit) r.stretches.flatten [] s).1 = [.ofBuffer r.data] ∧
      Ready (Machine.feed (demod_sample samples_per_bit) r.stretches.flatten [] s).2 := by
  obtain ⟨heard, receives, flags⟩ := ready
  obtain ⟨noise, after, heard', fed, receives', opened, quiet⟩ := clear.feed positive preamble tail receives []
  rw [fed, quiet flags]
  refine ⟨rfl, heard', receives', ?_⟩
  rw [opened.body]
  rintro body ⟨⟩
  rfl

/-- The callbacks that a packet takes, when every demodulator gets a clear signal of it. -/
structure Arrives (samples_per_bit tx_delay tx_tail ears : Nat) (data : List UInt8)
    (inputs : List (List (List Int))) : Prop where
  all : ∀ buffers ∈ inputs, buffers.length = ears
  clear : ∀ samples ∈ columns ears inputs, ∃ stretches : List (List Int), samples = stretches.flatten ∧
    Reception.Clear samples_per_bit tx_delay tx_tail ⟨[], data, stretches⟩

/-- Every demodulator hears the packet, and nothing else. -/
theorem Arrives.callbacks {data : List UInt8} {inputs : List (List (List Int))}
    (arrives : Arrives samples_per_bit tx_delay tx_tail states.length data inputs) (some' : states ≠ [])
    (ready : ∀ s ∈ states, Ready s) (positive : 0 < samples_per_bit) (preamble : 2 ≤ flagCount tx_delay)
    (tail : 1 ≤ flagCount tx_tail) :
    ((callbacks samples_per_bit states inputs).2 ≠ [] ∧
      ∀ f ∈ (callbacks samples_per_bit states inputs).2, f = .ofBuffer data) ∧
    (callbacks samples_per_bit states inputs).1.length = states.length ∧
    ∀ s ∈ (callbacks samples_per_bit states inputs).1, Ready s := by
  obtain ⟨after, heard⟩ := @callbacks_heard samples_per_bit _ _ arrives.all
  have size : (columns states.length inputs).length = states.length := length_columns arrives.all
  have ear : ∀ e ∈ states.zip (columns states.length inputs),
      (feed (demod_sample samples_per_bit) e.2 [] e.1).1 = [.ofBuffer data] ∧
        Ready (feed (demod_sample samples_per_bit) e.2 [] e.1).2 := by
    rintro ⟨s, samples⟩ member
    obtain ⟨here, there⟩ := List.of_mem_zip member
    obtain ⟨stretches, rfl, clear⟩ := arrives.clear samples there
    exact (ready s here).feed clear positive preamble tail
  refine ⟨⟨?_, fun f member => ?_⟩, ?_, fun s member => ?_⟩
  · obtain ⟨s, rest, rfl⟩ := List.exists_cons_of_ne_nil some'
    obtain ⟨samples, more, split⟩ := List.exists_cons_of_length_eq_add_one size
    rw [split, List.zip_cons_cons] at heard ear
    have first := ear _ List.mem_cons_self
    refine List.ne_nil_of_mem ((heard (.ofBuffer data)).mpr ⟨_, List.mem_cons_self, ?_⟩)
    rw [first.1]
    exact List.mem_singleton_self _
  · obtain ⟨e, member', heard'⟩ := (heard f).mp member
    rw [(ear e member').1] at heard'
    exact List.mem_singleton.mp heard'
  · rw [after, List.length_zipWith, size, min_self]
  · rw [after, ← List.map_uncurry_zip_eq_zipWith] at member
    obtain ⟨e, member', rfl⟩ := List.mem_map.mp member
    exact (ear e member').2

/-- What is handed on is what was sent, less packets with the check of the one before. -/
theorem dispatch_callbacks {packets : List (List UInt8)} {groups : List (List (List (List Int)))}
    (arrive : List.Forall₂ (Arrives samples_per_bit tx_delay tx_tail states.length) packets groups)
    (some' : states ≠ []) (ready : ∀ s ∈ states, Ready s) (positive : 0 < samples_per_bit)
    (preamble : 2 ≤ flagCount tx_delay) (tail : 1 ≤ flagCount tx_tail) (h : List Frame) (last : BitVec 32) :
    feed dispatch_packet (callbacks samples_per_bit states groups.flatten).2 h last =
      feed dispatch_packet (packets.map .ofBuffer) h last := by
  induction packets generalizing groups states h last with
  | nil =>
    cases arrive
    rfl
  | cons data packets ih =>
    obtain ⟨inputs, groups, arrives, later, rfl⟩ := List.forall₂_cons_left_iff.mp arrive
    obtain ⟨⟨heard, only⟩, size, ready'⟩ := arrives.callbacks some' ready positive preamble tail
    have some'' : (callbacks samples_per_bit states inputs).1 ≠ [] := by
      rw [← List.length_pos_iff, size]
      exact List.length_pos_iff.mpr some'
    rw [← size] at later
    rw [List.flatten_cons, callbacks_append, feed_append, ih later some'' ready', List.map_cons,
      feed_history dispatch_packet _ h, dispatch_repeated heard only, ← feed_history]
    rfl

/-! ## Packets of clients -/

/-- A packet that is not empty and can be read back from its frame. -/
def Plain (data : List UInt8) : Prop := data ≠ [] ∧ KISS_FESC ∉ data

theorem kissDecodeLoop_free (bytes dst : List UInt8) (free : KISS_FESC ∉ dst) :
    KISS_FESC ∉ (kissDecodeLoop bytes dst).2 := by
  have snoc (dst : List UInt8) {b : UInt8} (other : b ≠ KISS_FESC) (free : KISS_FESC ∉ dst) :
      KISS_FESC ∉ dst ++ [b] := by
    rw [List.mem_append, List.mem_singleton]
    exact not_or.mpr ⟨free, Ne.symm other⟩
  fun_induction kissDecodeLoop bytes dst with
  | case1 rest dst ih => exact ih (snoc dst (by decide) free)
  | case2 => exact free
  | case3 rest dst never => exact absurd rfl never
  | case4 c rest dst other never => exact absurd rfl never
  | case5 b c rest dst other _ ih => exact ih (snoc dst other free)
  | case6 => exact free

theorem kiss_decode_free_of (buffer : List UInt8) : KISS_FESC ∉ (kiss_decode buffer).2 := by
  rw [kiss_decode]
  split
  · exact List.not_mem_nil
  · exact kissDecodeLoop_free _ [] List.not_mem_nil

theorem deliver_plain {buffer data : List UInt8} (member : data ∈ deliver buffer) : Plain data := by
  have free := kiss_decode_free_of buffer
  rw [deliver] at member
  generalize kiss_decode buffer = result at free member
  obtain ⟨ret, read⟩ := result
  have member' : data ∈ if ret = true ∧ 0 < read.length then [read] else [] := member
  split at member'
  · next both =>
    obtain rfl := List.mem_singleton.mp member'
    exact ⟨List.length_pos_iff.mp both.2, free⟩
  · cases member'

theorem kissLoop_plain (inbuff : List UInt8) (fuel i : Nat) (good : BitVec 32) {out : List (List UInt8)}
    (plain : ∀ data ∈ out, Plain data) : ∀ data ∈ (kissLoop inbuff fuel i good out).2, Plain data := by
  induction fuel generalizing i good out with
  | zero => exact plain
  | succ fuel ih =>
    rw [kissLoop]
    dsimp only
    split_ifs
    · refine ih _ _ fun data member => ?_
      rcases List.mem_append.mp member with before | found
      · exact plain data before
      · exact deliver_plain found
    all_goals exact plain

theorem kiss_handle_plain {inbuff buffer kept : List UInt8} {out : List (List UInt8)}
    (handled : kiss_handle_incoming_data inbuff buffer = some (kept, out)) : ∀ data ∈ out, Plain data := by
  have plain := @kissLoop_plain (inbuff ++ buffer) ((inbuff ++ buffer).length + 1) 0 (-1) []
    fun _ none => nomatch none
  rw [kiss_handle_incoming_data] at handled
  generalize kissLoop (inbuff ++ buffer) ((inbuff ++ buffer).length + 1) 0 (-1) [] = result
    at handled plain
  obtain ⟨last_good_pos, packets⟩ := result
  by_cases inside : last_good_pos.toNat + 1 ≤ (inbuff ++ buffer).length
  · obtain ⟨-, rfl⟩ := Prod.mk.inj (Option.some.inj ((if_pos inside).symm.trans handled))
    exact plain
  · cases (if_neg inside).symm.trans handled

/-- What a client sends is plain, whatever its bytes are. -/
theorem kissSession_plain {inbuff kept : List UInt8} {segments out : List (List UInt8)}
    (session : kissSession inbuff segments = some (kept, out)) : ∀ data ∈ out, Plain data := by
  induction segments generalizing inbuff kept out with
  | nil =>
    obtain ⟨-, rfl⟩ := Prod.mk.inj (Option.some.inj session)
    exact fun _ none => nomatch none
  | cons segment segments ih =>
    rw [kissSession] at session
    obtain ⟨⟨mid, first⟩, handled, session⟩ := Option.bind_eq_some_iff.mp session
    obtain ⟨⟨last, more⟩, rest, same⟩ := Option.bind_eq_some_iff.mp session
    obtain ⟨-, rfl⟩ := Prod.mk.inj (Option.some.inj same)
    intro data member
    rcases List.mem_append.mp member with now | later
    · exact kiss_handle_plain handled data now
    · exact ih rest data later

/-! ## From client to client -/

/-- No packet has the check of the one before, and the first one has not the check zero. -/
def Distinct (packets : List (List UInt8)) : Prop :=
  (0 :: packets.map calc_crc_ccitt).IsChain (· ≠ ·)

theorem isChain_otherCrc {packets : List (List UInt8)} {first : Frame} (zero : first.crc = 0) :
    (first :: packets.map Frame.ofBuffer).IsChain OtherCrc ↔ Distinct packets := by
  have checks : 0 :: packets.map calc_crc_ccitt = (first :: packets.map Frame.ofBuffer).map Frame.crc := by
    rw [List.map_cons, List.map_map, zero]
    rfl
  rw [Distinct, checks, List.isChain_map]
  rfl

theorem plain_filter {packets : List (List UInt8)} (plain : ∀ data ∈ packets, Plain data) :
    packets.filter (fun data => data ≠ [] ∧ KISS_FESC ∉ data) = packets :=
  List.filter_eq_self.mpr fun data member => decide_eq_true (plain data member)

/-- A packet that `output_packet_to_sc` gives to `send`, and the buffers that wait for the sound card then. -/
structure SendCall where
  out_queue : List (List Bool)
  data : List UInt8

/-- `send` puts a buffer behind those that wait. -/
def SendCall.Taken (tx_delay tx_tail : Nat) (call : SendCall) : Prop :=
  send tx_delay tx_tail call.out_queue (.ofBuffer call.data) ≠ call.out_queue

instance (tx_delay tx_tail : Nat) : DecidablePred (SendCall.Taken tx_delay tx_tail) := fun call =>
  inferInstanceAs (Decidable (send tx_delay tx_tail call.out_queue (.ofBuffer call.data) ≠ call.out_queue))

/-- The packets that go out. -/
def taken (tx_delay tx_tail : Nat) (calls : List SendCall) : List (List UInt8) :=
  (calls.filter (SendCall.Taken tx_delay tx_tail)).map SendCall.data

theorem SendCall.taken_iff {call : SendCall} :
    call.Taken tx_delay tx_tail ↔ call.out_queue.length ≤ 5 := by
  rw [SendCall.Taken, send]
  by_cases full : 5 < call.out_queue.length
  · rw [if_pos full]
    exact iff_of_false (· rfl) (Nat.not_le.mpr full)
  · rw [if_neg full]
    refine iff_of_true (fun same => ?_) (Nat.not_lt.mp full)
    cases List.append_right_eq_self.mp same

theorem taken_sublist (calls : List SendCall) :
    (taken tx_delay tx_tail calls).Sublist (calls.map SendCall.data) :=
  List.filter_sublist.map SendCall.data

/-- All packets go out if no more than five buffers are waiting at any of them. -/
theorem taken_eq_iff {calls : List SendCall} :
    taken tx_delay tx_tail calls = calls.map SendCall.data ↔
      ∀ call ∈ calls, call.out_queue.length ≤ 5 := by
  constructor
  · intro all call member
    have length := congrArg List.length all
    rw [taken, List.length_map, List.length_map, List.length_filter_eq_length_iff] at length
    exact SendCall.taken_iff.mp (of_decide_eq_true (length call member))
  · intro room
    rw [taken, List.filter_eq_self.mpr fun call member =>
      decide_eq_true (SendCall.taken_iff.mpr (room call member))]

/-- The packets handed on, behind one that stands for the check zero. -/
theorem handedOn_eq {packets : List (List UInt8)} {ears : Nat} (some' : 0 < ears)
    {groups : List (List (List (List Int)))}
    (arrive : List.Forall₂ (Arrives samples_per_bit tx_delay tx_tail ears) packets groups)
    (positive : 0 < samples_per_bit) (preamble : 2 ≤ flagCount tx_delay) (tail : 1 ≤ flagCount tx_tail) :
    Frame.mk [] 0 :: handedOn samples_per_bit ears groups.flatten =
      (packets.map Frame.ofBuffer).destutter' OtherCrc ⟨[], 0⟩ := by
  have listening : List.replicate ears demod_state.init ≠ [] := by
    rw [← List.length_pos_iff, List.length_replicate]
    exact some'
  have ready : ∀ s ∈ List.replicate ears demod_state.init, Ready s := fun s member =>
    List.eq_of_mem_replicate member ▸ ready_init
  have size : (List.replicate ears demod_state.init).length = ears := List.length_replicate
  rw [← size] at arrive
  have heard : handedOn samples_per_bit ears groups.flatten =
      (feed dispatch_packet (packets.map Frame.ofBuffer) [] 0).1 :=
    congrArg Prod.fst (dispatch_callbacks arrive listening ready positive preamble tail [] 0)
  rw [heard]
  exact dispatch_eq _ ⟨[], 0⟩

theorem map_data_ofBuffer (packets : List (List UInt8)) :
    (packets.map Frame.ofBuffer).map Frame.data = packets := by
  rw [List.map_map]
  exact List.map_id packets

end QFax.Extmodem

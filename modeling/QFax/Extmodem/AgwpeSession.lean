import QFax.Extmodem.Agwpe

/-!
# Packet modem: an AGWPE client

The session looks for frames in what has come in so far, but only as far as the length of the last
segment.  What it keeps of one segment it therefore leaves over of all later ones: a frame that is
cut stays behind for good, and with it the end of everything that follows (`agwpe_session_lags`).
-/

namespace QFax.Extmodem

structure agwpe_session where
  inbuff : List UInt8
  want_raw_frames : Bool
  deriving DecidableEq, Repr

/-- The loop of `handle_incoming_data` from `p` on, `fuel` frames at most: whether the session is
closed, where the loop ends, and what is done; nothing when it reads outside of the buffer. -/
def agwpeLoop (inbuff : List UInt8) (length : Nat) :
    Nat → Nat → Bool → Option (Bool × Nat × Bool × List AgwpeEvent)
  | 0, p, want => some (false, p, want, [])
  | fuel + 1, p, want => do
    -- the difference of two `size_t`
    let (ret, frame) ← agwpe_decode_frame (inbuff.drop p) (BitVec.ofNat 64 length - BitVec.ofNat 64 p).toNat
    if ret ≤ -1 then some (true, p, want, [])
    else if ret = 0 then some (false, p, want, [])
    else do
      let (want, events) ← handle_agwpe_frame want frame
      let (closed, p, want, more) ← agwpeLoop inbuff length fuel (p + ret.toNat) want
      some (closed, p, want, events ++ more)

/-- `agwpe_session::handle_incoming_data`. -/
def agwpe_handle_incoming_data (s : agwpe_session) (buffer : List UInt8) :
    Option (Bool × agwpe_session × List AgwpeEvent) := do
  let inbuff := s.inbuff ++ buffer
  let (closed, p, want, events) ← agwpeLoop inbuff buffer.length (inbuff.length + 1) 0 s.want_raw_frames
  if closed then some (true, ⟨inbuff, want⟩, events)
  else if p ≤ inbuff.length then some (false, ⟨inbuff.drop p, want⟩, events)
  else none

/-- A session that receives segments one after another, until it is closed. -/
def agwpeSession : agwpe_session → List (List UInt8) → Option (Bool × agwpe_session × List AgwpeEvent)
  | s, [] => some (false, s, [])
  | s, segment :: segments => do
    let (closed, s, events) ← agwpe_handle_incoming_data s segment
    if closed then some (true, s, events)
    else do
      let (closed, s, more) ← agwpeSession s segments
      some (closed, s, events ++ more)

/-- What is done for whole frames. -/
def handleAll : Bool → List (List UInt8) → Option (Bool × List AgwpeEvent)
  | want, [] => some (want, [])
  | want, octets :: frames => do
    let (want, events) ← handle_agwpe_frame want (frameOf octets)
    let (want, more) ← handleAll want frames
    some (want, events ++ more)

/-! ## One segment -/

variable {inbuff : List UInt8} {length : Nat}

/-- The octets that the loop takes for left over. -/
theorem remaining_toNat {p : Nat} (small : length < 2 ^ 62) (small' : p < 2 ^ 63) :
    (BitVec.ofNat 64 length - BitVec.ofNat 64 p).toNat =
      if p ≤ length then length - p else 2 ^ 64 + length - p := by
  rw [BitVec.toNat_sub, BitVec.toNat_ofNat, BitVec.toNat_ofNat]
  split <;> omega

/-- Whole frames up to a place behind which a segment has no header left. -/
structure Taken (inbuff : List UInt8) (length p : Nat) (frames : List (List UInt8)) (q : Nat) :
    Prop where
  whole : ∀ octets ∈ frames, Whole octets
  split : inbuff.drop p = frames.flatten ++ inbuff.drop q
  place : q = p + frames.flatten.length
  inside : q ≤ length
  ends : length < q + AGWPE_MIN_HEADER_SIZE

/-- No frame is without a header. -/
theorem length_le_flatten {frames : List (List UInt8)} (whole : ∀ octets ∈ frames, Whole octets) :
    frames.length ≤ frames.flatten.length := by
  induction frames with
  | nil => exact Nat.le_refl _
  | cons octets frames ih =>
    have size := (whole octets List.mem_cons_self).1
    have more := ih fun o mem => whole o (List.mem_cons_of_mem octets mem)
    have header : AGWPE_MIN_HEADER_SIZE = 36 := rfl
    rw [List.flatten_cons, List.length_append, List.length_cons]
    omega

/-- The loop takes whole frames one after another. -/
theorem agwpeLoop_taken (small : length < 2 ^ 62) {frames : List (List UInt8)} {p q fuel : Nat}
    (taken : Taken inbuff length p frames q) (enough : frames.length < fuel) (want : Bool) :
    agwpeLoop inbuff length fuel p want =
      (handleAll want frames).map fun (want, events) => (false, q, want, events) := by
  obtain ⟨whole, split, place, inside, ends⟩ := taken
  induction frames generalizing p fuel want with
  | nil =>
    obtain ⟨fuel, rfl⟩ := Nat.exists_eq_succ_of_ne_zero (Nat.ne_of_gt enough)
    obtain rfl : q = p := place
    have short : length - q < AGWPE_MIN_HEADER_SIZE := by omega
    have decoded : agwpe_decode_frame (inbuff.drop q)
        (BitVec.ofNat 64 length - BitVec.ofNat 64 q).toNat = some (0, .zero) := by
      rw [remaining_toNat small (by omega), if_pos inside]
      exact if_pos short
    rw [agwpeLoop, decoded]
    rfl
  | cons octets frames ih =>
    obtain ⟨fuel, rfl⟩ := Nat.exists_eq_succ_of_ne_zero (Nat.ne_of_gt (Nat.zero_lt_of_lt enough))
    have first := whole octets List.mem_cons_self
    have size := first.1
    rw [List.flatten_cons, List.length_append] at place
    rw [List.flatten_cons, List.append_assoc] at split
    have header : AGWPE_MIN_HEADER_SIZE ≤ length - p := by omega
    have decoded : agwpe_decode_frame (inbuff.drop p)
        (BitVec.ofNat 64 length - BitVec.ofNat 64 p).toNat =
          some ((octets.length : Int), frameOf octets) := by
      rw [remaining_toNat small (by omega), if_pos (by omega), split]
      exact agwpe_decode_whole first _ header
    have positive : 0 < octets.length := Nat.lt_of_lt_of_le (by decide) size
    have next : inbuff.drop (p + octets.length) = frames.flatten ++ inbuff.drop q := by
      rw [← List.drop_drop, split, List.drop_left]
    have rest := fun want => ih (Nat.lt_of_succ_lt_succ enough) want
      (fun o mem => whole o (List.mem_cons_of_mem octets mem)) next (by omega)
    rw [agwpeLoop, decoded, handleAll]
    simp only [Option.bind_eq_bind, Option.bind_some]
    rw [if_neg (by omega), if_neg (by omega), Int.toNat_natCast]
    cases handled : handle_agwpe_frame want (frameOf octets) with
    | none => rfl
    | some result =>
      obtain ⟨want', events⟩ := result
      simp only [Option.bind_some]
      rw [rest]
      cases handleAll want' frames <;> rfl

/-- A loop that does not close the session has taken whole frames, none of them beyond the length of
the last segment. -/
theorem agwpeLoop_open (small : length < 2 ^ 62) (fits : length ≤ inbuff.length)
    (bounded : inbuff.length < 2 ^ 62) {fuel p q : Nat} {want want' : Bool} {events : List AgwpeEvent}
    (near : p ≤ inbuff.length + 548) (enough : inbuff.length - p < fuel)
    (ran : agwpeLoop inbuff length fuel p want = some (false, q, want', events)) :
    ∃ frames, Taken inbuff length p frames q ∧ handleAll want frames = some (want', events) := by
  induction fuel generalizing p want events with
  | zero => exact absurd enough (Nat.not_lt_zero _)
  | succ fuel ih =>
    rw [agwpeLoop] at ran
    obtain ⟨⟨ret, frame⟩, decoded, ran⟩ := Option.bind_eq_some_iff.1 ran
    rw [remaining_toNat small (by omega)] at decoded
    rcases agwpe_decode_inv decoded with ⟨rfl, short⟩ | ⟨rfl, -⟩ | ⟨n, rfl, atLeast, atMost, header,
      there, part⟩
    · -- no header is left
      simp only at ran
      rw [if_neg (by decide), if_pos trivial] at ran
      cases ran
      have inside : q ≤ length := by
        by_contra beyond
        rw [if_neg beyond] at short
        have size : AGWPE_MIN_HEADER_SIZE = 36 := rfl
        omega
      rw [if_pos inside] at short
      exact ⟨[], ⟨(fun _ none => nomatch none), rfl, rfl, inside, by omega⟩, rfl⟩
    · simp only at ran
      rw [if_pos (by decide)] at ran
      cases ran
    · have size : AGWPE_MIN_HEADER_SIZE = 36 := rfl
      simp only at ran
      rw [if_neg (by omega), if_neg (by omega), Int.toNat_natCast] at ran
      obtain ⟨⟨want1, events1⟩, handled, ran⟩ := Option.bind_eq_some_iff.1 ran
      obtain ⟨⟨closed, q', want2, more⟩, later, same⟩ := Option.bind_eq_some_iff.1 ran
      cases same
      rw [List.length_drop] at there part
      obtain ⟨frames, ⟨whole, split, place, inside, ends⟩, rest⟩ :=
        ih (p := p + n) (by omega) (by omega) later
      have within : n ≤ inbuff.length - p := by omega
      have first := part within
      have length' : ((inbuff.drop p).take n).length = n :=
        List.length_take_of_le (List.length_drop.symm ▸ within)
      have pieces : inbuff.drop p = (inbuff.drop p).take n ++ inbuff.drop (p + n) := by
        rw [← List.drop_drop, List.take_append_drop]
      have frame' : frame = frameOf ((inbuff.drop p).take n) := by
        have again := agwpe_decode_whole first (inbuff.drop (p + n)) header
        rw [← pieces, decoded] at again
        exact (Prod.mk.inj (Option.some.inj again)).2
      refine ⟨(inbuff.drop p).take n :: frames, ⟨?_, ?_, ?_, inside, ends⟩, ?_⟩
      · intro octets mem
        rcases List.mem_cons.1 mem with rfl | mem
        · exact first
        · exact whole octets mem
      · rw [List.flatten_cons, List.append_assoc, ← split]
        exact pieces
      · rw [List.flatten_cons, List.length_append, length']
        omega
      · rw [handleAll, ← frame', handled]
        show (handleAll want1 frames).bind _ = _
        rw [rest]
        rfl

variable {s s' : agwpe_session} {segment : List UInt8} {segments : List (List UInt8)}
  {events : List AgwpeEvent}

/-- A segment is taken as far as whole frames fill up its length, wherever they begin. -/
theorem agwpe_handle_open (small : (s.inbuff ++ segment).length < 2 ^ 62) :
    agwpe_handle_incoming_data s segment = some (false, s', events) ↔
      ∃ frames : List (List UInt8), (∀ octets ∈ frames, Whole octets) ∧
        s.inbuff ++ segment = frames.flatten ++ s'.inbuff ∧ frames.flatten.length ≤ segment.length ∧
        segment.length < frames.flatten.length + AGWPE_MIN_HEADER_SIZE ∧
        handleAll s.want_raw_frames frames = some (s'.want_raw_frames, events) := by
  have total : (s.inbuff ++ segment).length = s.inbuff.length + segment.length := List.length_append
  have shorter : segment.length < 2 ^ 62 := by omega
  constructor
  · intro handled
    unfold agwpe_handle_incoming_data at handled
    obtain ⟨⟨closed, q, want, events'⟩, ran, handled⟩ := Option.bind_eq_some_iff.1 handled
    simp only at handled
    split at handled
    · cases handled
    · next still =>
      split at handled
      · cases handled
        rw [Bool.not_eq_true] at still
        rw [still] at ran
        obtain ⟨frames, ⟨whole, split, place, inside, ends⟩, all⟩ := agwpeLoop_open shorter
          (by omega) small (Nat.zero_le _) (by omega) ran
        rw [Nat.zero_add] at place
        rw [List.drop_zero] at split
        exact ⟨frames, whole, split, place ▸ inside, place ▸ ends, all⟩
      · cases handled
  · rintro ⟨frames, whole, split, inside, ends, all⟩
    have rest : (s.inbuff ++ segment).drop frames.flatten.length = s'.inbuff := by
      rw [split, List.drop_left]
    have taken : Taken (s.inbuff ++ segment) segment.length 0 frames frames.flatten.length :=
      ⟨whole, by rw [rest]; exact split, (Nat.zero_add _).symm, inside, ends⟩
    have few : frames.length < (s.inbuff ++ segment).length + 1 := by
      have lengths := length_le_flatten whole
      omega
    unfold agwpe_handle_incoming_data
    simp only
    rw [agwpeLoop_taken shorter taken few, all]
    show (if frames.flatten.length ≤ (s.inbuff ++ segment).length then
      some (false, agwpe_session.mk ((s.inbuff ++ segment).drop frames.flatten.length)
        s'.want_raw_frames, events) else none) = _
    rw [if_pos (by omega), rest]

/-! ## Many segments -/

theorem handleAll_append (frames more : List (List UInt8)) (want : Bool) :
    handleAll want (frames ++ more) =
      (handleAll want frames).bind fun (want, events) =>
        (handleAll want more).map fun (want, events') => (want, events ++ events') := by
  induction frames generalizing want with
  | nil => cases handled : handleAll want more <;> simp [handleAll, handled]
  | cons octets frames ih =>
    rw [List.cons_append, handleAll, handleAll]
    cases handle_agwpe_frame want (frameOf octets) with
    | none => rfl
    | some first =>
      obtain ⟨want1, events1⟩ := first
      simp only [Option.bind_eq_bind, Option.bind_some]
      rw [ih]
      cases handleAll want1 frames with
      | none => rfl
      | some second =>
        obtain ⟨want2, events2⟩ := second
        simp only [Option.bind_some]
        cases handleAll want2 more <;> simp

/-- A session that is still open after some segments was open after the first of them. -/
theorem agwpeSession_cons (run : agwpeSession s (segment :: segments) = some (false, s', events)) :
    ∃ mid now later, agwpe_handle_incoming_data s segment = some (false, mid, now) ∧
      agwpeSession mid segments = some (false, s', later) ∧ events = now ++ later := by
  rw [agwpeSession] at run
  obtain ⟨⟨closed, mid, now⟩, handled, run⟩ := Option.bind_eq_some_iff.1 run
  simp only at run
  split at run
  · cases run
  · next still =>
    obtain ⟨⟨closed', last, later⟩, rest, same⟩ := Option.bind_eq_some_iff.1 run
    cases same
    rw [Bool.not_eq_true] at still
    exact ⟨mid, now, later, still ▸ handled, rest, rfl⟩

/-- What an open session has done with what came in, and that it does not keep less than before. -/
theorem agwpeSession_open (small : (s.inbuff ++ segments.flatten).length < 2 ^ 62)
    (run : agwpeSession s segments = some (false, s', events)) :
    s.inbuff.length ≤ s'.inbuff.length ∧
      ∃ frames : List (List UInt8), (∀ octets ∈ frames, Whole octets) ∧
        s.inbuff ++ segments.flatten = frames.flatten ++ s'.inbuff ∧
        handleAll s.want_raw_frames frames = some (s'.want_raw_frames, events) := by
  induction segments generalizing s events with
  | nil =>
    cases run
    exact ⟨Nat.le_refl _, [], (fun _ none => nomatch none), List.append_nil _, rfl⟩
  | cons segment segments ih =>
    obtain ⟨mid, now, later, handled, rest, rfl⟩ := agwpeSession_cons run
    rw [List.flatten_cons, ← List.append_assoc] at small ⊢
    rw [List.length_append] at small
    obtain ⟨frames, whole, split, inside, -, all⟩ := (agwpe_handle_open (by omega)).1 handled
    have lengths := congrArg List.length split
    rw [List.length_append, List.length_append] at lengths
    have small' : (mid.inbuff ++ segments.flatten).length < 2 ^ 62 := by
      rw [split, List.length_append] at small
      rw [List.length_append]
      omega
    obtain ⟨longer, frames', whole', split', all'⟩ := ih small' rest
    refine ⟨by omega, frames ++ frames', ?_, ?_, ?_⟩
    · intro octets mem
      rcases List.mem_append.1 mem with first | second
      · exact whole octets first
      · exact whole' octets second
    · rw [split, List.append_assoc, split', List.flatten_append, List.append_assoc]
    · rw [handleAll_append, all]
      show (handleAll mid.want_raw_frames frames').map _ = _
      rw [all']
      rfl

theorem agwpeSession_append {before after : List (List UInt8)}
    (run : agwpeSession s (before ++ after) = some (false, s', events)) :
    ∃ mid now later, agwpeSession s before = some (false, mid, now) ∧
      agwpeSession mid after = some (false, s', later) ∧ events = now ++ later := by
  induction before generalizing s events with
  | nil => exact ⟨s, [], events, rfl, run, rfl⟩
  | cons segment before ih =>
    obtain ⟨first, now, more, handled, rest, rfl⟩ := agwpeSession_cons run
    obtain ⟨mid, now', later, run', run'', rfl⟩ := ih rest
    refine ⟨mid, now ++ now', later, ?_, run'', (List.append_assoc _ _ _).symm⟩
    rw [agwpeSession, handled]
    simp [run']

/-- As long as a session is neither closed nor reads outside of its buffer, what came in are the
whole frames that it has handled, in order, and what it keeps.  It never keeps less than it kept
before: the end of a segment that cuts a frame is left over for good. -/
theorem agwpe_session_lags (small : segments.flatten.length < 2 ^ 62)
    (run : agwpeSession ⟨[], false⟩ segments = some (false, s, events)) :
    (∃ frames : List (List UInt8), (∀ octets ∈ frames, Whole octets) ∧
      segments.flatten = frames.flatten ++ s.inbuff ∧
      handleAll false frames = some (s.want_raw_frames, events)) ∧
    ∀ before after, segments = before ++ after →
      ∃ mid now later, agwpeSession ⟨[], false⟩ before = some (false, mid, now) ∧
        events = now ++ later ∧
        mid.inbuff.length ≤ s.inbuff.length := by
  obtain ⟨-, frames, whole, split, all⟩ := agwpeSession_open (s := ⟨[], false⟩) small run
  refine ⟨⟨frames, whole, split, all⟩, fun before after parts => ?_⟩
  subst parts
  obtain ⟨mid, now, later, run', run'', rfl⟩ := agwpeSession_append run
  refine ⟨mid, now, later, run', rfl, ?_⟩
  rw [List.flatten_append, List.length_append] at small
  obtain ⟨-, frames', -, split', -⟩ := agwpeSession_open (s := ⟨[], false⟩) (by
    show before.flatten.length < 2 ^ 62
    omega) run'
  have received : before.flatten = frames'.flatten ++ mid.inbuff := split'
  have lengths := congrArg List.length received
  rw [List.length_append] at lengths
  refine (agwpeSession_open ?_ run'').1
  rw [List.length_append]
  omega

/-- The two halves of a frame, and another one behind it, which is left over. -/
theorem agwpe_session_lags_cut :
    let frame := headerOf 'k'.toUInt8 0
    (∃ frames : List (List UInt8), (∀ octets ∈ frames, Whole octets) ∧
      [frame.take 20, frame.drop 20 ++ frame].flatten = frames.flatten ++ frame ∧
      handleAll false frames = some (true, [])) ∧
    ∀ before after, [frame.take 20, frame.drop 20 ++ frame] = before ++ after →
      ∃ mid now later, agwpeSession ⟨[], false⟩ before = some (false, mid, now) ∧ [] = now ++ later ∧
        mid.inbuff.length ≤ frame.length :=
  agwpe_session_lags (s := ⟨headerOf 'k'.toUInt8 0, true⟩) (by decide) (by decide +kernel)

/-- A segment of whole frames, to a session that keeps nothing. -/
theorem agwpe_handle_whole {frames : List (List UInt8)} (whole : ∀ octets ∈ frames, Whole octets)
    (small : frames.flatten.length < 2 ^ 62) {want want' : Bool}
    (all : handleAll want frames = some (want', events)) :
    agwpe_handle_incoming_data ⟨[], want⟩ frames.flatten = some (false, ⟨[], want'⟩, events) :=
  (agwpe_handle_open (s := ⟨[], want⟩) small).2
    ⟨frames, whole, (List.append_nil _).symm, Nat.le_refl _, Nat.lt_add_of_pos_right (by decide), all⟩

theorem agwpeSession_whole {groups : List (List (List UInt8))}
    (whole : ∀ frames ∈ groups, ∀ octets ∈ frames, Whole octets)
    (small : (groups.map List.flatten).flatten.length < 2 ^ 62) {want want' : Bool}
    (all : handleAll want groups.flatten = some (want', events)) :
    agwpeSession ⟨[], want⟩ (groups.map List.flatten) = some (false, ⟨[], want'⟩, events) := by
  induction groups generalizing want events with
  | nil =>
    cases all
    rfl
  | cons frames groups ih =>
    rw [List.flatten_cons, handleAll_append] at all
    obtain ⟨⟨want1, now⟩, first, all⟩ := Option.bind_eq_some_iff.1 all
    obtain ⟨⟨want2, later⟩, rest, same⟩ := Option.map_eq_some_iff.1 all
    cases same
    rw [List.map_cons, List.flatten_cons, List.length_append] at small
    have run := ih (fun more mem => whole more (List.mem_cons_of_mem frames mem)) (by omega) rest
    rw [List.map_cons, agwpeSession, agwpe_handle_whole (whole frames List.mem_cons_self) (by omega) first]
    simp [run]

/-- A session that keeps nothing in the end kept nothing between two segments. -/
theorem agwpeSession_parts (small : segments.flatten.length < 2 ^ 62) {want want' : Bool}
    (run : agwpeSession ⟨[], want⟩ segments = some (false, ⟨[], want'⟩, events)) :
    ∃ groups : List (List (List UInt8)), segments = groups.map List.flatten ∧
      (∀ frames ∈ groups, ∀ octets ∈ frames, Whole octets) ∧
      handleAll want groups.flatten = some (want', events) := by
  induction segments generalizing want events with
  | nil =>
    cases run
    exact ⟨[], rfl, (fun _ none => nomatch none), rfl⟩
  | cons segment segments ih =>
    obtain ⟨mid, now, later, handled, rest, rfl⟩ := agwpeSession_cons run
    rw [List.flatten_cons, List.length_append] at small
    have shorter : (([] : List UInt8) ++ segment).length < 2 ^ 62 := by
      rw [List.nil_append]
      omega
    obtain ⟨frames, whole, split, inside, -, all⟩ :=
      (agwpe_handle_open (s := ⟨[], want⟩) shorter).1 handled
    have received : segment = frames.flatten ++ mid.inbuff := split
    have lengths := congrArg List.length received
    rw [List.length_append] at lengths
    have bounded : (mid.inbuff ++ segments.flatten).length < 2 ^ 62 := by
      rw [List.length_append]
      omega
    obtain ⟨notLess, -⟩ := agwpeSession_open bounded rest
    have none : mid.inbuff = [] := List.length_eq_zero_iff.1 (Nat.le_zero.1 notLess)
    obtain ⟨kept, want1⟩ := mid
    obtain rfl : kept = [] := none
    obtain ⟨groups, parts, whole', all'⟩ := ih (by omega) rest
    refine ⟨frames :: groups, ?_, ?_, ?_⟩
    · rw [received, List.append_nil, parts]
      rfl
    · intro more mem
      rcases List.mem_cons.1 mem with rfl | mem
      · exact whole
      · exact whole' more mem
    · rw [List.flatten_cons, handleAll_append, all]
      show (handleAll want1 groups.flatten).map _ = _
      rw [all']
      rfl

/-- A session keeps nothing in the end exactly when every segment held whole frames only, and then
it has handled them all. -/
theorem agwpe_session_whole (small : segments.flatten.length < 2 ^ 62) (want : Bool)
    (events : List AgwpeEvent) :
    agwpeSession ⟨[], false⟩ segments = some (false, ⟨[], want⟩, events) ↔
      ∃ groups : List (List (List UInt8)), segments = groups.map List.flatten ∧
        (∀ frames ∈ groups, ∀ octets ∈ frames, Whole octets) ∧
        handleAll false groups.flatten = some (want, events) := by
  constructor
  · exact agwpeSession_parts small
  · rintro ⟨groups, rfl, whole, all⟩
    exact agwpeSession_whole whole small all

theorem agwpe_session_whole_letter :
    agwpeSession ⟨[], false⟩ [packetFrame [65]] =
      some (false, ⟨[], false⟩, [.output_packet_to_sc [65]]) :=
  (agwpe_session_whole (by decide) false _).2
    ⟨[[packetFrame [65]]], rfl, by decide, by decide +kernel⟩

/-! ## Packets from one session to another -/

theorem handleAll_packets {packets : List Frame}
    (short : ∀ fp ∈ packets, fp.data.length + 1 < RAW_DATA_SIZE) (want : Bool) :
    handleAll want (packets.map fun fp => packetFrame fp.data) =
      some (want, packets.map fun fp => .output_packet_to_sc fp.data) := by
  induction packets with
  | nil => rfl
  | cons fp packets ih =>
    have rest := ih fun other mem => short other (List.mem_cons_of_mem fp mem)
    have handled := (handle_packet (short fp List.mem_cons_self) want).2
    rw [List.map_cons, handleAll, handled]
    show (handleAll want (packets.map fun fp => packetFrame fp.data)).bind _ = _
    rw [rest]
    rfl

/-- Packets that a session writes for its client, and that come back to a session in segments of one
or more of them, are put on the air, all of them and in their order. -/
theorem agwpe_relayed {groups : List (List Frame)}
    (short : ∀ packets ∈ groups, ∀ fp ∈ packets, fp.data.length + 1 < RAW_DATA_SIZE)
    (small : (groups.map fun packets => packets.flatMap
      fun fp => packetFrame fp.data).flatten.length < 2 ^ 62)
    (want : Bool) :
    (∀ packets ∈ groups, ∀ fp ∈ packets,
      agwpe_write true fp = some [.write_raw (packetFrame fp.data)]) ∧
    agwpeSession ⟨[], want⟩ (groups.map fun packets => packets.flatMap fun fp => packetFrame fp.data) =
      some (false, ⟨[], want⟩, groups.flatten.map fun fp => .output_packet_to_sc fp.data) := by
  refine ⟨fun packets mem fp inside => agwpe_write_eq (Nat.le_of_lt (short packets mem fp inside)), ?_⟩
  have segments : (groups.map fun packets => packets.flatMap fun fp => packetFrame fp.data) =
      (groups.map fun packets => packets.map fun fp => packetFrame fp.data).map List.flatten := by
    rw [List.map_map]
    exact List.map_congr_left fun packets _ => List.flatMap_def ..
  have all : handleAll want (groups.map fun packets => packets.map
    fun fp => packetFrame fp.data).flatten =
      some (want, groups.flatten.map fun fp => .output_packet_to_sc fp.data) := by
    rw [← List.map_flatten]
    refine handleAll_packets (fun fp mem => ?_) want
    obtain ⟨packets, group, inside⟩ := List.mem_flatten.1 mem
    exact short packets group fp inside
  rw [segments] at small ⊢
  refine agwpeSession_whole (fun frames mem octets inside => ?_) small all
  obtain ⟨packets, group, rfl⟩ := List.mem_map.1 mem
  obtain ⟨fp, member, rfl⟩ := List.mem_map.1 inside
  exact (handle_packet (short packets group fp member) want).1

theorem agwpe_relayed_letters :
    agwpeSession ⟨[], true⟩ [packetFrame [65] ++ packetFrame [66, 67], packetFrame [68]] =
      some (false, ⟨[], true⟩,
        [.output_packet_to_sc [65], .output_packet_to_sc [66, 67], .output_packet_to_sc [68]]) := by
  have relayed :=
    @agwpe_relayed [[⟨[65], 0⟩, ⟨[66, 67], 0⟩], [⟨[68], 0⟩]] (by decide) (by decide) true
  exact relayed.2

end QFax.Extmodem

import QFax.Extmodem.Demodulator

/-!
# Packet modem: packets through the air

A receiver that starts anywhere hears the first edge of a transmission too late to know where it began,
and no edge at all when the symbol before was the same.  Two flags are enough to find the packet in any
case: every packet that is sent is handed on, and without noise in between nothing else is.
-/

namespace QFax.Extmodem

open BitStuffing Octets Machine

/-! ## Bits of a transmission -/

theorem calm_flagBits (n : Nat) : Calm 6 0 (flagBits n) ∧ run 0 (flagBits n) = 0 := by
  induction n with
  | zero => exact ⟨Nat.zero_le 6, rfl⟩
  | succ n ih =>
    have first : Calm 6 0 (octetBits 0x7e) ∧ run 0 (octetBits 0x7e) = 0 := by decide
    rw [flagBits_succ, calm_append, run_append, first.2]
    exact ⟨⟨first.1, ih.1⟩, ih.2⟩

theorem flagBits_snoc (n : Nat) : ∃ bits, flagBits (n + 1) = bits ++ [false] := by
  refine ⟨flagBits n ++ (false :: List.replicate 6 true), ?_⟩
  have last : flagBits (n + 1) = flagBits n ++ octetBits 0x7e := by
    rw [flagBits, List.replicate_succ', bitsOf_append]
    exact congrArg (flagBits n ++ ·) (List.append_nil _)
  rw [last, List.append_assoc]
  rfl

theorem calm_transmission (m k : Nat) (data : List UInt8) :
    Calm 6 0 (flagBits m ++ packetBits data ++ flagBits k) := by
  have before := calm_flagBits m
  have packet := (calm_packetBits data).mono (by decide : 5 ≤ 6)
  refine calm_append.mpr ⟨calm_append.mpr ⟨before.1, ?_⟩, ?_⟩
  · rw [before.2]
    exact packet
  · rw [run_append, before.2]
    have pending : run 0 (packetBits data) < 5 := run_stuff_lt (by decide) _
    cases k with
    | zero => exact (by omega : run 0 (packetBits data) ≤ 6)
    | succ k =>
      have flag : ∀ n < 5, Calm 6 n (octetBits 0x7e) ∧ run n (octetBits 0x7e) = 0 := by decide
      rw [flagBits_succ, calm_append, (flag _ pending).2]
      exact ⟨(flag _ pending).1, (calm_flagBits k).1⟩

/-! ## Stretches -/

theorem Carries.split {as bs : List Bool} {stretches : List (List Int)}
    (carries : Carries (as ++ bs) stretches) :
    ∃ front back, stretches = front ++ back ∧ Carries as front ∧ Carries bs back := by
  induction as generalizing stretches with
  | nil => exact ⟨[], stretches, rfl, .nil, carries⟩
  | cons a as ih =>
    obtain ⟨stretch, rest, signs, tail, rfl⟩ := List.forall₂_cons_left_iff.mp carries
    obtain ⟨front, back, rfl, first, second⟩ := ih tail
    exact ⟨stretch :: front, back, rfl, .cons signs first, second⟩

theorem Carries.signs {n : Nat} {symbol : Bool} {stretches : List (List Int)}
    (carries : Carries (List.replicate n symbol) stretches) :
    ∀ fdiff ∈ stretches.flatten, Shows symbol fdiff := by
  induction n generalizing stretches with
  | zero =>
    cases carries
    exact fun _ none => nomatch none
  | succ n ih =>
    obtain ⟨stretch, rest, signs, tail, rfl⟩ := List.forall₂_cons_left_iff.mp carries
    intro fdiff member
    rcases List.mem_append.mp (List.flatten_cons ▸ member) with here | later
    · exact signs fdiff here
    · exact ih tail fdiff later

variable {samples_per_bit : Nat} {stretches : List (List Int)}

/-- The bits behind an edge that starts a zero. -/
theorem feed_zero_on (positive : 0 < samples_per_bit) {symbol : Bool} {bits : List Bool}
    (calm : Calm 6 0 (bits ++ [false])) (timed : Timed samples_per_bit stretches)
    (carries : Carries (symbols symbol (false :: (bits ++ [false]))) stretches) {s : demod_state}
    (edge : ∀ fdiff, Shows (!symbol) fdiff → s.previous_fdiff * fdiff < 0 ∨ s.previous_fdiff = 0)
    (h : List Frame) :
    ∃ r after, feed (demod_sample samples_per_bit) stretches.flatten h s =
        ((feed rxbit (List.replicate r true ++ false :: (bits ++ [false])) h s.hdlc_).1, after) ∧
      after.hdlc_ = (feed rxbit (List.replicate r true ++ false :: (bits ++ [false])) h s.hdlc_).2 ∧
      after.last_transition ≤ after.t := by
  obtain ⟨stretch, rest, signs, tail, rfl⟩ := List.forall₂_cons_left_iff.mp carries
  obtain ⟨fdiff, more, rfl⟩ := List.exists_cons_of_ne_nil (timed.ne_nil positive List.mem_cons_self)
  obtain ⟨mid, first, follows⟩ := feed_edge samples_per_bit signs
    (edge fdiff (signs fdiff List.mem_cons_self)) h
  obtain ⟨after, p, second, last⟩ := feed_symbols positive [fdiff :: more] (List.cons_ne_nil _ _) calm
    timed tail (by simpa using follows)
    (feed rxbit (transitionBits (roundBits samples_per_bit (s.t - s.last_transition))) h s.hdlc_).1
  have bits' : List.replicate (roundBits samples_per_bit (s.t - s.last_transition) - 1) true ++
      false :: (bits ++ [false]) =
        transitionBits (roundBits samples_per_bit (s.t - s.last_transition)) ++
          edges 1 (bits ++ [false]) := by
    rw [edges_snoc 0, transitionBits, List.append_assoc]
    rfl
  refine ⟨roundBits samples_per_bit (s.t - s.last_transition) - 1, after, ?_, ?_, last.past⟩
  · rw [bits', List.flatten_cons, feed_append, first, feed_append]
    exact second
  · rw [bits', feed_append]
    exact last.hdlc_

/-- What is left of a transmission that begins with two flags: some ones and at most one zero come before
a flag, and behind it everything is there. -/
theorem feed_start (positive : 0 < samples_per_bit) {bits : List Bool} (m : Nat)
    (calm : Calm 6 0 (flagBits (m + 2) ++ (bits ++ [false]))) (timed : Timed samples_per_bit stretches)
    (carries : Carries (symbols false (flagBits (m + 2) ++ (bits ++ [false]))) stretches)
    {s : demod_state} (past : s.last_transition ≤ s.t) (h : List Frame) :
    ∃ r zero n after, feed (demod_sample samples_per_bit) stretches.flatten h s =
        ((feed rxbit (lead r zero ++ (octetBits 0x7e ++ flagBits n ++ (bits ++ [false]))) h s.hdlc_).1,
          after) ∧
      after.hdlc_ =
        (feed rxbit (lead r zero ++ (octetBits 0x7e ++ flagBits n ++ (bits ++ [false]))) h s.hdlc_).2 ∧
      after.last_transition ≤ after.t := by
  have whole : flagBits (m + 2) ++ (bits ++ [false]) =
      false :: ((List.replicate 6 true ++ false :: (flagBits (m + 1) ++ bits)) ++ [false]) := by
    rw [flagBits_succ, octetBits_flag]
    simp only [List.append_assoc, List.cons_append, List.nil_append]
  rcases Int.lt_or_le 0 s.previous_fdiff with high | low
  · -- the first edge is not seen: up to the last zero of the first flag the sign stays
    have parts : flagBits (m + 2) ++ (bits ++ [false]) =
        (false :: List.replicate 6 true) ++ (false :: ((flagBits (m + 1) ++ bits) ++ [false])) := by
      rw [whole]
      simp only [List.append_assoc, List.cons_append]
    rw [parts] at calm carries
    obtain ⟨front, back, rfl, first, second⟩ := (symbols_append false _ _ ▸ carries).split
    have front' : Carries (List.replicate 7 true) front := first
    obtain ⟨mid, quiet, follows⟩ := feed_same samples_per_bit front'.signs
      (⟨high, rfl, past, rfl⟩ : Follows s true _ s.hdlc_) h
    obtain ⟨r, after, fed, last⟩ := feed_zero_on positive (calm_append.mp calm).2.2
      (timed.suffix front) second (fun fdiff down => follows.edge down) h
    have same : lead r true ++ (octetBits 0x7e ++ flagBits m ++ (bits ++ [false])) =
        List.replicate r true ++ false :: ((flagBits (m + 1) ++ bits) ++ [false]) := by
      rw [lead, flagBits_succ]
      simp
    refine ⟨r, true, m, after, ?_, ?_, last.2⟩
    · rw [same, List.flatten_append, feed_append, quiet, ← follows.hdlc_]
      exact fed
    · rw [same, ← follows.hdlc_]
      exact last.1
  · have edge : ∀ fdiff, Shows (!false) fdiff → s.previous_fdiff * fdiff < 0 ∨ s.previous_fdiff = 0 := by
      intro fdiff up
      rcases Int.lt_or_eq_of_le low with down | none
      · exact Or.inl (mul_neg_of_neg_of_pos down up)
      · exact Or.inr none
    rw [whole] at calm carries
    obtain ⟨r, after, fed, last⟩ := feed_zero_on positive calm.2 timed carries edge h
    have same : lead r false ++ (octetBits 0x7e ++ flagBits (m + 1) ++ (bits ++ [false])) =
        List.replicate r true ++ false ::
          ((List.replicate 6 true ++ false :: (flagBits (m + 1) ++ bits)) ++ [false]) := by
      rw [← whole, ← flagBits_succ]
      exact congrArg (· ++ _) (List.append_nil _)
    refine ⟨r, false, m + 1, after, ?_, ?_, last.2⟩
    · rw [same]
      exact fed
    · rw [same]
      exact last.1

/-! ## Packets -/

/-- A demodulator that some signal has reached. -/
structure Receives (s : demod_state) (heard : Heard) : Prop where
  hears : Hears s.hdlc_ heard
  past : s.last_transition ≤ s.t

theorem receives_init : Receives .init ⟨[], none⟩ := ⟨hears_init, le_rfl⟩

/-- Any samples. -/
theorem Receives.feed_any (samples : List Int) {s : demod_state} {heard : Heard}
    (receives : Receives s heard) (h : List Frame) :
    ∃ frames after heard', feed (demod_sample samples_per_bit) samples h s = (h ++ frames, after) ∧
      Receives after heard' ∧ (samples = [] → frames = [] ∧ heard' = heard) := by
  induction samples generalizing s heard h with
  | nil => exact ⟨[], s, heard, congrArg (·, s) (List.append_nil h).symm, receives, fun _ => ⟨rfl, rfl⟩⟩
  | cons fdiff samples ih =>
    have past := receives.past
    have one : ∃ heard', Receives (demod_sample samples_per_bit fdiff s).1 heard' := by
      rw [demod_sample]
      split
      · exact ⟨_, (rxbit_refines.feed _ receives.hears []).2, Nat.le_succ _⟩
      · exact ⟨heard, receives.hears, Nat.le_succ_of_le past⟩
    obtain ⟨heard', receives'⟩ := one
    obtain ⟨frames, after, last, rest, receives'', -⟩ := ih receives'
      (h ++ (demod_sample samples_per_bit fdiff s).2)
    refine ⟨(demod_sample samples_per_bit fdiff s).2 ++ frames, after, last, ?_, receives'',
      fun none => nomatch none⟩
    rw [feed, rest, List.append_assoc]

/-- What reaches a receiver: noise, and the signal of a packet that is sent. -/
structure Reception where
  noise : List Int
  data : List UInt8
  stretches : List (List Int)

/-- The packet has from one to 1022 octets, and its signal shows every symbol in time. -/
structure Reception.Clear (samples_per_bit tx_delay tx_tail : Nat) (r : Reception) : Prop where
  some' : r.data ≠ []
  fits : r.data.length ≤ 1022
  carries : Carries (transmission tx_delay tx_tail r.data) r.stretches
  timed : Timed samples_per_bit r.stretches

/-- All samples of a reception. -/
def Reception.samples (r : Reception) : List Int := r.noise ++ r.stretches.flatten

variable {tx_delay tx_tail : Nat}

/-- A packet is handed on from any state; nothing else is behind flags and before the first one. -/
theorem Reception.Clear.feed {r : Reception} (clear : r.Clear samples_per_bit tx_delay tx_tail)
    (positive : 0 < samples_per_bit) (preamble : 2 ≤ flagCount tx_delay) (tail : 1 ≤ flagCount tx_tail)
    {s : demod_state} {heard : Heard} (receives : Receives s heard) (h : List Frame) :
    ∃ noise after heard', feed (demod_sample samples_per_bit) r.stretches.flatten h s =
        (h ++ noise ++ [.ofBuffer r.data], after) ∧ Receives after heard' ∧ heard'.Opened ∧
      ((∀ body ∈ heard.body, body = []) → noise = []) := by
  obtain ⟨m, flags⟩ := Nat.exists_eq_add_of_le' preamble
  obtain ⟨k, flags'⟩ := Nat.exists_eq_add_of_le' tail
  obtain ⟨bits, ends⟩ := flagBits_snoc k
  have carries := clear.carries
  have whole : flagBits (m + 2) ++ packetBits r.data ++ flagBits (k + 1) =
      flagBits (m + 2) ++ ((packetBits r.data ++ bits) ++ [false]) := by
    rw [ends, List.append_assoc, List.append_assoc]
  have calm := calm_transmission (m + 2) (k + 1) r.data
  rw [transmission_eq, flags, flags', whole] at carries
  rw [whole] at calm
  obtain ⟨n, zero, j, after, fed, last, past⟩ := feed_start positive m calm clear.timed carries
    receives.past h
  have parts : lead n zero ++ (octetBits 0x7e ++ flagBits j ++ ((packetBits r.data ++ bits) ++ [false])) =
      lead n zero ++ (octetBits 0x7e ++ flagBits j ++ packetBits r.data ++ flagBits (k + 1)) := by
    simp only [ends, List.append_assoc]
  rw [parts] at fed last
  obtain ⟨frames, hears⟩ := rxbit_refines.feed
    (lead n zero ++ (octetBits 0x7e ++ flagBits j ++ packetBits r.data ++ flagBits (k + 1)))
    receives.hears h
  obtain ⟨noise, mid, first, quiet⟩ := feed_lead n zero h heard
  obtain ⟨noise', final, second, opened, quiet'⟩ := feed_transmission clear.some' clear.fits j k
    (h ++ noise) mid
  have heardAll := feed_append hear (lead n zero)
    (octetBits 0x7e ++ flagBits j ++ packetBits r.data ++ flagBits (k + 1)) h heard
  rw [first, second] at heardAll
  rw [heardAll] at frames hears
  refine ⟨noise ++ noise', after, final, ?_, ⟨last ▸ hears, past⟩, opened, fun fresh => ?_⟩
  · rw [fed, frames, List.append_assoc h]
  · obtain ⟨rfl, still⟩ := quiet fresh
    rw [quiet' still]
    rfl

/-- Packets that reach a receiver one after another. -/
theorem feed_receptions (positive : 0 < samples_per_bit) (preamble : 2 ≤ flagCount tx_delay)
    (tail : 1 ≤ flagCount tx_tail) {rs : List Reception}
    (clear : ∀ r ∈ rs, r.Clear samples_per_bit tx_delay tx_tail) {s : demod_state} {heard : Heard}
    (receives : Receives s heard) (h : List Frame) :
    ∃ frames, (feed (demod_sample samples_per_bit) (rs.flatMap Reception.samples) h s).1 = h ++ frames ∧
      (rs.map fun r => Frame.ofBuffer r.data).Sublist frames ∧
      ((∀ r ∈ rs, r.noise = []) → (∀ body ∈ heard.body, body = []) →
        frames = rs.map fun r => Frame.ofBuffer r.data) := by
  induction rs generalizing s heard h with
  | nil => exact ⟨[], (List.append_nil h).symm, .slnil, fun _ _ => rfl⟩
  | cons r rs ih =>
    obtain ⟨frames, mid, heard₁, noisy, receives₁, none⟩ := receives.feed_any r.noise h
    obtain ⟨noise, next, heard₂, packet, receives₂, opened, quiet⟩ :=
      (clear r List.mem_cons_self).feed positive preamble tail receives₁ (h ++ frames)
    obtain ⟨more, rest, sent, only⟩ := ih (fun r' member => clear r' (List.mem_cons_of_mem r member))
      receives₂ (h ++ frames ++ noise ++ [.ofBuffer r.data])
    refine ⟨frames ++ noise ++ .ofBuffer r.data :: more, ?_, ?_, fun silent fresh => ?_⟩
    · rw [List.flatMap_cons, Reception.samples, feed_append, feed_append, noisy, packet, rest]
      simp only [List.append_assoc, List.singleton_append]
    · exact (sent.cons_cons _).trans (List.sublist_append_right _ _)
    · obtain ⟨rfl, rfl⟩ := none (silent r List.mem_cons_self)
      have open' : ∀ body ∈ heard₂.body, body = [] := by
        rw [opened.body]
        rintro body ⟨⟩
        rfl
      rw [quiet fresh, only (fun r' member => silent r' (List.mem_cons_of_mem r member)) open',
        List.map_cons]
      rfl

/-- At a rate of 22050 samples, where a bit is taken for 18 samples and one of the sender's takes 18 or
19. -/
theorem clear_keyed {data : List UInt8} (some' : data ≠ []) (fits : data.length ≤ 1022) :
    Reception.Clear 18 14 7 ⟨[], data, (transmission 14 7 data).map (keyed 19)⟩ := by
  refine ⟨some', fits, carries_keyed 19 _, ?_⟩
  have small : 14 * 1 < 18 := by decide
  refine timed_of_drift small fun stretch held => ?_
  obtain ⟨symbol, -, rfl⟩ := List.mem_map.mp held
  rw [keyed, List.length_replicate]
  decide

end QFax.Extmodem

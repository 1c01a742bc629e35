import QFax.Extmodem.Framing

/-!
# Packet modem: from edges to bits

The demodulator follows the sign of a filtered difference of two correlators.  At every change of the
sign it rounds the time since the last one to bits: all but the last of them are ones, the last is a zero.
Stuffing bounds this time, so that a sender's clock that differs from the receiver's does no harm as long
as the error of seven bits is below half a bit.
-/

namespace QFax.Extmodem

open BitStuffing Octets Machine

/-- The part of `demod_state` behind the filters; `samples_per_bit` does not change. -/
structure demod_state where
  t : Nat
  previous_fdiff : Int
  last_transition : Nat
  hdlc_ : l2_state_hdlc
  deriving DecidableEq, Repr

def demod_state.init : demod_state := ⟨0, 0, 0, .init⟩

/-- `round((double) p / (double) samples_per_bit)`, where halves go up. -/
def roundBits (samples_per_bit p : Nat) : Nat := (2 * p + samples_per_bit) / (2 * samples_per_bit)

/-- The bits of a transition. -/
def transitionBits (bits : Nat) : List Bool := List.replicate (bits - 1) true ++ [false]

/-- The loop of `input_callback_state` for one sample, from its `fdiff` on. -/
def demod_sample (samples_per_bit : Nat) : Step demod_state Int Frame := fun fdiff s =>
  if s.previous_fdiff * fdiff < 0 ∨ s.previous_fdiff = 0 then
    -- we found a transition
    let p := s.t - s.last_transition
    let (frames, hdlc_) := feed rxbit (transitionBits (roundBits samples_per_bit p)) [] s.hdlc_
    (⟨s.t + 1, fdiff, s.t, hdlc_⟩, frames)
  else (⟨s.t + 1, fdiff, s.last_transition, s.hdlc_⟩, [])

/-! ## Signals -/

/-- The sign that stands for a symbol. -/
def Shows (symbol : Bool) (fdiff : Int) : Prop := if symbol then 0 < fdiff else fdiff < 0

/-- Every stretch of samples shows its symbol. -/
def Carries (symbols : List Bool) (stretches : List (List Int)) : Prop :=
  List.Forall₂ (fun symbol stretch => ∀ fdiff ∈ stretch, Shows symbol fdiff) symbols stretches

/-- Up to seven neighbouring stretches are as long as their bits, to within half a bit. -/
def Timed (samples_per_bit : Nat) (stretches : List (List Int)) : Prop :=
  ∀ block, block <:+: stretches → block ≠ [] → block.length ≤ 7 →
    (2 * block.length - 1) * samples_per_bit ≤ 2 * block.flatten.length ∧
      2 * block.flatten.length < (2 * block.length + 1) * samples_per_bit

variable {samples_per_bit : Nat} {stretches block : List (List Int)}

/-- The time of a block is rounded to its bits. -/
theorem Timed.roundBits_eq (timed : Timed samples_per_bit stretches) (inside : block <:+: stretches)
    (some' : block ≠ []) (few : block.length ≤ 7) :
    roundBits samples_per_bit block.flatten.length = block.length := by
  obtain ⟨lower, upper⟩ := timed block inside some' few
  have one := List.length_pos_iff.mpr some'
  obtain ⟨n, size⟩ := Nat.exists_eq_add_one.mpr one
  rw [size] at lower upper ⊢
  have twice : (2 * (n + 1) - 1) * samples_per_bit + samples_per_bit =
      (n + 1) * (2 * samples_per_bit) := by
    rw [show 2 * (n + 1) - 1 = 2 * n + 1 by omega]
    ring
  have above : (2 * (n + 1) + 1) * samples_per_bit + samples_per_bit =
      (n + 1 + 1) * (2 * samples_per_bit) := by
    ring
  rw [roundBits]
  exact Nat.div_eq_of_lt_le (by omega) (by omega)

theorem Timed.suffix (more : List (List Int)) (timed : Timed samples_per_bit (more ++ stretches)) :
    Timed samples_per_bit stretches :=
  fun block inside => timed block (inside.trans (List.suffix_append _ _).isInfix)

theorem Timed.ne_nil (positive : 0 < samples_per_bit) (timed : Timed samples_per_bit stretches)
    {stretch : List Int} (member : stretch ∈ stretches) : stretch ≠ [] := by
  rintro rfl
  obtain ⟨before, after, rfl⟩ := List.append_of_mem member
  have inside : [[]] <:+: before ++ [] :: after := ⟨before, after, by simp⟩
  have lower := (timed [[]] inside (by simp) (by simp)).1
  simp at lower
  omega

/-- Stretches that differ from a bit by less than a fourteenth of it. -/
theorem timed_of_drift {drift : Nat} (small : 14 * drift < samples_per_bit)
    (near : ∀ stretch ∈ stretches,
      samples_per_bit ≤ stretch.length + drift ∧ stretch.length ≤ samples_per_bit + drift) :
    Timed samples_per_bit stretches := by
  intro block inside some' few
  have near' : ∀ stretch ∈ block,
      samples_per_bit ≤ stretch.length + drift ∧ stretch.length ≤ samples_per_bit + drift :=
    fun stretch member => near stretch (inside.subset member)
  have total : block.length * samples_per_bit ≤ block.flatten.length + block.length * drift ∧
      block.flatten.length ≤ block.length * samples_per_bit + block.length * drift := by
    clear inside some' few near
    induction block with
    | nil => simp
    | cons stretch block ih =>
      obtain ⟨lower, upper⟩ := ih fun stretch member => near' stretch (List.mem_cons_of_mem _ member)
      obtain ⟨least, most⟩ := near' stretch List.mem_cons_self
      rw [List.length_cons, Nat.succ_mul, Nat.succ_mul, List.flatten_cons, List.length_append]
      omega
  have error : block.length * drift ≤ 7 * drift := Nat.mul_le_mul_right drift few
  have up : (2 * block.length + 1) * samples_per_bit =
      2 * (block.length * samples_per_bit) + samples_per_bit := by ring
  have down : (2 * block.length - 1) * samples_per_bit =
      2 * (block.length * samples_per_bit) - samples_per_bit := by
    rw [Nat.sub_mul, Nat.mul_assoc, Nat.one_mul]
  omega

/-- A symbol that is held for some samples. -/
def keyed (n : Nat) (symbol : Bool) : List Int := List.replicate n (if symbol then 1 else -1)

theorem carries_keyed (n : Nat) (symbols : List Bool) : Carries symbols (symbols.map (keyed n)) := by
  induction symbols with
  | nil => exact .nil
  | cons symbol symbols ih =>
    refine .cons (fun fdiff member => ?_) ih
    obtain rfl := (List.mem_replicate.mp member).2
    cases symbol
    · exact neg_one_lt_zero
    · exact one_pos

/-! ## Following a signal -/

/-- The demodulator shows a symbol since an edge some samples ago. -/
structure Follows (s : demod_state) (symbol : Bool) (p : Nat) (hdlc_ : l2_state_hdlc) : Prop where
  shows' : Shows symbol s.previous_fdiff
  since : s.t - s.last_transition = p
  past : s.last_transition ≤ s.t
  hdlc_ : s.hdlc_ = hdlc_

/-- More samples of the same sign. -/
theorem feed_same (samples_per_bit : Nat) {symbol : Bool} {stretch : List Int} (same : ∀ fdiff ∈ stretch, Shows symbol fdiff)
    {s : demod_state} {p : Nat} {hdlc_ : l2_state_hdlc} (follows : Follows s symbol p hdlc_)
    (h : List Frame) :
    ∃ after, feed (demod_sample samples_per_bit) stretch h s = (h, after) ∧
      Follows after symbol (p + stretch.length) hdlc_ := by
  induction stretch generalizing s p with
  | nil => exact ⟨s, rfl, follows⟩
  | cons fdiff stretch ih =>
    have now : Shows symbol fdiff := same fdiff List.mem_cons_self
    have still : ¬ (s.previous_fdiff * fdiff < 0 ∨ s.previous_fdiff = 0) := by
      have before := follows.shows'
      cases symbol
      · have product := mul_pos_of_neg_of_neg (show s.previous_fdiff < 0 from before) (show fdiff < 0 from now)
        have sign : s.previous_fdiff < 0 := before
        omega
      · have product := mul_pos (show 0 < s.previous_fdiff from before) (show 0 < fdiff from now)
        have sign : 0 < s.previous_fdiff := before
        omega
    have step : demod_sample samples_per_bit fdiff s =
        (⟨s.t + 1, fdiff, s.last_transition, s.hdlc_⟩, []) := if_neg still
    have since := follows.since
    have past := follows.past
    obtain ⟨after, rest, follows'⟩ := ih (fun f member => same f (List.mem_cons_of_mem _ member))
      (s := ⟨s.t + 1, fdiff, s.last_transition, s.hdlc_⟩) (p := p + 1)
      ⟨now, by show s.t + 1 - s.last_transition = _; omega,
        by show s.last_transition ≤ s.t + 1; omega, follows.hdlc_⟩
    refine ⟨after, ?_, ?_⟩
    · rw [feed, step, List.append_nil]
      exact rest
    · rw [List.length_cons]
      have sum : p + (stretch.length + 1) = p + 1 + stretch.length := by omega
      rwa [sum]

/-- A stretch behind an edge. -/
theorem feed_edge (samples_per_bit : Nat) {symbol : Bool} {fdiff : Int} {stretch : List Int}
    (signs : ∀ f ∈ fdiff :: stretch, Shows symbol f) {s : demod_state}
    (edge : s.previous_fdiff * fdiff < 0 ∨ s.previous_fdiff = 0) (h : List Frame) :
    ∃ after, feed (demod_sample samples_per_bit) (fdiff :: stretch) h s =
        ((feed rxbit (transitionBits (roundBits samples_per_bit (s.t - s.last_transition))) h s.hdlc_).1,
          after) ∧
      Follows after symbol (fdiff :: stretch).length
        (feed rxbit (transitionBits (roundBits samples_per_bit (s.t - s.last_transition))) h s.hdlc_).2 := by
  have step : demod_sample samples_per_bit fdiff s =
      (⟨s.t + 1, fdiff, s.t, (feed rxbit (transitionBits (roundBits samples_per_bit
        (s.t - s.last_transition))) [] s.hdlc_).2⟩, (feed rxbit (transitionBits (roundBits samples_per_bit
        (s.t - s.last_transition))) [] s.hdlc_).1) := if_pos edge
  rw [feed_history rxbit _ h]
  obtain ⟨after, rest, follows⟩ := feed_same samples_per_bit
    (fun f member => signs f (List.mem_cons_of_mem _ member))
    (s := ⟨s.t + 1, fdiff, s.t, (feed rxbit (transitionBits (roundBits samples_per_bit
        (s.t - s.last_transition))) [] s.hdlc_).2⟩) (p := 1)
    ⟨signs fdiff List.mem_cons_self, Nat.add_sub_cancel_left s.t 1, Nat.le_succ s.t, rfl⟩
    (h ++ (feed rxbit (transitionBits (roundBits samples_per_bit (s.t - s.last_transition))) [] s.hdlc_).1)
  refine ⟨after, ?_, ?_⟩
  · rw [feed, step]
    exact rest
  · rw [List.length_cons, Nat.add_comm]
    exact follows

/-- Another sign is an edge. -/
theorem Follows.edge {symbol : Bool} {s : demod_state} {p : Nat} {hdlc_ : l2_state_hdlc}
    (follows : Follows s symbol p hdlc_) {fdiff : Int} (other : Shows (!symbol) fdiff) :
    s.previous_fdiff * fdiff < 0 ∨ s.previous_fdiff = 0 := by
  have before := follows.shows'
  cases symbol
  · exact Or.inl (mul_neg_of_neg_of_pos before other)
  · exact Or.inl (mul_neg_of_pos_of_neg before other)

/-! ## Bits -/

/-- The bits handed on for some bits sent, when some symbols were sent since the last edge. -/
def edges : Nat → List Bool → List Bool
  | _, [] => []
  | n, true :: bits => edges (n + 1) bits
  | n, false :: bits => transitionBits n ++ edges 1 bits

/-- Up to the last zero, the bits handed on are those sent. -/
theorem edges_snoc (n : Nat) (bits : List Bool) :
    edges (n + 1) (bits ++ [false]) = List.replicate n true ++ (bits ++ [false]) := by
  induction bits generalizing n with
  | nil => exact List.append_nil _
  | cons b bits ih =>
    cases b
    · rw [List.cons_append, edges, ih 0, transitionBits, Nat.add_sub_cancel, List.append_assoc]
      rfl
    · rw [List.cons_append, edges, ih (n + 1), List.replicate_succ', List.append_assoc]
      rfl

/-- A signal of symbols hands its bits on. -/
theorem feed_symbols (positive : 0 < samples_per_bit) (block : List (List Int)) {bits : List Bool} {symbol : Bool}
    (some' : block ≠ []) (calm : Calm 6 (block.length - 1) bits)
    (timed : Timed samples_per_bit (block ++ stretches)) (carries : Carries (symbols symbol bits) stretches)
    {s : demod_state} {hdlc_ : l2_state_hdlc} (follows : Follows s symbol block.flatten.length hdlc_)
    (h : List Frame) :
    ∃ after p, feed (demod_sample samples_per_bit) stretches.flatten h s =
        ((feed rxbit (edges block.length bits) h hdlc_).1, after) ∧
      Follows after (lastSymbol symbol bits) p (feed rxbit (edges block.length bits) h hdlc_).2 := by
  induction bits generalizing block stretches s symbol hdlc_ h with
  | nil =>
    cases carries
    exact ⟨s, _, rfl, follows⟩
  | cons b bits ih =>
    cases b
    · -- an edge: the time since the last one is a whole number of bits
      obtain ⟨stretch, stretches, signs, rest, rfl⟩ := List.forall₂_cons_left_iff.mp carries
      have few : block.length ≤ 7 := by
        have six := calm.1
        omega
      have bitsOfBlock := timed.roundBits_eq (List.prefix_append _ _).isInfix some' few
      have whole : stretch ≠ [] :=
        timed.ne_nil positive (List.mem_append_right _ List.mem_cons_self)
      obtain ⟨fdiff, tail, rfl⟩ := List.exists_cons_of_ne_nil whole
      obtain ⟨mid, first, follows'⟩ := feed_edge samples_per_bit signs
        (follows.edge (signs fdiff List.mem_cons_self)) h
      rw [follows.since, bitsOfBlock, follows.hdlc_] at first follows'
      have after := ih [fdiff :: tail] (List.cons_ne_nil _ _) calm.2 (timed.suffix block) rest
        (by simpa using follows') (feed rxbit (transitionBits block.length) h hdlc_).1
      obtain ⟨after, p, second, last⟩ := after
      refine ⟨after, p, ?_, ?_⟩
      · rw [List.flatten_cons, feed_append, first, edges, feed_append]
        exact second
      · rw [edges, feed_append]
        exact last
    · obtain ⟨stretch, stretches, signs, rest, rfl⟩ := List.forall₂_cons_left_iff.mp carries
      obtain ⟨mid, first, follows'⟩ := feed_same samples_per_bit signs follows h
      have split : block ++ stretch :: stretches = (block ++ [stretch]) ++ stretches :=
        (List.append_assoc block [stretch] stretches).symm
      have one := List.length_pos_iff.mpr some'
      have size : (block ++ [stretch]).length = block.length + 1 := List.length_append
      have longer : (block ++ [stretch]).flatten.length = block.flatten.length + stretch.length := by
        simp
      rw [← longer] at follows'
      obtain ⟨after, p, second, last⟩ := ih (block ++ [stretch]) (by simp)
        (by rw [size, Nat.add_sub_cancel]; rwa [Calm, Nat.sub_add_cancel one] at calm)
        (split ▸ timed) rest follows' h
      rw [size] at second last
      refine ⟨after, p, ?_, last⟩
      rw [List.flatten_cons, feed_append, first]
      exact second

end QFax.Extmodem

import QFax.Linmodem.V90Ring

/-!
# V.90: what the spectral shaping does to the signs

Whatever path the trellis prefers, the signs of a shaping frame are those of the frame before, its
own sign word and one of four inversions, and the first bit tells which.  The decoder undoes them.
-/

namespace QFax.Linmodem

open Bits

/-! ## Weights -/

section Weight

variable (p : V90Params) (s : V90EncodeState) (ptr : Nat) (sg : BitVec 8)

/-- A path of six samples from weight zero stays below the weight the search starts with. -/
theorem foldl_shapeSample_weight (node : ShapeNode) (start : node.w = 0) {n : Nat} (few : n ≤ 6) :
    -(n * 2 ^ 27 : Int) ≤ ((List.range n).foldl (shapeSample p s ptr sg) node).w ∧
      ((List.range n).foldl (shapeSample p s ptr sg) node).w ≤ n * 2 ^ 27 := by
  induction n with
  | zero => simp [start]
  | succ n ih =>
    obtain ⟨low, high⟩ := ih (by omega)
    rw [List.range_succ, List.foldl_append, List.foldl_cons, List.foldl_nil]
    generalize (List.range n).foldl (shapeSample p s ptr sg) node = last at low high ⊢
    simp only [shapeSample]
    generalize wrap32 (_ - _) = v
    have square := Int.bmod_lt (x := v * v) (m := 2 ^ 32) (by decide)
    have square' := Int.le_bmod (x := v * v) (m := 2 ^ 32) (by decide)
    have part : (wrap32 (v * v) >>> (4 : Nat)) < 2 ^ 27 ∧
        -(2 ^ 27) ≤ (wrap32 (v * v) >>> (4 : Nat)) := by
      rw [wrap32, Int.shiftRight_eq_div_pow]
      norm_num at square square' ⊢
      omega
    generalize (wrap32 (v * v) >>> (4 : Nat)) = q at part
    have small : wrap32 (q + last.w) = q + last.w := by
      refine Int.bmod_eq_of_le ?_ ?_ <;> norm_num at * <;> omega
    rw [small]
    push_cast
    omega

end Weight

/-! ## One shaping frame -/

section Select

variable {p : V90Params} {fs : Nat} (pp : BitVec 8) (s : V90EncodeState)

/-- The first level of the trellis is always reached, from the current state. -/
theorem firstLevel_eq (few : fs ≤ 6) (s : V90EncodeState) (ptr : Nat) (state : Bool) :
    trellisLevel p s fs ptr [(s.Q, ⟨s.t, s.x, s.y, s.v, 0⟩)] state =
      (remember (transition p s fs ptr state s.Q ⟨s.t, s.x, s.y, s.v, 0⟩), s.Q) := by
  have weight := foldl_shapeSample_weight p s ptr (s.t ^^^ s.pp ptr ^^^ sign_op state s.Q)
    ⟨s.t, s.x, s.y, s.v, 0⟩ rfl few
  have light : (transition p s fs ptr state s.Q ⟨s.t, s.x, s.y, s.v, 0⟩).w < 0x7fffffff := by
    have bound := weight.2
    simp only [transition]
    norm_num at bound ⊢
    omega
  simp only [trellisLevel, bestTransition, List.foldl_cons, List.foldl_nil, if_pos light]

theorem firstLevel_t (few : fs ≤ 6) (s : V90EncodeState) (ptr : Nat) (state : Bool) :
    ((trellisLevel p s fs ptr [(s.Q, ⟨s.t, s.x, s.y, s.v, 0⟩)] state).1).t =
      s.t ^^^ s.pp ptr ^^^ sign_op state s.Q := by
  rw [firstLevel_eq few]
  rfl

/-- The signs after a shaping frame, whatever state was chosen. -/
theorem select_best_signs_t (few : fs ≤ 6) :
    (select_best_signs p fs pp s).t =
      s.t ^^^ store s.pp s.ucode_ptr pp (ringIndex s.ucode_ptr (fs * p.ld)) ^^^
        sign_op (select_best_signs p fs pp s).Q s.Q :=
  firstLevel_t few { s with pp := store s.pp s.ucode_ptr pp } _ _

end Select

/-! ## Consecutive shaping frames -/

section Stream

variable (p : V90Params) (fs : Nat) (words : Nat → BitVec 8) (c : Nat)

/-- Before shaping frame `m` the pointer has moved by `m` frames and the ring buffer holds the sign
words of the last frames. -/
structure WordsKept (m : Nat) (s : V90EncodeState) : Prop where
  pointer : s.ucode_ptr = (c + fs * m) % 32
  recent : ∀ a < m, fs * (m - a) ≤ 18 → s.pp ((c + fs * a) % 32) = words a

/-- The signs and states of shaping frames `m` to `m + n`: each follows from the one before and the
sign word `ld` frames ago. -/
def Shaped (m n : Nat) (path : Nat → BitVec 8 × Bool) : Prop :=
  ∀ i < n, p.ld ≤ m + i → (path (i + 1)).1 =
    (path i).1 ^^^ words (m + i - p.ld) ^^^ sign_op (path (i + 1)).2 (path i).2

/-- The states a trace goes through from the signs and state of `s`. -/
def pathOf (s : V90EncodeState) (trace : List (BitVec 8 × Bool)) (i : Nat) : BitVec 8 × Bool :=
  ((s.t, s.Q) :: trace).getD i (0, false)

variable {p fs words c}

/-- One shaping frame keeps the buffer up to date and uses the word `ld` frames ago. -/
theorem WordsKept.select {m : Nat} {s : V90EncodeState} (kept : WordsKept fs words c m s)
    (frame : 0 < fs ∧ fs ≤ 6) (depth : p.ld ≤ 3) :
    WordsKept fs words c (m + 1) (select_best_signs p fs (words m) s) ∧
      (p.ld ≤ m → (select_best_signs p fs (words m) s).t = s.t ^^^ words (m - p.ld) ^^^
        sign_op (select_best_signs p fs (words m) s).Q s.Q) := by
  obtain ⟨pointer, recent⟩ := kept
  have window : fs * p.ld ≤ 18 := Nat.mul_le_mul frame.2 depth
  have place : s.ucode_ptr % UCODE_BUF_SIZE = (c + fs * m) % 32 := by
    rw [pointer]
    exact Nat.mod_mod _ _
  -- the buffer after the store: the last frames and this one
  have stored : ∀ a ≤ m, fs * (m - a) ≤ 18 →
      store s.pp s.ucode_ptr (words m) ((c + fs * a) % 32) = words a := by
    intro a le near
    rw [store, place]
    rcases Nat.lt_or_ge a m with earlier | last
    · have apart : fs * m = fs * a + fs * (m - a) := by
        rw [← Nat.mul_add]
        congr 1
        omega
      have positive : 0 < fs * (m - a) := Nat.mul_pos frame.1 (by omega)
      rw [Function.update_of_ne (by omega), recent a earlier near]
    · obtain rfl : a = m := by omega
      rw [Function.update_self]
  refine ⟨⟨?_, fun a lt near => ?_⟩, fun late => ?_⟩
  · change (s.ucode_ptr + fs) % 32 = _
    rw [pointer, Nat.mod_add_mod, Nat.mul_succ, Nat.add_assoc]
  · have nearer : fs * (m - a) ≤ fs * (m + 1 - a) := Nat.mul_le_mul_left fs (by omega)
    exact stored a (by omega) (by omega)
  · have source : ringIndex s.ucode_ptr (fs * p.ld) = (c + fs * (m - p.ld)) % 32 := by
      have apart : fs * m = fs * (m - p.ld) + fs * p.ld := by
        rw [← Nat.mul_add]
        congr 1
        omega
      simp only [ringIndex, UCODE_BUF_SIZE, pointer]
      omega
    rw [select_best_signs_t _ _ frame.2, source, stored _ (Nat.sub_le _ _) (by
      rw [show m - (m - p.ld) = p.ld by omega]; exact window)]

/-- The shaping frames of a mapping frame. -/
theorem WordsKept.selectAll {m : Nat} {s : V90EncodeState} (kept : WordsKept fs words c m s)
    (frame : 0 < fs ∧ fs ≤ 6) (depth : p.ld ≤ 3) (pv : List (BitVec 8))
    (given : ∀ i < pv.length, pv.getD i 0 = words (m + i)) :
    WordsKept fs words c (m + pv.length) (selectAll p fs pv s).2 ∧
      (selectAll p fs pv s).1.length = pv.length ∧
      pathOf s (selectAll p fs pv s).1 pv.length =
        ((selectAll p fs pv s).2.t, (selectAll p fs pv s).2.Q) ∧
      Shaped p words m pv.length (pathOf s (selectAll p fs pv s).1) := by
  induction pv generalizing m s with
  | nil => exact ⟨kept, rfl, rfl, fun i lt => absurd lt (Nat.not_lt_zero i)⟩
  | cons pp rest ih =>
    have head : pp = words m := given 0 (Nat.succ_pos _)
    obtain ⟨kept', step⟩ := kept.select (p := p) frame depth
    rw [← head] at kept' step
    have later := ih kept' fun i lt => by
      rw [Nat.add_assoc, Nat.add_comm 1]
      exact given (i + 1) (Nat.succ_lt_succ lt)
    obtain ⟨keptAll, length, final, shaped⟩ := later
    refine ⟨?_, congrArg Nat.succ length, final, fun i lt late => ?_⟩
    · rw [List.length_cons, Nat.add_comm rest.length, ← Nat.add_assoc]
      exact keptAll
    · cases i with
      | zero => exact step late
      | succ i =>
        have next := shaped i (Nat.lt_of_succ_lt_succ lt) (by omega)
        rw [show m + 1 + i = m + (i + 1) by omega] at next
        exact next

end Stream

/-! ## The decoder -/

theorem getLsbD_byteOf {bits : List Bool} (short : bits.length ≤ 8) (j : Nat) :
    (byteOf bits).getLsbD j = bits.getD j false := by
  rw [byteOf, BitVec.getLsbD_ofNat, testBit_word]
  rcases Nat.lt_or_ge j 8 with inside | beyond
  · rw [decide_eq_true inside, Bool.true_and]
  · rw [List.getD_eq_default _ _ (by omega), Bool.and_false]

/-- The first bit of an inversion tells whether the state changed. -/
theorem sign_op_first (state lstate : Bool) :
    (sign_op state lstate).getLsbD 0 = (state ^^ lstate) := by
  cases state <;> cases lstate <;> rfl

section Undo

variable {fs : Nat} {m last t old new w : BitVec 8} {Q Q' : Bool}

/-- The state after a shaping frame and the bits of its sign word are found from the signs. -/
theorem undoShaping_eq (positive : 0 < fs) (masked : ∀ j < fs, m.getLsbD j = true)
    (step : new = old ^^^ w ^^^ sign_op Q' Q) (first : w.getLsbD 0 = false)
    (before : ∀ j < fs, last.getLsbD j = old.getLsbD j)
    (after : ∀ j < fs, t.getLsbD j = new.getLsbD j) :
    (undoShaping m Q last t).2 = Q' ∧
      ∀ j < fs, (undoShaping m Q last t).1.getLsbD j = w.getLsbD j := by
  have state : (undoShaping m Q last t).2 = Q' := by
    simp only [undoShaping, BitVec.getLsbD_xor, before 0 positive, after 0 positive, step, first,
      sign_op_first]
    cases old.getLsbD 0 <;> cases Q <;> cases Q' <;> rfl
  refine ⟨state, fun j inside => ?_⟩
  have change : (undoShaping m Q last t).1 = last ^^^ t ^^^ (sign_op Q' Q &&& m) := by
    rw [← state]
    rfl
  rw [change]
  simp only [BitVec.getLsbD_xor, BitVec.getLsbD_and, before j inside, after j inside, step,
    masked j inside, Bool.and_true]
  cases old.getLsbD j <;> cases w.getLsbD j <;> cases (sign_op Q' Q).getLsbD j <;> rfl

end Undo

/-- The decoder has the encoder's state: the signs of the last frame are known as far as they were
sent. -/
structure InStep (fs : Nat) (last_sign : Bool) (shape : BitVec 8 × Bool) (d : V90DecodeState) :
    Prop where
  differential : d.last_sign = last_sign
  state : d.Q = shape.2
  signs : ∀ j < fs, d.t.getLsbD j = shape.1.getLsbD j

/-- The word of a group of sent signs. -/
theorem read_signs {fs a : Nat} {signs : Nat → Bool} {x : BitVec 8} (short : fs ≤ 8)
    (sent : ∀ j < fs, signs (a + j) = x.getLsbD j) :
    ∀ j < fs, (byteOf ((List.range fs).map fun j => signs (a + j))).getLsbD j = x.getLsbD j := by
  intro j inside
  rw [getLsbD_byteOf (by simpa using short), List.getD_eq_getElem?_getD, List.getElem?_map,
    List.getElem?_range inside, Option.map_some, Option.getD_some, sent j inside]

/-- Differential coding is undone by the bit before. -/
theorem xor_xor_left_cancel (a b : Bool) : (a ^^ (b ^^ a)) = b := by
  cases a <;> cases b <;> rfl

section Decode

variable {last_sign : Bool} {data : Nat → Bool} {path : Nat → BitVec 8 × Bool}
  {d : V90DecodeState} {signs : Nat → Bool}

/-- What the trellis and the channel make of the sign words of a frame. -/
structure SentFrame (S : Nat) (last_sign : Bool) (data : Nat → Bool)
    (path : Nat → BitVec 8 × Bool) (signs : Nat → Bool) : Prop where
  shaped : ∀ i < 6 - S, (path (i + 1)).1 = (path i).1 ^^^
    (signWords S last_sign data).1.getD i 0 ^^^ sign_op (path (i + 1)).2 (path i).2
  sent : ∀ i < 6 - S, ∀ j < shapingFrameSize S,
    signs (shapingFrameSize S * i + j) = (path (i + 1)).1.getLsbD j

/-- The first bit of every sign word is free for the state. -/
theorem signWords_first (S : Nat) (last_sign : Bool) (data : Nat → Bool) (i : Nat) :
    ((signWords S last_sign data).1.getD i 0).getLsbD 0 = false := by
  have byte : ∀ rest : List Bool, rest.length < 8 → (byteOf (false :: rest)).getLsbD 0 = false :=
    fun rest short => getLsbD_byteOf (show (false :: rest).length ≤ 8 from short) 0
  unfold signWords
  split
  · rcases i with - | n
    · exact byte _ (by simp)
    · simp
  · rcases i with - | - | n
    · exact byte _ (by simp)
    · exact byte _ (by simp)
    · simp
  · rcases i with - | - | - | n
    · exact byte _ (by simp)
    · exact byte _ (by simp)
    · exact byte _ (by simp)
    · simp
  · simp

/-- One redundant sign. -/
theorem decodeSigns_five (inStep : InStep 6 last_sign (path 0) d)
    (frame : SentFrame 5 last_sign data path signs) :
    (decodeSigns 5 d signs).1 = (List.range 5).map data ∧
      InStep 6 (signWords 5 last_sign data).2 (path 1) (decodeSigns 5 d signs).2 := by
  obtain ⟨l, t, Q⟩ := d
  obtain ⟨rfl, rfl, signs0⟩ := inStep
  have signs1 : ∀ j < 6, (byteOf [signs 0, signs 1, signs 2, signs 3, signs 4, signs 5]).getLsbD j =
      (path 1).1.getLsbD j := read_signs (by decide) (frame.sent 0 (by decide))
  obtain ⟨state1, word1⟩ := undoShaping_eq (m := 0x3f) (by decide) (by decide)
    (frame.shaped 0 (by decide)) (signWords_first ..) signs0 signs1
  have bits1 := fun j inside => (word1 j inside).trans (getLsbD_byteOf (by simp) j)
  refine ⟨?_, ?_, state1, signs1⟩
  · simp only [decodeSigns, bits1 1 (by decide), bits1 2 (by decide), bits1 3 (by decide),
      bits1 4 (by decide), bits1 5 (by decide)]
    simp [xor_xor_left_cancel, List.range_succ]
  · simp only [decodeSigns, bits1 5 (by decide)]
    rfl

/-- Two redundant signs. -/
theorem decodeSigns_four (inStep : InStep 3 last_sign (path 0) d)
    (frame : SentFrame 4 last_sign data path signs) :
    (decodeSigns 4 d signs).1 = (List.range 4).map data ∧
      InStep 3 (signWords 4 last_sign data).2 (path 2) (decodeSigns 4 d signs).2 := by
  obtain ⟨l, t, Q⟩ := d
  obtain ⟨rfl, rfl, signs0⟩ := inStep
  have signs1 : ∀ j < 3, (byteOf [signs 0, signs 1, signs 2]).getLsbD j = (path 1).1.getLsbD j :=
    read_signs (by decide) (frame.sent 0 (by decide))
  have signs2 : ∀ j < 3, (byteOf [signs 3, signs 4, signs 5]).getLsbD j = (path 2).1.getLsbD j :=
    read_signs (by decide) (frame.sent 1 (by decide))
  obtain ⟨state1, word1⟩ := undoShaping_eq (m := 7) (by decide) (by decide)
    (frame.shaped 0 (by decide)) (signWords_first ..) signs0 signs1
  obtain ⟨state2, word2⟩ := undoShaping_eq (m := 7) (by decide) (by decide)
    (frame.shaped 1 (by decide)) (signWords_first ..) signs1 signs2
  have bits1 := fun j inside => (word1 j inside).trans (getLsbD_byteOf (by simp) j)
  have bits2 := fun j inside => (word2 j inside).trans (getLsbD_byteOf (by simp) j)
  refine ⟨?_, ?_, ?_, signs2⟩
  · simp only [decodeSigns, state1, bits1 1 (by decide), bits1 2 (by decide), bits2 1 (by decide),
      bits2 2 (by decide)]
    simp [List.range_succ]
  · simp only [decodeSigns, state1, bits2 1 (by decide)]
    rfl
  · simp only [decodeSigns, state1, state2]

/-- Three redundant signs. -/
theorem decodeSigns_three (inStep : InStep 2 last_sign (path 0) d)
    (frame : SentFrame 3 last_sign data path signs) :
    (decodeSigns 3 d signs).1 = (List.range 3).map data ∧
      InStep 2 (signWords 3 last_sign data).2 (path 3) (decodeSigns 3 d signs).2 := by
  obtain ⟨l, t, Q⟩ := d
  obtain ⟨rfl, rfl, signs0⟩ := inStep
  have signs1 : ∀ j < 2, (byteOf [signs 0, signs 1]).getLsbD j = (path 1).1.getLsbD j :=
    read_signs (by decide) (frame.sent 0 (by decide))
  have signs2 : ∀ j < 2, (byteOf [signs 2, signs 3]).getLsbD j = (path 2).1.getLsbD j :=
    read_signs (by decide) (frame.sent 1 (by decide))
  have signs3 : ∀ j < 2, (byteOf [signs 4, signs 5]).getLsbD j = (path 3).1.getLsbD j :=
    read_signs (by decide) (frame.sent 2 (by decide))
  obtain ⟨state1, word1⟩ := undoShaping_eq (m := 3) (by decide) (by decide)
    (frame.shaped 0 (by decide)) (signWords_first ..) signs0 signs1
  obtain ⟨state2, word2⟩ := undoShaping_eq (m := 3) (by decide) (by decide)
    (frame.shaped 1 (by decide)) (signWords_first ..) signs1 signs2
  obtain ⟨state3, word3⟩ := undoShaping_eq (m := 3) (by decide) (by decide)
    (frame.shaped 2 (by decide)) (signWords_first ..) signs2 signs3
  have bits1 := fun j inside => (word1 j inside).trans (getLsbD_byteOf (by simp) j)
  have bits2 := fun j inside => (word2 j inside).trans (getLsbD_byteOf (by simp) j)
  have bits3 := fun j inside => (word3 j inside).trans (getLsbD_byteOf (by simp) j)
  refine ⟨?_, ?_, ?_, signs3⟩
  · simp only [decodeSigns, state1, state2, bits1 1 (by decide), bits2 1 (by decide),
      bits3 1 (by decide)]
    simp [List.range_succ]
  · simp only [decodeSigns, state1, state2, bits3 1 (by decide)]
    rfl
  · simp only [decodeSigns, state1, state2, state3]

/-- The bits of a frame with redundant signs come back, and the decoder stays in step. -/
theorem decodeSigns_shaped {S : Nat} (redundant : S = 3 ∨ S = 4 ∨ S = 5)
    (inStep : InStep (shapingFrameSize S) last_sign (path 0) d)
    (frame : SentFrame S last_sign data path signs) :
    (decodeSigns S d signs).1 = (List.range S).map data ∧
      InStep (shapingFrameSize S) (signWords S last_sign data).2 (path (6 - S))
        (decodeSigns S d signs).2 := by
  rcases redundant with rfl | rfl | rfl
  · exact decodeSigns_three inStep frame
  · exact decodeSigns_four inStep frame
  · exact decodeSigns_five inStep frame

end Decode

end QFax.Linmodem

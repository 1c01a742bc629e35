import QFax.Linmodem.V90Shaping
import QFax.Linmodem.V90Stream

/-!
# V.90: streams of sign bits

An encoder runs over a stream of mapping frames.  The samples that carry no data yet, because of
the look-ahead, are dropped, and the rest goes to a decoder in groups of six.
-/

namespace QFax.Linmodem

open Bits

section Stream

variable (p : V90Params) (ucodes : Nat → List Nat) (data : Nat → Nat → Bool) (s₀ : V90EncodeState)

/-- The encoder before mapping frame `k`. -/
def encoderAt : Nat → V90EncodeState
  | 0 => s₀
  | k + 1 => (signFrame p (ucodes k) (data k) (encoderAt k)).2.1

/-- Sample `n` of the encoder's output. -/
def sampleAt (n : Nat) : Int :=
  (signFrame p (ucodes (n / 6)) (data (n / 6)) (encoderAt p ucodes data s₀ (n / 6))).1.getD (n % 6) 0

/-- The signs and states mapping frame `k` goes through. -/
def framePath (k : Nat) : Nat → BitVec 8 × Bool :=
  pathOf (encoderAt p ucodes data s₀ k)
    (signFrame p (ucodes k) (data k) (encoderAt p ucodes data s₀ k)).2.2

/-- The encoder's `t` and `Q` before the shaping frame of sample `n`. -/
def shapeBefore (n : Nat) : BitVec 8 × Bool :=
  framePath p ucodes data s₀ (n / 6) (n % 6 / shapingFrameSize p.S)

/-- The first sample that is kept. -/
def firstKept : Nat := p.ld * shapingFrameSize p.S

/-- The decoder starts with the encoder's `t` and `Q` before the first kept sample, and with its
`last_sign` before the sign bits of that sample were coded: without shaping they are coded when the
sample is put out, with shaping they were coded `ld` shaping frames earlier. -/
def firstDecoder : V90DecodeState :=
  let shape := shapeBefore p ucodes data s₀ (firstKept p)
  let coded := if p.S ≤ 5 then 0 else p.ld
  ⟨(encoderAt p ucodes data s₀ coded).last_sign, shape.1, shape.2⟩

/-- The signs of group `i` of the kept samples. -/
def groupSigns (i j : Nat) : Bool := decide (0 ≤ sampleAt p ucodes data s₀ (firstKept p + 6 * i + j))

/-- The decoder before group `i`. -/
def decoderAt : Nat → V90DecodeState
  | 0 => firstDecoder p ucodes data s₀
  | i + 1 => (decodeSigns p.S (decoderAt i) (groupSigns p ucodes data s₀ i)).2

/-- Group `i` gives the sign bits of frame `i`, and the decoder's `t` and `Q` are the encoder's. -/
structure SignsRecovered (i : Nat) : Prop where
  bits : (decodeSigns p.S (decoderAt p ucodes data s₀ i) (groupSigns p ucodes data s₀ i)).1 =
    (List.range p.S).map (data i)
  state : (decoderAt p ucodes data s₀ (i + 1)).Q =
    (shapeBefore p ucodes data s₀ (firstKept p + 6 * (i + 1))).2
  signs : ∀ j < shapingFrameSize p.S, (decoderAt p ucodes data s₀ (i + 1)).t.getLsbD j =
    (shapeBefore p ucodes data s₀ (firstKept p + 6 * (i + 1))).1.getLsbD j

end Stream

/-! ## The ucodes of a stream -/

section Ucodes

variable (ucodes : Nat → List Nat) (c : Nat)

/-- Ucode `a` of the stream. -/
def ucodeAt (a : Nat) : Nat := (ucodes (a / 6)).getD (a % 6) 0

/-- Before mapping frame `k` the ring buffer holds the last ucodes. -/
structure UcodesKept (k : Nat) (s : V90EncodeState) : Prop where
  pointer : s.ucode_ptr = (c + 6 * k) % 32
  recent : ∀ a < 6 * k, 6 * k ≤ a + 18 → s.ucode ((c + a) % 32) = ucodeAt ucodes a

variable {ucodes c} {p : V90Params}

/-- The ring buffer once the ucodes of frame `k` are stored. -/
theorem UcodesKept.stored {k : Nat} {s : V90EncodeState} (kept : UcodesKept ucodes c k s) {a : Nat}
    (le : a < 6 * k + 6) (near : 6 * k ≤ a + 18) :
    storeUcodes s (ucodes k) ((c + a) % 32) = ucodeAt ucodes a := by
  obtain ⟨pointer, recent⟩ := kept
  rcases Nat.lt_or_ge a (6 * k) with earlier | here
  · rw [← recent a earlier near, storeUcodes]
    refine storeRun_of_ne _ _ _ fun i inside => ?_
    simp only [UCODE_BUF_SIZE]
    omega
  · obtain ⟨i, rfl⟩ := Nat.exists_eq_add_of_le here
    have place : (c + (6 * k + i)) % 32 = (s.ucode_ptr + i) % UCODE_BUF_SIZE := by
      simp only [UCODE_BUF_SIZE]
      omega
    have frame : (6 * k + i) / 6 = k ∧ (6 * k + i) % 6 = i := by omega
    rw [place, storeUcodes, storeRun_get _ _ _ (by decide) (by omega), ucodeAt, frame.1, frame.2]

/-- A mapping frame keeps the ring buffer up to date. -/
theorem UcodesKept.frame {k : Nat} {s : V90EncodeState} (kept : UcodesKept ucodes c k s)
    (data : Nat → Bool) : UcodesKept ucodes c (k + 1) (signFrame p (ucodes k) data s).2.1 := by
  have inside : s.ucode_ptr < 32 := by
    rw [kept.pointer]
    exact Nat.mod_lt _ (by decide)
  obtain ⟨ring, pointer⟩ :=
    chooseSigns_ring p data { s with ucode := storeUcodes s (ucodes k) } inside
  refine ⟨?_, fun a lt near => ?_⟩
  · rw [signFrame_state, pointer]
    have before := kept.pointer
    simp only at before ⊢
    omega
  · rw [signFrame_state, ring]
    exact kept.stored (by omega) (by omega)

/-- The sign of a sample is the chosen sign, once the stored ucodes have come through the
look-ahead. -/
theorem UcodesKept.sign {k : Nat} {s : V90EncodeState} (kept : UcodesKept ucodes c k s)
    (data : Nat → Bool) (frame : shapingFrameSize p.S ≤ 6) (depth : p.ld ≤ 3)
    (audible : ∀ a, ucode_to_linear p.alaw (ucodeAt ucodes a) ≠ 0) {i : Nat} (inside : i < 6)
    (late : firstKept p ≤ 6 * k + i) :
    decide (0 ≤ (signFrame p (ucodes k) data s).1.getD i 0) =
      (chooseSigns p data { s with ucode := storeUcodes s (ucodes k) }).1.getLsbD i := by
  have bound : s.ucode_ptr < 32 := by
    rw [kept.pointer]
    exact Nat.mod_lt _ (by decide)
  have window : shapingFrameSize p.S * p.ld ≤ 18 := Nat.mul_le_mul frame depth
  rw [firstKept, Nat.mul_comm] at late
  have place : (ringIndex s.ucode_ptr (shapingFrameSize p.S * p.ld) + i) % UCODE_BUF_SIZE =
      (c + (6 * k + i - shapingFrameSize p.S * p.ld)) % 32 := by
    have pointer := kept.pointer
    simp only [ringIndex, UCODE_BUF_SIZE]
    omega
  rw [signFrame_samples p data s _ bound, List.getD_eq_getElem?_getD, List.getElem?_map,
    List.getElem?_range inside, Option.map_some, Option.getD_some, place,
    kept.stored (by omega) (by omega)]
  have level := (ucode_to_linear_nonneg p.alaw
    (ucodeAt ucodes (6 * k + i - shapingFrameSize p.S * p.ld))).1
  have nonzero := audible (6 * k + i - shapingFrameSize p.S * p.ld)
  generalize (chooseSigns p data { s with ucode := storeUcodes s (ucodes k) }).1.getLsbD i = sign
  cases sign <;> simp only [signed, Bool.false_eq_true, if_false, if_true]
  · exact decide_eq_false (by omega)
  · exact decide_eq_true (by omega)

end Ucodes

/-! ## Redundant signs -/

theorem gatherSigns_below {fs : Nat} (trace : List (BitVec 8 × Bool)) {n k : Nat} (below : k < n) :
    (gatherSigns fs trace n).getLsbD k = false := by
  induction trace generalizing n with
  | nil => simp [gatherSigns]
  | cons entry rest ih =>
    rw [gatherSigns, BitVec.getLsbD_or, BitVec.getLsbD_shiftLeft, ih (by omega),
      decide_eq_true below]
    simp

/-- The gathered signs are the low bits of the signs of each shaping frame. -/
theorem gatherSigns_bit {fs : Nat} (trace : List (BitVec 8 × Bool)) {i j n : Nat}
    (within : n + fs * trace.length ≤ 8) (frame : i < trace.length) (bit : j < fs) :
    (gatherSigns fs trace n).getLsbD (n + fs * i + j) = (trace.getD i (0, false)).1.getLsbD j := by
  induction trace generalizing i n with
  | nil => cases frame
  | cons entry rest ih =>
    rw [List.length_cons, Nat.mul_succ] at within
    have masked : ∀ k, (byteOf (List.replicate fs true)).getLsbD k = decide (k < fs) := by
      intro k
      rw [getLsbD_byteOf (by simp; omega)]
      by_cases inside : k < fs <;> simp [List.getD_eq_getElem?_getD, inside]
    rw [gatherSigns, BitVec.getLsbD_or, BitVec.getLsbD_shiftLeft, BitVec.getLsbD_and, masked]
    cases i with
    | zero =>
      rw [gatherSigns_below rest (show n + fs * 0 + j < n + fs by omega),
        show n + fs * 0 + j - n = j by omega, decide_eq_true bit,
        decide_eq_true (show n + fs * 0 + j < 8 by omega),
        decide_eq_false (show ¬ n + fs * 0 + j < n by omega)]
      simp
    | succ i =>
      have later := ih (i := i) (n := n + fs) (by omega) (Nat.lt_of_succ_lt_succ frame)
      rw [Nat.mul_succ, show n + (fs * i + fs) + j = n + fs + fs * i + j by omega, later,
        decide_eq_false (show ¬ n + fs + fs * i + j - n < fs by omega)]
      simp

/-- Shaping frames fill a mapping frame. -/
theorem shaping_frames {S : Nat} (redundant : S = 3 ∨ S = 4 ∨ S = 5) :
    shapingFrameSize S * (6 - S) = 6 ∧ 0 < shapingFrameSize S ∧ shapingFrameSize S ≤ 6 ∧
      0 < 6 - S := by
  rcases redundant with rfl | rfl | rfl <;> decide

theorem length_signWords {S : Nat} (redundant : S = 3 ∨ S = 4 ∨ S = 5) (last_sign : Bool)
    (data : Nat → Bool) : (signWords S last_sign data).1.length = 6 - S := by
  rcases redundant with rfl | rfl | rfl <;> rfl

theorem selectAll_last_sign {p : V90Params} {fs : Nat} (pv : List (BitVec 8)) (s : V90EncodeState) :
    (selectAll p fs pv s).2.last_sign = s.last_sign := by
  induction pv generalizing s with
  | nil => rfl
  | cons pp rest ih => exact ih (select_best_signs p fs pp s)

section Redundant

variable {p : V90Params} (ucodes : Nat → List Nat) (data : Nat → Nat → Bool) (s₀ : V90EncodeState)

/-- The sign word of shaping frame `m` of the stream. -/
def wordAt (p : V90Params) (m : Nat) : BitVec 8 :=
  (signWords p.S (encoderAt p ucodes data s₀ (m / (6 - p.S))).last_sign
    (data (m / (6 - p.S)))).1.getD (m % (6 - p.S)) 0

/-- The encoder between the words of mapping frame `k` and their shaping. -/
def beforeShaping (p : V90Params) (k : Nat) : V90EncodeState :=
  let s := encoderAt p ucodes data s₀ k
  { s with
    ucode := storeUcodes s (ucodes k)
    last_sign := (signWords p.S s.last_sign (data k)).2 }

/-- The shaping of mapping frame `k`. -/
def shapedFrame (p : V90Params) (k : Nat) : List (BitVec 8 × Bool) × V90EncodeState :=
  selectAll p (shapingFrameSize p.S)
    (signWords p.S (encoderAt p ucodes data s₀ k).last_sign (data k)).1
    (beforeShaping ucodes data s₀ p k)

/-- The chosen signs of mapping frame `k`. -/
def chosenAt (p : V90Params) (k : Nat) : BitVec 8 :=
  let s := encoderAt p ucodes data s₀ k
  (chooseSigns p (data k) { s with ucode := storeUcodes s (ucodes k) }).1

variable {ucodes data s₀}

theorem wordAt_eq (positive : 0 < 6 - p.S) {k i : Nat} (inside : i < 6 - p.S) :
    wordAt ucodes data s₀ p ((6 - p.S) * k + i) =
      (signWords p.S (encoderAt p ucodes data s₀ k).last_sign (data k)).1.getD i 0 := by
  rw [wordAt, Nat.mul_add_div positive, Nat.mul_add_mod, Nat.div_eq_of_lt inside,
    Nat.mod_eq_of_lt inside, Nat.add_zero]

/-- What a mapping frame with redundant signs does. -/
theorem frame_redundant (redundant : p.S = 3 ∨ p.S = 4 ∨ p.S = 5) (depth : p.ld ≤ 3) {c k : Nat}
    (kept : WordsKept (shapingFrameSize p.S) (wordAt ucodes data s₀ p) c ((6 - p.S) * k)
      (encoderAt p ucodes data s₀ k)) :
    WordsKept (shapingFrameSize p.S) (wordAt ucodes data s₀ p) c ((6 - p.S) * (k + 1))
        (encoderAt p ucodes data s₀ (k + 1)) ∧
      (encoderAt p ucodes data s₀ (k + 1)).last_sign =
        (signWords p.S (encoderAt p ucodes data s₀ k).last_sign (data k)).2 ∧
      framePath p ucodes data s₀ k (6 - p.S) =
        ((encoderAt p ucodes data s₀ (k + 1)).t, (encoderAt p ucodes data s₀ (k + 1)).Q) ∧
      Shaped p (wordAt ucodes data s₀ p) ((6 - p.S) * k) (6 - p.S)
        (framePath p ucodes data s₀ k) ∧
      ∀ i < 6 - p.S, ∀ j < shapingFrameSize p.S,
        (chosenAt ucodes data s₀ p k).getLsbD (shapingFrameSize p.S * i + j) =
          (framePath p ucodes data s₀ k (i + 1)).1.getLsbD j := by
  obtain ⟨whole, positive, few, frames⟩ := shaping_frames redundant
  have words := length_signWords redundant (encoderAt p ucodes data s₀ k).last_sign (data k)
  have before : WordsKept (shapingFrameSize p.S) (wordAt ucodes data s₀ p) c ((6 - p.S) * k)
      (beforeShaping ucodes data s₀ p k) := ⟨kept.pointer, kept.recent⟩
  obtain ⟨after, length, final, shaped⟩ := before.selectAll (p := p) ⟨positive, few⟩ depth
    (signWords p.S (encoderAt p ucodes data s₀ k).last_sign (data k)).1
    fun i inside => (wordAt_eq frames (by rwa [words] at inside)).symm
  have choice : chooseSigns p (data k) { encoderAt p ucodes data s₀ k with
      ucode := storeUcodes (encoderAt p ucodes data s₀ k) (ucodes k) } =
    (gatherSigns (shapingFrameSize p.S) (shapedFrame ucodes data s₀ p k).1 0,
      (shapedFrame ucodes data s₀ p k).2, (shapedFrame ucodes data s₀ p k).1) := if_pos redundant
  have next : encoderAt p ucodes data s₀ (k + 1) = (shapedFrame ucodes data s₀ p k).2 := by
    rw [encoderAt, signFrame_state, choice]
  have path : framePath p ucodes data s₀ k =
      pathOf (beforeShaping ucodes data s₀ p k) (shapedFrame ucodes data s₀ p k).1 := by
    rw [framePath, signFrame_state, choice]
    rfl
  rw [words, ← shapedFrame] at after final shaped
  rw [words, ← shapedFrame] at length
  rw [next, path]
  refine ⟨after, selectAll_last_sign _ _, final, shaped, fun i frame j bit => ?_⟩
  have gathered := gatherSigns_bit (n := 0) (i := i) (j := j) (shapedFrame ucodes data s₀ p k).1
    (by rw [length, whole]; decide) (by rw [length]; exact frame) bit
  rw [Nat.zero_add] at gathered
  rw [chosenAt, choice]
  exact gathered

section Shaped

variable (ucodes data s₀) (redundant : p.S = 3 ∨ p.S = 4 ∨ p.S = 5)

include redundant

/-- Before a shaping frame the stream is where its mapping frame is. -/
theorem shapeBefore_frame {k i : Nat} (inside : i < 6 - p.S) :
    shapeBefore p ucodes data s₀ (shapingFrameSize p.S * ((6 - p.S) * k + i)) =
      framePath p ucodes data s₀ k i := by
  obtain ⟨whole, positive, -, -⟩ := shaping_frames redundant
  have place : shapingFrameSize p.S * ((6 - p.S) * k + i) = 6 * k + shapingFrameSize p.S * i := by
    rw [Nat.mul_add, ← Nat.mul_assoc, whole]
  have short : shapingFrameSize p.S * i < 6 := by
    rw [← whole]
    exact Nat.mul_lt_mul_of_pos_left inside positive
  rw [place, shapeBefore, Nat.mul_add_div (by decide), Nat.mul_add_mod, Nat.div_eq_of_lt short,
    Nat.mod_eq_of_lt short, Nat.mul_div_cancel_left _ positive, Nat.add_zero]

variable (depth : p.ld ≤ 3) (ptr : s₀.ucode_ptr < UCODE_BUF_SIZE)

include depth ptr

theorem stream_words (k : Nat) : WordsKept (shapingFrameSize p.S) (wordAt ucodes data s₀ p)
    s₀.ucode_ptr ((6 - p.S) * k) (encoderAt p ucodes data s₀ k) := by
  induction k with
  | zero =>
    refine ⟨?_, fun a lt => absurd lt (Nat.not_lt_zero a)⟩
    exact (Nat.mod_eq_of_lt ptr).symm
  | succ k ih => exact (frame_redundant redundant depth ih).1

theorem shapeBefore_next {k i : Nat} (inside : i < 6 - p.S) :
    shapeBefore p ucodes data s₀ (shapingFrameSize p.S * ((6 - p.S) * k + i + 1)) =
      framePath p ucodes data s₀ k (i + 1) := by
  obtain ⟨-, -, -, frames⟩ := shaping_frames redundant
  rcases Nat.lt_or_ge (i + 1) (6 - p.S) with within | last
  · exact shapeBefore_frame ucodes data s₀ redundant within
  · have first := shapeBefore_frame ucodes data s₀ redundant (k := k + 1) frames
    have final := (frame_redundant redundant depth
      (stream_words ucodes data s₀ redundant depth ptr k)).2.2.1
    rw [show i + 1 = 6 - p.S by omega, final, Nat.add_assoc, show i + 1 = 6 - p.S by omega]
    exact first

/-- Every shaping frame uses the sign word `ld` frames before. -/
theorem stream_shaped {m : Nat} (late : p.ld ≤ m) :
    (shapeBefore p ucodes data s₀ (shapingFrameSize p.S * (m + 1))).1 =
      (shapeBefore p ucodes data s₀ (shapingFrameSize p.S * m)).1 ^^^
        wordAt ucodes data s₀ p (m - p.ld) ^^^
        sign_op (shapeBefore p ucodes data s₀ (shapingFrameSize p.S * (m + 1))).2
          (shapeBefore p ucodes data s₀ (shapingFrameSize p.S * m)).2 := by
  obtain ⟨-, -, -, frames⟩ := shaping_frames redundant
  have inside := Nat.mod_lt m frames
  rw [← Nat.div_add_mod m (6 - p.S)] at late ⊢
  rw [shapeBefore_next ucodes data s₀ redundant depth ptr inside,
    shapeBefore_frame ucodes data s₀ redundant inside]
  exact (frame_redundant redundant depth
    (stream_words ucodes data s₀ redundant depth ptr _)).2.2.2.1 _ inside late

variable (audible : ∀ a, ucode_to_linear p.alaw (ucodeAt ucodes a) ≠ 0)

include audible

omit redundant in
/-- The sign of a kept sample is the chosen one. -/
theorem sampleAt_sign (frame : shapingFrameSize p.S ≤ 6) {n : Nat} (late : firstKept p ≤ n) :
    decide (0 ≤ sampleAt p ucodes data s₀ n) =
      (chosenAt ucodes data s₀ p (n / 6)).getLsbD (n % 6) := by
  have kept : ∀ k, UcodesKept ucodes s₀.ucode_ptr k (encoderAt p ucodes data s₀ k) := by
    intro k
    induction k with
    | zero => exact ⟨(Nat.mod_eq_of_lt ptr).symm, fun a lt => absurd lt (Nat.not_lt_zero a)⟩
    | succ k ih => exact ih.frame (data k)
  exact (kept (n / 6)).sign (data (n / 6)) frame depth audible (Nat.mod_lt n (by decide))
    (by omega)

/-- The kept samples carry the signs of the shaping. -/
theorem stream_sign {m j : Nat} (late : p.ld ≤ m) (bit : j < shapingFrameSize p.S) :
    decide (0 ≤ sampleAt p ucodes data s₀ (shapingFrameSize p.S * m + j)) =
      (shapeBefore p ucodes data s₀ (shapingFrameSize p.S * (m + 1))).1.getLsbD j := by
  obtain ⟨whole, positive, few, frames⟩ := shaping_frames redundant
  have inside := Nat.mod_lt m frames
  have kept : firstKept p ≤ shapingFrameSize p.S * m + j := by
    have scaled := Nat.mul_le_mul_left (shapingFrameSize p.S) late
    rw [firstKept, Nat.mul_comm]
    omega
  rw [sampleAt_sign ucodes data s₀ depth ptr audible few kept]
  rw [← Nat.div_add_mod m (6 - p.S)]
  rw [shapeBefore_next ucodes data s₀ redundant depth ptr inside]
  generalize m / (6 - p.S) = k
  generalize m % (6 - p.S) = i at inside
  have place : shapingFrameSize p.S * ((6 - p.S) * k + i) + j =
      6 * k + (shapingFrameSize p.S * i + j) := by
    rw [Nat.mul_add, ← Nat.mul_assoc, whole, Nat.add_assoc]
  have short : shapingFrameSize p.S * i + j < 6 := by
    have bound := Nat.mul_le_mul_left (shapingFrameSize p.S) (show i + 1 ≤ 6 - p.S from inside)
    rw [whole, Nat.mul_succ] at bound
    omega
  rw [place, Nat.mul_add_div (by decide), Nat.mul_add_mod, Nat.div_eq_of_lt short,
    Nat.mod_eq_of_lt short, Nat.add_zero]
  exact (frame_redundant redundant depth
    (stream_words ucodes data s₀ redundant depth ptr k)).2.2.2.2 i inside j bit

/-- The decoder stays in step and gives back the sign bits. -/
theorem decoder_inStep (i : Nat) :
    InStep (shapingFrameSize p.S) (encoderAt p ucodes data s₀ i).last_sign
        (shapeBefore p ucodes data s₀ (firstKept p + 6 * i)) (decoderAt p ucodes data s₀ i) ∧
      (decodeSigns p.S (decoderAt p ucodes data s₀ i) (groupSigns p ucodes data s₀ i)).1 =
        (List.range p.S).map (data i) := by
  obtain ⟨whole, positive, few, frames⟩ := shaping_frames redundant
  have place : ∀ i a, firstKept p + 6 * i + shapingFrameSize p.S * a =
      shapingFrameSize p.S * (p.ld + (6 - p.S) * i + a) := by
    intro i a
    rw [Nat.mul_add, Nat.mul_add, ← Nat.mul_assoc, whole, firstKept, Nat.mul_comm]
  have sent : ∀ i, SentFrame p.S (encoderAt p ucodes data s₀ i).last_sign (data i)
      (fun a => shapeBefore p ucodes data s₀ (firstKept p + 6 * i + shapingFrameSize p.S * a))
      (groupSigns p ucodes data s₀ i) := by
    intro i
    refine ⟨fun a inside => ?_, fun a inside j bit => ?_⟩
    · have step := stream_shaped ucodes data s₀ redundant depth ptr
        (show p.ld ≤ p.ld + (6 - p.S) * i + a by omega)
      rw [show p.ld + (6 - p.S) * i + a - p.ld = (6 - p.S) * i + a by omega,
        wordAt_eq frames inside] at step
      simp only [place]
      exact step
    · have sign := stream_sign ucodes data s₀ redundant depth ptr audible
        (show p.ld ≤ p.ld + (6 - p.S) * i + a by omega) bit
      rw [← place, Nat.add_assoc] at sign
      simp only [place]
      exact sign
  have decoded := fun i (inStep : InStep (shapingFrameSize p.S)
      (encoderAt p ucodes data s₀ i).last_sign (shapeBefore p ucodes data s₀ (firstKept p + 6 * i))
      (decoderAt p ucodes data s₀ i)) => decodeSigns_shaped redundant inStep (sent i)
  have inStep : InStep (shapingFrameSize p.S) (encoderAt p ucodes data s₀ i).last_sign
      (shapeBefore p ucodes data s₀ (firstKept p + 6 * i)) (decoderAt p ucodes data s₀ i) := by
    induction i with
    | zero =>
      have coded : (if p.S ≤ 5 then 0 else p.ld) = 0 := if_pos (by omega)
      refine ⟨?_, rfl, fun j _ => rfl⟩
      rw [decoderAt, firstDecoder, coded]
    | succ i ih =>
      have next := (decoded i ih).2
      have words := (frame_redundant redundant depth
        (stream_words ucodes data s₀ redundant depth ptr i)).2.1
      rw [← words, whole] at next
      exact next
  exact ⟨inStep, (decoded i inStep).1⟩

end Shaped

end Redundant

/-! ## No redundant signs -/

@[simp] theorem length_plainSigns (data : Nat → Bool) (n : Nat) (l : Bool) :
    (plainSigns data n l).length = n := by
  induction n generalizing data l with
  | zero => rfl
  | succ n ih => rw [plainSigns, List.length_cons, ih]

/-- Every sign is a data bit on top of the sign before. -/
theorem plainSigns_getD (data : Nat → Bool) (l : Bool) {n i : Nat} (inside : i < n) :
    (plainSigns data n l).getD i false =
      (data i ^^ if i = 0 then l else (plainSigns data n l).getD (i - 1) false) := by
  induction n generalizing data l i with
  | zero => omega
  | succ n ih =>
    cases i with
    | zero => rfl
    | succ i =>
      rw [plainSigns, List.getD_cons_succ, ih _ _ (by omega)]
      cases i <;> rfl

section Plain

variable {p : V90Params} (ucodes : Nat → List Nat) (data : Nat → Nat → Bool) (s₀ : V90EncodeState)
  (six : p.S = 6)

include six

theorem frame_plain (k : Nat) :
    chosenAt ucodes data s₀ p k =
        byteOf (plainSigns (data k) 6 (encoderAt p ucodes data s₀ k).last_sign) ∧
      (encoderAt p ucodes data s₀ (k + 1)).last_sign =
        (plainSigns (data k) 6 (encoderAt p ucodes data s₀ k).last_sign).getD 5 false ∧
      (encoderAt p ucodes data s₀ (k + 1)).t = (encoderAt p ucodes data s₀ k).t ∧
      (encoderAt p ucodes data s₀ (k + 1)).Q = (encoderAt p ucodes data s₀ k).Q := by
  have plain : ¬ (p.S = 3 ∨ p.S = 4 ∨ p.S = 5) := by omega
  have choice : ∀ s, chooseSigns p (data k) s = (byteOf (plainSigns (data k) 6 s.last_sign),
      { s with
        last_sign := (plainSigns (data k) 6 s.last_sign).getLastD s.last_sign
        ucode_ptr := (s.ucode_ptr + 6) % UCODE_BUF_SIZE }, []) := fun s => if_neg plain
  refine ⟨?_, ?_, ?_, ?_⟩
  · rw [chosenAt, choice]
  · rw [encoderAt, signFrame_state, choice]
    rfl
  · rw [encoderAt, signFrame_state, choice]
  · rw [encoderAt, signFrame_state, choice]

/-- Signs and state of the shaping do not change. -/
theorem shapeBefore_plain (n : Nat) : shapeBefore p ucodes data s₀ n = (s₀.t, s₀.Q) := by
  have still : ∀ k, (encoderAt p ucodes data s₀ k).t = s₀.t ∧
      (encoderAt p ucodes data s₀ k).Q = s₀.Q := by
    intro k
    induction k with
    | zero => exact ⟨rfl, rfl⟩
    | succ k ih =>
      obtain ⟨-, -, signs, state⟩ := frame_plain ucodes data s₀ six k
      exact ⟨signs.trans ih.1, state.trans ih.2⟩
  have whole : n % 6 / shapingFrameSize p.S = 0 := by
    rw [six]
    exact Nat.div_eq_of_lt (Nat.mod_lt n (by decide))
  rw [shapeBefore, whole, ← (still (n / 6)).1, ← (still (n / 6)).2]
  rfl

/-- The signs of a frame are put out at once, but its ucodes `ld` frames later: each group gives
the sign bits of the frame `ld` frames on. -/
theorem decoder_plain (depth : p.ld ≤ 3) (ptr : s₀.ucode_ptr < UCODE_BUF_SIZE)
    (audible : ∀ a, ucode_to_linear p.alaw (ucodeAt ucodes a) ≠ 0) (i : Nat) :
    decoderAt p ucodes data s₀ i =
        ⟨(encoderAt p ucodes data s₀ (p.ld + i)).last_sign, s₀.t, s₀.Q⟩ ∧
      (decodeSigns p.S (decoderAt p ucodes data s₀ i) (groupSigns p ucodes data s₀ i)).1 =
        (List.range 6).map (data (p.ld + i)) := by
  have size : shapingFrameSize p.S = 6 := by rw [six]; rfl
  have group : ∀ i, ∀ j < 6, groupSigns p ucodes data s₀ i j =
      (plainSigns (data (p.ld + i)) 6 (encoderAt p ucodes data s₀ (p.ld + i)).last_sign).getD j
        false := by
    intro i j inside
    have place : firstKept p + 6 * i + j = 6 * (p.ld + i) + j := by
      rw [firstKept, size]
      omega
    have sign := sampleAt_sign ucodes data s₀ depth ptr audible (by rw [size])
      (show firstKept p ≤ 6 * (p.ld + i) + j by rw [← place]; omega)
    rw [Nat.mul_add_div (by decide), Nat.mul_add_mod, Nat.div_eq_of_lt inside,
      Nat.mod_eq_of_lt inside, Nat.add_zero, (frame_plain ucodes data s₀ six _).1,
      getLsbD_byteOf (by simp)] at sign
    rw [groupSigns, place, sign]
  have before : decoderAt p ucodes data s₀ i =
      ⟨(encoderAt p ucodes data s₀ (p.ld + i)).last_sign, s₀.t, s₀.Q⟩ := by
    induction i with
    | zero =>
      have coded : (if p.S ≤ 5 then 0 else p.ld) = p.ld := if_neg (by omega)
      rw [decoderAt, firstDecoder, coded, shapeBefore_plain ucodes data s₀ six]
      rfl
    | succ i ih =>
      have sign := group i 5 (by decide)
      rw [← (frame_plain ucodes data s₀ six (p.ld + i)).2.1] at sign
      rw [decoderAt, ih, six]
      simp only [decodeSigns, sign]
      rfl
  refine ⟨before, ?_⟩
  rw [before, six]
  simp only [decodeSigns]
  refine List.map_congr_left fun j member => ?_
  have inside := List.mem_range.mp member
  rw [group i j inside, plainSigns_getD _ _ inside]
  cases j with
  | zero => exact xor_xor_left_cancel _ _
  | succ j =>
    simp only [Nat.succ_ne_zero, if_false, Nat.add_sub_cancel, group i j (by omega)]
    exact xor_xor_left_cancel _ _

end Plain

/-! ## The round trip -/

/-- Group `i` gives the sign bits of frame `i` and the decoder tracks the encoder exactly when signs
are redundant, or there is no look-ahead, or the frame `ld` frames on has the same sign bits. -/
theorem signs_recovered_iff (p : V90Params) (range : 3 ≤ p.S ∧ p.S ≤ 6) (depth : p.ld ≤ 3)
    (ucodes : Nat → List Nat) (audible : ∀ a, ucode_to_linear p.alaw (ucodeAt ucodes a) ≠ 0)
    (data : Nat → Nat → Bool) (s₀ : V90EncodeState) (ptr : s₀.ucode_ptr < UCODE_BUF_SIZE) (i : Nat) :
    SignsRecovered p ucodes data s₀ i ↔
      p.S ≤ 5 ∨ p.ld = 0 ∨ ∀ j < 6, data (p.ld + i) j = data i j := by
  rcases Nat.lt_or_ge p.S 6 with redundant | plain
  · have shaped : p.S = 3 ∨ p.S = 4 ∨ p.S = 5 := by omega
    have recovered := (decoder_inStep ucodes data s₀ shaped depth ptr audible i).2
    have next := (decoder_inStep ucodes data s₀ shaped depth ptr audible (i + 1)).1
    exact ⟨fun _ => Or.inl (by omega), fun _ => ⟨recovered, next.state, next.signs⟩⟩
  · have six : p.S = 6 := by omega
    have decoded := (decoder_plain ucodes data s₀ six depth ptr audible i).2
    have next := (decoder_plain ucodes data s₀ six depth ptr audible (i + 1)).1
    constructor
    · rintro ⟨bits, -, -⟩
      rw [decoded, six] at bits
      exact Or.inr (Or.inr fun j inside => List.map_inj_left.mp bits j (List.mem_range.mpr inside))
    · intro condition
      have same : ∀ j < 6, data (p.ld + i) j = data i j := by
        rcases condition with five | zero | same
        · omega
        · rw [zero, Nat.zero_add]
          exact fun j _ => rfl
        · exact same
      refine ⟨?_, ?_, fun j _ => ?_⟩
      · rw [decoded, six]
        exact List.map_congr_left fun j member => same j (List.mem_range.mp member)
      · rw [next, shapeBefore_plain ucodes data s₀ six]
      · rw [next, shapeBefore_plain ucodes data s₀ six]

/-- The parameters of the whole u-law table with the given signs and look-ahead. -/
def uniformParams (S ld : Nat) : V90Params :=
  ⟨S, false, ld, 0, 0, 0, 0, 31, fun _ => Constellation.ofUsed fun _ => true⟩

/-- The same six ucodes in every frame are audible. -/
theorem steady_audible (a : Nat) :
    ucode_to_linear false (ucodeAt (fun _ => [1, 2, 3, 4, 5, 6]) a) ≠ 0 := by
  have levels : ∀ i : Fin 6, ucode_to_linear false ([1, 2, 3, 4, 5, 6].getD i 0) ≠ 0 := by decide
  exact levels ⟨a % 6, Nat.mod_lt a (by decide)⟩

/-- With one redundant sign and look-ahead 3 the fifth frame comes back. -/
theorem signs_recovered_fifth :
    SignsRecovered (uniformParams 5 3) (fun _ => [1, 2, 3, 4, 5, 6]) (fun k j => (k + j) % 3 == 0)
      startEncode 4 :=
  (signs_recovered_iff _ (by decide) (by decide) _ steady_audible _ _ (by decide) 4).mpr
    (Or.inl (by decide))

/-- With six sign bits and look-ahead 1 the sign bits of the first frame are lost. -/
theorem plain_signs_lost : ∃ p, v90_parse_CP (fullPacket 17 1) = some p ∧ p.S = 6 ∧ p.ld = 1 ∧
    ¬ SignsRecovered p (fun _ => [1, 2, 3, 4, 5, 6]) (fun k _ => k == 0) startEncode 0 := by
  refine ⟨_, rfl, by decide, by decide, ?_⟩
  rintro ⟨bits, -, -⟩
  rw [(decoder_plain _ _ _ (by decide) (by decide) (by decide) steady_audible 0).2] at bits
  exact absurd bits (by decide)

end QFax.Linmodem

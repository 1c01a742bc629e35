import QFax.Linmodem.V90Frame

/-!
# V.90: the ring buffers of the encoder

The encoder keeps its last ucodes in a ring buffer, since the look-ahead of the shaping delays
them.  Choosing signs only moves the pointer, by six entries for each mapping frame, so that the
samples of a frame are the levels stored `ld` shaping frames before.
-/

namespace QFax.Linmodem

/-- The sample of a level with a sign. -/
def signed (sign : Bool) (x : Int) : Int := if sign then x else -x

section Store

variable {α : Type} (f : Nat → α)

/-- Storing consecutive entries of the ring buffer. -/
def storeRun (buf : Nat → α) (ptr n : Nat) : Nat → α :=
  (List.range n).foldl (fun buf i => store buf (ptr + i) (f i)) buf

theorem storeRun_succ (buf : Nat → α) (ptr n : Nat) :
    storeRun f buf ptr (n + 1) = store (storeRun f buf ptr n) (ptr + n) (f n) := by
  simp [storeRun, List.range_succ]

/-- A stored entry is read back while fewer entries than the buffer holds were stored. -/
theorem storeRun_get (buf : Nat → α) (ptr : Nat) {n i : Nat} (few : n ≤ 32) (inside : i < n) :
    storeRun f buf ptr n ((ptr + i) % UCODE_BUF_SIZE) = f i := by
  induction n with
  | zero => omega
  | succ n ih =>
    rw [storeRun_succ, store]
    rcases Nat.lt_or_ge i n with earlier | last
    · have other : (ptr + i) % UCODE_BUF_SIZE ≠ (ptr + n) % UCODE_BUF_SIZE := by
        simp only [UCODE_BUF_SIZE]
        omega
      rw [Function.update_of_ne other, ih (by omega) earlier]
    · obtain rfl : i = n := by omega
      rw [Function.update_self]

/-- Entries that are not stored stay. -/
theorem storeRun_of_ne (buf : Nat → α) (ptr : Nat) {n j : Nat}
    (other : ∀ i < n, j ≠ (ptr + i) % UCODE_BUF_SIZE) : storeRun f buf ptr n j = buf j := by
  induction n with
  | zero => rfl
  | succ n ih =>
    rw [storeRun_succ, store, Function.update_of_ne (other n (by omega)),
      ih fun i lt => other i (by omega)]

end Store

section Select

variable {p : V90Params} (fs : Nat)

/-- Choosing signs moves the pointer and leaves the ucodes alone. -/
theorem selectAll_ring (pv : List (BitVec 8)) (s : V90EncodeState) (ptr : s.ucode_ptr < 32) :
    (selectAll p fs pv s).2.ucode = s.ucode ∧
      (selectAll p fs pv s).2.ucode_ptr = (s.ucode_ptr + pv.length * fs) % 32 := by
  induction pv generalizing s with
  | nil => exact ⟨rfl, by simp [selectAll, Nat.mod_eq_of_lt ptr]⟩
  | cons pp rest ih =>
    have step : (select_best_signs p fs pp s).ucode = s.ucode ∧
        (select_best_signs p fs pp s).ucode_ptr = (s.ucode_ptr + fs) % 32 := ⟨rfl, rfl⟩
    obtain ⟨ucodes, pointer⟩ := ih (select_best_signs p fs pp s) (by rw [step.2]; omega)
    refine ⟨ucodes.trans step.1, pointer.trans ?_⟩
    rw [step.2, List.length_cons, Nat.succ_mul, Nat.mod_add_mod]
    congr 1
    omega

end Select

section Frame

variable (p : V90Params) (data : Nat → Bool) (s : V90EncodeState)

/-- A mapping frame moves the pointer by six. -/
theorem chooseSigns_ring (ptr : s.ucode_ptr < 32) :
    (chooseSigns p data s).2.1.ucode = s.ucode ∧
      (chooseSigns p data s).2.1.ucode_ptr = (s.ucode_ptr + 6) % 32 := by
  unfold chooseSigns
  split
  · rename_i shaped
    obtain ⟨ucodes, pointer⟩ := selectAll_ring (p := p) (shapingFrameSize p.S)
      (signWords p.S s.last_sign data).1
      { s with last_sign := (signWords p.S s.last_sign data).2 } ptr
    refine ⟨ucodes, pointer.trans ?_⟩
    rcases shaped with three | four | five
    · rw [three]; rfl
    · rw [four]; rfl
    · rw [five]; rfl
  · exact ⟨rfl, rfl⟩

/-- The ring buffer with the ucodes of a frame. -/
def storeUcodes (ucodes : List Nat) : Nat → Nat :=
  storeRun (fun i => ucodes.getD i 0) s.ucode s.ucode_ptr 6

/-- The samples of a frame are levels stored `ld` shaping frames before. -/
theorem signFrame_samples (ucodes : List Nat) (ptr : s.ucode_ptr < 32) :
    (signFrame p ucodes data s).1 = (List.range 6).map fun i =>
      signed ((chooseSigns p data { s with ucode := storeUcodes s ucodes }).1.getLsbD i)
        (ucode_to_linear p.alaw (storeUcodes s ucodes
          ((ringIndex s.ucode_ptr (shapingFrameSize p.S * p.ld) + i) % UCODE_BUF_SIZE))) := by
  obtain ⟨ring, pointer⟩ :=
    chooseSigns_ring p data { s with ucode := storeUcodes s ucodes } ptr
  have first : ringIndex ((s.ucode_ptr + 6) % 32) (6 + shapingFrameSize p.S * p.ld) =
      ringIndex s.ucode_ptr (shapingFrameSize p.S * p.ld) := by
    simp only [ringIndex, UCODE_BUF_SIZE]
    congr 1
    push_cast
    omega
  simp only [signFrame]
  refine List.map_congr_left fun i _ => ?_
  simp only [storeUcodes, storeRun] at ring pointer ⊢
  rw [ring, pointer, first]
  rfl

/-- The state after a frame. -/
theorem signFrame_state (ucodes : List Nat) :
    (signFrame p ucodes data s).2 =
      (chooseSigns p data { s with ucode := storeUcodes s ucodes }).2 := rfl

end Frame

end QFax.Linmodem

import QFax.Linmodem.V90Modulus

/-!
# V.90: streams of mapping frames without look-ahead

An encoder and a decoder with the same parameters are run over any number of frames.  The `K` data
bits of every frame come back exactly when the word of each frame can be built.
-/

namespace QFax.Linmodem

open Bits MixedRadix

/-- Consecutive frames through encoder and decoder: the `K` bits the decoder puts out for each. -/
def runMapping (p : V90Params) : List (Nat → Bool) → V90EncodeState → V90DecodeState →
    Option (List (List Bool))
  | [], _, _ => some []
  | data :: rest, s, d => do
    let (samples, s) ← v90_encode_mapping_frame p data s
    let (_, bits, d) ← v90_decode_mapping_frame p d samples
    let later ← runMapping p rest s d
    some (bits :: later)

/-- The rings have room for the `K` bits. -/
structure Roomy (p : V90Params) : Prop where
  nonempty : ∀ j, 0 < (p.rings j).M
  room : 2 ^ p.K ≤ ((List.ofFn p.rings).map (·.M)).prod

/-- The decoder's word is that of the digits the samples were taken from. -/
theorem bitbuf_eq (alaw : Bool) {cs : List Constellation} (positive : ∀ c ∈ cs, 0 < c.M) (v : Nat)
    (samples : List Int) (length : samples.length = cs.length)
    (levels : ∀ i < cs.length, ∃ sign, samples.getD i 0 = signed sign (ucode_to_linear alaw
      ((List.zipWith (fun c d => c.ucodes.getD d 0) cs (split (cs.map (·.M)) v)).getD i 0))) :
    bitbuf alaw (cs.zip samples) = some (join (cs.map (·.M)) (split (cs.map (·.M)) v)) := by
  induction cs generalizing v samples with
  | nil => rfl
  | cons c cs ih =>
    cases samples with
    | nil => cases length
    | cons x xs =>
      have above := ih (fun d inTail => positive d (List.mem_cons_of_mem _ inTail)) (v / c.M) xs
        (Nat.succ.inj length) fun i lt => levels (i + 1) (Nat.succ_lt_succ lt)
      obtain ⟨sign, level⟩ := levels 0 (Nat.succ_pos _)
      have digit := Nat.mod_lt v (positive c List.mem_cons_self)
      have ring : ringOf alaw c x = some (v % c.M) := by
        have sample : x = signed sign (ucode_to_linear alaw (c.ucodes.getD (v % c.M) 0)) := level
        rw [sample]
        exact ringOf_eq alaw c digit sign
      simp only [List.zip_cons_cons, bitbuf, above, ring, Option.bind_eq_bind, Option.bind_some]
      rfl

section Frame

variable {p : V90Params} {data : Nat → Bool} {s : V90EncodeState}

/-- A frame whose word can be built is encoded and its data bits come back. -/
theorem frame_data (roomy : Roomy p) (undelayed : p.ld = 0) (packable : Packable p data)
    (ptr : s.ucode_ptr < UCODE_BUF_SIZE) (d : V90DecodeState) :
    ∃ samples s' signBits d', v90_encode_mapping_frame p data s = some (samples, s') ∧
      s'.ucode_ptr < UCODE_BUF_SIZE ∧
      v90_decode_mapping_frame p d samples = some (signBits, dataBits p data, d') := by
  have positive : ∀ c ∈ List.ofFn p.rings, 0 < c.M := by
    intro c member
    obtain ⟨j, rfl⟩ := List.mem_ofFn.mp member
    exact roomy.nonempty j
  have rings := mapRings_eq positive (word (dataBits p data))
  generalize hu : List.zipWith (fun (c : Constellation) d => c.ucodes.getD d 0) (List.ofFn p.rings)
    (split ((List.ofFn p.rings).map (·.M)) (word (dataBits p data))) = ucodes at rings
  have sent : v90_encode_mapping_frame p data s =
      some ((signFrame p ucodes data s).1, (signFrame p ucodes data s).2.1) := by
    simp only [v90_encode_mapping_frame, packBits_eq packable, rings, Option.bind_eq_bind,
      Option.bind_some]
  -- without look-ahead the samples are levels of the ucodes just stored
  have levels : ∀ i < 6, ∃ sign, (signFrame p ucodes data s).1.getD i 0 =
      signed sign (ucode_to_linear p.alaw (ucodes.getD i 0)) := by
    intro i inside
    have here : ringIndex s.ucode_ptr (shapingFrameSize p.S * p.ld) = s.ucode_ptr := by
      simp only [UCODE_BUF_SIZE] at ptr
      simp only [undelayed, ringIndex, UCODE_BUF_SIZE, Nat.mul_zero]
      omega
    refine ⟨(chooseSigns p data { s with ucode := storeUcodes s ucodes }).1.getLsbD i, ?_⟩
    rw [signFrame_samples p data s ucodes ptr, here, List.getD_eq_getElem?_getD, List.getElem?_map,
      List.getElem?_range inside, Option.map_some, Option.getD_some, storeUcodes,
      storeRun_get _ _ _ (by decide) inside]
  have word_fits : word (dataBits p data) < ((List.ofFn p.rings).map (·.M)).prod := by
    have bound := word_lt (dataBits p data)
    rw [dataBits, List.length_map, List.length_range] at bound
    exact bound.trans_le roomy.room
  have received := bitbuf_eq p.alaw positive (word (dataBits p data))
    (signFrame p ucodes data s).1 (by simp [signFrame]) (by rw [hu]; simpa using levels)
  rw [join_split_of_lt word_fits] at received
  have bits : lowBits p.K (word (dataBits p data)) = dataBits p data := by
    have read := lowBits_word (dataBits p data)
    rwa [dataBits, List.length_map, List.length_range] at read
  have pointer := (chooseSigns_ring p data { s with ucode := storeUcodes s ucodes } ptr).2
  refine ⟨_, _, (decodeSigns p.S d (signOf (signFrame p ucodes data s).1)).1,
    (decodeSigns p.S d (signOf (signFrame p ucodes data s).1)).2, sent, ?_, ?_⟩
  · rw [signFrame_state, pointer]
    exact Nat.mod_lt _ (by decide)
  · simp only [v90_decode_mapping_frame, received, Option.bind_eq_bind, Option.bind_some, bits]

/-- A frame whose word cannot be built is not sent. -/
theorem frame_unsent (wide : ¬ Packable p data) : v90_encode_mapping_frame p data s = none := by
  simp only [v90_encode_mapping_frame, packBits_none wide, Option.bind_eq_bind, Option.bind_none]

end Frame

/-- Without look-ahead the data bits of every frame come back exactly when `K` is at most 31, or is
32 and bit 31 of the data is zero in every frame. -/
theorem data_bits_recovered_iff (p : V90Params) (roomy : Roomy p) (undelayed : p.ld = 0)
    (frames : List (Nat → Bool)) (s : V90EncodeState) (ptr : s.ucode_ptr < UCODE_BUF_SIZE)
    (d : V90DecodeState) :
    runMapping p frames s d = some (frames.map (dataBits p)) ↔
      ∀ data ∈ frames, Packable p data := by
  induction frames generalizing s d with
  | nil => exact ⟨fun _ data inNil => absurd inNil List.not_mem_nil, fun _ => rfl⟩
  | cons data rest ih =>
    rw [List.forall_mem_cons]
    by_cases packable : Packable p data
    · obtain ⟨samples, s', signBits, d', sent, ptr', received⟩ :=
        frame_data roomy undelayed packable ptr d
      rw [← ih s' ptr' d']
      simp only [runMapping, sent, received, Option.bind_eq_bind, Option.bind_some, List.map_cons,
        Option.bind_eq_some_iff, Option.some.injEq, List.cons.injEq, true_and, exists_eq_right,
        packable]
    · simp only [runMapping, frame_unsent packable, Option.bind_eq_bind, Option.bind_none, packable,
        false_and, reduceCtorEq]

/-- A packet with the given data rate and look-ahead that selects the whole ucode table and six
sign bits. -/
def fullPacket (drn ld : Nat) (i : Nat) : Bool :=
  if 137 ≤ i then (i - 137) % 17 ≠ 16
  else if 49 ≤ i ∧ i < 51 then ld.testBit (50 - i)
  else if 20 ≤ i ∧ i < 25 then drn.testBit (24 - i)
  else i = 19

/-- With 31 data bits for each frame two frames come back. -/
theorem data_bits_recovered_two : ∃ p, v90_parse_CP (fullPacket 17 0) = some p ∧
    runMapping p [fun i => i % 3 == 0, fun _ => true] startEncode startDecode =
      some ([fun i => i % 3 == 0, fun _ => true].map (dataBits p)) :=
  ⟨_, rfl, (data_bits_recovered_iff _ ⟨by decide +kernel, by decide +kernel⟩ (by decide) _ _
    (by decide) _).mpr (by decide +kernel)⟩

/-- With 33 data bits for each frame the last one, `data[S+32]`, is to be shifted by 32.  It is a one here,
which no `int` could hold behind that shift. -/
theorem wide_frame_lost : ∃ p, v90_parse_CP (fullPacket 19 0) = some p ∧ Roomy p ∧ p.ld = 0 ∧
    (p.K = 33 ∧ p.S = 6) ∧
    runMapping p [fun i => i = 6 + 32] startEncode startDecode ≠
      some ([fun i => decide (i = 6 + 32)].map (dataBits p)) := by
  refine ⟨_, rfl, ⟨by decide +kernel, by decide +kernel⟩, by decide, by decide, ?_⟩
  rw [runMapping, frame_unsent (by decide +kernel)]
  exact nofun

end QFax.Linmodem

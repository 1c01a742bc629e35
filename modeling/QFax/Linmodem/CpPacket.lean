import Mathlib.Tactic.IntervalCases
import QFax.Lib.Bits
import QFax.Lib.ShiftRegister
import QFax.Linmodem.V90Init

/-!
# V.90: the CP packet on the line

The analog modem writes the packet bit by bit (`v90_send_CP`); the digital modem waits for its frame
sync, reads groups of sixteen bits behind start bits, checks the CRC and parses the packet at fixed
offsets (`v90_receive_CP`).  The parameters and constellations arrive unchanged
(`cp_round_trip`).
-/

namespace QFax.Linmodem

open Bits ShiftRegister

/-! ## Sending -/

/-- `V90DecodeState`, the fields that a packet carries. -/
structure V90Decode where
  /-- Sign bits. -/
  S : Nat
  /-- Number of bits for the ring coder. -/
  K : Nat
  alaw : Bool
  ld : Nat
  a1 : Int
  a2 : Int
  b1 : Int
  b2 : Int
  ucode_used : Fin 6 → Nat → Bool

/-- The ucodes of an interval in the order of `v90_decode_init`. -/
def V90Decode.ucodes (s : V90Decode) (j : Fin 6) : List Nat :=
  (List.range 128).reverse.filter (s.ucode_used j)

/-- `M` as `v90_decode_init` computes it. -/
def V90Decode.M (s : V90Decode) (j : Fin 6) : Nat := (s.ucodes j).length

/-- `m_to_linear` as `v90_decode_init` tabulates it. -/
def V90Decode.m_to_linear (s : V90Decode) (j : Fin 6) : List Int :=
  (s.ucodes j).map (ucode_to_linear s.alaw)

/-- `put_bits` for an `int`: its low bits, most significant first. -/
def put_bits (n : Nat) (bits : Int) : List Bool := toBits n (bits % 2 ^ n).toNat

/-- The feedback of `calc_crc`. -/
def crcPoly : BitVec 16 := 1 <<< 15 ||| 1 <<< 10 ||| 1 <<< 3

/-- `calc_crc`, which inverts the order of the bits in the end. -/
def calc_crc (buf : List Bool) : BitVec 16 := (crc crcPoly 0xffff buf).reverse

/-- The packet behind the frame sync up to the start bit of the CRC. -/
def cpBody (s : V90Decode) (is_CP ack : Bool) : List Bool :=
  let drn : Int := s.K + s.S - if is_CP then 20 else 8
  put_bits 1 0 ++ put_bits 1 0 ++ put_bits 1 is_CP.toNat ++ put_bits 5 drn ++ put_bits 5 0 ++
    put_bits 1 0 ++ put_bits 2 (6 - s.S) ++ put_bits 1 ack.toNat ++
    -- u/a law, the speeds of the V.34 part and the look-ahead
    put_bits 1 0 ++ put_bits 1 s.alaw.toNat ++ (List.range 13).flatMap (fun _ => put_bits 1 1) ++
    put_bits 2 s.ld ++
    -- RMS value for TRN1d
    put_bits 1 0 ++ put_bits 16 0 ++
    -- spectral shaping parameters
    put_bits 1 0 ++ put_bits 8 s.a1 ++ put_bits 8 s.a2 ++
    put_bits 1 0 ++ put_bits 8 s.b1 ++ put_bits 8 s.b2 ++
    -- modulation indexes
    put_bits 1 0 ++
    (List.range 6).flatMap (fun i => (if i = 4 then put_bits 1 0 else []) ++ put_bits 4 0) ++
    put_bits 1 0 ++ put_bits 7 0 ++
    -- the constellation
    (List.range 128).flatMap (fun i =>
      (if i % 16 = 0 then put_bits 1 0 else []) ++ put_bits 1 (s.ucode_used ⟨0, by decide⟩ i).toNat) ++
    put_bits 1 0

/-- `v90_send_CP`. -/
def v90_send_CP (s : V90Decode) (is_CP ack : Bool) : List Bool :=
  put_bits 17 0x1ffff ++ cpBody s is_CP ack ++
    put_bits 16 (calc_crc (cpBody s is_CP ack)).toNat ++ put_bits 3 0

/-! ## Receiving -/

/-- Count the ones up to a zero, which is taken too. -/
def countOnes : List Bool → Option (Nat × List Bool)
  | [] => none
  | false :: p => some (0, p)
  | true :: p => (countOnes p).map fun (one_count, p) => (one_count + 1, p)

/-- The packet as an array whose first 17 entries are not used. -/
def bufOf (q : List Bool) (i : Nat) : Bool := q.getD (i - 17) false

/-- The number of constellations that the indexes in the packet announce. -/
def nb_constellations (buf : Nat → Bool) : Nat :=
  let m_index : Fin 6 → Nat := fun i =>
    if i.val < 4 then getBits buf (103 + i * 4) 4 else getBits buf (120 + (i.val - 4) * 4) 4
  let most := (List.finRange 6).foldl (fun n i => if m_index i > n then m_index i else n) 0
  most + 1 + (buf 128).toNat

/-- How the groups of a packet were read. -/
inductive GroupsRead
  /-- A start bit was missing; the bits left. -/
  | retry (p : List Bool)
  /-- All groups were read: the packet from its first start bit on, the CRC, and the bits left. -/
  | done (q : List Bool) (crc1 : BitVec 16) (p : List Bool)

/-- Read groups of sixteen bits, each followed by the start bit of the next one.  The buffer has no end here;
its 1024 bytes hold the groups of six constellations (`storeGroups` checks every store). -/
def readGroups (frame_index frame_count : Nat) (crc1 : BitVec 16) (q p : List Bool) :
    Option GroupsRead :=
  if frame_index < frame_count then
    if p.length < 17 then none
    else
      let q := q ++ false :: p.take 16
      -- compute the number of constellations to read
      let frame_count :=
        if frame_index = 6 then frame_count + 8 * nb_constellations (bufOf q) else frame_count
      let crc1 := if frame_index + 1 = frame_count then calc_crc q else crc1
      if p.getD 16 false then some (.retry (p.drop 17))
      else readGroups (frame_index + 1) frame_count crc1 q (p.drop 17)
  else some (.done q crc1 p)
termination_by p.length
decreasing_by
  rw [List.length_drop]
  omega

/-- `v90_receive_CP`; the first argument bounds the searches for a frame sync. -/
def receiveCP : Nat → List Bool → Option V90Params
  | 0, _ => none
  | tries + 1, p =>
    match countOnes p with
    | none => none
    | some (one_count, p) =>
      if one_count ≠ 17 then receiveCP tries p
      else
        match readGroups 0 8 1 [] p with
        | none => none
        | some (.retry p) => receiveCP tries p
        | some (.done q crc1 p) =>
          if crc1 ≠ 0 then receiveCP tries p else v90_parse_CP (bufOf q)

/-- `v90_receive_CP`: every search takes a bit.  It is exact where no store is outside of the buffer, as for
every packet that `v90_send_CP` writes. -/
def v90_receive_CP (p : List Bool) : Option V90Params := receiveCP (p.length + 1) p

/-! ## The groups of a packet -/

/-- Groups behind their start bits. -/
def started (gs : List (List Bool)) : List Bool := gs.flatMap (false :: ·)

/-- Groups in front of the start bits that follow them. -/
def followed (gs : List (List Bool)) : List Bool := gs.flatMap (· ++ [false])

/-- The groups in front of the constellation. -/
def headGroups (s : V90Decode) (is_CP ack : Bool) : List (List Bool) := [
  put_bits 1 0 ++ put_bits 1 is_CP.toNat ++ put_bits 5 (s.K + s.S - if is_CP then 20 else 8) ++
    put_bits 5 0 ++ put_bits 1 0 ++ put_bits 2 (6 - s.S) ++ put_bits 1 ack.toNat,
  put_bits 1 s.alaw.toNat ++ List.replicate 13 true ++ put_bits 2 s.ld,
  put_bits 16 0,
  put_bits 8 s.a1 ++ put_bits 8 s.a2,
  put_bits 8 s.b1 ++ put_bits 8 s.b2,
  put_bits 16 0,
  put_bits 16 0]

/-- Sixteen ucodes. -/
def usedGroup (ucode_used : Nat → Bool) (c : Nat) : List Bool :=
  (List.range 16).map fun i => ucode_used (16 * c + i)

/-- The groups of a constellation. -/
def usedGroups (ucode_used : Nat → Bool) : List (List Bool) :=
  (List.range 8).map (usedGroup ucode_used)

theorem followed_started (gs : List (List Bool)) : false :: followed gs = started gs ++ [false] := by
  induction gs with
  | nil => rfl
  | cons g gs ih =>
    have rest : followed (g :: gs) = g ++ (false :: followed gs) := by
      simp [followed]
    rw [rest, ih]
    simp [started]

theorem put_bits_bit (b : Bool) : put_bits 1 b.toNat = [b] := by
  cases b <;> rfl

theorem started_append (as bs : List (List Bool)) : started (as ++ bs) = started as ++ started bs :=
  List.flatMap_append

/-- The loop over the ucodes, sixteen for every start bit. -/
theorem used_started (ucode_used : Nat → Bool) (n : Nat) :
    ((List.range (16 * n)).flatMap fun i =>
      (if i % 16 = 0 then put_bits 1 0 else []) ++ put_bits 1 (ucode_used i).toNat) =
      started ((List.range n).map (usedGroup ucode_used)) := by
  induction n with
  | zero => rfl
  | succ n ih =>
    have group : ((List.range 16).map (16 * n + ·)).flatMap (fun i =>
        (if i % 16 = 0 then put_bits 1 0 else []) ++ put_bits 1 (ucode_used i).toNat) =
        started [usedGroup ucode_used n] := by
      have sixteen : List.range 16 = [0, 1, 2, 3, 4, 5, 6, 7, 8, 9, 10, 11, 12, 13, 14, 15] := rfl
      have start : put_bits 1 0 = [false] := rfl
      simp [sixteen, put_bits_bit, start, started, usedGroup]
    rw [Nat.mul_succ, List.range_add, List.flatMap_append, ih, group, List.range_succ,
      List.map_append, started_append]
    rfl

/-- The packet is made of groups behind start bits. -/
theorem cpBody_groups (s : V90Decode) (is_CP ack : Bool) :
    cpBody s is_CP ack =
      started (headGroups s is_CP ack ++ usedGroups (s.ucode_used 0)) ++ [false] := by
  have start : put_bits 1 0 = [false] := rfl
  have speeds : (List.range 13).flatMap (fun _ => put_bits 1 1) = List.replicate 13 true := rfl
  have indexes : (List.range 6).flatMap (fun i => (if i = 4 then put_bits 1 0 else []) ++
      put_bits 4 0) = put_bits 16 0 ++ false :: put_bits 8 0 := rfl
  have last : put_bits 16 0 = put_bits 8 0 ++ put_bits 1 0 ++ put_bits 7 0 := rfl
  have first : (0 : Fin 6) = ⟨0, by decide⟩ := rfl
  have used := used_started (s.ucode_used ⟨0, by decide⟩) 8
  rw [first, started_append, usedGroups, ← used]
  unfold cpBody headGroups started
  simp only [speeds, indexes, last]
  simp only [start, List.flatMap_cons, List.flatMap_nil, List.append_assoc, List.cons_append,
    List.nil_append]

/-! ## Reading the groups -/

theorem countOnes_sync (n : Nat) (p : List Bool) :
    countOnes (List.replicate n true ++ false :: p) = some (n, p) := by
  induction n with
  | zero => rfl
  | succ n ih =>
    rw [List.replicate_succ, List.cons_append, countOnes, ih]
    rfl

/-- One group with its start bits. -/
theorem readGroups_group {frame_index frame_count : Nat} (more : frame_index < frame_count)
    (crc1 : BitVec 16) (q : List Bool) {g : List Bool} (size : g.length = 16) (p : List Bool) :
    readGroups frame_index frame_count crc1 q (g ++ false :: p) =
      let q := q ++ false :: g
      let frame_count :=
        if frame_index = 6 then frame_count + 8 * nb_constellations (bufOf q) else frame_count
      let crc1 := if frame_index + 1 = frame_count then calc_crc q else crc1
      readGroups (frame_index + 1) frame_count crc1 q p := by
  have long : ¬ (g ++ false :: p).length < 17 := by
    rw [List.length_append, List.length_cons]
    omega
  have group : (g ++ false :: p).take 16 = g := List.take_left' size
  have startBit : (g ++ false :: p).getD 16 false = false := by
    rw [List.getD_append_right _ _ _ _ size.le, size]
    rfl
  have behind : (g ++ false :: p).drop 17 = p := by
    have next : 17 = g.length + 1 := by omega
    rw [next, List.drop_append]
    simp
  rw [readGroups, if_pos more, if_neg long]
  simp only [group, startBit, behind, Bool.false_eq_true, if_false]

/-- Groups that are neither the last one nor the one that announces the constellations. -/
theorem readGroups_plain {gs : List (List Bool)} (sizes : ∀ g ∈ gs, g.length = 16)
    {frame_index frame_count : Nat} (crc1 : BitVec 16) (q p : List Bool)
    (plain : ∀ k, frame_index ≤ k → k < frame_index + gs.length → k ≠ 6 ∧ k + 1 < frame_count) :
    readGroups frame_index frame_count crc1 q (followed gs ++ p) =
      readGroups (frame_index + gs.length) frame_count crc1 (q ++ started gs) p := by
  induction gs generalizing frame_index q with
  | nil => simp [followed, started]
  | cons g gs ih =>
    rw [List.length_cons] at plain
    obtain ⟨notSix, notLast⟩ := plain frame_index le_rfl (by omega)
    have stream : followed (g :: gs) ++ p = g ++ false :: (followed gs ++ p) := by
      simp [followed]
    have content : q ++ started (g :: gs) = (q ++ false :: g) ++ started gs := by
      simp [started]
    rw [stream, readGroups_group (by omega) crc1 q (sizes g List.mem_cons_self)]
    simp only [if_neg notSix, if_neg (by omega : frame_index + 1 ≠ frame_count)]
    rw [ih (fun g member => sizes g (List.mem_cons_of_mem _ member)) _ fun k ge lt =>
      plain k (by omega) (by omega), content, List.length_cons, Nat.add_right_comm, Nat.add_assoc]

/-- A packet of one constellation. -/
theorem readGroups_packet {first : List (List Bool)} (six : first.length = 6)
    {g : List Bool} {used : List (List Bool)} (eight : used.length = 8) {check : List Bool}
    (sizes : ∀ x ∈ first ++ g :: used ++ [check], x.length = 16)
    (one : nb_constellations (bufOf (started (first ++ [g]))) = 1) (p : List Bool) :
    readGroups 0 8 1 [] (followed (first ++ g :: used ++ [check]) ++ p) =
      some (.done (started (first ++ g :: used ++ [check]))
        (calc_crc (started (first ++ g :: used ++ [check]))) p) := by
  have parts : followed (first ++ g :: used ++ [check]) ++ p =
      followed first ++ (g ++ false :: (followed used ++ (check ++ false :: p))) := by
    simp [followed]
  have size {x : List Bool} (member : x ∈ first ++ g :: used ++ [check]) : x.length = 16 :=
    sizes x member
  rw [parts, readGroups_plain (fun x member => size (by simp [member])) 1 [] _
    fun k _ lt => ⟨by omega, by omega⟩, six, Nat.zero_add, List.nil_append,
    readGroups_group (by decide) _ _ (size (by simp))]
  have sofar : started first ++ false :: g = started (first ++ [g]) := by
    simp [started]
  simp only [sofar, one, if_true]
  rw [if_neg (by decide), readGroups_plain (fun x member => size (by simp [member])) 1 _ _
    fun k _ lt => ⟨by omega, by omega⟩, eight,
    readGroups_group (by decide) _ _ (size (by simp))]
  have whole : started (first ++ [g]) ++ started used ++ false :: check =
      started (first ++ g :: used ++ [check]) := by
    simp [started]
  simp only [whole]
  rw [readGroups]
  rfl

/-! ## Fields at fixed offsets -/

theorem length_started {gs : List (List Bool)} (sizes : ∀ g ∈ gs, g.length = 16) :
    (started gs).length = 17 * gs.length := by
  induction gs with
  | nil => rfl
  | cons g gs ih =>
    have rest := ih fun g member => sizes g (List.mem_cons_of_mem _ member)
    have first : (started (g :: gs)).length = g.length + 1 + (started gs).length := by
      simp [started]
      omega
    rw [first, rest, sizes g List.mem_cons_self, List.length_cons]
    omega

/-- A bit of a group. -/
theorem bufOf_started {gs : List (List Bool)} (sizes : ∀ g ∈ gs, g.length = 16) {k : Nat}
    {g : List Bool} (group : gs[k]? = some g) {i r : Nat} (lt : r < 16)
    (index : i = 17 * (k + 1) + 1 + r) : bufOf (started gs) i = g.getD r false := by
  obtain ⟨inside, rfl⟩ := List.getElem?_eq_some_iff.mp group
  have size : gs[k].length = 16 := sizes _ (List.getElem_mem inside)
  have split : gs = gs.take k ++ gs[k] :: gs.drop (k + 1) := by
    rw [← List.drop_eq_getElem_cons inside, List.take_append_drop]
  have before : (started (gs.take k)).length = 17 * k := by
    rw [length_started fun g member => sizes g (List.mem_of_mem_take member), List.length_take,
      Nat.min_eq_left inside.le]
  have parts : started gs =
      started (gs.take k) ++ (false :: (gs[k] ++ started (gs.drop (k + 1)))) := by
    rw [congrArg started split, started_append]
    rfl
  have offset : i - 17 = (started (gs.take k)).length + (r + 1) := by
    rw [before]
    omega
  rw [bufOf, parts, offset, List.getD_append_right _ _ _ _ (Nat.le_add_right _ _),
    Nat.add_sub_cancel_left, List.getD_cons_succ, List.getD_append _ _ _ _ (by omega)]

theorem getBits_eq {buf : Nat → Bool} {p n v : Nat}
    (same : ∀ i < n, buf (p + i) = (toBits n v).getD i false) : getBits buf p n = v % 2 ^ n := by
  induction n generalizing p with
  | zero => rw [getBits, Nat.pow_zero, Nat.mod_one]
  | succ n ih =>
    have first : buf p = v.testBit n := same 0 (Nat.succ_pos n)
    have rest : getBits buf (p + 1) n = v % 2 ^ n := by
      refine ih fun i lt => ?_
      have next := same (i + 1) (by omega)
      rw [toBits_succ, List.getD_cons_succ, ← Nat.add_assoc, Nat.add_right_comm] at next
      exact next
    rw [getBits, first, rest, Nat.toNat_testBit, Nat.mod_pow_succ, Nat.mul_comm, Nat.add_comm]

/-- A field of a group is read where `put_bits` put it. -/
theorem getBits_field {gs : List (List Bool)} (sizes : ∀ g ∈ gs, g.length = 16) {k : Nat}
    (as : List Bool) {n : Nat} {v : Int} (bs : List Bool)
    (group : gs[k]? = some (as ++ put_bits n v ++ bs)) {p : Nat}
    (offset : p = 17 * (k + 1) + 1 + as.length) :
    (getBits (bufOf (started gs)) p n : Int) = v % 2 ^ n := by
  have size : (put_bits n v).length = n := length_toBits n _
  have total : as.length + (n + bs.length) = 16 := by
    have sixteen := sizes _ (List.mem_of_getElem? group)
    rwa [List.length_append, List.length_append, size, Nat.add_assoc] at sixteen
  have value : getBits (bufOf (started gs)) p n = (v % 2 ^ n).toNat % 2 ^ n := by
    refine getBits_eq fun i lt => ?_
    have inside : as.length + i < 16 := by omega
    rw [bufOf_started sizes group inside (by omega), List.append_assoc,
      List.getD_append_right _ _ _ _ (Nat.le_add_right _ _), Nat.add_sub_cancel_left,
      List.getD_append _ _ _ _ (by rw [size]; exact lt)]
    rfl
  have pos : (0 : Int) < 2 ^ n := by positivity
  have lower := Int.emod_nonneg v (ne_of_gt pos)
  rw [value]
  push_cast
  rw [Int.toNat_of_nonneg lower, Int.emod_emod]

/-- A field of one bit. -/
theorem bit_field {gs : List (List Bool)} (sizes : ∀ g ∈ gs, g.length = 16) {k : Nat}
    (as : List Bool) {b : Bool} (bs : List Bool)
    (group : gs[k]? = some (as ++ put_bits 1 b.toNat ++ bs)) {p : Nat}
    (offset : p = 17 * (k + 1) + 1 + as.length) : bufOf (started gs) p = b := by
  have value := getBits_field sizes as bs group offset
  rw [getBits, getBits] at value
  cases b <;> cases equal : bufOf (started gs) p <;> rw [equal] at value <;> simp_all

theorem getD_zeros (m i : Nat) : (List.replicate m false).getD i false = false := by
  rw [List.getD_eq_getElem?_getD, List.getElem?_replicate]
  split <;> rfl

/-- A field of a group of zeros. -/
theorem zero_field {gs : List (List Bool)} (sizes : ∀ g ∈ gs, g.length = 16) {k : Nat}
    (group : gs[k]? = some (put_bits 16 0)) {p n : Nat} (lower : 17 * (k + 1) + 1 ≤ p)
    (upper : p + n ≤ 17 * (k + 1) + 17) : getBits (bufOf (started gs)) p n = 0 := by
  have zeros : put_bits 16 0 = List.replicate 16 false := rfl
  have value : getBits (bufOf (started gs)) p n = 0 % 2 ^ n := by
    refine getBits_eq fun i lt => ?_
    have inside : p + i - (17 * (k + 1) + 1) < 16 := by omega
    rw [bufOf_started sizes group inside (by omega), zeros, toBits_of_zero,
      getD_zeros, getD_zeros]
  rw [value, Nat.zero_mod]

/-! ## The round trip -/

/-- The parameters that a packet can carry. -/
structure Sendable (s : V90Decode) (is_CP : Bool) : Prop where
  signs : 3 ≤ s.S ∧ s.S ≤ 6
  rate : if is_CP then 20 ≤ s.K + s.S ∧ s.K + s.S ≤ 51 else 8 ≤ s.K + s.S ∧ s.K + s.S ≤ 39
  depth : s.ld ≤ 3
  a1 : -128 ≤ s.a1 ∧ s.a1 ≤ 127
  a2 : -128 ≤ s.a2 ∧ s.a2 ≤ 127
  b1 : -128 ≤ s.b1 ∧ s.b1 ≤ 127
  b2 : -128 ≤ s.b2 ∧ s.b2 ≤ 127
  shared : ∀ j, s.ucode_used j = s.ucode_used 0

theorem signedByte_emod {v : Int} {n : Nat} (small : -128 ≤ v ∧ v ≤ 127) (low : (n : Int) = v % 2 ^ 8) :
    signedByte n = v := by
  have wrapped : v = n ∨ (n : Int) = v + (256 : Nat) := by omega
  unfold signedByte
  rcases wrapped with same | above
  · subst same
    exact Int.bmod_eq_of_le (by omega) (by omega)
  · rw [above, Int.add_bmod_right]
    exact Int.bmod_eq_of_le (by omega) (by omega)

theorem packet_sizes (s : V90Decode) (is_CP ack : Bool) {check : List Bool}
    (sixteen : check.length = 16) :
    ∀ g ∈ headGroups s is_CP ack ++ usedGroups (s.ucode_used 0) ++ [check], g.length = 16 := by
  have bits (n : Nat) (v : Int) : (put_bits n v).length = n := length_toBits n _
  have head : ∀ g ∈ headGroups s is_CP ack, g.length = 16 := by
    simp [headGroups, bits]
  have used : ∀ g ∈ usedGroups (s.ucode_used 0), g.length = 16 := by
    simp [usedGroups, usedGroup]
  intro g member
  rcases List.mem_append.mp member with member | member
  · rcases List.mem_append.mp member with member | member
    · exact head g member
    · exact used g member
  · rwa [List.mem_singleton.mp member]

/-- All intervals have the first constellation. -/
theorem zero_index {gs : List (List Bool)} (sizes : ∀ g ∈ gs, g.length = 16)
    (g5 : gs[5]? = some (put_bits 16 0)) (g6 : gs[6]? = some (put_bits 16 0)) (i : Fin 6) :
    (if i.val < 4 then getBits (bufOf (started gs)) (103 + i * 4) 4
      else getBits (bufOf (started gs)) (120 + (i.val - 4) * 4) 4) = 0 := by
  split
  · exact zero_field sizes g5 (by omega) (by omega)
  · exact zero_field sizes g6 (by omega) (by omega)

/-- The codec has no constellations of its own. -/
theorem zero_codec {gs : List (List Bool)} (sizes : ∀ g ∈ gs, g.length = 16)
    (g6 : gs[6]? = some (put_bits 16 0)) : bufOf (started gs) 128 = false := by
  have zero := zero_field sizes g6 (p := 128) (n := 1) (by omega) (by omega)
  rw [getBits, getBits] at zero
  cases equal : bufOf (started gs) 128
  · rfl
  · rw [equal] at zero
    cases zero

/-- The packet announces one constellation. -/
theorem one_constellation (s : V90Decode) (is_CP ack : Bool) :
    nb_constellations (bufOf (started ((headGroups s is_CP ack).take 6 ++ [put_bits 16 0]))) = 1 := by
  have sizes : ∀ g ∈ (headGroups s is_CP ack).take 6 ++ [put_bits 16 0], g.length = 16 := by
    intro g member
    refine packet_sizes s is_CP ack (List.length_replicate : (List.replicate 16 false).length = 16)
      g (List.mem_append_left _ (List.mem_append_left _ ?_))
    rcases List.mem_append.mp member with member | member
    · exact List.mem_of_mem_take member
    · rw [List.mem_singleton.mp member]
      simp [headGroups]
  generalize equal : (headGroups s is_CP ack).take 6 ++ [put_bits 16 0] = gs at sizes
  have g5 : gs[5]? = some (put_bits 16 0) := by
    rw [← equal]
    rfl
  have g6 : gs[6]? = some (put_bits 16 0) := by
    rw [← equal]
    rfl
  simp only [nb_constellations, zero_index sizes g5 g6, zero_codec sizes g6]
  rfl

/-- What the groups of a packet are parsed to. -/
theorem parse_groups {s : V90Decode} {is_CP : Bool} (sendable : Sendable s is_CP) (ack : Bool)
    {check : List Bool} (sixteen : check.length = 16) :
    ∃ p, v90_parse_CP (bufOf (started (headGroups s is_CP ack ++ usedGroups (s.ucode_used 0) ++
        [check]))) = some p ∧
      p.S = s.S ∧ p.K = s.K ∧ p.alaw = s.alaw ∧ p.ld = s.ld ∧ p.a1 = s.a1 ∧ p.a2 = s.a2 ∧
      p.b1 = s.b1 ∧ p.b2 = s.b2 ∧ ∀ j, (p.rings j).ucodes = s.ucodes j := by
  have sizes := packet_sizes s is_CP ack sixteen
  generalize equal : headGroups s is_CP ack ++ usedGroups (s.ucode_used 0) ++ [check] = gs at sizes
  obtain ⟨g0, g1, g2, g3, g4, g5, g6⟩ :
      gs[0]? = some _ ∧ gs[1]? = some _ ∧ gs[2]? = some _ ∧ gs[3]? = some _ ∧ gs[4]? = some _ ∧
        gs[5]? = some _ ∧ gs[6]? = some _ := by
    rw [← equal]
    exact ⟨rfl, rfl, rfl, rfl, rfl, rfl, rfl⟩
  have constellation (c : Nat) (lt : c < 8) : gs[7 + c]? = some (usedGroup (s.ucode_used 0) c) := by
    have size : (usedGroups (s.ucode_used 0)).length = 8 := by simp [usedGroups]
    have behind : (headGroups s is_CP ack).length = 7 := rfl
    rw [← equal, List.append_assoc, List.getElem?_append_right (by omega), behind,
      Nat.add_sub_cancel_left, List.getElem?_append_left (by omega), usedGroups,
      List.getElem?_map, List.getElem?_range lt]
    rfl
  obtain ⟨signs, rate, depth, a1, a2, b1, b2, shared⟩ := sendable
  have S := getBits_field sizes _ _ (p := 31) g0 rfl
  have drn := getBits_field sizes (put_bits 1 0 ++ put_bits 1 is_CP.toNat) (p := 20) (n := 5)
    (v := s.K + s.S - if is_CP then 20 else 8)
    (put_bits 5 0 ++ put_bits 1 0 ++ put_bits 2 (6 - s.S) ++ put_bits 1 ack.toNat)
    (by rw [g0]; simp only [List.append_assoc]) rfl
  have frame := bit_field sizes (put_bits 1 0) (p := 19) (b := is_CP)
    (put_bits 5 (s.K + s.S - if is_CP then 20 else 8) ++ put_bits 5 0 ++ put_bits 1 0 ++
      put_bits 2 (6 - s.S) ++ put_bits 1 ack.toNat)
    (by rw [g0]; simp only [List.append_assoc]) rfl
  have law := bit_field sizes [] (p := 35) (b := s.alaw) (List.replicate 13 true ++ put_bits 2 s.ld)
    (by rw [g1]; simp only [List.append_assoc, List.nil_append]) rfl
  have ld := getBits_field sizes (put_bits 1 s.alaw.toNat ++ List.replicate 13 true) [] (p := 49)
    (n := 2) (v := s.ld)
    (by rw [g1, List.append_nil]) rfl
  have A1 := getBits_field sizes [] (put_bits 8 s.a2) (p := 69) (n := 8) (v := s.a1) g3 rfl
  have A2 := getBits_field sizes (put_bits 8 s.a1) [] (p := 77) (n := 8) (v := s.a2)
    (by rw [g3, List.append_nil]) rfl
  have B1 := getBits_field sizes [] (put_bits 8 s.b2) (p := 86) (n := 8) (v := s.b1) g4 rfl
  have B2 := getBits_field sizes (put_bits 8 s.b1) [] (p := 94) (n := 8) (v := s.b2)
    (by rw [g4, List.append_nil]) rfl
  have different := zero_codec sizes g6
  have ring (j : Fin 6) : ∀ i < 128,
      bufOf (started gs) (137 + 17 * (i / 16) + i % 16) = s.ucode_used j i := by
    intro i lt
    have bit := bufOf_started sizes (constellation (i / 16) (by omega)) (r := i % 16)
      (Nat.mod_lt i (by decide)) (i := 137 + 17 * (i / 16) + i % 16) (by omega)
    have place : 16 * (i / 16) + i % 16 = i := Nat.div_add_mod i 16
    rw [bit, shared j, List.getD_eq_getElem?_getD, usedGroup, List.getElem?_map,
      List.getElem?_range (Nat.mod_lt i (by decide)), Option.map_some, place, Option.getD_some]
  simp only [v90_parse_CP, zero_index sizes g5 g6, different, frame]
  refine ⟨_, rfl, ?_, ?_, law, ?_, ?_, ?_, ?_, ?_, ?_⟩
  · show 6 - getBits (bufOf (started gs)) 31 2 = s.S
    omega
  · show getBits (bufOf (started gs)) 20 5 + (if is_CP then 20 else 8) -
      (6 - getBits (bufOf (started gs)) 31 2) = s.K
    cases is_CP <;> simp only [Bool.false_eq_true, if_true, if_false] at drn rate ⊢ <;> omega
  · show getBits (bufOf (started gs)) 49 2 = s.ld
    omega
  · dsimp only
    exact signedByte_emod a1 A1
  · dsimp only
    exact signedByte_emod a2 A2
  · dsimp only
    exact signedByte_emod b1 B1
  · dsimp only
    exact signedByte_emod b2 B2
  · intro j
    refine List.filter_congr fun i member => ?_
    have lt : i < 128 := List.mem_range.mp (List.mem_reverse.mp member)
    simpa using ring j i lt

/-- The bits of a register, most significant first, are those of the reversed one as they move out. -/
theorem toBits_reverse {w : Nat} (x : BitVec w) : toBits w x.reverse.toNat = lowBitsOf x w := by
  have bits (n v : Nat) : toBits n v = (List.range n).map fun i => v.testBit (n - 1 - i) := by
    induction n with
    | zero => rfl
    | succ n ih =>
      rw [toBits_succ, ih, List.range_succ_eq_map, List.map_cons, List.map_map]
      congr 1
      refine List.map_congr_left fun i _ => ?_
      have same : n + 1 - 1 - (i + 1) = n - 1 - i := by omega
      rw [Function.comp, same]
  rw [bits, lowBitsOf]
  refine List.map_congr_left fun i member => ?_
  have lt : i < w := List.mem_range.mp member
  have index : w - 1 - (w - 1 - i) = i := by omega
  rw [← BitVec.getLsbD, BitVec.getLsbD_reverse, BitVec.getMsbD, index]
  simp
  omega

/-- The check goes out as the register moves. -/
theorem put_bits_crc (m : List Bool) :
    put_bits 16 (calc_crc m).toNat = lowBitsOf (crc crcPoly 0xffff m) 16 := by
  have low : ((calc_crc m).toNat : Int) % 2 ^ 16 = (calc_crc m).toNat := by
    have lt := (calc_crc m).isLt
    omega
  rw [put_bits, low, Int.toNat_natCast, calc_crc, toBits_reverse]

/-- A packet on the line: the frame sync, and groups in front of start bits. -/
theorem v90_send_CP_eq (s : V90Decode) (is_CP ack : Bool) :
    v90_send_CP s is_CP ack = List.replicate 17 true ++ false ::
      (followed (headGroups s is_CP ack ++ usedGroups (s.ucode_used 0) ++
        [lowBitsOf (crc crcPoly 0xffff (cpBody s is_CP ack)) 16]) ++ [false, false]) := by
  have sync : put_bits 17 0x1ffff = List.replicate 17 true := by decide
  have fill : put_bits 3 0 = [false, false, false] := rfl
  rw [v90_send_CP, sync, fill, put_bits_crc]
  generalize crc crcPoly 0xffff (cpBody s is_CP ack) = reg
  rw [cpBody_groups, ← followed_started]
  simp [followed]

/-- The parameters of the analog modem arrive, and every interval gets the ucodes that its decoder
tabulates, in the same order. -/
theorem cp_round_trip {s : V90Decode} {is_CP : Bool} (sendable : Sendable s is_CP) (ack : Bool) :
    ∃ p, v90_receive_CP (v90_send_CP s is_CP ack) = some p ∧
      p.S = s.S ∧ p.K = s.K ∧ p.alaw = s.alaw ∧ p.ld = s.ld ∧ p.a1 = s.a1 ∧ p.a2 = s.a2 ∧
      p.b1 = s.b1 ∧ p.b2 = s.b2 ∧ ∀ j, (p.rings j).ucodes = s.ucodes j ∧ (p.rings j).M = s.M j ∧
        (p.rings j).m_to_linear p.alaw = s.m_to_linear j := by
  have sixteen : (lowBitsOf (crc crcPoly 0xffff (cpBody s is_CP ack)) 16).length = 16 := by
    simp [lowBitsOf]
  obtain ⟨p, parsed, S, K, alaw, ld, a1, a2, b1, b2, ucodes⟩ := parse_groups sendable ack sixteen
  refine ⟨p, ?_, S, K, alaw, ld, a1, a2, b1, b2, fun j => ⟨ucodes j, congrArg List.length (ucodes j), ?_⟩⟩
  · have split (as : List (List Bool)) (g : List Bool) : started (as ++ [g]) =
        started as ++ [false] ++ g := by
      simp [started]
    -- the check runs over the body and its own bits
    have residue : calc_crc (started (headGroups s is_CP ack ++ usedGroups (s.ucode_used 0) ++
        [lowBitsOf (crc crcPoly 0xffff (cpBody s is_CP ack)) 16])) = 0 := by
      rw [split, ← cpBody_groups, calc_crc, crc_residue]
      decide
    have parts : headGroups s is_CP ack ++ usedGroups (s.ucode_used 0) ++
        [lowBitsOf (crc crcPoly 0xffff (cpBody s is_CP ack)) 16] =
        (headGroups s is_CP ack).take 6 ++ put_bits 16 0 :: usedGroups (s.ucode_used 0) ++
          [lowBitsOf (crc crcPoly 0xffff (cpBody s is_CP ack)) 16] := rfl
    have sizes := packet_sizes s is_CP ack sixteen
    have one := one_constellation s is_CP ack
    rw [parts] at residue parsed sizes
    have read := readGroups_packet rfl (by simp [usedGroups]) sizes one [false, false]
    rw [v90_receive_CP, receiveCP, v90_send_CP_eq, countOnes_sync]
    simp only [ne_eq, not_true_eq_false, if_false]
    rw [parts, read]
    simp only [residue, not_true_eq_false, if_false]
    exact parsed
  · rw [Constellation.m_to_linear, ucodes j, alaw]
    rfl

/-- The parameters with which `v90_decode_init` tests. -/
def testParameters : V90Decode where
  S := 5
  K := 24
  alaw := true
  ld := 2
  a1 := 6
  a2 := 12
  b1 := -6
  b2 := 6
  ucode_used _ i := (List.range 16).any fun k => i == 10 + 6 * k

theorem cp_round_trip_test_values :
    ∃ p, v90_receive_CP (v90_send_CP testParameters true false) = some p ∧
      p.S = 5 ∧ p.K = 24 ∧ p.alaw = true ∧ p.ld = 2 ∧ p.a1 = 6 ∧ p.a2 = 12 ∧
      p.b1 = -6 ∧ p.b2 = 6 ∧ ∀ j, (p.rings j).ucodes = testParameters.ucodes j ∧
        (p.rings j).M = testParameters.M j ∧
        (p.rings j).m_to_linear p.alaw = testParameters.m_to_linear j :=
  @cp_round_trip testParameters true
    { signs := by decide
      rate := by decide
      depth := by decide
      a1 := by decide
      a2 := by decide
      b1 := by decide
      b2 := by decide
      shared := fun _ => rfl } false

end QFax.Linmodem

import Mathlib.Logic.Relation
import QFax.Linmodem.CpPacket
import QFax.Linmodem.V90Modulus

/-!
# V.90: the buffers behind a CP packet

`v90_receive_CP` stores the groups of a packet into a buffer of 1024 bytes and takes their number from
the packet.  `storeGroups` and `receiveStored` are its loops with every store checked.  A packet that
announces seven constellations or more does not fit, and one that selects a constellation without
ucodes leaves an interval without rings: a bit stream is received safely if and only if the receiver
meets neither (`receiveStored_safe_iff`).
-/

namespace QFax.Linmodem

open Bits

/-! ## Reading with checked stores -/

/-- How the groups of a packet were stored. -/
inductive GroupsStored
  /-- A store outside of `buf`. -/
  | outside
  /-- The groups go on behind the bits at hand. -/
  | waiting
  | retry (p : List Bool)
  | done (q : List Bool) (crc1 : BitVec 16) (p : List Bool)

/-- The loop of `v90_receive_CP` that stores the groups behind `buf + 17`. -/
def storeGroups (frame_index frame_count : Nat) (crc1 : BitVec 16) (q p : List Bool) :
    GroupsStored :=
  if frame_index < frame_count then
    if 1024 < 17 + q.length + 1 + min 16 p.length then .outside
    else if p.length < 17 then .waiting
    else
      let q := q ++ false :: p.take 16
      let frame_count :=
        if frame_index = 6 then frame_count + 8 * nb_constellations (bufOf q) else frame_count
      let crc1 := if frame_index + 1 = frame_count then calc_crc q else crc1
      if p.getD 16 false then .retry (p.drop 17)
      else storeGroups (frame_index + 1) frame_count crc1 q (p.drop 17)
  else .done q crc1 p
termination_by p.length
decreasing_by
  rw [List.length_drop]
  omega

/-- What the receiver does with the bits at hand. -/
inductive CpOutcome
  /-- A store outside of `buf` or `ucode_used`. -/
  | outside
  | waiting
  | parsed (s : V90Params)

/-- `v90_receive_CP` with checked stores; the first argument bounds the searches for a frame sync. -/
def receiveStored : Nat → List Bool → CpOutcome
  | 0, _ => .waiting
  | tries + 1, p =>
    match countOnes p with
    | none => .waiting
    | some (one_count, p) =>
      if one_count ≠ 17 then receiveStored tries p
      else
        match storeGroups 0 8 1 [] p with
        | .outside => .outside
        | .waiting => .waiting
        | .retry p => receiveStored tries p
        | .done q crc1 p =>
          if crc1 ≠ 0 then receiveStored tries p
          else
            match v90_parse_CP (bufOf q) with
            | none => .outside
            | some s => .parsed s

/-- What `readGroups` knows of it. -/
def GroupsStored.read : GroupsStored → Option GroupsRead
  | .outside => none
  | .waiting => none
  | .retry p => some (.retry p)
  | .done q crc1 p => some (.done q crc1 p)

/-- Inside of the buffer the groups are read as without it. -/
theorem storeGroups_read {frame_index frame_count : Nat} {crc1 : BitVec 16} {q p : List Bool}
    (inside : storeGroups frame_index frame_count crc1 q p ≠ .outside) :
    readGroups frame_index frame_count crc1 q p =
      (storeGroups frame_index frame_count crc1 q p).read := by
  induction frame_index, frame_count, crc1, q, p using storeGroups.induct with
  | case1 frame_index frame_count crc1 q p more full =>
    rw [storeGroups, if_pos more, if_pos full] at inside
    exact absurd rfl inside
  | case2 frame_index frame_count crc1 q p more room short =>
    rw [readGroups, storeGroups, if_pos more, if_pos more, if_neg room, if_pos short, if_pos short]
    rfl
  | case3 frame_index frame_count crc1 q p more room long startBit =>
    rw [readGroups, storeGroups, if_pos more, if_pos more, if_neg room, if_neg long, if_neg long]
    simp only [if_pos startBit]
    rfl
  | case4 frame_index frame_count crc1 q p more room long q' count crc startBit ih =>
    rw [storeGroups, if_pos more, if_neg room, if_neg long] at inside ⊢
    rw [readGroups, if_pos more, if_neg long]
    simp only [if_neg startBit] at inside ⊢
    exact ih inside
  | case5 frame_index frame_count crc1 q p all =>
    rw [readGroups, storeGroups, if_neg all, if_neg all]
    rfl

/-! ## The packet at the bits behind a frame sync -/

/-- The packet from its first start bit on, as far as `n` groups, when all start bits are zero. -/
def packetOf (p : List Bool) (n : Nat) : List Bool := (false :: p).take (17 * n)

/-- The number of constellations that the bits behind a frame sync announce. -/
def announced (p : List Bool) : Nat := nb_constellations (bufOf (false :: p))

/-- `frame_count` in front of group `n`. -/
def countAt (p : List Bool) (n : Nat) : Nat := if n ≤ 6 then 8 else 8 + 8 * announced p

/-- A packet that does not fit: more than six constellations are announced, and the bits go as far as
the last byte of the buffer with all start bits in place. -/
structure Overlong (p : List Bool) : Prop where
  many : 6 < announced p
  long : 1007 ≤ p.length
  starts : ∀ k < 59, p.getD (17 * k + 16) false = false

theorem length_packetOf {p : List Bool} {n : Nat} (le : 17 * n ≤ p.length) :
    (packetOf p n).length = 17 * n := by
  rw [packetOf, List.length_take, List.length_cons, Nat.min_eq_left (by omega)]

/-- The start bit behind a group. -/
theorem startBit_drop (p : List Bool) (n : Nat) :
    (p.drop (17 * n)).getD 16 false = p.getD (17 * n + 16) false := by
  rw [List.getD_eq_getElem?_getD, List.getElem?_drop, List.getD_eq_getElem?_getD]

theorem drop_group (p : List Bool) (n : Nat) : (p.drop (17 * n)).drop 17 = p.drop (17 * (n + 1)) := by
  rw [List.drop_drop]
  rfl

/-- The next group behind a start bit of zero. -/
theorem packetOf_succ {p : List Bool} {n : Nat} (long : 17 * n + 17 ≤ p.length)
    (starts : ∀ k < n, p.getD (17 * k + 16) false = false) :
    packetOf p n ++ false :: (p.drop (17 * n)).take 16 = packetOf p (n + 1) := by
  have next : (false :: p).drop (17 * n) = false :: p.drop (17 * n) := by
    cases n with
    | zero => rfl
    | succ n =>
      have start := starts n (Nat.lt_succ_self n)
      have index : 17 * (n + 1) = 17 * n + 16 + 1 := by omega
      rw [List.getD_eq_getElem _ _ (by omega)] at start
      rw [index, List.drop_succ_cons, List.drop_eq_getElem_cons (by omega), start]
  have split : 17 * (n + 1) = 17 * n + 17 := by omega
  unfold packetOf
  rw [split, List.take_add, next]
  rfl

theorem getBits_congr {buf buf' : Nat → Bool} {p n : Nat} (same : ∀ i < p + n, buf i = buf' i) :
    getBits buf p n = getBits buf' p n := by
  induction n generalizing p with
  | zero => rfl
  | succ n ih =>
    rw [getBits, getBits, same p (by omega), ih fun i lt => same i (by omega)]

/-- The modulation indexes and the codec bit are in the first seven groups. -/
theorem nb_constellations_congr {buf buf' : Nat → Bool} (same : ∀ i < 129, buf i = buf' i) :
    nb_constellations buf = nb_constellations buf' := by
  have index (i : Fin 6) : (if i.val < 4 then getBits buf (103 + i * 4) 4
      else getBits buf (120 + (i.val - 4) * 4) 4) =
      (if i.val < 4 then getBits buf' (103 + i * 4) 4
        else getBits buf' (120 + (i.val - 4) * 4) 4) := by
    split
    · exact getBits_congr fun j lt => same j (by omega)
    · exact getBits_congr fun j lt => same j (by omega)
  simp only [nb_constellations, index, same 128 (by decide)]

theorem announced_eq {p : List Bool} {n : Nat} (seven : 7 ≤ n) :
    nb_constellations (bufOf (packetOf p n)) = announced p := by
  refine nb_constellations_congr fun i lt => ?_
  unfold bufOf packetOf
  rw [List.getD_eq_getElem?_getD, List.getD_eq_getElem?_getD, List.getElem?_take_of_lt (by omega)]

theorem lt_countAt_iff {p : List Bool} {n : Nat} :
    n < countAt p n ↔ n < 7 ∨ n < 8 + 8 * announced p := by
  unfold countAt
  split <;> omega

theorem countAt_succ (p : List Bool) (n : Nat) :
    (if n = 6 then countAt p n + 8 * nb_constellations (bufOf (packetOf p (n + 1)))
      else countAt p n) = countAt p (n + 1) := by
  unfold countAt
  rcases lt_trichotomy n 6 with before | rfl | after
  · rw [if_neg (by omega), if_pos (by omega), if_pos (by omega)]
  · rw [if_pos rfl, announced_eq le_rfl, if_pos le_rfl, if_neg (by decide)]
  · rw [if_neg (by omega), if_neg (by omega), if_neg (by omega)]

/-! ## Storing a packet -/

/-- What storing the groups from `n` on comes to. -/
structure StoreSpec (p : List Bool) (stored : GroupsStored) : Prop where
  outside : stored = .outside ↔ Overlong p
  done : ∀ q crc1 rest, stored = .done q crc1 rest →
    announced p ≤ 6 ∧ q = packetOf p (8 + 8 * announced p)

/-- Behind a missing start bit, or without bits, the packet does not get to the end of the buffer. -/
theorem StoreSpec.stop {p : List Bool} {stored : GroupsStored} (fits : ¬ Overlong p)
    (stop : stored = .waiting ∨ ∃ rest, stored = .retry rest) : StoreSpec p stored := by
  rcases stop with rfl | ⟨rest, rfl⟩
  · exact ⟨iff_of_false (fun eq => by cases eq) fits, fun q crc1 rest eq => by cases eq⟩
  · exact ⟨iff_of_false (fun eq => by cases eq) fits, fun q crc1 rest eq => by cases eq⟩

/-- One turn of the loop with room in the buffer, behind start bits of zero. -/
theorem storeGroups_turn {p : List Bool} {n : Nat} (room : n < 59) (long : 17 * n + 17 ≤ p.length)
    (starts : ∀ k < n, p.getD (17 * k + 16) false = false) (next : n < countAt p n)
    (crc1 : BitVec 16) :
    storeGroups n (countAt p n) crc1 (packetOf p n) (p.drop (17 * n)) =
      if p.getD (17 * n + 16) false then .retry (p.drop (17 * (n + 1)))
      else storeGroups (n + 1) (countAt p (n + 1))
        (if n + 1 = countAt p (n + 1) then calc_crc (packetOf p (n + 1)) else crc1)
        (packetOf p (n + 1)) (p.drop (17 * (n + 1))) := by
  have fits : ¬ 1024 < 17 + (packetOf p n).length + 1 + min 16 (p.drop (17 * n)).length := by
    rw [length_packetOf (by omega)]
    omega
  have enough : ¬ (p.drop (17 * n)).length < 17 := by
    rw [List.length_drop]
    omega
  rw [storeGroups, if_pos next, if_neg fits, if_neg enough]
  simp only [packetOf_succ long starts, startBit_drop, drop_group, countAt_succ]

/-- The groups from `n` on are stored; the induction is on the groups that are left in the buffer. -/
theorem storeGroups_spec (p : List Bool) {left n : Nat} (room : n + left = 59)
    (long : 17 * n ≤ p.length) (starts : ∀ k < n, p.getD (17 * k + 16) false = false)
    (more : n ≤ 7 ∨ n ≤ 8 + 8 * announced p) (crc1 : BitVec 16) :
    StoreSpec p (storeGroups n (countAt p n) crc1 (packetOf p n) (p.drop (17 * n))) := by
  induction left generalizing n crc1 with
  | zero =>
    obtain rfl : n = 59 := by omega
    have size := length_packetOf long
    rw [storeGroups]
    by_cases many : 6 < announced p
    · have next : 59 < countAt p 59 := lt_countAt_iff.mpr (by omega)
      rw [if_pos next, size, List.length_drop]
      by_cases full : 1024 < 17 + 17 * 59 + 1 + min 16 (p.length - 17 * 59)
      · rw [if_pos full]
        exact ⟨iff_of_true rfl ⟨many, by omega, starts⟩, fun q crc1 rest eq => by cases eq⟩
      · rw [if_neg full, if_pos (by omega)]
        exact .stop (fun overlong => full (by have := overlong.long; omega)) (Or.inl rfl)
    · omega
  | succ left ih =>
    by_cases next : n < countAt p n
    · by_cases short : p.length - 17 * n < 17
      · have size := length_packetOf long
        rw [storeGroups, if_pos next, size, List.length_drop, if_neg (by omega), if_pos short]
        exact .stop (fun overlong => absurd overlong.long (by omega)) (Or.inl rfl)
      · rw [storeGroups_turn (by omega) (by omega) starts next]
        by_cases start : p.getD (17 * n + 16) false = true
        · rw [if_pos start]
          refine .stop (fun overlong => ?_) (Or.inr ⟨_, rfl⟩)
          rw [overlong.starts n (by omega)] at start
          cases start
        · rw [if_neg start]
          have starts' : ∀ k < n + 1, p.getD (17 * k + 16) false = false := by
            intro k lt
            rcases (Nat.le_of_lt_succ lt).eq_or_lt with rfl | before
            · exact Bool.not_eq_true _ ▸ start
            · exact starts k before
          have bound : n + 1 ≤ 7 ∨ n + 1 ≤ 8 + 8 * announced p := lt_countAt_iff.mp next
          exact ih (by omega) (by omega) starts' bound _
    · -- all groups are stored
      have all : n = 8 + 8 * announced p := by
        rw [lt_countAt_iff] at next
        omega
      rw [storeGroups, if_neg next]
      refine ⟨iff_of_false (fun eq => by cases eq) fun overlong => ?_, fun q crc1' rest eq => ?_⟩
      · have many := overlong.many
        omega
      · cases eq
        exact ⟨by omega, by rw [all]⟩

theorem storeGroups_packet (p : List Bool) : StoreSpec p (storeGroups 0 8 1 [] p) :=
  storeGroups_spec p (rfl : 0 + 59 = 59) (Nat.zero_le _) (fun k lt => absurd lt (Nat.not_lt_zero k))
    (Or.inl (by decide)) 1

/-! ## Parsing a packet -/

/-- The modulation index of an interval. -/
def m_index (buf : Nat → Bool) (i : Fin 6) : Nat :=
  if i.val < 4 then getBits buf (103 + i * 4) 4 else getBits buf (120 + (i.val - 4) * 4) 4

/-- The ucodes of a constellation in the packet. -/
def ucode_used (buf : Nat → Bool) (i j : Nat) : Bool :=
  buf (137 + 17 * ((i * 128 + j) / 16) + (i * 128 + j) % 16)

/-- Parameters that the encoder can use: no ring is empty, so that no division by `M` is one by zero. -/
structure Usable (s : V90Params) : Prop where
  signs : 3 ≤ s.S ∧ s.S ≤ 6
  bits : 0 < s.K
  rings : ∀ i, 1 ≤ (s.rings i).M
  divides : ∀ v, mapRings (List.ofFn s.rings) v ≠ none

/-- There is room for the constellations of a packet that fits the buffer. -/
theorem parse_room {buf : Nat → Bool} (room : nb_constellations buf ≤ 6) :
    ∃ s, v90_parse_CP buf = some s ∧ 3 ≤ s.S ∧ s.S ≤ 6 ∧ 0 < s.K ∧
      ∀ i, s.rings i = Constellation.ofUsed (ucode_used buf (m_index buf i)) := by
  have fits : ¬ 7 < nb_constellations buf := by omega
  obtain ⟨s, parsed⟩ : ∃ s, v90_parse_CP buf = some s := ⟨_, if_neg fits⟩
  obtain ⟨low, high, -⟩ := parsed_ranges parsed
  refine ⟨s, parsed, low, high, ?_, ?_⟩
  · have bits : s.K = getBits buf 20 5 + (if buf 19 then 20 else 8) - s.S := by
      rw [show v90_parse_CP buf = some _ from if_neg fits] at parsed
      obtain rfl := Option.some.inj parsed
      rfl
    split at bits <;> omega
  · rw [show v90_parse_CP buf = some _ from if_neg fits] at parsed
    obtain rfl := Option.some.inj parsed
    exact fun i => rfl

/-- A constellation has a ring for every ucode that is used. -/
theorem ofUsed_pos (used : Nat → Bool) :
    1 ≤ (Constellation.ofUsed used).M ↔ ∃ j < 128, used j = true := by
  show 0 < ((List.range 128).reverse.filter used).length ↔ _
  rw [List.length_pos_iff_exists_mem]
  simp only [List.mem_filter, List.mem_reverse, List.mem_range]

theorem usable_iff {buf : Nat → Bool} {s : V90Params} (low : 3 ≤ s.S) (high : s.S ≤ 6)
    (bits : 0 < s.K)
    (rings : ∀ i, s.rings i = Constellation.ofUsed (ucode_used buf (m_index buf i))) :
    Usable s ↔ ∀ i, ∃ j < 128, ucode_used buf (m_index buf i) j = true := by
  have positive : (∀ i, 1 ≤ (s.rings i).M) ↔
      ∀ i, ∃ j < 128, ucode_used buf (m_index buf i) j = true :=
    forall_congr' fun i => by rw [rings i, ofUsed_pos]
  constructor
  · exact fun usable => positive.mp usable.rings
  · intro levels
    have rings' := positive.mpr levels
    refine ⟨⟨low, high⟩, bits, rings', fun v => ?_⟩
    rw [mapRings_eq fun c member => ?_]
    · exact Option.some_ne_none _
    · obtain ⟨i, rfl⟩ := List.mem_ofFn.mp member
      exact rings' i

/-! ## A whole bit stream -/

/-- One search for a packet after another: behind a wrong frame sync, behind a missing start bit, and
behind a packet with a wrong CRC. -/
inductive SearchStep : List Bool → List Bool → Prop
  | noise {p q : List Bool} {one_count : Nat} : countOnes p = some (one_count, q) →
    one_count ≠ 17 → SearchStep p q
  | retry {p q rest : List Bool} : countOnes p = some (17, q) →
    readGroups 0 8 1 [] q = some (.retry rest) → SearchStep p rest
  | crc {p q packet rest : List Bool} {crc1 : BitVec 16} : countOnes p = some (17, q) →
    readGroups 0 8 1 [] q = some (.done packet crc1 rest) → crc1 ≠ 0 → SearchStep p rest

/-- The bits behind a frame sync are no packet that does not fit, and a packet with a right CRC has
ucodes in every constellation that it selects. -/
structure Modest (q : List Bool) : Prop where
  room : ¬ Overlong q
  levels : ∀ packet rest, readGroups 0 8 1 [] q = some (.done packet 0 rest) →
    ∀ i, ∃ j < 128, ucode_used (bufOf packet) (m_index (bufOf packet) i) j = true

/-- All packets that the receiver starts to read are modest. -/
def AllModest (p : List Bool) : Prop :=
  ∀ p' q, Relation.ReflTransGen SearchStep p p' → countOnes p' = some (17, q) → Modest q

/-- What the claim of safety says about an outcome. -/
def CpOutcome.Safe : CpOutcome → Prop
  | .outside => False
  | .waiting => True
  | .parsed s => Usable s

theorem allModest_iff (p : List Bool) :
    AllModest p ↔ (∀ q, countOnes p = some (17, q) → Modest q) ∧
      ∀ next, SearchStep p next → AllModest next := by
  constructor
  · intro all
    exact ⟨fun q sync => all p q .refl sync,
      fun next step p' q searches sync => all p' q (.head step searches) sync⟩
  · rintro ⟨here, later⟩ p' q searches sync
    rcases searches.cases_head with rfl | ⟨next, step, searches⟩
    · exact here q sync
    · exact later next step p' q searches sync

theorem countOnes_length {p q : List Bool} {n : Nat} (counted : countOnes p = some (n, q)) :
    q.length < p.length := by
  induction p generalizing n with
  | nil => cases counted
  | cons b p ih =>
    cases b with
    | false =>
      cases counted
      exact Nat.lt_succ_self _
    | true =>
      rw [countOnes, Option.map_eq_some_iff] at counted
      obtain ⟨⟨n', q'⟩, counted, eq⟩ := counted
      cases eq
      exact (ih counted).trans (Nat.lt_succ_self _)

/-- At most `n` bits are left. -/
structure LeftWithin (stored : GroupsStored) (n : Nat) : Prop where
  retry : ∀ rest, stored = .retry rest → rest.length ≤ n
  done : ∀ q crc1 rest, stored = .done q crc1 rest → rest.length ≤ n

theorem storeGroups_left (frame_index frame_count : Nat) (crc1 : BitVec 16) (q p : List Bool) :
    LeftWithin (storeGroups frame_index frame_count crc1 q p) p.length := by
  induction frame_index, frame_count, crc1, q, p using storeGroups.induct with
  | case1 frame_index frame_count crc1 q p more full =>
    rw [storeGroups, if_pos more, if_pos full]
    exact ⟨fun rest eq => (by cases eq), fun q crc1 rest eq => (by cases eq)⟩
  | case2 frame_index frame_count crc1 q p more room short =>
    rw [storeGroups, if_pos more, if_neg room, if_pos short]
    exact ⟨fun rest eq => (by cases eq), fun q crc1 rest eq => (by cases eq)⟩
  | case3 frame_index frame_count crc1 q p more room long startBit =>
    rw [storeGroups, if_pos more, if_neg room, if_neg long]
    simp only [if_pos startBit]
    refine ⟨fun rest eq => ?_, fun q crc1 rest eq => by cases eq⟩
    cases eq
    rw [List.length_drop]
    omega
  | case4 frame_index frame_count crc1 q p more room long q' count crc startBit ih =>
    rw [storeGroups, if_pos more, if_neg room, if_neg long]
    simp only [if_neg startBit]
    have less : (p.drop 17).length ≤ p.length := by rw [List.length_drop]; omega
    exact ⟨fun rest eq => (ih.retry rest eq).trans less,
      fun q crc1 rest eq => (ih.done q crc1 rest eq).trans less⟩
  | case5 frame_index frame_count crc1 q p all =>
    rw [storeGroups, if_neg all]
    refine ⟨fun rest eq => (by cases eq), fun q crc1 rest eq => ?_⟩
    cases eq
    exact le_rfl

/-- A search that comes to nothing goes on behind what it read. -/
theorem allModest_next {p q next : List Bool} {one_count : Nat}
    (counted : countOnes p = some (one_count, q))
    (modest : one_count = 17 → Modest q) (step : SearchStep p next)
    (only : ∀ next', SearchStep p next' → next' = next) : AllModest p ↔ AllModest next := by
  rw [allModest_iff]
  constructor
  · rintro ⟨-, later⟩
    exact later next step
  · intro all
    refine ⟨fun q' sync => ?_, fun next' step' => only next' step' ▸ all⟩
    rw [counted] at sync
    cases sync
    exact modest rfl

/-- A search behind which the receiver does not go on. -/
theorem allModest_last {p q : List Bool} (counted : countOnes p = some (17, q))
    (last : ∀ next, ¬ SearchStep p next) : AllModest p ↔ Modest q := by
  rw [allModest_iff]
  constructor
  · rintro ⟨here, -⟩
    exact here q counted
  · intro modest
    refine ⟨fun q' sync => ?_, fun next step => absurd step (last next)⟩
    rw [counted] at sync
    cases sync
    exact modest

/-- A packet that fits and is not accepted is modest. -/
theorem Modest.of_unread {q : List Bool} (room : ¬ Overlong q)
    (unread : ∀ packet rest, readGroups 0 8 1 [] q ≠ some (.done packet 0 rest)) : Modest q :=
  ⟨room, fun packet rest eq => absurd eq (unread packet rest)⟩

/-- How a search goes on behind a frame sync. -/
theorem searchStep_sync {p q next : List Bool} (counted : countOnes p = some (17, q))
    (step : SearchStep p next) : readGroups 0 8 1 [] q = some (.retry next) ∨
      ∃ packet crc1, readGroups 0 8 1 [] q = some (.done packet crc1 next) ∧ crc1 ≠ 0 := by
  cases step with
  | noise counted' noise =>
    rw [counted] at counted'
    cases counted'
    exact absurd rfl noise
  | retry counted' read =>
    rw [counted] at counted'
    cases counted'
    exact Or.inl read
  | crc counted' read wrong =>
    rw [counted] at counted'
    cases counted'
    exact Or.inr ⟨_, _, read, wrong⟩

theorem allModest_none {p : List Bool} (counted : countOnes p = none) : AllModest p := by
  refine (allModest_iff p).mpr ⟨fun q sync => ?_, fun next step => ?_⟩
  · rw [counted] at sync
    cases sync
  · cases step <;> simp_all

theorem allModest_noise {p q : List Bool} {one_count : Nat}
    (counted : countOnes p = some (one_count, q))
    (noise : one_count ≠ 17) : AllModest p ↔ AllModest q := by
  refine allModest_next counted (fun sync => absurd sync noise) (.noise counted noise) ?_
  intro next' step
  cases step <;> simp_all

/-- The packet goes on behind the bits at hand. -/
theorem allModest_waiting {p q : List Bool} (counted : countOnes p = some (17, q)) (room : ¬ Overlong q)
    (read : readGroups 0 8 1 [] q = none) : AllModest p := by
  refine (allModest_last counted fun next step => ?_).mpr (.of_unread room fun packet rest eq => ?_)
  · rcases searchStep_sync counted step with eq | ⟨packet, crc1, eq, -⟩
    · rw [read] at eq
      cases eq
    · rw [read] at eq
      cases eq
  · rw [read] at eq
    cases eq

/-- A start bit is missing. -/
theorem allModest_retry {p q rest : List Bool} (counted : countOnes p = some (17, q))
    (room : ¬ Overlong q) (read : readGroups 0 8 1 [] q = some (.retry rest)) :
    AllModest p ↔ AllModest rest := by
  refine allModest_next counted (fun _ => .of_unread room fun packet rest eq => ?_)
    (.retry counted read) fun next' step => ?_
  · rw [read] at eq
    cases eq
  · rcases searchStep_sync counted step with eq | ⟨packet, crc1, eq, -⟩
    · rw [read] at eq
      cases eq
      rfl
    · rw [read] at eq
      cases eq

/-- A packet with a wrong CRC. -/
theorem allModest_crc {p q packet rest : List Bool} {crc1 : BitVec 16}
    (counted : countOnes p = some (17, q)) (room : ¬ Overlong q)
    (read : readGroups 0 8 1 [] q = some (.done packet crc1 rest)) (wrong : crc1 ≠ 0) :
    AllModest p ↔ AllModest rest := by
  refine allModest_next counted (fun _ => .of_unread room fun packet rest eq => ?_)
    (.crc counted read wrong) fun next' step => ?_
  · rw [read] at eq
    cases eq
    exact wrong rfl
  · rcases searchStep_sync counted step with eq | ⟨packet, crc1, eq, -⟩
    · rw [read] at eq
      cases eq
    · rw [read] at eq
      cases eq
      rfl

/-- An accepted packet. -/
theorem allModest_packet {p q packet rest : List Bool} (counted : countOnes p = some (17, q))
    (room : ¬ Overlong q) (read : readGroups 0 8 1 [] q = some (.done packet 0 rest)) :
    AllModest p ↔ ∀ i, ∃ j < 128, ucode_used (bufOf packet) (m_index (bufOf packet) i) j = true := by
  rw [allModest_last counted fun next step => ?_]
  · refine ⟨fun modest => modest.levels packet rest read, fun levels => ⟨room, ?_⟩⟩
    intro packet' rest' eq
    rw [read] at eq
    cases eq
    exact levels
  · rcases searchStep_sync counted step with eq | ⟨packet, crc1, eq, wrong⟩
    · rw [read] at eq
      cases eq
    · rw [read] at eq
      cases eq
      exact wrong rfl

/-- A bit stream is received safely if and only if all packets that the receiver starts to read are
modest. -/
theorem receiveStored_safe_iff {tries : Nat} {p : List Bool} (enough : p.length < tries) :
    (receiveStored tries p).Safe ↔ AllModest p := by
  induction tries generalizing p with
  | zero => omega
  | succ tries ih =>
    rw [receiveStored]
    cases counted : countOnes p with
    | none => exact iff_of_true trivial (allModest_none counted)
    | some result =>
      obtain ⟨one_count, q⟩ := result
      have less := countOnes_length counted
      simp only
      by_cases noise : one_count ≠ 17
      · rw [if_pos noise, allModest_noise counted noise]
        exact ih (by omega)
      · rw [not_not] at noise
        subst noise
        rw [if_neg (by decide)]
        have spec := storeGroups_packet q
        have left := storeGroups_left 0 8 1 [] q
        have read : storeGroups 0 8 1 [] q ≠ .outside →
            readGroups 0 8 1 [] q = (storeGroups 0 8 1 [] q).read := storeGroups_read
        generalize storeGroups 0 8 1 [] q = stored at spec left read ⊢
        cases stored with
        | outside =>
          have overlong := spec.outside.mp rfl
          exact iff_of_false id fun all => (all p q .refl counted).room overlong
        | waiting =>
          have room : ¬ Overlong q := fun overlong => by cases spec.outside.mpr overlong
          exact iff_of_true trivial (allModest_waiting counted room (read (by intro eq; cases eq)))
        | retry rest =>
          have room : ¬ Overlong q := fun overlong => by cases spec.outside.mpr overlong
          have shorter := left.retry rest rfl
          rw [allModest_retry counted room (read (by intro eq; cases eq))]
          exact ih (by omega)
        | done packet crc1 rest =>
          have whole := read (by intro eq; cases eq)
          have room : ¬ Overlong q := fun overlong => by cases spec.outside.mpr overlong
          obtain ⟨few, rfl⟩ := spec.done packet crc1 rest rfl
          have shorter := left.done _ _ rest rfl
          simp only
          by_cases wrong : crc1 ≠ 0
          · rw [if_pos wrong, allModest_crc counted room whole wrong]
            exact ih (by omega)
          · rw [not_not] at wrong
            subst wrong
            rw [if_neg (by simp)]
            have announces : nb_constellations (bufOf (packetOf q (8 + 8 * announced q))) ≤ 6 := by
              rw [announced_eq (by omega)]
              exact few
            obtain ⟨s, parsed, low, high, bits, rings⟩ := parse_room announces
            rw [parsed, allModest_packet counted room whole]
            exact usable_iff low high bits rings

/-- `v90_receive_CP` with checked stores on the bits at hand. -/
def receive_CP_stored (p : List Bool) : CpOutcome := receiveStored (p.length + 1) p

/-- The parameters that were received. -/
def CpOutcome.result : CpOutcome → Option V90Params
  | .outside => none
  | .waiting => none
  | .parsed s => some s

/-- Without a store outside of its buffers the receiver is `v90_receive_CP`. -/
theorem receiveStored_result {tries : Nat} {p : List Bool}
    (inside : receiveStored tries p ≠ .outside) :
    receiveCP tries p = (receiveStored tries p).result := by
  induction tries generalizing p with
  | zero => rfl
  | succ tries ih =>
    rw [receiveStored] at inside ⊢
    rw [receiveCP]
    cases counted : countOnes p with
    | none => rfl
    | some result =>
      obtain ⟨one_count, q⟩ := result
      rw [counted] at inside
      simp only at inside ⊢
      by_cases noise : one_count ≠ 17
      · rw [if_pos noise] at inside ⊢
        rw [if_pos noise]
        exact ih inside
      · rw [if_neg noise] at inside ⊢
        rw [if_neg noise]
        have read : storeGroups 0 8 1 [] q ≠ .outside →
            readGroups 0 8 1 [] q = (storeGroups 0 8 1 [] q).read := storeGroups_read
        generalize storeGroups 0 8 1 [] q = stored at inside read ⊢
        cases stored with
        | outside => exact absurd rfl inside
        | waiting =>
          rw [read (by intro eq; cases eq)]
          rfl
        | retry rest =>
          rw [read (by intro eq; cases eq)]
          exact ih inside
        | done packet crc1 rest =>
          rw [read (by intro eq; cases eq)]
          simp only [GroupsStored.read] at inside ⊢
          by_cases wrong : crc1 ≠ 0
          · rw [if_pos wrong] at inside ⊢
            rw [if_pos wrong]
            exact ih inside
          · rw [if_neg wrong] at inside ⊢
            rw [if_neg wrong]
            cases parsed : v90_parse_CP (bufOf packet) with
            | none =>
              rw [parsed] at inside
              exact absurd rfl inside
            | some s => rfl

theorem receive_CP_stored_result {p : List Bool} (inside : receive_CP_stored p ≠ .outside) :
    v90_receive_CP p = (receive_CP_stored p).result := receiveStored_result inside

/-- A bit stream is received safely if and only if all packets that the receiver starts to read are
modest. -/
theorem receive_CP_safe_iff (p : List Bool) : (receive_CP_stored p).Safe ↔ AllModest p :=
  receiveStored_safe_iff (Nat.lt_succ_self _)

/-- A packet whose first modulation index is 15, up to the end of the buffer. -/
def sixteenConstellations : List Bool :=
  List.replicate 85 false ++ List.replicate 4 true ++ List.replicate 918 false

/-- It is stored outside of the buffer. -/
theorem sixteenConstellations_outside :
    ¬ (receive_CP_stored (List.replicate 17 true ++ false :: sixteenConstellations)).Safe := by
  have overlong : Overlong sixteenConstellations :=
    ⟨by decide +kernel, by decide +kernel, by decide +kernel⟩
  have stored := (storeGroups_packet sixteenConstellations).outside.mpr overlong
  rw [receive_CP_stored, receiveStored, countOnes_sync]
  simp only [ne_eq, not_true, if_false, stored]
  exact id

end QFax.Linmodem

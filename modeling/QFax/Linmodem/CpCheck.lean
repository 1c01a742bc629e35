import QFax.Linmodem.CpBounds

/-!
# V.90: the check of a CP packet

The check over a message and the sixteen bits that are sent for it is zero, and no burst of at most
sixteen bits keeps it so.  The receiver takes the number of groups from the packet before it knows the
check: a damaged packet that announces another number of constellations is checked over other bits
than those that are protected (`shortened_accepted`), and every other one is passed over
(`crc_burst_detected`).
-/

namespace QFax.Linmodem

open Bits ShiftRegister

/-! ## The check -/

/-- A message and the check that is sent behind it. -/
def checked (m : List Bool) : List Bool := m ++ put_bits 16 (calc_crc m).toNat

/-- Some bits are received with the others' values. -/
def damaged (bits e : List Bool) : List Bool := List.zipWith xor bits e

theorem length_checked (m : List Bool) : (checked m).length = m.length + 16 := by
  rw [checked, put_bits_crc, List.length_append, lowBitsOf, List.length_map, List.length_range]

theorem length_damaged {m e : List Bool} (size : e.length = m.length + 16) :
    (damaged (checked m) e).length = m.length + 16 := by
  rw [damaged, List.length_zipWith, length_checked, size, min_self]

theorem crc_checked (m : List Bool) : crc crcPoly 0xffff (checked m) = 0 := by
  rw [checked, put_bits_crc]
  exact crc_residue _ m

theorem calc_crc_eq_zero {bits : List Bool} : calc_crc bits = 0 ↔ crc crcPoly 0xffff bits = 0 := by
  rw [calc_crc]
  exact BitVec.reverse_eq_zero_iff

/-- The check of a damaged message is that of the errors. -/
theorem calc_crc_damaged {m e : List Bool} (size : e.length = m.length + 16) (burst : Burst 16 e) :
    calc_crc (damaged (checked m) e) ≠ 0 := by
  intro zero
  have split := @crc_xor 16 crcPoly 0xffff 0 (checked m) e ((length_checked m).trans size.symm)
  have start : (0xffff : BitVec 16) ^^^ 0 = 0xffff := by decide
  rw [start, crc_checked, ← damaged, calc_crc_eq_zero.mp zero] at split
  exact crc_burst_ne_zero (by decide) burst (split.trans BitVec.zero_xor).symm

/-! ## Reading a packet -/

/-- One turn of the loop, behind start bits of zero. -/
theorem readGroups_turn {p : List Bool} {n : Nat} (long : 17 * n + 17 ≤ p.length)
    (starts : ∀ k < n, p.getD (17 * k + 16) false = false) (next : n < countAt p n)
    (crc1 : BitVec 16) :
    readGroups n (countAt p n) crc1 (packetOf p n) (p.drop (17 * n)) =
      if p.getD (17 * n + 16) false then some (.retry (p.drop (17 * (n + 1))))
      else readGroups (n + 1) (countAt p (n + 1))
        (if n + 1 = countAt p (n + 1) then calc_crc (packetOf p (n + 1)) else crc1)
        (packetOf p (n + 1)) (p.drop (17 * (n + 1))) := by
  have enough : ¬ (p.drop (17 * n)).length < 17 := by
    rw [List.length_drop]
    omega
  rw [readGroups, if_pos next, if_neg enough]
  simp only [packetOf_succ long starts, startBit_drop, drop_group, countAt_succ]

/-- The groups up to `n` are read; the induction is on `n`. -/
theorem readGroups_upto {p : List Bool} {n : Nat} (long : 17 * n ≤ p.length)
    (starts : ∀ k < n, p.getD (17 * k + 16) false = false)
    (more : n ≤ 7 ∨ n ≤ 8 + 8 * announced p) :
    ∃ crc1, readGroups 0 8 1 [] p =
        readGroups n (countAt p n) crc1 (packetOf p n) (p.drop (17 * n)) ∧
      (n = 8 + 8 * announced p → crc1 = calc_crc (packetOf p n)) := by
  induction n with
  | zero => exact ⟨1, rfl, fun all => by omega⟩
  | succ n ih =>
    obtain ⟨crc1, read, -⟩ := ih (by omega) (fun k lt => starts k (by omega)) (by omega)
    rw [read, readGroups_turn (by omega) (fun k lt => starts k (by omega)) (lt_countAt_iff.mpr (by omega)),
      starts n (Nat.lt_succ_self n), if_neg Bool.false_ne_true]
    refine ⟨_, rfl, fun all => if_pos ?_⟩
    rw [countAt, if_neg (by omega), all]

/-- A start bit of one. -/
theorem readGroups_retry {p : List Bool} {n : Nat} (long : 17 * n + 17 ≤ p.length)
    (starts : ∀ k < n, p.getD (17 * k + 16) false = false)
    (more : n < 7 ∨ n < 8 + 8 * announced p) (bad : p.getD (17 * n + 16) false = true) :
    readGroups 0 8 1 [] p = some (.retry (p.drop (17 * (n + 1)))) := by
  obtain ⟨crc1, read, -⟩ := readGroups_upto (by omega) starts (by omega)
  rw [read, readGroups_turn long starts (lt_countAt_iff.mpr more), if_pos bad]

/-- All start bits are zero. -/
theorem readGroups_all {p : List Bool} (long : 17 * (8 + 8 * announced p) ≤ p.length)
    (starts : ∀ k < 8 + 8 * announced p, p.getD (17 * k + 16) false = false) :
    readGroups 0 8 1 [] p = some (.done (packetOf p (8 + 8 * announced p))
      (calc_crc (packetOf p (8 + 8 * announced p))) (p.drop (17 * (8 + 8 * announced p)))) := by
  obtain ⟨crc1, read, check⟩ := readGroups_upto long starts (Or.inr le_rfl)
  have count : countAt p (8 + 8 * announced p) = 8 + 8 * announced p := by
    rw [countAt]
    have positive : 0 < announced p := by
      rw [announced, nb_constellations]
      omega
    rw [if_neg (by omega)]
  rw [read, readGroups, count, if_neg (Nat.lt_irrefl _), check rfl]

/-! ## Searching for packets -/

/-- Searches beyond the number of bits make no difference. -/
theorem receiveStored_enough {tries tries' : Nat} {p : List Bool} (enough : p.length < tries)
    (enough' : p.length < tries') : receiveStored tries p = receiveStored tries' p := by
  induction tries generalizing tries' p with
  | zero => omega
  | succ tries ih =>
    cases tries' with
    | zero => omega
    | succ tries' =>
      rw [receiveStored, receiveStored]
      cases counted : countOnes p with
      | none => rfl
      | some found =>
        obtain ⟨one_count, q⟩ := found
        have shorter := countOnes_length counted
        have left := storeGroups_left 0 8 1 [] q
        have search {next : List Bool} (le : next.length ≤ q.length) :
            receiveStored tries next = receiveStored tries' next := ih (by omega) (by omega)
        simp only [search le_rfl]
        generalize storeGroups 0 8 1 [] q = stored at left
        cases stored with
        | outside => rfl
        | waiting => rfl
        | retry next => simp only [search (left.retry next rfl)]
        | done packet crc1 next => simp only [search (left.done packet crc1 next rfl)]

/-- Bits that are no frame sync are passed over. -/
theorem receive_noise {p q : List Bool} {one_count : Nat} (counted : countOnes p = some (one_count, q))
    (noise : one_count ≠ 17) : receive_CP_stored p = receive_CP_stored q := by
  rw [receive_CP_stored, receiveStored, counted]
  simp only [if_pos noise]
  exact receiveStored_enough (countOnes_length counted) (Nat.lt_succ_self _)

/-- A packet that fits the buffer and is rejected is passed over. -/
theorem receive_sync {p q next : List Bool} (counted : countOnes p = some (17, q)) (room : ¬ Overlong q)
    (rejected : readGroups 0 8 1 [] q = some (.retry next) ∨
      ∃ packet crc1, readGroups 0 8 1 [] q = some (.done packet crc1 next) ∧ crc1 ≠ 0) :
    receive_CP_stored p = receive_CP_stored next := by
  have shorter := countOnes_length counted
  have left := storeGroups_left 0 8 1 [] q
  have inside : storeGroups 0 8 1 [] q ≠ .outside := fun eq => room ((storeGroups_packet q).outside.mp eq)
  have read := storeGroups_read inside
  rw [read] at rejected
  rw [receive_CP_stored, receiveStored, counted]
  dsimp only
  rw [if_neg (by decide)]
  generalize storeGroups 0 8 1 [] q = stored at left inside rejected ⊢
  cases stored with
  | outside => exact absurd rfl inside
  | waiting =>
    rcases rejected with none | ⟨packet, crc1, none, -⟩
    · cases none
    · cases none
  | retry rest =>
    have within := left.retry rest rfl
    rcases rejected with same | ⟨packet, crc1, other, -⟩
    · cases same
      exact receiveStored_enough (by omega) (Nat.lt_succ_self _)
    · cases other
  | done packet crc1 rest =>
    have within := left.done packet crc1 rest rfl
    rcases rejected with other | ⟨packet', crc1', same, wrong⟩
    · cases other
    · cases same
      simp only [if_pos wrong]
      exact receiveStored_enough (by omega) (Nat.lt_succ_self _)

/-- Bits up to a zero. -/
theorem ones_cases (z : List Bool) : z = List.replicate z.length true ∨
    ∃ n z', z = List.replicate n true ++ false :: z' := by
  induction z with
  | nil => exact Or.inl rfl
  | cons b z ih =>
    cases b with
    | false => exact Or.inr ⟨0, z, rfl⟩
    | true =>
      rcases ih with all | ⟨n, z', split⟩
      · exact Or.inl (congrArg (true :: ·) all)
      · exact Or.inr ⟨n + 1, z', congrArg (true :: ·) split⟩

/-- No seventeen ones in a row. -/
def Syncless (z : List Bool) : Prop := ∀ i, i + 17 ≤ z.length → ∃ j < 17, z[i + j]? = some false

/-- There is no frame sync in bits without seventeen ones in a row. -/
theorem receive_syncless {z : List Bool} (syncless : Syncless z) (rest : List Bool) :
    receive_CP_stored (z ++ false :: rest) = receive_CP_stored rest := by
  induction size : z.length using Nat.strong_induction_on generalizing z with
  | _ n ih =>
    have short {n : Nat} {z' : List Bool} (split : z = List.replicate n true ++ z') : n < 17 := by
      by_contra long
      have room : 0 + 17 ≤ z.length := by
        rw [split, List.length_append, List.length_replicate]
        omega
      obtain ⟨j, lt, zero⟩ := syncless 0 room
      rw [split, List.getElem?_append_left (by rw [List.length_replicate]; omega),
        List.getElem?_replicate_of_lt (by omega)] at zero
      cases zero
    rcases ones_cases z with all | ⟨n, z', split⟩
    · have few := short (all.trans (List.append_nil _).symm)
      have counted := countOnes_sync z.length rest
      rw [← all] at counted
      exact receive_noise counted (by omega)
    · have few := short split
      have counted := countOnes_sync n (z' ++ false :: rest)
      rw [← List.cons_append, ← List.append_assoc, ← split] at counted
      rw [receive_noise counted (by omega)]
      refine ih z'.length ?_ (fun i le => ?_) rfl
      · rw [← size, split, List.length_append, List.length_cons]
        omega
      · have shift : (z.drop (n + 1)) = z' := by
          rw [split, List.drop_append, List.length_replicate]
          simp
        have length := congrArg List.length shift
        rw [List.length_drop] at length
        obtain ⟨j, lt, zero⟩ := syncless (n + 1 + i) (by omega)
        refine ⟨j, lt, ?_⟩
        rw [← shift, List.getElem?_drop, ← Nat.add_assoc]
        exact zero

/-! ## Damaged packets -/

/-- The number of constellations that the bits from the first start bit on announce. -/
def constellations (bits : List Bool) : Nat := nb_constellations (bufOf bits)

/-- What the check of a packet protects: groups behind start bits of zero, as many as the packet
announces, and the start bit of the check.  The buffer of the receiver has room for six constellations. -/
structure CpMessage (m : List Bool) : Prop where
  few : constellations m ≤ 6
  length : m.length = 17 * (7 + 8 * constellations m) + 1
  starts : ∀ k < 8 + 8 * constellations m, m[17 * k]? = some false

/-- A packet on the line: the frame sync, the bits that are received for the message and its check, and
the zero behind them. -/
def cpLine (bits rest : List Bool) : List Bool := List.replicate 17 true ++ (bits ++ false :: rest)

section Damage

variable {m e : List Bool}

theorem damaged_getElem? (size : e.length = m.length + 16) {i : Nat} {b : Bool}
    (bit : (checked m)[i]? = some b) : ∃ flip, e[i]? = some flip ∧
      (damaged (checked m) e)[i]? = some (b ^^ flip) := by
  obtain ⟨inside, -⟩ := List.getElem?_eq_some_iff.mp bit
  rw [length_checked] at inside
  refine ⟨e[i], List.getElem?_eq_getElem (by omega), ?_⟩
  rw [damaged, List.getElem?_zipWith, bit, List.getElem?_eq_getElem (by omega)]

theorem CpMessage.start (message : CpMessage m) {k : Nat} (lt : k < 8 + 8 * constellations m) :
    (checked m)[17 * k]? = some false := by
  rw [checked, List.getElem?_append_left (by rw [message.length]; omega), message.starts k lt]

theorem CpMessage.size (message : CpMessage m) (size : e.length = m.length + 16) :
    (damaged (checked m) e).length = 17 * (8 + 8 * constellations m) := by
  rw [length_damaged size, message.length]
  omega

/-- The start bits of a damaged packet are those of the errors. -/
theorem CpMessage.damagedStart (message : CpMessage m) (size : e.length = m.length + 16) {k : Nat}
    (lt : k < 8 + 8 * constellations m) : (damaged (checked m) e)[17 * k]? = e[17 * k]? := by
  obtain ⟨flip, errors, bit⟩ := damaged_getElem? size (message.start lt)
  rw [bit, errors, Bool.false_xor]

theorem CpMessage.kept (message : CpMessage m) (size : e.length = m.length + 16) {k : Nat}
    (lt : k < 8 + 8 * constellations m) (missed : e[17 * k]? ≠ some true) :
    (damaged (checked m) e)[17 * k]? = some false := by
  obtain ⟨flip, error, bit⟩ := damaged_getElem? size (message.start lt)
  cases flip with
  | false => exact bit
  | true => exact absurd error missed

/-- A burst hits at most one start bit. -/
theorem burst_oneStart (burst : Burst 16 e) {j k : Nat}
    (hit : e[17 * j]? = some true) (other : e[17 * k]? = some true) : k = j := by
  obtain ⟨start, within⟩ := burst.within
  have first := within _ hit
  have second := within _ other
  omega

/-- Every seventeen bits there is a start bit. -/
theorem syncless_drop {x : List Bool} {d : Nat}
    (starts : ∀ k, d ≤ 17 * k → 17 * k < x.length → x[17 * k]? = some false) :
    Syncless (x.drop d) := by
  intro i le
  rw [List.length_drop] at le
  obtain ⟨k, j, lt, place⟩ : ∃ k j, j < 17 ∧ d + (i + j) = 17 * k :=
    ⟨(d + i + 16) / 17, 17 * ((d + i + 16) / 17) - (d + i), by omega, by omega⟩
  refine ⟨j, lt, ?_⟩
  rw [List.getElem?_drop, place]
  exact starts k (by omega) (by omega)

/-- The announced number is in the first 112 bits. -/
theorem constellations_congr {x y : List Bool} (same : ∀ i < 112, x[i]? = y[i]?) :
    constellations x = constellations y := by
  refine nb_constellations_congr fun i lt => ?_
  rw [bufOf, bufOf, List.getD_eq_getElem?_getD, List.getD_eq_getElem?_getD, same _ (by omega)]

theorem announced_append {x p rest : List Bool} (line : false :: p = x ++ rest)
    (long : 112 ≤ x.length) : announced p = constellations x := by
  rw [announced, line]
  exact constellations_congr fun i lt => List.getElem?_append_left (by omega)

/-- The receiver finds the frame sync of a packet whose first start bit is zero. -/
theorem cpLine_sync {x : List Bool} (first : x[17 * 0]? = some false) (rest : List Bool) :
    ∃ p, x ++ false :: rest = false :: p ∧ countOnes (cpLine x rest) = some (17, p) ∧
      x.length ≤ p.length := by
  cases x with
  | nil => cases first
  | cons b x =>
    cases first
    refine ⟨x ++ false :: rest, rfl, countOnes_sync 17 _, ?_⟩
    rw [List.length_append, List.length_cons, List.length_cons]
    omega

/-- The frame sync itself is too long. -/
theorem rejected_sync {x : List Bool} (long : 17 < x.length) (bad : x[0]? = some true)
    (starts : ∀ k, k ≠ 0 → 17 * k < x.length → x[17 * k]? = some false) (rest : List Bool) :
    receive_CP_stored (cpLine x rest) = receive_CP_stored rest := by
  rcases ones_cases x with all | ⟨n, z, split⟩
  · have one := starts 1 Nat.one_ne_zero long
    rw [all, List.getElem?_replicate_of_lt (by omega)] at one
    cases one
  · have some : n ≠ 0 := by
      rintro rfl
      rw [split] at bad
      cases bad
    have line : cpLine x rest = List.replicate (17 + n) true ++ false :: (z ++ false :: rest) := by
      rw [cpLine, split, ← List.append_assoc, ← List.append_assoc, List.replicate_append_replicate,
        List.append_assoc, List.cons_append]
    have behind : x.drop (n + 1) = z := by
      rw [split, List.drop_append, List.length_replicate]
      simp
    rw [line, receive_noise (countOnes_sync _ _) (by omega), ← behind]
    exact receive_syncless (syncless_drop fun k ge lt => starts k (by omega) lt) rest

/-- A later start bit is wrong. -/
theorem rejected_group {x : List Bool} {k : Nat} (long : 112 ≤ x.length)
    (bad : x[17 * (k + 1)]? = some true)
    (more : k < 7 ∨ k < 8 + 8 * constellations x ∧ constellations x ≤ 6)
    (starts : ∀ i, i ≠ k + 1 → 17 * i < x.length → x[17 * i]? = some false) (rest : List Bool) :
    receive_CP_stored (cpLine x rest) = receive_CP_stored rest := by
  obtain ⟨within, -⟩ := List.getElem?_eq_some_iff.mp bad
  obtain ⟨p, line, counted, size⟩ := cpLine_sync (starts 0 (Nat.succ_ne_zero k).symm (by omega)) rest
  have bits (i : Nat) (lt : i + 1 < x.length) : p.getD i false = (x[i + 1]?).getD false := by
    have bit : (x ++ false :: rest)[i + 1]? = x[i + 1]? := List.getElem?_append_left lt
    rw [line, List.getElem?_cons_succ] at bit
    rw [List.getD_eq_getElem?_getD, bit]
  have stop : p.getD (17 * k + 16) false = true := by
    have place : 17 * k + 16 + 1 = 17 * (k + 1) := by omega
    rw [bits _ (by omega), place, bad]
    rfl
  rw [← announced_append line.symm long] at more
  have room : ¬ Overlong p := by
    rintro ⟨many, -, kept⟩
    rw [kept k (by omega)] at stop
    cases stop
  have read : readGroups 0 8 1 [] p = some (.retry (p.drop (17 * (k + 1)))) := by
    refine readGroups_retry (by omega) (fun i lt => ?_) (by omega) stop
    have place : 17 * i + 16 + 1 = 17 * (i + 1) := by omega
    rw [bits _ (by omega), place, starts _ (by omega) (by omega)]
    rfl
  have behind : p.drop (17 * (k + 1)) = x.drop (17 * (k + 1) + 1) ++ false :: rest := by
    have dropped := congrArg (List.drop (17 * (k + 1) + 1)) line
    rw [List.drop_append_of_le_length (by omega), List.drop_succ_cons] at dropped
    exact dropped.symm
  rw [receive_sync counted room (Or.inl read), behind]
  exact receive_syncless (syncless_drop fun i ge lt => starts i (by omega) lt) rest

/-- Where a start bit was hit, the receiver does not read on. -/
theorem rejected_start (message : CpMessage m) (size : e.length = m.length + 16)
    (burst : Burst 16 e) {j : Nat} (hit : e[17 * j]? = some true) (rest : List Bool) :
    receive_CP_stored (cpLine (damaged (checked m) e) rest) = receive_CP_stored rest := by
  have length := message.size size
  have inside : j < 8 + 8 * constellations m := by
    obtain ⟨lt, -⟩ := List.getElem?_eq_some_iff.mp hit
    have protectedSize := message.length
    omega
  have starts (k : Nat) (other : k ≠ j) (lt : 17 * k < (damaged (checked m) e).length) :
      (damaged (checked m) e)[17 * k]? = some false := by
    have place : k < 8 + 8 * constellations m := by omega
    exact message.kept size place fun second => other (burst_oneStart burst hit second)
  have bad : (damaged (checked m) e)[17 * j]? = some true :=
    (message.damagedStart size inside).trans hit
  have same (far : 8 ≤ j) : constellations (damaged (checked m) e) = constellations m := by
    refine constellations_congr fun i lt => ?_
    have within : i < (checked m).length := by
      rw [length_checked, message.length]
      omega
    obtain ⟨flip, error, bit⟩ := damaged_getElem? size (List.getElem?_eq_getElem within)
    cases flip with
    | false =>
      rw [bit, Bool.xor_false, ← List.getElem?_eq_getElem within, checked,
        List.getElem?_append_left (by rw [message.length]; omega)]
    | true =>
      obtain ⟨start, near⟩ := burst.within
      have first := near _ hit
      have second := near _ error
      omega
  have few := message.few
  generalize damaged (checked m) e = x at *
  rcases Nat.eq_zero_or_pos j with rfl | positive
  · exact rejected_sync (by omega) bad starts rest
  · obtain ⟨k, rfl⟩ : ∃ k, j = k + 1 := ⟨j - 1, by omega⟩
    refine rejected_group (by omega) bad ?_ starts rest
    rcases Nat.lt_or_ge k 7 with early | late
    · exact Or.inl early
    · right
      rw [same (by omega)]
      exact ⟨by omega, few⟩

/-- Where all start bits are as sent and the number of groups is, the check is not zero. -/
theorem rejected_check (message : CpMessage m) (size : e.length = m.length + 16)
    (burst : Burst 16 e) (same : constellations (damaged (checked m) e) = constellations m)
    (missed : ∀ k, e[17 * k]? ≠ some true) (rest : List Bool) :
    receive_CP_stored (cpLine (damaged (checked m) e) rest) = receive_CP_stored rest := by
  have length := message.size size
  have wrong := calc_crc_damaged size burst
  have few := message.few
  have starts {k : Nat} (lt : k < 8 + 8 * constellations m) :
      (damaged (checked m) e)[17 * k]? = some false := message.kept size lt (missed k)
  generalize damaged (checked m) e = x at *
  obtain ⟨p, line, counted, long⟩ := cpLine_sync (starts (by omega)) rest
  have count : announced p = constellations m := by
    rw [announced_append line.symm (by omega), same]
  have read := readGroups_all (p := p) (by omega) fun k lt => by
    have bit : p[17 * k + 16]? = some false := by
      have place : p[17 * k + 16]? = (x ++ false :: rest)[17 * (k + 1)]? := by
        rw [line]
        rfl
      rw [place]
      rcases Nat.lt_or_ge (k + 1) (8 + 8 * constellations m) with inside | last
      · rw [List.getElem?_append_left (by omega), starts inside]
      · rw [List.getElem?_append_right (by omega), length]
        have zero : 17 * (k + 1) - 17 * (8 + 8 * constellations m) = 0 := by omega
        rw [zero]
        rfl
    rw [List.getD_eq_getElem?_getD, bit]
    rfl
  have packet : packetOf p (8 + 8 * announced p) = x := by
    rw [packetOf, ← line, count, ← length, List.take_left' rfl]
  have behind : p.drop (17 * (8 + 8 * announced p)) = rest := by
    have dropped := congrArg (List.drop (x.length + 1)) line
    rw [List.drop_succ_cons, List.drop_append] at dropped
    rw [count, ← length, ← dropped]
    simp
  rw [packet, behind] at read
  have room : ¬ Overlong p := fun overlong => absurd overlong.many (by omega)
  exact receive_sync counted room (Or.inr ⟨_, _, read, wrong⟩)

end Damage

/-! ## Packets of the sender -/

theorem started_start {gs : List (List Bool)} (sizes : ∀ g ∈ gs, g.length = 16) {k : Nat}
    (lt : k < gs.length) : (started gs)[17 * k]? = some false := by
  induction gs generalizing k with
  | nil => cases lt
  | cons g gs ih =>
    have first : started (g :: gs) = false :: g ++ started gs := rfl
    have size : (false :: g).length = 17 := congrArg Nat.succ (sizes g List.mem_cons_self)
    cases k with
    | zero => rfl
    | succ k =>
      have place : 17 * (k + 1) - 17 = 17 * k := by omega
      rw [first, List.getElem?_append_right (by omega), size, place]
      exact ih (fun g member => sizes g (List.mem_cons_of_mem _ member)) (Nat.lt_of_succ_lt_succ lt)

theorem sent_message (s : V90Decode) (is_CP ack : Bool) : CpMessage (cpBody s is_CP ack) := by
  have sizes : ∀ g ∈ headGroups s is_CP ack ++ usedGroups (s.ucode_used 0), g.length = 16 :=
    fun g member => packet_sizes s is_CP ack (List.length_replicate : (List.replicate 16 false).length = 16)
      g (List.mem_append_left _ member)
  have number : (headGroups s is_CP ack ++ usedGroups (s.ucode_used 0)).length = 15 := by
    simp [headGroups, usedGroups]
  have length := length_started sizes
  rw [number] at length
  have one : constellations (cpBody s is_CP ack) = 1 := by
    rw [← one_constellation s is_CP ack]
    refine constellations_congr fun i lt => ?_
    have head : headGroups s is_CP ack = (headGroups s is_CP ack).take 6 ++ [put_bits 16 0] := rfl
    have seven := length_started fun g member => sizes g (List.mem_append_left _ member)
    have count : (headGroups s is_CP ack).length = 7 := rfl
    rw [count] at seven
    rw [cpBody_groups, started_append, List.append_assoc, List.getElem?_append_left (by omega), ← head]
  refine ⟨?_, ?_, fun k lt => ?_⟩
  · rw [one]
    decide
  · rw [one, cpBody_groups, List.length_append, length]
    rfl
  · rw [one] at lt
    rw [cpBody_groups]
    rcases Nat.lt_or_ge k 15 with inside | last
    · rw [List.getElem?_append_left (by omega), started_start sizes (by omega)]
    · obtain rfl : k = 15 := by omega
      rw [List.getElem?_append_right length.le, length]
      rfl

/-! ## Bursts -/

theorem burst_one (m n : Nat) :
    Burst 16 (List.replicate m false ++ true :: List.replicate n false) := by
  refine ⟨List.mem_append_right _ List.mem_cons_self, m, fun i flipped => ?_⟩
  have place : i = m := by
    rcases Nat.lt_trichotomy i m with before | here | behind
    · rw [List.getElem?_append_left (by rwa [List.length_replicate]),
        List.getElem?_replicate_of_lt before] at flipped
      cases flipped
    · exact here
    · obtain ⟨k, rfl⟩ := Nat.exists_eq_add_of_lt behind
      rw [List.getElem?_append_right (by rw [List.length_replicate]; omega), List.length_replicate,
        Nat.add_assoc, Nat.add_sub_cancel_left, List.getElem?_cons_succ] at flipped
      obtain ⟨inside, zero⟩ := List.getElem?_eq_some_iff.mp flipped
      rw [List.getElem_replicate] at zero
      cases zero
  omega

/-- The check over a message and its check bits is zero, and after a burst of at most sixteen bits it
is not; a packet of at most six constellations with such a burst is passed over, with all stores inside of
the buffer and whatever comes behind it, unless no start bit is hit and another number of constellations
is announced. -/
theorem crc_burst_detected :
    (∀ m, calc_crc (checked m) = 0) ∧
    (∀ m e, e.length = m.length + 16 → Burst 16 e → calc_crc (damaged (checked m) e) ≠ 0) ∧
    ∀ m e rest, CpMessage m → e.length = m.length + 16 → Burst 16 e →
      (constellations (damaged (checked m) e) = constellations m ∨ ∃ k, e[17 * k]? = some true) →
      receive_CP_stored (cpLine (damaged (checked m) e) rest) = receive_CP_stored rest := by
  refine ⟨fun m => calc_crc_eq_zero.mpr (crc_checked m), fun m e => calc_crc_damaged, ?_⟩
  intro m e rest message size burst same
  by_cases hit : ∃ k, e[17 * k]? = some true
  · obtain ⟨k, hit⟩ := hit
    exact rejected_start message size burst hit rest
  · have kept := same.resolve_right hit
    exact rejected_check message size burst kept (fun k flipped => hit ⟨k, flipped⟩) rest

theorem crc_burst_test_values :
    receive_CP_stored (cpLine (damaged (checked (cpBody testParameters true false))
      (List.replicate 150 false ++ true :: List.replicate 121 false)) [false, false]) =
        receive_CP_stored [false, false] :=
  crc_burst_detected.2.2 _ _ _ (sent_message testParameters true false) (by decide +kernel)
    (burst_one 150 121) (Or.inl (by decide +kernel))

/-! ## A packet that is cut short -/

/-- The groups of a packet of one constellation, with their check. -/
def oneConstellation : List (List Bool) :=
  List.replicate 6 (put_bits 16 0) ++ put_bits 16 0 :: List.replicate 8 (put_bits 16 0) ++
    [put_bits 16 0xf14c]

/-- A packet of two constellations whose bits, but for one, begin with these groups. -/
def twoConstellations : List Bool :=
  started (List.replicate 6 (put_bits 16 0) ++ put_bits 16 0x0080 ::
    (List.replicate 8 (put_bits 16 0) ++ put_bits 16 0xf14c :: List.replicate 7 (put_bits 16 0))) ++
    [false]

/-- The bit that announces a constellation for the codec. -/
def codecError : List Bool := List.replicate 111 false ++ true :: List.replicate 296 false

/-- One flipped bit. -/
theorem damaged_one (as bs : List Bool) (b : Bool) :
    damaged (as ++ b :: bs) (List.replicate as.length false ++ true :: List.replicate bs.length false) =
      as ++ (!b) :: bs := by
  have kept (bits : List Bool) : List.zipWith xor bits (List.replicate bits.length false) = bits :=
    List.ext_getElem (by simp) fun i _ _ => by simp
  rw [damaged, List.zipWith_append List.length_replicate.symm, kept, List.zipWith_cons_cons, kept,
    Bool.xor_true]

/-- What is behind the groups of one constellation. -/
def shortenedRest : List Bool :=
  put_bits 16 0 ++ (started (List.replicate 6 (put_bits 16 0)) ++ false ::
    put_bits 16 (calc_crc twoConstellations).toNat)

/-- With the error, the receiver sees a whole packet of one constellation. -/
theorem twoConstellations_damaged : damaged (checked twoConstellations) codecError ++ [false] =
    false :: (followed oneConstellation ++ (shortenedRest ++ [false])) := by
  have used : put_bits 16 0x0080 = put_bits 8 0 ++ true :: put_bits 7 0 := rfl
  have unused : put_bits 16 0 = put_bits 8 0 ++ false :: put_bits 7 0 := rfl
  have seven : List.replicate 7 (put_bits 16 0) =
    put_bits 16 0 :: List.replicate 6 (put_bits 16 0) := rfl
  obtain ⟨as, head⟩ : ∃ as, as = started (List.replicate 6 (put_bits 16 0)) ++ false :: put_bits 8 0 :=
    ⟨_, rfl⟩
  obtain ⟨bs, tail⟩ : ∃ bs, bs = put_bits 7 0 ++ (started (List.replicate 8 (put_bits 16 0)) ++
      false :: (put_bits 16 0xf14c ++ false :: shortenedRest)) := ⟨_, rfl⟩
  have sizes : as.length = 111 ∧ bs.length = 296 := by
    rw [head, tail]
    decide +kernel
  have sent : checked twoConstellations = as ++ true :: bs := by
    rw [head, tail, checked, shortenedRest]
    generalize put_bits 16 (calc_crc twoConstellations).toNat = check
    rw [twoConstellations, used, seven]
    generalize List.replicate 6 (put_bits 16 0) = six
    generalize List.replicate 8 (put_bits 16 0) = eight
    simp only [started, List.flatMap_append, List.flatMap_cons, List.append_assoc, List.cons_append,
      List.nil_append]
  have received := damaged_one as bs true
  rw [sizes.1, sizes.2, ← sent] at received
  have groups : started oneConstellation = as ++ false :: (put_bits 7 0 ++
      (started (List.replicate 8 (put_bits 16 0)) ++ false :: put_bits 16 0xf14c)) := by
    rw [head, oneConstellation]
    generalize List.replicate 6 (put_bits 16 0) = six
    generalize List.replicate 8 (put_bits 16 0) = eight
    rw [unused]
    simp only [started, List.flatMap_append, List.flatMap_cons, List.flatMap_nil, List.append_nil,
      List.append_assoc, List.cons_append]
  rw [codecError, received, ← List.cons_append, followed_started, groups, tail]
  simp only [List.append_assoc, List.cons_append, List.nil_append, Bool.not_true]

/-- One bit is received wrong, and the packet is taken for a shorter one. -/
theorem shortened_accepted : ¬ ∀ m e rest, CpMessage m → e.length = m.length + 16 → Burst 16 e →
    receive_CP_stored (cpLine (damaged (checked m) e) rest) = receive_CP_stored rest := by
  intro all
  have message : CpMessage twoConstellations :=
    ⟨by decide +kernel, by decide +kernel, by decide +kernel⟩
  have ignored := all twoConstellations codecError [] message (by decide +kernel) (burst_one 111 296)
  have counted : countOnes (cpLine (damaged (checked twoConstellations) codecError) []) =
      some (17, followed oneConstellation ++ (shortenedRest ++ [false])) := by
    rw [cpLine, twoConstellations_damaged]
    exact countOnes_sync 17 _
  have read : readGroups 0 8 1 [] (followed oneConstellation ++ (shortenedRest ++ [false])) =
      some (.done (started oneConstellation) (calc_crc (started oneConstellation))
        (shortenedRest ++ [false])) :=
    readGroups_packet (by decide) (by decide) (by decide +kernel) (by decide +kernel) _
  have check : calc_crc (started oneConstellation) = 0 := by decide +kernel
  have parsed : (v90_parse_CP (bufOf (started oneConstellation))).isSome = true := by decide +kernel
  have received : v90_receive_CP (cpLine (damaged (checked twoConstellations) codecError) []) =
      v90_parse_CP (bufOf (started oneConstellation)) := by
    rw [v90_receive_CP, receiveCP, counted]
    simp only [read, check]
    rfl
  have nothing : receive_CP_stored [] = .waiting := rfl
  rw [nothing] at ignored
  have inside : receive_CP_stored (cpLine (damaged (checked twoConstellations) codecError) []) ≠
      .outside := by
    rw [ignored]
    exact CpOutcome.noConfusion
  rw [← received, receive_CP_stored_result inside, ignored] at parsed
  cases parsed

end QFax.Linmodem

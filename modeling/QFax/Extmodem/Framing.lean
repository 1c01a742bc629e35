import QFax.Extmodem.Encoder

/-!
# Packet modem: flags and packets on the line

A flag opens a body whatever the receiver heard before.  What a transmission sends between its flags
contains no flag and is handed on as it was when the next one ends; the flags themselves hand on
nothing.
-/

namespace QFax.Extmodem

open Bits BitStuffing BitWindow Octets Machine

variable {heard : Heard} {h : List Frame}

/-- More bits, without the end of a flag among them. -/
def Heard.append (heard : Heard) (bits : List Bool) : Heard :=
  ⟨heard.text ++ bits, heard.body.map (· ++ bits)⟩

theorem Heard.append_append (heard : Heard) (as bs : List Bool) :
    (heard.append as).append bs = heard.append (as ++ bs) := by
  cases heard with | mk text body =>
  refine congrArg₂ Heard.mk (List.append_assoc text as bs) ?_
  cases body with
  | none => rfl
  | some body => exact congrArg some (List.append_assoc body as bs)

theorem Heard.append_nil (heard : Heard) : heard.append [] = heard := by
  cases heard with | mk text body =>
  refine congrArg₂ Heard.mk (List.append_nil text) ?_
  cases body with
  | none => rfl
  | some body => exact congrArg some (List.append_nil body)

theorem hear_data {bit : Bool} (data : ¬ (bit = false ∧ run 0 heard.text = 6)) :
    hear bit heard = (heard.append [bit], []) := if_neg data

theorem hear_flag (six : run 0 heard.text = 6) :
    hear false heard = (⟨heard.text ++ [false], some []⟩, heard.body.elim [] received) :=
  if_pos ⟨rfl, six⟩

/-- Ones end no flag. -/
theorem feed_ones (r : Nat) (h : List Frame) (heard : Heard) :
    feed hear (List.replicate r true) h heard = (h, heard.append (List.replicate r true)) := by
  induction r generalizing heard with
  | zero => exact congrArg (Prod.mk h) heard.append_nil.symm
  | succ r ih =>
    have one : hear true heard = (heard.append [true], []) := hear_data fun both => nomatch both.1
    rw [List.replicate_succ, feed, one, List.append_nil, ih, Heard.append_append]
    rfl

/-- Nor do bits with at most five ones in a row. -/
theorem feed_calm {bits : List Bool} (h : List Frame) {heard : Heard}
    (calm : Calm 5 (run 0 heard.text) bits) : feed hear bits h heard = (h, heard.append bits) := by
  induction bits generalizing heard with
  | nil => exact congrArg (Prod.mk h) heard.append_nil.symm
  | cons b bits ih =>
    have data : hear b heard = (heard.append [b], []) := hear_data fun flag => by
      obtain ⟨rfl, six⟩ := flag
      rw [six] at calm
      exact absurd calm.1 (by decide)
    have rest : Calm 5 (run 0 (heard.append [b]).text) bits := by
      show Calm 5 (run 0 (heard.text ++ [b])) bits
      rw [run_append]
      cases b
      · exact calm.2
      · exact calm
    rw [feed, data, List.append_nil, ih rest, Heard.append_append]
    rfl

/-! ## Bodies without a packet -/

/-- A body that hands on nothing, also when the first bits of a flag are taken for a part of it. -/
def Empty (body : List Bool) : Prop := body.length < 16 ∨ ¬ Calm 6 0 body

theorem length_destuff_le (k n : Nat) (bits : List Bool) : (destuff k n bits).length ≤ bits.length := by
  induction bits generalizing n with
  | nil => exact le_rfl
  | cons b bits ih =>
    cases b
    · rw [destuff]
      split
      · exact (ih 0).trans (Nat.le_succ _)
      · exact Nat.succ_le_succ (ih 0)
    · exact Nat.succ_le_succ (ih (n + 1))

theorem received_short {body : List Bool} (short : body.length < 24) : received body = [] := by
  refine if_neg fun conds => ?_
  have lengths := congrArg List.length (bitsOf_octets (destuff 5 0 body))
  rw [List.length_append, length_bitsOf] at lengths
  have le := length_destuff_le 5 0 body
  have many := conds.2.1
  omega

theorem Empty.received_append {body : List Bool} (empty : Empty body) {more : List Bool}
    (few : more.length ≤ 8) : received (body ++ more) = [] := by
  rcases empty with short | wild
  · refine received_short ?_
    rw [List.length_append]
    omega
  · exact if_neg fun conds => wild (calm_append.mp conds.1).1

/-- The receiver waits for a flag, or nothing since the last one can become a packet. -/
def Heard.Clear (heard : Heard) : Prop := ∀ body ∈ heard.body, Empty body

/-! ## Flags -/

/-- A flag just ended. -/
structure Heard.Opened (heard : Heard) : Prop where
  body : heard.body = some []
  run : run 0 heard.text = 0

theorem Heard.Opened.clear (opened : heard.Opened) : heard.Clear := by
  intro body found
  rw [opened.body] at found
  cases found
  exact Or.inl (by decide)

/-- A zero hands on nothing out of a clear state. -/
theorem feed_zero (h : List Frame) (heard : Heard) :
    ∃ noise, feed hear [false] h heard = (h ++ noise, if run 0 heard.text = 6 then
        ⟨heard.text ++ [false], some []⟩ else heard.append [false]) ∧
      (run 0 heard.text ≠ 6 → noise = []) ∧ (heard.Clear → noise = []) := by
  by_cases six : run 0 heard.text = 6
  · refine ⟨heard.body.elim [] received, ?_, fun other => absurd six other, fun clear => ?_⟩
    · rw [feed, hear_flag six, if_pos six]
      rfl
    · cases found : heard.body with
      | none => rfl
      | some body =>
        have nothing : received (body ++ []) = [] := (clear body found).received_append (Nat.zero_le 8)
        rwa [List.append_nil] at nothing
  · refine ⟨[], ?_, fun _ => rfl, fun _ => rfl⟩
    rw [feed, hear_data fun flag => six flag.2, if_neg six]
    rfl

theorem octetBits_flag : octetBits 0x7e = [false] ++ (List.replicate 6 true ++ [false]) := by
  decide

/-- Six ones and a zero behind a zero read the body since the last flag. -/
theorem feed_close (h : List Frame) (before : Heard) (zero : run 0 before.text = 0) :
    ∃ after, feed hear (List.replicate 6 true ++ [false]) h before =
        (h ++ (before.body.map (· ++ List.replicate 6 true)).elim [] received, after) ∧ after.Opened := by
  have six : run 0 (before.append (List.replicate 6 true)).text = 6 := by
    show run 0 (before.text ++ List.replicate 6 true) = 6
    rw [run_append, zero]
    rfl
  refine ⟨⟨(before.append (List.replicate 6 true)).text ++ [false], some []⟩, ?_, rfl, run_snoc_false _⟩
  rw [feed_append, feed_ones, feed, hear_flag six]
  rfl

/-- A flag opens a body whatever was heard before. -/
theorem feed_flag (h : List Frame) (heard : Heard) :
    ∃ noise after, feed hear (octetBits 0x7e) h heard = (h ++ noise, after) ∧ after.Opened ∧
      (heard.Clear → noise = []) := by
  obtain ⟨noise, first, none, clear⟩ := feed_zero h heard
  rw [octetBits_flag, feed_append, first]
  by_cases six : run 0 heard.text = 6
  · -- the first zero ends a flag of its own
    rw [if_pos six]
    obtain ⟨after, closed, opened⟩ := feed_close (h ++ noise) ⟨heard.text ++ [false], some []⟩
      (run_snoc_false _)
    refine ⟨noise, after, ?_, opened, clear⟩
    have ones : received (List.replicate 6 true) = [] := received_short (by decide)
    rw [closed]
    show (h ++ noise ++ received (List.replicate 6 true), after) = _
    rw [ones, List.append_nil]
  · rw [if_neg six, none six, List.append_nil]
    obtain ⟨after, closed, opened⟩ := feed_close h (heard.append [false]) (run_snoc_false _)
    refine ⟨_, after, closed, opened, fun quiet => ?_⟩
    show ((heard.body.map (· ++ [false])).map (· ++ List.replicate 6 true)).elim [] received = []
    cases found : heard.body with
    | none => rfl
    | some body =>
      show received (body ++ [false] ++ List.replicate 6 true) = []
      rw [List.append_assoc]
      exact (quiet body found).received_append (by decide)

/-- Flags behind a flag hand on nothing. -/
theorem feed_flags (n : Nat) (h : List Frame) {heard : Heard} (opened : heard.Opened) :
    ∃ after, feed hear (flagBits n) h heard = (h, after) ∧ after.Opened := by
  induction n generalizing heard with
  | zero => exact ⟨heard, rfl, opened⟩
  | succ n ih =>
    obtain ⟨noise, after, first, opened', quiet⟩ := feed_flag h heard
    obtain rfl := quiet opened.clear
    obtain ⟨last, rest, opened''⟩ := ih opened'
    rw [List.append_nil] at first
    refine ⟨last, ?_, opened''⟩
    rw [flagBits_succ, feed_append, first, rest]

/-- Some ones and at most one zero. -/
def lead (r : Nat) (zero : Bool) : List Bool := List.replicate r true ++ if zero then [false] else []

/-- They may come before the first flag that is heard whole. -/
theorem feed_lead (r : Nat) (zero : Bool) (h : List Frame) (heard : Heard) :
    ∃ noise after, feed hear (lead r zero) h heard = (h ++ noise, after) ∧
      ((∀ body ∈ heard.body, body = []) → noise = [] ∧ after.Clear) := by
  have empty (more : List Bool) (few : more.length ≤ 1) : Empty (List.replicate r true ++ more) := by
    rcases Nat.lt_or_ge r 7 with short | wild
    · refine Or.inl ?_
      rw [List.length_append, List.length_replicate]
      omega
    · refine Or.inr fun calm => ?_
      have most := (calm_append.mp calm).1.run_le
      rw [run_replicate] at most
      omega
  have clear (more : List Bool) (few : more.length ≤ 1) (fresh : ∀ body ∈ heard.body, body = []) :
      (heard.append (List.replicate r true ++ more)).Clear := by
    intro body found
    obtain ⟨before, there, rfl⟩ := Option.map_eq_some_iff.mp found
    rw [fresh before there]
    exact empty more few
  rw [lead, feed_append, feed_ones]
  cases zero
  · refine ⟨[], heard.append (List.replicate r true), ?_, fun fresh => ⟨rfl, ?_⟩⟩
    · rw [List.append_nil]
      rfl
    · have none := clear [] (Nat.zero_le 1) fresh
      rwa [List.append_nil] at none
  · obtain ⟨noise, last, -, quiet⟩ := feed_zero h (heard.append (List.replicate r true))
    refine ⟨noise, _, last, fun fresh => ⟨quiet ?_, ?_⟩⟩
    · have none := clear [] (Nat.zero_le 1) fresh
      rwa [List.append_nil] at none
    · split
      · intro body found
        cases found
        exact Or.inl (by decide)
      · rw [Heard.append_append]
        exact clear [false] le_rfl fresh

/-! ## Packets -/

theorem calm_packetBits (data : List UInt8) : Calm 5 0 (packetBits data) := calm_stuff (by decide) _

/-- A stuffed packet is read back, the first bits of the flag behind it left out. -/
theorem received_packet {data : List UInt8} (some' : data ≠ []) (fits : data.length ≤ 1022) :
    received (packetBits data ++ false :: List.replicate 6 true) = [.ofBuffer data] := by
  have pending : run 0 (packetBits data) < 5 := run_stuff_lt (by decide) _
  have taken : destuff 5 0 (packetBits data ++ false :: List.replicate 6 true) =
      bitsOf (checkedPacket data) ++ false :: List.replicate 6 true := by
    rw [destuff_append, destuff, if_neg (Nat.not_le.mpr pending), packetBits, destuff_stuff (by decide)]
    rfl
  have bytes : octets (destuff 5 0 (packetBits data ++ false :: List.replicate 6 true)) =
      checkedPacket data := by
    rw [taken]
    exact octets_bitsOf _ (by decide)
  have size : (checkedPacket data).length = data.length + 2 := List.length_append
  have positive := List.length_pos_iff.mpr some'
  have calm : Calm 6 0 (packetBits data ++ false :: List.replicate 6 true) := by
    refine calm_append.mpr ⟨(calm_packetBits data).mono (by decide), by omega, ?_⟩
    exact (by decide : Calm 6 0 (List.replicate 6 true))
  have passes : check_crc_ccitt (checkedPacket data) = true := check_crc_ccitt_checked data
  rw [received, bytes, if_pos ⟨calm, by omega, by omega⟩, ax25_dispatch_packet, if_pos passes, size,
    Nat.add_sub_cancel]
  exact congrArg (fun bytes => [Frame.ofBuffer bytes]) List.take_left

/-- A packet and the flag behind it. -/
theorem feed_packet {data : List UInt8} (some' : data ≠ []) (fits : data.length ≤ 1022) (h : List Frame)
    {heard : Heard} (opened : heard.Opened) :
    ∃ after, feed hear (packetBits data ++ octetBits 0x7e) h heard = (h ++ [.ofBuffer data], after) ∧
      after.Opened := by
  have calm : Calm 5 (run 0 heard.text) (packetBits data) := by
    rw [opened.run]
    exact calm_packetBits data
  have pending : run 0 (heard.append (packetBits data)).text < 5 := by
    show run 0 (heard.text ++ packetBits data) < 5
    rw [run_append, opened.run]
    exact run_stuff_lt (by decide) _
  have zero : hear false (heard.append (packetBits data)) =
      ((heard.append (packetBits data)).append [false], []) :=
    hear_data fun flag => by have six := flag.2; omega
  obtain ⟨after, closed, opens⟩ := feed_close h ((heard.append (packetBits data)).append [false])
    (run_snoc_false _)
  refine ⟨after, ?_, opens⟩
  rw [octetBits_flag, feed_append, feed_calm h calm, feed_append, feed, zero, List.append_nil]
  refine closed.trans ?_
  show (h ++ ((((heard.body.map (· ++ packetBits data)).map (· ++ [false])).map
    (· ++ List.replicate 6 true)).elim [] received), after) = _
  rw [opened.body]
  show (h ++ received (packetBits data ++ [false] ++ List.replicate 6 true), after) = _
  rw [List.append_assoc]
  exact congrArg (fun frames => (h ++ frames, after)) (received_packet some' fits)

/-- A transmission, whatever was heard before. -/
theorem feed_transmission {data : List UInt8} (some' : data ≠ []) (fits : data.length ≤ 1022) (m k : Nat)
    (h : List Frame) (heard : Heard) :
    ∃ noise after,
      feed hear (octetBits 0x7e ++ flagBits m ++ packetBits data ++ flagBits (k + 1)) h heard =
        (h ++ noise ++ [.ofBuffer data], after) ∧ after.Opened ∧
      (heard.Clear → noise = []) := by
  obtain ⟨noise, first, opens, opened, clear⟩ := feed_flag h heard
  obtain ⟨second, flags, still⟩ := feed_flags m (h ++ noise) opened
  obtain ⟨third, packet, closed⟩ := feed_packet some' fits (h ++ noise) still
  obtain ⟨last, tail, idle⟩ := feed_flags k (h ++ noise ++ [.ofBuffer data]) closed
  refine ⟨noise, last, ?_, idle, clear⟩
  have parts : octetBits 0x7e ++ flagBits m ++ packetBits data ++ flagBits (k + 1) =
      octetBits 0x7e ++ (flagBits m ++ ((packetBits data ++ octetBits 0x7e) ++ flagBits k)) := by
    simp only [flagBits_succ, List.append_assoc]
  rw [parts, feed_append, opens, feed_append, flags, feed_append, packet, tail]

end QFax.Extmodem

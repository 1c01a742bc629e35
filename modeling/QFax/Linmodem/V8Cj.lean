import QFax.Linmodem.V8Stream
import Mathlib.Data.Nat.ModEq

/-!
# V.8: CJ

The caller ends its menus with nine zero octets, wherever its queue is flushed.  At the stop bit of the
first one the last ten bits are a zero octet, or the header of a CI when ten ones come before them;
both put the framing in phase, and every zero octet from then on is counted.
-/

namespace QFax.Linmodem

/-! ## Counting zeros -/

namespace V8Zeros

/-- The counter has reached three only with the flag set. -/
def Ok (z : V8Zeros) : Prop := 3 ≤ z.data_zero_count → z.got_cj = true

theorem next_zero (z : V8Zeros) :
    z.next 0 = ⟨z.got_cj || z.data_zero_count + 1 == 3, z.data_zero_count + 1⟩ := if_pos rfl

theorem next_data (z : V8Zeros) {data : Nat} (nonzero : data ≠ 0) :
    z.next data = { z with data_zero_count := 0 } := if_neg nonzero

theorem Ok.next {z : V8Zeros} (ok : z.Ok) (data : Nat) : (z.next data).Ok := by
  rcases eq_or_ne data 0 with rfl | nonzero
  · rw [next_zero]
    intro three
    rcases Nat.lt_or_ge z.data_zero_count 3 with before | after
    · have now : z.data_zero_count + 1 = 3 := Nat.le_antisymm before three
      simp [now]
    · simp [ok after]
  · rw [next_data z nonzero]
    intro three
    cases three

end V8Zeros

namespace V8State

variable {s : V8State}

/-- The octet that a bit completes. -/
def octetAt (s : V8State) (bit : Bool) : Option Nat :=
  let data := { s.data with bit_sync := shiftIn 20 s.data.bit_sync bit }
  (((foundSync data.bit_sync).elim data data.restart).parse bit).2

theorem put_bit_zeros (s : V8State) (bit : Bool) :
    (s.put_bit bit).zeros = (s.octetAt bit).elim s.zeros s.zeros.next := rfl

theorem put_bit_data (s : V8State) (bit : Bool) : (s.put_bit bit).data = s.data.next bit := rfl

theorem ok_put_bit (ok : s.zeros.Ok) (bit : Bool) : (s.put_bit bit).zeros.Ok := by
  rw [put_bit_zeros]
  cases s.octetAt bit with
  | none => exact ok
  | some data => exact ok.next data

/-- The counter is right in every state of a receiver. -/
theorem ok_foldl_put_bit (ok : s.zeros.Ok) (bits : List Bool) : (bits.foldl put_bit s).zeros.Ok := by
  induction bits generalizing s with
  | nil => exact ok
  | cons bit bits ih => exact ih (ok_put_bit ok bit)

/-! ## One zero octet -/

theorem odd_of_octet {buf : Nat} (octet : buf &&& 0x201 = 0x001) : buf % 2 = 1 := by
  rw [← Nat.and_one_is_mod, show (1 : Nat) = 0x201 &&& 1 by decide, ← Nat.and_assoc, octet]
  decide

/-- A zero completes neither a synchro nor an octet. -/
theorem put_bit_false (active : s.data.data_state.isSome) :
    (s.put_bit false).data.data_state.isSome ∧ (s.put_bit false).zeros = s.zeros ∧
      (s.put_bit false).data.bit_sync = shiftIn 20 s.data.bit_sync false ∧
      (s.put_bit false).data.bit_buf = shiftIn 10 s.data.bit_buf false ∧
      (s.put_bit false).data.bit_cnt = s.data.bit_cnt + 1 := by
  have even : ∀ size buf, size ≠ 0 → shiftIn size buf false % 2 = 0 := by
    intro size buf positive
    rw [shiftIn, Bool.toNat_false, Nat.mod_mod_of_dvd _ (dvd_pow_self 2 positive)]
    omega
  have even20 := even 20 s.data.bit_sync (by decide)
  have even10 := even 10 s.data.bit_buf (by decide)
  have quiet : s.data.Quiet false := foundSync_eq_none (by omega) (by omega)
  have incomplete : ¬ (shiftIn 10 s.data.bit_buf false &&& 0x201 = 0x001 ∧ 10 ≤ s.data.bit_cnt + 1) := by
    rintro ⟨octet, -⟩
    have odd := odd_of_octet octet
    omega
  obtain ⟨bit_sync, data_state, -, registers⟩ := next_eq quiet fun _ => incomplete
  obtain ⟨bit_buf, bit_cnt⟩ := registers active
  have silent : s.octetAt false = none := by
    rw [octetAt, quiet]
    have parsed := parse_eq (d := { s.data with bit_sync := shiftIn 20 s.data.bit_sync false })
      fun _ => incomplete
    rw [if_pos active] at parsed
    exact congrArg Prod.snd parsed
  refine ⟨?_, ?_, bit_sync, bit_buf, bit_cnt⟩
  · rw [put_bit_data, data_state]
    exact active
  · rw [put_bit_zeros, silent]
    rfl

/-- Zeros before a stop bit. -/
theorem foldl_put_bit_false (active : s.data.data_state.isSome) (n : Nat) :
    let t := (List.replicate n false).foldl put_bit s
    t.data.data_state.isSome ∧ t.zeros = s.zeros ∧
      t.data.bit_sync ≡ 2 ^ n * s.data.bit_sync [MOD 2 ^ 20] ∧
      t.data.bit_buf ≡ 2 ^ n * s.data.bit_buf [MOD 2 ^ 10] ∧
      t.data.bit_cnt = s.data.bit_cnt + n := by
  induction n generalizing s with
  | zero =>
    have same : ∀ m buf : Nat, buf ≡ 2 ^ 0 * buf [MOD m] := by
      intro m buf
      rw [pow_zero, one_mul]
    exact ⟨active, rfl, same _ _, same _ _, rfl⟩
  | succ n ih =>
    obtain ⟨active', zeros, bit_sync, bit_buf, bit_cnt⟩ := put_bit_false active
    obtain ⟨activeN, zerosN, syncN, bufN, cntN⟩ := ih active'
    have shifted : ∀ size buf, 2 ^ n * shiftIn size buf false ≡ 2 ^ (n + 1) * buf [MOD 2 ^ size] := by
      intro size buf
      rw [shiftIn, Bool.toNat_false, Nat.add_zero, pow_succ, mul_assoc]
      exact (Nat.mod_modEq _ _).mul_left _
    refine ⟨activeN, zerosN.trans zeros, ?_, ?_, ?_⟩
    · rw [bit_sync] at syncN
      exact syncN.trans (shifted 20 _)
    · rw [bit_buf] at bufN
      exact bufN.trans (shifted 10 _)
    · rw [List.replicate_succ, List.foldl_cons, cntN, bit_cnt]
      omega

theorem foundSync_eq_some {bit_sync : Nat} {kind : V8Sync} (found : foundSync bit_sync = some kind) :
    bit_sync = 0x3ff * 2 ^ 10 + 1 ∨ bit_sync = 0x3ff * 2 ^ 10 + 15 := by
  by_contra neither
  rw [not_or] at neither
  rw [foundSync_eq_none neither.1 neither.2] at found
  cases found

/-- The last bit of a synchro completes no octet. -/
theorem parse_restart (d : V8Data) (kind : V8Sync) (bit : Bool) : (d.restart kind).parse bit =
    ({ d.restart kind with bit_buf := shiftIn 10 0 bit, bit_cnt := 1 }, none) :=
  (if_pos rfl).trans (if_neg fun octet => Nat.not_le_of_lt (by decide : 0 + 1 < 10) octet.2)

/-- The stop bit of a zero octet: the octet, or after ten ones the header of a CI. -/
theorem put_bit_stop (active : s.data.data_state.isSome) (sync : s.data.bit_sync % 2 ^ 9 = 0)
    (buf : s.data.bit_buf % 2 ^ 9 = 0) (cnt : 9 ≤ s.data.bit_cnt) :
    (s.put_bit true).data.data_state.isSome ∧ (s.put_bit true).data.bit_sync % 2 ^ 10 = 1 ∧
      ((s.put_bit true).zeros = s.zeros.next 0 ∨
        (s.put_bit true).zeros = s.zeros ∧ s.data.bit_sync % 2 ^ 19 ≠ 2 ^ 9) := by
  have low : shiftIn 20 s.data.bit_sync true % 2 ^ 10 = 1 := by
    rw [shiftIn, Bool.toNat_true]
    omega
  have full : shiftIn 10 s.data.bit_buf true = 1 := by
    rw [shiftIn, Bool.toNat_true]
    omega
  cases found : foundSync (shiftIn 20 s.data.bit_sync true) with
  | some kind =>
    have tens : s.data.bit_sync % 2 ^ 19 ≠ 2 ^ 9 := by
      have value := foundSync_eq_some found
      rw [shiftIn, Bool.toNat_true] at value
      omega
    rw [put_bit_data, V8Data.next, put_bit_zeros, octetAt, found]
    simp only [Option.elim_some, parse_restart]
    exact ⟨rfl, low, .inr ⟨rfl, tens⟩⟩
  | none =>
    have octet : shiftIn 10 s.data.bit_buf true &&& 0x201 = 0x001 ∧ 10 ≤ s.data.bit_cnt + 1 := by
      rw [full]
      exact ⟨by decide, Nat.succ_le_succ cnt⟩
    have parsed := parse_octet (d := { s.data with bit_sync := shiftIn 20 s.data.bit_sync true })
      active octet
    rw [put_bit_data, V8Data.next, put_bit_zeros, octetAt, found]
    simp only [Option.elim_none, parsed, full]
    exact ⟨active, low, .inl rfl⟩

/-- The receiver is in phase with the octets: the last one was a zero, or the header of a CI. -/
def InPhase (s : V8State) : Prop := s.data.data_state.isSome ∧ s.data.bit_sync % 2 ^ 10 = 1

theorem octet_zero : V8Flags.octet 0 = List.replicate 9 false ++ [true] := by decide

/-- A zero octet puts the receiver in phase; once it is, the octet is counted. -/
theorem put_octet_zero (active : s.data.data_state.isSome) :
    let t := (V8Flags.octet 0).foldl put_bit s
    t.InPhase ∧ (s.InPhase → t.zeros = s.zeros.next 0) := by
  obtain ⟨active', zeros, sync, buf, cnt⟩ := foldl_put_bit_false active 9
  rw [octet_zero, List.foldl_append]
  generalize (List.replicate 9 false).foldl put_bit s = t at active' zeros sync buf cnt
  have sync9 : t.data.bit_sync % 2 ^ 9 = 0 := by
    rw [Nat.ModEq] at sync
    omega
  have buf9 : t.data.bit_buf % 2 ^ 9 = 0 := by
    rw [Nat.ModEq] at buf
    omega
  obtain ⟨active'', phase, counted⟩ := put_bit_stop active' sync9 buf9 (by omega)
  rw [List.foldl_cons, List.foldl_nil, ← zeros]
  refine ⟨⟨active'', phase⟩, fun before => ?_⟩
  obtain counted | ⟨-, tens⟩ := counted
  · exact counted
  · have one := before.2
    rw [Nat.ModEq] at sync
    omega

/-- Zero octets in phase. -/
theorem put_octets_zero (phase : s.InPhase) (n : Nat) :
    (((List.replicate n 0).flatMap V8Flags.octet).foldl put_bit s).zeros.data_zero_count =
      s.zeros.data_zero_count + n := by
  induction n generalizing s with
  | zero => rfl
  | succ n ih =>
    obtain ⟨phase', counted⟩ := put_octet_zero phase.1
    rw [List.replicate_succ, List.flatMap_cons, List.foldl_append, ih phase', counted phase,
      V8Zeros.next_zero]
    exact Nat.add_right_comm _ 1 n

/-- Four zero octets are a CJ, whatever came before them. -/
theorem got_cj_of_octets (active : s.data.data_state.isSome) (ok : s.zeros.Ok) {n : Nat}
    (four : 4 ≤ n) :
    (((List.replicate n 0).flatMap V8Flags.octet).foldl put_bit s).zeros.got_cj = true := by
  obtain ⟨n, rfl⟩ := Nat.exists_eq_add_of_le' four
  obtain ⟨phase, -⟩ := put_octet_zero active
  have counted := put_octets_zero phase (n + 3)
  have ok' := ok_foldl_put_bit ok ((List.replicate (n + 4) 0).flatMap V8Flags.octet)
  rw [List.replicate_succ, List.flatMap_cons, List.foldl_append] at ok' ⊢
  exact ok' (by omega)

/-! ## What the caller sends -/

theorem octet_length (data : Nat) : (V8Flags.octet data).length = 10 := rfl

theorem v8_put_bytes_items (f : SmFifo Bool) (datas : List Nat)
    (room : f.items.length + 10 * datas.length ≤ f.max_size) :
    (datas.foldl v8_put_byte f).items = f.items ++ datas.flatMap V8Flags.octet := by
  induction datas generalizing f with
  | nil => exact (List.append_nil _).symm
  | cons data datas ih =>
    rw [List.length_cons] at room
    have now : f.items.length + (V8Flags.octet data).length ≤ f.max_size := by
      rw [octet_length]
      omega
    obtain ⟨items, size⟩ := foldl_sm_put_bit f now
    have put : (v8_put_byte f data).items = f.items ++ V8Flags.octet data := items
    have later := ih (v8_put_byte f data) (by
      rw [put, List.length_append, octet_length, show (v8_put_byte f data).max_size = _ from size]
      omega)
    rw [List.foldl_cons, later, put, List.flatMap_cons, List.append_assoc]

/-- The queue of the caller when it has decoded JM. -/
theorem cj_queued {c : V8State} (sending : c.state = .cmSend) (got : c.menu.got_cm = true)
    (size : c.tx_fifo.max_size = 256) (timer : Bool) :
    (c.control timer).1.tx_fifo.items = (List.replicate 9 0).flatMap V8Flags.octet := by
  have fits : 0 + 10 * 9 ≤ c.tx_fifo.max_size := by
    rw [size]
    decide
  have queued := v8_put_bytes_items (sm_flush c.tx_fifo) (List.replicate 9 0) fits
  simp only [control, sending, got, if_true]
  exact queued

end V8State

/-- After a synchro, the zero octets that the caller sends when it has decoded JM are recognized as CJ,
whatever was received before them. -/
theorem cj_recognized (s c : V8State) (bits : List Bool) (timer : Bool)
    (synced : (bits.foldl V8State.put_bit s.v8_decode_init).data.data_state.isSome)
    (sending : c.state = .cmSend) (got : c.menu.got_cm = true) (size : c.tx_fifo.max_size = 256) :
    ((c.control timer).1.tx_fifo.items.foldl V8State.put_bit
      (bits.foldl V8State.put_bit s.v8_decode_init)).zeros.got_cj = true := by
  have start : s.v8_decode_init.zeros.Ok := fun three => absurd three (Nat.not_succ_le_zero 2)
  rw [V8State.cj_queued sending got size]
  exact V8State.got_cj_of_octets synced (V8State.ok_foldl_put_bit start bits) (by decide)

/-- A caller that has decoded JM. -/
def jmCaller : V8State :=
  { V8State.V8_init true 0x1403 with state := .cmSend, menu := ⟨[V8_CALL_FUNC_DATA], true, 0⟩ }

/-- A menu is cut in the middle of its second octet. -/
theorem cj_recognized_cut :
    ((jmCaller.control false).1.tx_fifo.items.foldl V8State.put_bit
      ((((V8Flags.ofMask 0x1403).packet .cm).take 35).foldl V8State.put_bit
        (V8State.V8_init false 0).v8_decode_init)).zeros.got_cj = true :=
  cj_recognized (V8State.V8_init false 0) jmCaller (((V8Flags.ofMask 0x1403).packet .cm).take 35)
    false (by decide +kernel) rfl rfl rfl

end QFax.Linmodem

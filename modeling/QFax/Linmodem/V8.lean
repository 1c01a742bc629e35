import QFax.Linmodem.Lm
import Mathlib.Data.Nat.Bitwise

/-!
# V.8: one modem

`V8_process` runs the start of a call: the caller sends CI packets, waits for the tone ANSam and sends
its call menu CM until it has decoded the joint menu JM; the answerer sends ANSam, decodes CM, and
sends JM until it has seen CJ.  The tones are not modelled: whether ANSam is detected, whether the
timer of a state has expired, and the bits that the V.21 demodulator hands to `put_bit` come with the
input of a step.
-/

namespace QFax.Linmodem

/-! ## Modulations -/

def V8_MOD_V90 : Nat := 1 <<< 0
def V8_MOD_V34 : Nat := 1 <<< 1
def V8_MOD_V23 : Nat := 1 <<< 10
def V8_MOD_V21 : Nat := 1 <<< 12
/-- Stands for a hang-up. -/
def V8_MOD_HANGUP : Nat := 0x8000

/-- `mask & m` as a condition. -/
def hasMod (mask m : Nat) : Bool := mask &&& m != 0

/-- Selection of the modulation according to V8 priority from the bits in `mask`. -/
def select_modulation (mask : Nat) : Nat :=
  let val := V8_MOD_HANGUP
  -- use modulations in this order
  let val := if hasMod mask V8_MOD_V21 then V8_MOD_V21 else val
  let val := if hasMod mask V8_MOD_V23 then V8_MOD_V23 else val
  let val := if hasMod mask V8_MOD_V34 then V8_MOD_V34 else val
  if hasMod mask V8_MOD_V90 then V8_MOD_V90 else val

/-! ## The state -/

/-- The states of `V8_process`. -/
inductive V8Phase
  | wait1Second
  | ci
  | ciSend
  | ciOff
  | gotAnsam
  | cmSend
  | cjSend
  | sigc
  | wait
  | cmWait
  | jmSend
  | siga
  deriving DecidableEq

def V8_MAX_CI_SEQ : Nat := 10

def V8_TEN_ONES : Nat := 0x3ff
def V8_CI_SYNC : Nat := 0x001
def V8_CM_SYNC : Nat := 0x00f

def V8_CALL_FUNC_DATA : Nat := 0x83
def V8_MODN0 : Nat := 0xA0
def V8_EXT : Nat := 0x08
def V8_MODN0_V90 : Nat := 0x04
def V8_MODN0_V34 : Nat := 0x02
def V8_MODN2_V21 : Nat := 0x01
def V8_MODN2_V23 : Nat := 0x20

/-- The type of a synchro. -/
inductive V8Sync
  | ci
  | cm
  deriving DecidableEq

/-- V8 data parsing. -/
structure V8Data where
  bit_buf : Nat
  bit_sync : Nat
  bit_cnt : Nat
  /-- The type of the last synchro. -/
  data_state : Option V8Sync
  rx_data : List Nat
  deriving DecidableEq

/-- CM/JM parsing. -/
structure V8Menu where
  /-- The last sequence, empty before the first one. -/
  cm_data : List Nat
  got_cm : Bool
  /-- Modulation mask decoded from CM/JM. -/
  decoded_modulations : Nat
  deriving DecidableEq

/-- CJ parsing. -/
structure V8Zeros where
  got_cj : Bool
  data_zero_count : Nat

structure V8State where
  /-- True if we are the calling modem. -/
  calling : Bool
  state : V8Phase
  v8_ci_count : Nat
  v8_ANSam_detected : Bool
  tx_fifo : SmFifo Bool
  /-- Available modulations. -/
  modulation_mask : Nat
  data : V8Data
  menu : V8Menu
  zeros : V8Zeros
  selected_mod_mask : Nat
  selected_modulation : Nat

/-! ## Decoding -/

/-- The modulations of a CM or JM; zero is used to indicate the end. -/
def menuModulations (cm_data : List Nat) : Nat :=
  let p (i : Nat) : Nat := cm_data.getD i 0
  -- call function
  if p 0 &&& 0xf8 ≠ 0x80 then 0
  else if p 0 ≠ V8_CALL_FUNC_DATA then 0
  -- modulation
  else if p 1 &&& 0xf8 ≠ V8_MODN0 then 0
  else
    let v90 := if p 1 &&& V8_MODN0_V90 ≠ 0 then V8_MOD_V90 else 0
    let v34 := if p 1 &&& V8_MODN0_V34 ≠ 0 then V8_MOD_V34 else 0
    -- the first extension is ignored
    if p 2 &&& 0x1c = V8_EXT ∧ p 3 &&& 0x1c = V8_EXT then
      let v23 := if p 3 &&& V8_MODN2_V23 ≠ 0 then V8_MOD_V23 else 0
      let v21 := if p 3 &&& V8_MODN2_V21 ≠ 0 then V8_MOD_V21 else 0
      v90 ||| v34 ||| v23 ||| v21
    else v90 ||| v34

/-- CM or JM decoding: we must receive two identical sequences. -/
def cm_decode (menu : V8Menu) (rx_data : List Nat) : V8Menu :=
  if menu.got_cm then menu
  else if menu.cm_data ≠ [] ∧ menu.cm_data = rx_data then
    { menu with got_cm := true, decoded_modulations := menuModulations menu.cm_data }
  else { menu with cm_data := rx_data }

/-- The synchro that the last 20 bits are: ten ones and the code. -/
def foundSync (bit_sync : Nat) : Option V8Sync :=
  if bit_sync = V8_TEN_ONES <<< 10 ||| V8_CI_SYNC then some .ci
  else if bit_sync = V8_TEN_ONES <<< 10 ||| V8_CM_SYNC then some .cm
  else none

/-- One bit more in a shift register of `size` bits. -/
def shiftIn (size buf : Nat) (bit : Bool) : Nat := (2 * buf + bit.toNat) % 2 ^ size

/-- The new sequence after a synchro. -/
def V8Data.restart (d : V8Data) (sync : V8Sync) : V8Data :=
  { d with data_state := some sync, bit_buf := 0, bit_cnt := 0, rx_data := [] }

/-- Parse octets with 1 bit start, 1 bit stop. -/
def V8Data.parse (d : V8Data) (bit : Bool) : V8Data × Option Nat :=
  if d.data_state.isSome then
    let bit_buf := shiftIn 10 d.bit_buf bit
    let bit_cnt := d.bit_cnt + 1
    -- start, stop ?
    if bit_buf &&& 0x201 = 0x001 ∧ 10 ≤ bit_cnt then
      -- store the available data
      let data := bit_buf >>> 1 &&& 0xff
      let rx_data := if d.rx_data.length < 63 then d.rx_data ++ [data] else d.rx_data
      ({ d with bit_buf := bit_buf, bit_cnt := 0, rx_data := rx_data }, some data)
    else ({ d with bit_buf := bit_buf, bit_cnt := bit_cnt }, none)
  else (d, none)

/-- CJ detection. -/
def V8Zeros.next (z : V8Zeros) (data : Nat) : V8Zeros :=
  if data = 0 then ⟨z.got_cj || z.data_zero_count + 1 == 3, z.data_zero_count + 1⟩
  else { z with data_zero_count := 0 }

/-- The callback of the V.21 demodulator. -/
def V8State.put_bit (s : V8State) (bit : Bool) : V8State :=
  let data := { s.data with bit_sync := shiftIn 20 s.data.bit_sync bit }
  let found := foundSync data.bit_sync
  -- decode previous sequence; a CI is only printed
  let menu := if found.isSome ∧ data.data_state = some .cm then cm_decode s.menu data.rx_data
    else s.menu
  let data := found.elim data data.restart
  let (data, octet) := data.parse bit
  { s with data := data, menu := menu, zeros := octet.elim s.zeros s.zeros.next }

namespace V8State

def v8_decode_init (s : V8State) : V8State :=
  { s with
    data := { s.data with data_state := none, bit_sync := 0, rx_data := [] }
    menu := { s.menu with cm_data := [], got_cm := false }
    zeros := ⟨false, 0⟩ }

/-! ## Sending -/

/-- The bit that the V.21 modulator sends next: a one when there is nothing to send. -/
def get_bit (s : V8State) : Bool × V8State :=
  let (bit, tx_fifo) := sm_get_bit s.tx_fifo
  (bit.getD true, { s with tx_fifo := tx_fifo })

/-- Some bits for the modulator. -/
def get_bits : Nat → V8State → List Bool × V8State
  | 0, s => ([], s)
  | n + 1, s =>
    let (bit, s) := s.get_bit
    let (bits, s) := get_bits n s
    (bit :: bits, s)

/-- The bits of a value, from MSB to LSB. -/
def bitsOf (v : Nat) : Nat → List Bool
  | 0 => []
  | n + 1 => v.testBit n :: bitsOf v n

def sm_put_bits (f : SmFifo Bool) (v n : Nat) : SmFifo Bool := (bitsOf v n).foldl sm_put_bit f

/-- Insert start & stop bits. -/
def v8_put_byte (f : SmFifo Bool) (data : Nat) : SmFifo Bool :=
  sm_put_bits f ((data &&& 0xff) <<< 1 ||| 1) 10

/-- Send CM or JM. -/
def cm_send (f : SmFifo Bool) (mod_mask : Nat) : SmFifo Bool :=
  let f := sm_put_bits f V8_TEN_ONES 10
  let f := sm_put_bits f V8_CM_SYNC 10
  -- data call
  let f := v8_put_byte f V8_CALL_FUNC_DATA
  -- supported modulations
  let val := V8_MODN0
  let val := if hasMod mod_mask V8_MOD_V90 then val ||| V8_MODN0_V90 else val
  let val := if hasMod mod_mask V8_MOD_V34 then val ||| V8_MODN0_V34 else val
  let f := v8_put_byte f val
  let f := v8_put_byte f V8_EXT
  let val := V8_EXT
  let val := if hasMod mod_mask V8_MOD_V23 then val ||| V8_MODN2_V23 else val
  let val := if hasMod mod_mask V8_MOD_V21 then val ||| V8_MODN2_V21 else val
  v8_put_byte f val

/-- A CI packet. -/
def ci_send (f : SmFifo Bool) : SmFifo Bool :=
  let f := sm_put_bits f V8_TEN_ONES 10
  let f := sm_put_bits f V8_CI_SYNC 10
  v8_put_byte f V8_CALL_FUNC_DATA

end V8State

/-! ## The state machine -/

/-- What one call of `V8_process` gets from outside. -/
structure V8Input where
  /-- Bits that the V.21 modulator asks for, when it runs. -/
  modulated : Nat
  /-- Bits that the V.21 demodulator finds, when it runs. -/
  demodulated : List Bool
  /-- The tone detector recognizes ANSam, when it runs. -/
  ansam : Bool
  /-- The timer of the state has expired. -/
  timer : Bool

namespace V8State

/-- `V8_init`; what it leaves alone is set before it is read. -/
def V8_init (calling : Bool) (mod_mask : Nat) : V8State where
  calling := calling
  state := if calling then .wait1Second else .wait
  v8_ci_count := 0
  v8_ANSam_detected := false
  tx_fifo := sm_init_fifo 256
  modulation_mask := mod_mask
  data := ⟨0, 0, 0, none, []⟩
  menu := ⟨[], false, 0⟩
  zeros := ⟨false, 0⟩
  selected_mod_mask := 0
  selected_modulation := 0

/-- The states in which the V.21 modulator runs. -/
def modulates : V8Phase → Bool
  | .ciSend | .cmSend | .jmSend | .cjSend => true
  | _ => false

/-- The states in which the detector of ANSam runs. -/
def detects : V8Phase → Bool
  | .ci | .ciOff | .ciSend => true
  | _ => false

/-- The states in which the V.21 demodulator runs. -/
def listens : V8Phase → Bool
  | .cmWait | .cmSend | .jmSend => true
  | _ => false

def demodulate (s : V8State) (i : V8Input) : V8State :=
  if detects s.state then { s with v8_ANSam_detected := s.v8_ANSam_detected || i.ansam }
  else if listens s.state then i.demodulated.foldl put_bit s
  else s

/-- The modulations of both sides, when a menu was decoded. -/
def select (s : V8State) : V8State :=
  { s with
    selected_mod_mask := s.modulation_mask &&& s.menu.decoded_modulations
    selected_modulation := select_modulation (s.modulation_mask &&& s.menu.decoded_modulations) }

/-- The state machine, with what `V8_process` returns. -/
def control (s : V8State) (timer : Bool) : V8State × Nat :=
  match s.state with
  | .wait1Second =>
    if timer then ({ s with state := .ci, v8_ci_count := 0, v8_ANSam_detected := false }, 0)
    else (s, 0)
  | .ci =>
    -- send 4 CI packets (at least 3 must be sent)
    ({ s with tx_fifo := ci_send (ci_send (ci_send (ci_send s.tx_fifo))), state := .ciSend }, 0)
  | .ciSend => if sm_size s.tx_fifo = 0 then ({ s with state := .ciOff }, 0) else (s, 0)
  | .ciOff =>
    if s.v8_ANSam_detected then ({ s with state := .gotAnsam }, 0)
    else if timer then
      if s.v8_ci_count + 1 = V8_MAX_CI_SEQ then
        ({ s with v8_ci_count := s.v8_ci_count + 1 }, V8_MOD_HANGUP)
      else ({ s with v8_ci_count := s.v8_ci_count + 1, state := .ci }, 0)
    else (s, 0)
  | .gotAnsam => if timer then ({ s.v8_decode_init with state := .cmSend }, 0) else (s, 0)
  | .cmSend =>
    if s.menu.got_cm then
      -- JM detected: flush tx queue, send CJ and a few more bytes to fill the time
      let zeros := (List.replicate 9 0).foldl v8_put_byte (sm_flush s.tx_fifo)
      ({ s.select with tx_fifo := zeros, state := .cjSend }, 0)
    else if sm_size s.tx_fifo = 0 then
      ({ s with tx_fifo := cm_send s.tx_fifo s.modulation_mask }, 0)
    else (s, 0)
  | .cjSend => if sm_size s.tx_fifo = 0 then ({ s with state := .sigc }, 0) else (s, 0)
  | .sigc => (s, if timer then s.selected_modulation else 0)
  | .wait => if timer then ({ s.v8_decode_init with state := .cmWait }, 0) else (s, 0)
  | .cmWait =>
    if timer then (s, V8_MOD_HANGUP)
    else if s.menu.got_cm then ({ s.select with state := .jmSend }, 0)
    else (s, 0)
  | .jmSend =>
    if timer then (s, V8_MOD_HANGUP)
    else if s.zeros.got_cj then ({ s with state := .siga }, 0)
    else if sm_size s.tx_fifo = 0 then
      ({ s with tx_fifo := cm_send s.tx_fifo s.selected_mod_mask }, 0)
    else (s, 0)
  | .siga => (s, if timer then s.selected_modulation else 0)

/-- The bits sent, the state after the call, and what it returns. -/
def V8_process (s : V8State) (i : V8Input) : List Bool × V8State × Nat :=
  let (output, s) := if modulates s.state then get_bits i.modulated s else ([], s)
  (output, (s.demodulate i).control i.timer)

end V8State

end QFax.Linmodem

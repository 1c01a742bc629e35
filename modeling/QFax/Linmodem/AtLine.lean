import QFax.Linmodem.Lm
import QFax.Linmodem.Modem

/-!
# The AT command parser

`lm_at_parser` takes the bytes of the terminal out of `tx_fifo`, edits them into a line, and gives the
line to `parse_at_line`, which dials, answers and hangs up.  The modem runs between its calls, and takes
its data from the same queue while it is connected.  The line is edited within its buffer, but the
number dialled may be longer than the buffer it is copied to (`at_storage_iff`).
-/

namespace QFax.Linmodem

open Machine

/-- Characters as bytes. -/
def ascii (s : String) : List (BitVec 8) := s.toList.map fun c => BitVec.ofNat 8 c.toNat

inductive AtMode
  | command
  | dialing
  | connected
  deriving DecidableEq

inductive LmState
  | idle
  | connecting
  | connected
  deriving DecidableEq

/-- A simplified state of the modem. -/
def lm_get_state (s : Modem) : LmState :=
  match s.state with
  | .idle => .idle
  | .v21 | .v23 => .connected
  | _ => .connecting

/-- The configuration of the modem, with the default dial type. -/
structure AtConfig where
  modem : LinModemConfig
  pulse_dial : Bool

/-- `lm_at_state`, with the modem and the queues it shares with it. -/
structure Terminal where
  at_line : Int → BitVec 8
  at_line_ptr : Int
  at_state : AtMode
  sm : Modem
  tx_fifo : SmFifo (BitVec 8)
  rx_fifo : SmFifo (BitVec 8)

/-- What can be seen of the parser and of the queues. -/
inductive AtEvent
  /-- A byte from the terminal that found room in `tx_fifo`. -/
  | queued (c : BitVec 8)
  /-- A byte that the parser takes from `tx_fifo`, and `at_state` at that time. -/
  | taken (mode : AtMode) (c : BitVec 8)
  /-- A store to `at_line`. -/
  | stored (i : Int)
  /-- The number that `lm_start_dial` is called with. -/
  | dial (number : List (BitVec 8))
  /-- A byte that the connection takes from `tx_fifo`. -/
  | data (c : BitVec 8)
  deriving DecidableEq

def SM_FIFO_SIZE : Nat := 4096

def LM_VERSION : String := "0.2.5"

/-- Size of `at_line`. -/
def AT_LINE_SIZE : Nat := 256

/-- Size of `call_num`. -/
def CALL_NUM_SIZE : Nat := 64

def toupper (c : BitVec 8) : BitVec 8 := if 0x61 ≤ c ∧ c ≤ 0x7a then c - 0x20 else c

/-- If `val` is a prefix of `str`, the characters behind it. -/
def strcasestart : List (BitVec 8) → List (BitVec 8) → Option (List (BitVec 8))
  | str, [] => some str
  | [], _ :: _ => none
  | p :: str, q :: val => if toupper p ≠ toupper q then none else strcasestart str val

/-- The string at the start of a buffer. -/
def cString (line : Int → BitVec 8) : List (BitVec 8) :=
  ((List.range AT_LINE_SIZE).map fun i : Nat => line i).takeWhile (· ≠ 0)

namespace Terminal

def at_putc (t : Terminal) (c : BitVec 8) : Terminal :=
  let rx_fifo := if c = 0x0a then sm_put_bit t.rx_fifo 0x0d else t.rx_fifo
  { t with rx_fifo := sm_put_bit rx_fifo c }

def at_printf (t : Terminal) (buf : List (BitVec 8)) : Terminal := buf.foldl at_putc t

/-- Pulse or tone, and the number to dial, of what follows `ATD`. -/
def dialMode (pulse_dial : Bool) (p : List (BitVec 8)) : Bool × List (BitVec 8) :=
  let (pulse, p) := match strcasestart p (ascii "P") with
    | some p => (true, p)
    | none => (pulse_dial, p)
  match strcasestart p (ascii "T") with
  | some p => (false, p)
  | none => (pulse, p)

/-- What the copy of a long number overwrites behind `call_num` is not modelled. -/
def parse_at_line (cfg : AtConfig) (line : List (BitVec 8)) (t : Terminal) : Terminal × List AtEvent :=
  match strcasestart line (ascii "ATD") with
  | some p =>
    let (pulse, number) := dialMode cfg.pulse_dial p
    let (sm, _) := t.sm.lm_start_dial pulse (number.map fun c => Char.ofNat c.toNat)
    ({ t with sm := sm, at_state := .dialing }, [.dial number])
  | none =>
    if (strcasestart line (ascii "ATI")).isSome then
      (t.at_printf (ascii "Linmodem " ++ ascii LM_VERSION ++ ascii "\n"), [])
    else if (strcasestart line (ascii "ATZ")).isSome then (t.at_printf (ascii "OK\n"), [])
    else if (strcasestart line (ascii "ATA")).isSome then
      ({ t with sm := t.sm.lm_start_receive.1, at_state := .dialing }, [])
    else if (strcasestart line (ascii "ATH")).isSome then ({ t with sm := t.sm.lm_hangup.1 }, [])
    else (t, [])

/-- A store to `at_line`. -/
def store (t : Terminal) (c : BitVec 8) : Terminal :=
  { t with at_line := Function.update t.at_line t.at_line_ptr c }

/-- Handle an incoming character. -/
def atChar (cfg : AtConfig) (c : BitVec 8) (t : Terminal) : Terminal × List AtEvent :=
  if c = 0x0a ∨ c = 0x0d then
    -- line validation
    let stored := t.store 0
    let (t', es) :=
      if t.at_line_ptr ≠ 0 then parse_at_line cfg (cString stored.at_line) (stored.at_putc 0x0a)
      else (stored, [])
    ({ t' with at_line_ptr := 0 }, .stored t.at_line_ptr :: es)
  else if c = 0x08 then
    if 0 < t.at_line_ptr then
      (at_printf { t with at_line_ptr := t.at_line_ptr - 1 } [0x08, 0x20, 0x08], [])
    else (t, [])
  else if t.at_line_ptr < AT_LINE_SIZE - 1 then
    (at_putc { t.store c with at_line_ptr := t.at_line_ptr + 1 } c, [.stored t.at_line_ptr])
  else (t, [])

/-- The loop of the command mode, which goes on until the queue is empty. -/
def commandLoop (cfg : AtConfig) : Nat → Terminal → Terminal × List AtEvent
  | 0, t => (t, [])
  | size + 1, t =>
    match sm_get_bit t.tx_fifo with
    | (none, _) => (t, [])
    | (some c, tx_fifo) =>
      let (t', es) := atChar cfg c { t with tx_fifo := tx_fifo }
      let (t'', later) := commandLoop cfg size t'
      (t'', .taken t.at_state c :: es ++ later)

/-- `lm_at_parser`. -/
def lmAtParser (cfg : AtConfig) (t : Terminal) : Terminal × List AtEvent :=
  match t.at_state with
  | .command => commandLoop cfg (sm_size t.tx_fifo) t
  | .dialing =>
    match lm_get_state t.sm with
    | .idle => ({ t.at_printf (ascii "ERROR\n") with at_state := .command }, [])
    | .connected => ({ t.at_printf (ascii "CONNECT\n") with at_state := .connected }, [])
    | .connecting => (t, [])
  | .connected =>
    if lm_get_state t.sm = .idle then ({ t.at_printf (ascii "OK\n") with at_state := .command }, [])
    else (t, [])

/-- Bytes from the terminal; those that find no room are lost. -/
def readTty : List (BitVec 8) → Terminal → Terminal × List AtEvent
  | [], t => (t, [])
  | c :: buf, t =>
    let (t', later) := readTty buf { t with tx_fifo := sm_put_bit t.tx_fifo c }
    (t', if t.tx_fifo.items.length < t.tx_fifo.max_size then .queued c :: later else later)

/-- Bytes that `serial_get_bit` takes. -/
def sendData : Nat → Terminal → Terminal × List AtEvent
  | 0, t => (t, [])
  | n + 1, t =>
    match sm_get_bit t.tx_fifo with
    | (none, _) => (t, [])
    | (some c, tx_fifo) =>
      let (t', later) := sendData n { t with tx_fifo := tx_fifo }
      (t', .data c :: later)

end Terminal

/-- What happens to the parser and the modem, in any order. -/
inductive AtInput
  | tty (buf : List (BitVec 8))
  | parser
  /-- A call of `sm_process`; a connection takes `sent` bytes at most and receives some. -/
  | process (nb_samples ret sent : Nat) (received : List (BitVec 8))
  /-- Bytes written to the terminal. -/
  | written (n : Nat)

def Terminal.step (cfg : AtConfig) : Step Terminal AtInput AtEvent
  | .tty buf, t => t.readTty buf
  | .parser, t => t.lmAtParser cfg
  | .process nb_samples ret sent received, t =>
    let (t', es) :=
      if lm_get_state t.sm = .connected then
        let (t', es) := t.sendData sent
        ({ t' with rx_fifo := received.foldl sm_put_bit t'.rx_fifo }, es)
      else (t, [])
    ({ t' with sm := (t'.sm.sm_process cfg.modem nb_samples ret).1 }, es)
  | .written n, t =>
    ({ t with rx_fifo := ⟨t.rx_fifo.items.drop n, t.rx_fifo.max_size, by
        rw [List.length_drop]
        exact Nat.le_trans (Nat.sub_le _ _) t.rx_fifo.bounded⟩ }, [])

/-- `lm_init` and `lm_at_parser_init`. -/
def terminal_init (at_line : Int → BitVec 8) : Terminal where
  at_line := at_line
  at_line_ptr := 0
  at_state := .command
  sm := lm_init
  tx_fifo := sm_init_fifo SM_FIFO_SIZE
  rx_fifo := sm_init_fifo SM_FIFO_SIZE

/-! ## Lines -/

/-- The end of a line. -/
def isTerminator (c : BitVec 8) : Bool := c == 0x0a || c == 0x0d

/-- A line behind one more character: a backspace takes one away, and there is room for 255. -/
def typeChar (line : List (BitVec 8)) (c : BitVec 8) : List (BitVec 8) :=
  if isTerminator c then []
  else if c = 0x08 then line.dropLast
  else if line.length < AT_LINE_SIZE - 1 then line ++ [c]
  else line

/-- The lines that a stream of bytes completes, and the one it leaves unfinished. -/
def typed (stream : List (BitVec 8)) : List (List (BitVec 8)) × List (BitVec 8) :=
  stream.foldl (fun (lines, line) c => (if isTerminator c then lines ++ [line] else lines,
    typeChar line c))
    ([], [])

/-- The number that a line asks to dial; a line ends at the first zero in it. -/
def dialNumber? (line : List (BitVec 8)) : Option (List (BitVec 8)) :=
  (strcasestart (line.takeWhile (· ≠ 0)) (ascii "ATD")).map fun p => (Terminal.dialMode false p).2

/-- Whether a line dials or answers. -/
def isCall (line : List (BitVec 8)) : Bool :=
  (dialNumber? line).isSome || (strcasestart (line.takeWhile (· ≠ 0)) (ascii "ATA")).isSome

/-- The bytes that the parser took. -/
def parsedBytes (h : List AtEvent) : List (BitVec 8) :=
  h.filterMap fun e => match e with
    | .taken _ c => some c
    | _ => none

/-- The numbers that `lm_start_dial` was called with. -/
def dials (h : List AtEvent) : List (List (BitVec 8)) :=
  h.filterMap fun e => match e with
    | .dial number => some number
    | _ => none

theorem parsedBytes_append (h es : List AtEvent) :
    parsedBytes (h ++ es) = parsedBytes h ++ parsedBytes es :=
  List.filterMap_append

theorem dials_append (h es : List AtEvent) :
    dials (h ++ es) = dials h ++ dials es := List.filterMap_append

theorem typed_snoc (stream : List (BitVec 8)) (c : BitVec 8) : typed (stream ++ [c]) =
    (if isTerminator c then (typed stream).1 ++ [(typed stream).2] else (typed stream).1,
      typeChar (typed stream).2 c) := List.foldl_append

/-- The line that the parser has in its buffer. -/
structure LineIs (t : Terminal) (text : List (BitVec 8)) : Prop where
  ptr : t.at_line_ptr = text.length
  short : text.length < AT_LINE_SIZE
  cells : ∀ (i : Nat) c, text[i]? = some c → t.at_line i = c

namespace LineIs

variable {t : Terminal} {line : List (BitVec 8)}

theorem inside (is : LineIs t line) : 0 ≤ t.at_line_ptr ∧ t.at_line_ptr < AT_LINE_SIZE := by
  have short := is.short
  rw [is.ptr]
  omega

theorem ptr_eq_zero (is : LineIs t line) : t.at_line_ptr = 0 ↔ line = [] := by
  rw [is.ptr, Int.natCast_eq_zero, List.length_eq_zero_iff]

/-- A store behind the line. -/
theorem store (is : LineIs t line) (c : BitVec 8) : LineIs (t.store c) line := by
  refine ⟨is.ptr, is.short, ?_⟩
  intro i x entry
  obtain ⟨lt, _⟩ := List.getElem?_eq_some_iff.mp entry
  have other : (i : Int) ≠ t.at_line_ptr := by
    rw [is.ptr]
    omega
  show Function.update t.at_line t.at_line_ptr c i = x
  rw [Function.update_of_ne other]
  exact is.cells i x entry

theorem cells_eq (is : LineIs t line) :
    ((List.range line.length).map fun i : Nat => t.at_line i) = line := by
  apply List.ext_getElem?
  intro i
  rw [List.getElem?_map]
  by_cases lt : i < line.length
  · rw [List.getElem?_range lt, Option.map_some, List.getElem?_eq_getElem lt,
      is.cells i _ (List.getElem?_eq_getElem lt)]
  · rw [List.getElem?_eq_none (by rw [List.length_range]; omega), List.getElem?_eq_none (by omega)]
    rfl

/-- What the parser reads of the line that it has terminated. -/
theorem cString_eq (is : LineIs t line) :
    cString (t.store 0).at_line = line.takeWhile (· ≠ 0) := by
  have short := is.short
  obtain ⟨rest, size⟩ : ∃ rest, AT_LINE_SIZE = line.length + (rest + 1) :=
    ⟨AT_LINE_SIZE - line.length - 1, by omega⟩
  have cells : ((List.range line.length).map fun i : Nat => (t.store 0).at_line i) = line :=
    (is.store 0).cells_eq
  rw [cString, size, List.range_add, List.map_append, cells, List.map_map, List.range_succ_eq_map,
    List.map_cons]
  have zero : ((fun i : Nat => (t.store 0).at_line i) ∘ fun x => line.length + x) 0 = 0 := by
    show Function.update t.at_line t.at_line_ptr 0 ((line.length + 0 : Nat) : Int) = 0
    rw [Nat.add_zero, ← is.ptr, Function.update_self]
  rw [zero, List.takeWhile_append]
  split
  case isTrue whole =>
    rw [List.takeWhile_cons_of_neg (by decide), List.append_nil]
    exact (List.IsPrefix.eq_of_length (List.takeWhile_prefix _) whole).symm
  case isFalse => rfl

/-- Nothing but the buffer counts. -/
theorem congr (is : LineIs t line) {t' : Terminal} (cells : t'.at_line = t.at_line)
    (ptr : t'.at_line_ptr = t.at_line_ptr) : LineIs t' line :=
  ⟨ptr.trans is.ptr, is.short, fun i c entry => by rw [cells]; exact is.cells i c entry⟩

theorem nil (ptr : t.at_line_ptr = 0) : LineIs t [] :=
  ⟨ptr, by decide, fun i c entry => by rw [List.getElem?_nil] at entry; cases entry⟩

/-- A character behind the line. -/
theorem snoc (is : LineIs t line) (room : line.length < AT_LINE_SIZE - 1) (c : BitVec 8) {t' : Terminal}
    (cells : t'.at_line = Function.update t.at_line t.at_line_ptr c)
    (ptr : t'.at_line_ptr = t.at_line_ptr + 1) : LineIs t' (line ++ [c]) := by
  refine ⟨?_, ?_, ?_⟩
  · rw [ptr, is.ptr, List.length_append]
    rfl
  · rw [List.length_append, List.length_singleton]
    omega
  · intro i x entry
    rw [cells]
    rcases Nat.lt_trichotomy i line.length with before | rfl | behind
    · rw [List.getElem?_append_left before] at entry
      exact (is.store c).cells i x entry
    · rw [List.getElem?_concat_length] at entry
      rw [← is.ptr, Function.update_self]
      exact Option.some.inj entry
    · rw [List.getElem?_eq_none (by rw [List.length_append, List.length_singleton]; omega)] at entry
      cases entry

/-- A backspace. -/
theorem dropLast (is : LineIs t line) (some : line ≠ []) {t' : Terminal}
    (cells : t'.at_line = t.at_line)
    (ptr : t'.at_line_ptr = t.at_line_ptr - 1) : LineIs t' line.dropLast := by
  have positive : 0 < line.length := List.length_pos_iff.mpr some
  have short := is.short
  refine ⟨?_, ?_, ?_⟩
  · rw [ptr, is.ptr, List.length_dropLast]
    omega
  · rw [List.length_dropLast]
    omega
  · intro i c entry
    rw [cells]
    apply is.cells i c
    rw [List.dropLast_eq_take, List.getElem?_take] at entry
    split at entry
    · exact entry
    · cases entry

end LineIs

/-! ## One character -/

section Character

variable (cfg : AtConfig) {t : Terminal}

theorem at_printf_eq (t : Terminal) (buf : List (BitVec 8)) :
    t.at_printf buf = { t with rx_fifo := (t.at_printf buf).rx_fifo } := by
  induction buf generalizing t with
  | nil => rfl
  | cons c buf ih => exact ih (t.at_putc c)

/-- The number does not depend on the default dial type. -/
theorem dialMode_number (pulse_dial pulse_dial' : Bool) (p : List (BitVec 8)) :
    (Terminal.dialMode pulse_dial p).2 = (Terminal.dialMode pulse_dial' p).2 := by
  unfold Terminal.dialMode
  cases strcasestart p (ascii "P") with
  | some p => rfl
  | none =>
    dsimp only
    cases strcasestart p (ascii "T") <;> rfl

/-- Two commands at the start of a line have the same letters. -/
theorem last_letter {str val : List (BitVec 8)} {a b : BitVec 8}
    (first : (strcasestart str (val ++ [a])).isSome = true)
    (second : (strcasestart str (val ++ [b])).isSome = true) : toupper a = toupper b := by
  induction val generalizing str with
  | nil =>
    cases str with
    | nil => cases first
    | cons p str =>
      rw [List.nil_append, strcasestart] at first second
      split at first
      case isTrue => cases first
      case isFalse one =>
        split at second
        case isTrue => cases second
        case isFalse two => exact (not_not.mp one).symm.trans (not_not.mp two)
  | cons q val ih =>
    cases str with
    | nil => cases first
    | cons p str =>
      rw [List.cons_append, strcasestart] at first second
      split at first
      case isTrue => cases first
      case isFalse same =>
        rw [if_neg same] at second
        exact ih first second

theorem hangup_state (s : Modem) : s.lm_hangup.1.state = s.state := by
  unfold Modem.lm_hangup
  split <;> rfl

/-- What a line does: dial and answer change the mode, and nothing else touches the mode or the
state of the modem. -/
structure LineDone (t t' : Terminal) (line : List (BitVec 8)) (es : List AtEvent) : Prop where
  fifo : t'.tx_fifo = t.tx_fifo
  mode : t'.at_state = if isCall line then .dialing else t.at_state
  modem : isCall line = false → t'.sm.state = t.sm.state
  events : es = (dialNumber? line).toList.map .dial

theorem parse_done (line : List (BitVec 8)) (t : Terminal) : LineDone t
    (t.parse_at_line cfg (line.takeWhile (· ≠ 0))).1 line
    (t.parse_at_line cfg (line.takeWhile (· ≠ 0))).2 := by
  unfold Terminal.parse_at_line
  cases dial : strcasestart (line.takeWhile (· ≠ 0)) (ascii "ATD") with
  | some p =>
    have number : dialNumber? line = some (Terminal.dialMode cfg.pulse_dial p).2 := by
      rw [dialNumber?, dial, Option.map_some, dialMode_number]
    have call : isCall line = true := by
      rw [isCall, number]
      rfl
    refine ⟨rfl, ?_, ?_, ?_⟩
    · rw [call]
      rfl
    · rw [call]
      exact Bool.noConfusion
    · rw [number]
      rfl
  | none =>
    have number : dialNumber? line = none := by rw [dialNumber?, dial, Option.map_none]
    have plain : ∀ t' : Terminal, t'.tx_fifo = t.tx_fifo → t'.at_state = t.at_state →
      t'.sm.state = t.sm.state →
        isCall line = false → LineDone t t' line [] := by
      intro t' fifo mode modem call
      refine ⟨fifo, ?_, fun _ => modem, ?_⟩
      · rw [call]
        exact mode
      · rw [number]
        rfl
    have answer : isCall line = (strcasestart (line.takeWhile (· ≠ 0)) (ascii "ATA")).isSome := by
      rw [isCall, number]
      rfl
    -- a line with another command does not answer
    have other : ∀ c, toupper c ≠ toupper 0x41 →
        (strcasestart (line.takeWhile (· ≠ 0)) (ascii "AT" ++ [c])).isSome = true →
          isCall line = false := by
      intro c differ command
      rw [answer, Bool.eq_false_iff]
      intro both
      exact differ (last_letter command both)
    dsimp only
    by_cases ati : (strcasestart (line.takeWhile (· ≠ 0)) (ascii "ATI")).isSome = true
    · rw [if_pos ati, at_printf_eq]
      exact plain _ rfl rfl rfl (other 0x49 (by decide) ati)
    by_cases atz : (strcasestart (line.takeWhile (· ≠ 0)) (ascii "ATZ")).isSome = true
    · rw [if_neg ati, if_pos atz, at_printf_eq]
      exact plain _ rfl rfl rfl (other 0x5a (by decide) atz)
    by_cases ata : (strcasestart (line.takeWhile (· ≠ 0)) (ascii "ATA")).isSome = true
    · rw [if_neg ati, if_neg atz, if_pos ata]
      refine ⟨rfl, ?_, ?_, ?_⟩
      · rw [answer, ata]
        rfl
      · rw [answer, ata]
        exact Bool.noConfusion
      · rw [number]
        rfl
    have idle : isCall line = false := answer.trans (Bool.eq_false_iff.mpr ata)
    rw [if_neg ati, if_neg atz, if_neg ata]
    split
    · exact plain _ rfl rfl (hangup_state t.sm) idle
    · exact plain _ rfl rfl rfl idle

/-- What a character does when `line` is in the buffer. -/
structure CharDone (t : Terminal) (line : List (BitVec 8)) (c : BitVec 8) (t' : Terminal)
    (es : List AtEvent) : Prop where
  typed : LineIs t' (typeChar line c)
  fifo : t'.tx_fifo = t.tx_fifo
  mode : t'.at_state = if isTerminator c && isCall line then .dialing else t.at_state
  modem : (isTerminator c && isCall line) = false → t'.sm.state = t.sm.state
  events : dials es = if isTerminator c then (dialNumber? line).toList else []
  kinds : ∀ e ∈ es, e = .stored t.at_line_ptr ∨ ∃ number, e = .dial number

/-- A character makes no events of other kinds. -/
theorem CharDone.filterMap_eq {β : Type} {line es : List _} {c : BitVec 8} {t' : Terminal}
    (done : CharDone t line c t' es) (f : AtEvent → Option β) (stored : ∀ i, f (.stored i) = none)
    (dial : ∀ number, f (.dial number) = none) : es.filterMap f = [] := by
  apply List.filterMap_eq_nil_iff.mpr
  intro e member
  rcases done.kinds e member with rfl | ⟨number, rfl⟩
  · exact stored t.at_line_ptr
  · exact dial number

/-- What a character stores is within the buffer. -/
theorem CharDone.stored {line es : List _} {c : BitVec 8} {t' : Terminal}
    (done : CharDone t line c t' es)
    (is : LineIs t line) {i : Int} (member : .stored i ∈ es) : 0 ≤ i ∧ i < AT_LINE_SIZE := by
  rcases done.kinds _ member with same | ⟨number, same⟩
  · rw [AtEvent.stored.inj same]
    exact is.inside
  · cases same

/-- A character that does not end a line. -/
theorem CharDone.edit {line es : List _} {c : BitVec 8} {t' : Terminal} (inner : isTerminator c = false)
    (typed : LineIs t' (typeChar line c)) (fifo : t'.tx_fifo = t.tx_fifo)
    (mode : t'.at_state = t.at_state)
    (modem : t'.sm = t.sm) (events : es = [] ∨ es = [.stored t.at_line_ptr]) :
    CharDone t line c t' es := by
  refine ⟨typed, fifo, ?_, fun _ => by rw [modem], ?_, ?_⟩
  · rw [inner]
    exact mode
  · rw [inner]
    rcases events with rfl | rfl <;> rfl
  · intro e member
    rcases events with rfl | rfl
    · cases member
    · exact Or.inl (List.mem_singleton.mp member)

/-- The end of a line, which is not parsed when it is empty. -/
theorem line_done {line : List (BitVec 8)} (is : LineIs t line) : LineDone t
    (if t.at_line_ptr ≠ 0 then
      Terminal.parse_at_line cfg (cString (t.store 0).at_line) ((t.store 0).at_putc 0x0a)
      else (t.store 0, [])).1 line
    (if t.at_line_ptr ≠ 0 then
      Terminal.parse_at_line cfg (cString (t.store 0).at_line) ((t.store 0).at_putc 0x0a)
      else (t.store 0, [])).2 := by
  split
  case isTrue =>
    rw [is.cString_eq]
    obtain ⟨fifo, mode, modem, events⟩ := parse_done cfg line ((t.store 0).at_putc 0x0a)
    exact ⟨fifo, mode, modem, events⟩
  case isFalse none =>
    rw [is.ptr_eq_zero.mp (not_not.mp none)]
    exact ⟨rfl, rfl, fun _ => rfl, rfl⟩

theorem terminator_done {line : List (BitVec 8)} (is : LineIs t line) {c : BitVec 8}
    (terminator : c = 0x0a ∨ c = 0x0d) : CharDone t line c (t.atChar cfg c).1 (t.atChar cfg c).2 := by
  have ends : isTerminator c = true := by
    rw [isTerminator, Bool.or_eq_true, beq_iff_eq, beq_iff_eq]
    exact terminator
  have done := line_done cfg is
  unfold Terminal.atChar
  rw [if_pos terminator]
  dsimp only
  generalize (if t.at_line_ptr ≠ 0 then
    Terminal.parse_at_line cfg (cString (t.store 0).at_line) ((t.store 0).at_putc 0x0a)
    else (t.store 0, [])) = result at done ⊢
  obtain ⟨t', es⟩ := result
  have events : es = (dialNumber? line).toList.map .dial := done.events
  refine ⟨?_, done.fifo, ?_, ?_, ?_, ?_⟩
  · rw [typeChar, if_pos ends]
    exact .nil rfl
  · rw [ends, Bool.true_and]
    exact done.mode
  · rw [ends, Bool.true_and]
    exact done.modem
  · rw [if_pos ends]
    show dials es = _
    rw [events]
    cases dialNumber? line <;> rfl
  · rw [events]
    intro e member
    rcases List.mem_cons.mp member with rfl | later
    · exact Or.inl rfl
    · obtain ⟨number, _, rfl⟩ := List.mem_map.mp later
      exact Or.inr ⟨number, rfl⟩

theorem atChar_done {line : List (BitVec 8)} (is : LineIs t line) (c : BitVec 8) :
    CharDone t line c (t.atChar cfg c).1 (t.atChar cfg c).2 := by
  by_cases terminator : c = 0x0a ∨ c = 0x0d
  · exact terminator_done cfg is terminator
  have inner : isTerminator c = false := by
    rw [isTerminator, Bool.or_eq_false_iff, beq_eq_false_iff_ne, beq_eq_false_iff_ne, ← not_or]
    exact terminator
  unfold Terminal.atChar
  rw [if_neg terminator]
  by_cases backspace : c = 0x08
  · have typed : typeChar line c = line.dropLast := by
      rw [typeChar, if_neg (Bool.eq_false_iff.mp inner), if_pos backspace]
    rw [if_pos backspace]
    by_cases some : 0 < t.at_line_ptr
    · have nonempty : line ≠ [] := fun empty => by
        rw [is.ptr_eq_zero.mpr empty] at some
        cases some
      rw [if_pos some, at_printf_eq]
      exact .edit inner (typed ▸ is.dropLast nonempty rfl rfl) rfl rfl rfl (Or.inl rfl)
    · have empty : line = [] := by
        apply is.ptr_eq_zero.mp
        have inside := is.inside
        omega
      subst empty
      rw [if_neg some]
      exact .edit inner (typed ▸ is) rfl rfl rfl (Or.inl rfl)
  · have room : t.at_line_ptr < AT_LINE_SIZE - 1 ↔ line.length < AT_LINE_SIZE - 1 := by
      rw [is.ptr]
      unfold AT_LINE_SIZE
      omega
    rw [if_neg backspace]
    by_cases fits : line.length < AT_LINE_SIZE - 1
    · have typed : typeChar line c = line ++ [c] := by
        rw [typeChar, if_neg (Bool.eq_false_iff.mp inner), if_neg backspace, if_pos fits]
      rw [if_pos (room.mpr fits)]
      exact .edit inner (typed ▸ is.snoc fits c rfl rfl) rfl rfl rfl (Or.inr rfl)
    · have typed : typeChar line c = line := by
        rw [typeChar, if_neg (Bool.eq_false_iff.mp inner), if_neg backspace, if_neg fits]
      rw [if_neg fun lt => fits (room.mp lt)]
      exact .edit inner (typed.symm ▸ is) rfl rfl rfl (Or.inl rfl)

end Character

/-! ## Runs -/

section Runs

variable {cfg : AtConfig} {h es : List AtEvent} {t t' : Terminal}

/-- The buffer has the line that the bytes taken so far come to, the numbers dialled are those of
the lines completed, and all stores were within the buffer. -/
structure Typing (h : List AtEvent) (t : Terminal) : Prop where
  line : LineIs t (typed (parsedBytes h)).2
  dialled : dials h = (typed (parsedBytes h)).1.filterMap dialNumber?
  stored : ∀ i : Int, .stored i ∈ h → 0 ≤ i ∧ i < AT_LINE_SIZE

theorem Typing.init (at_line : Int → BitVec 8) : Typing [] (terminal_init at_line) :=
  ⟨.nil rfl, rfl, fun _ member => by cases member⟩

/-- A byte that is taken. -/
theorem Typing.char (typing : Typing h t) (cfg : AtConfig) (mode : AtMode) (c : BitVec 8)
    (tx_fifo : SmFifo (BitVec 8)) :
    Typing (h ++ .taken mode c :: (Terminal.atChar cfg c { t with tx_fifo := tx_fifo }).2)
      (Terminal.atChar cfg c { t with tx_fifo := tx_fifo }).1 := by
  have is : LineIs { t with tx_fifo := tx_fifo } (typed (parsedBytes h)).2 := typing.line.congr rfl rfl
  have done := atChar_done cfg is c
  generalize Terminal.atChar cfg c { t with tx_fifo := tx_fifo } = result at done ⊢
  obtain ⟨t', es⟩ := result
  have taken : parsedBytes (h ++ .taken mode c :: es) = parsedBytes h ++ [c] := by
    have one : parsedBytes (.taken mode c :: es) = c :: parsedBytes es := rfl
    have none : parsedBytes es = [] := done.filterMap_eq _ (fun _ => rfl) fun _ => rfl
    rw [parsedBytes_append, one, none]
  have dialled : dials (h ++ .taken mode c :: es) = dials h ++ dials es := dials_append _ _
  refine ⟨?_, ?_, ?_⟩
  · rw [taken, typed_snoc]
    exact done.typed
  · rw [taken, typed_snoc, dialled, done.events, typing.dialled]
    dsimp only
    split
    · have last : [(typed (parsedBytes h)).2].filterMap dialNumber? =
          (dialNumber? (typed (parsedBytes h)).2).toList := by
        rw [List.filterMap_cons]
        cases dialNumber? (typed (parsedBytes h)).2 <;> rfl
      rw [List.filterMap_append, last]
    · rw [List.append_nil]
  · intro i member
    rcases List.mem_append.mp member with before | new
    · exact typing.stored i before
    · rcases List.mem_cons.mp new with here | later
      · cases here
      · exact done.stored is later

theorem Typing.loop (size : Nat) (typing : Typing h t) :
    Typing (h ++ (Terminal.commandLoop cfg size t).2) (Terminal.commandLoop cfg size t).1 := by
  induction size generalizing h t with
  | zero =>
    rw [Terminal.commandLoop, List.append_nil]
    exact typing
  | succ size ih =>
    rw [Terminal.commandLoop]
    obtain ⟨got, tx_fifo⟩ := sm_get_bit t.tx_fifo
    cases got with
    | none =>
      dsimp only
      rw [List.append_nil]
      exact typing
    | some c =>
      have next := ih (typing.char cfg t.at_state c tx_fifo)
      dsimp only
      rw [← List.append_assoc]
      exact next

/-- What happens to the queues and the modem alone. -/
theorem Typing.aside (typing : Typing h t) (cells : t'.at_line = t.at_line)
    (ptr : t'.at_line_ptr = t.at_line_ptr)
    (outside : ∀ e ∈ es, (∃ c, e = .queued c) ∨ ∃ c, e = .data c) :
    Typing (h ++ es) t' := by
  have taken : parsedBytes es = [] := by
    apply List.filterMap_eq_nil_iff.mpr
    intro e member
    rcases outside e member with ⟨c, rfl⟩ | ⟨c, rfl⟩ <;> rfl
  have dialled : dials es = [] := by
    apply List.filterMap_eq_nil_iff.mpr
    intro e member
    rcases outside e member with ⟨c, rfl⟩ | ⟨c, rfl⟩ <;> rfl
  refine ⟨?_, ?_, ?_⟩
  · rw [parsedBytes_append, taken, List.append_nil]
    exact typing.line.congr cells ptr
  · rw [parsedBytes_append, taken, List.append_nil, dials_append, dialled, List.append_nil]
    exact typing.dialled
  · intro i member
    rcases List.mem_append.mp member with before | new
    · exact typing.stored i before
    · rcases outside _ new with ⟨c, same⟩ | ⟨c, same⟩ <;> cases same

/-- The terminal only puts bytes in the queue. -/
theorem readTty_frame (buf : List (BitVec 8)) (t : Terminal) :
    (t.readTty buf).1 = { t with tx_fifo := (t.readTty buf).1.tx_fifo } ∧
      ∀ e ∈ (t.readTty buf).2, ∃ c, e = .queued c := by
  induction buf generalizing t with
  | nil => exact ⟨rfl, fun e member => by cases member⟩
  | cons c buf ih =>
    obtain ⟨same, events⟩ := ih { t with tx_fifo := sm_put_bit t.tx_fifo c }
    refine ⟨same, ?_⟩
    intro e member
    rw [Terminal.readTty] at member
    dsimp only at member
    split at member
    · rcases List.mem_cons.mp member with rfl | later
      · exact ⟨c, rfl⟩
      · exact events e later
    · exact events e member

/-- A connection only takes bytes from the queue. -/
theorem sendData_frame (n : Nat) (t : Terminal) :
    (t.sendData n).1 = { t with tx_fifo := (t.sendData n).1.tx_fifo } ∧
      ∀ e ∈ (t.sendData n).2, ∃ c, e = .data c := by
  induction n generalizing t with
  | zero => exact ⟨rfl, fun e member => by cases member⟩
  | succ n ih =>
    rw [Terminal.sendData]
    obtain ⟨got, tx_fifo⟩ := sm_get_bit t.tx_fifo
    cases got with
    | none => exact ⟨rfl, fun e member => by cases member⟩
    | some c =>
      obtain ⟨same, events⟩ := ih { t with tx_fifo := tx_fifo }
      refine ⟨same, ?_⟩
      intro e member
      rcases List.mem_cons.mp member with rfl | later
      · exact ⟨c, rfl⟩
      · exact events e later

theorem Typing.parser (typing : Typing h t) :
    Typing (h ++ (t.lmAtParser cfg).2) (t.lmAtParser cfg).1 := by
  have answered : ∀ (buf : List (BitVec 8)) (mode : AtMode),
      Typing (h ++ []) { t.at_printf buf with at_state := mode } := by
    intro buf mode
    rw [at_printf_eq]
    exact typing.aside rfl rfl (fun e member => by cases member)
  have same : Typing (h ++ []) t := typing.aside rfl rfl (fun e member => by cases member)
  unfold Terminal.lmAtParser
  cases t.at_state with
  | command => exact typing.loop _
  | dialing =>
    dsimp only
    cases lm_get_state t.sm with
    | idle => exact answered _ _
    | connected => exact answered _ _
    | connecting => exact same
  | connected =>
    dsimp only
    split
    · exact answered _ _
    · exact same

theorem Typing.step (typing : Typing h t) (input : AtInput) :
    Typing (h ++ (t.step cfg input).2) (t.step cfg input).1 := by
  cases input with
  | tty buf =>
    obtain ⟨same, events⟩ := readTty_frame buf t
    show Typing (h ++ (t.readTty buf).2) (t.readTty buf).1
    rw [same]
    exact typing.aside rfl rfl fun e member => Or.inl (events e member)
  | parser => exact typing.parser
  | process nb_samples ret sent received =>
    unfold Terminal.step
    dsimp only
    split
    · obtain ⟨same, events⟩ := sendData_frame sent t
      have cells : (t.sendData sent).1.at_line = t.at_line := by rw [same]
      have ptr : (t.sendData sent).1.at_line_ptr = t.at_line_ptr := by rw [same]
      exact typing.aside cells ptr fun e member => Or.inr (events e member)
    · exact typing.aside rfl rfl (fun e member => by cases member)
  | written n => exact typing.aside rfl rfl (fun e member => by cases member)

theorem typing_run (cfg : AtConfig) (at_line : Int → BitVec 8) (inputs : List AtInput) :
    Typing (feed (Terminal.step cfg) inputs [] (terminal_init at_line)).1
      (feed (Terminal.step cfg) inputs [] (terminal_init at_line)).2 :=
  (runs_feed (Terminal.step cfg) inputs (terminal_init at_line)).invariant (.init at_line)
    fun input typing _ => typing.step input

end Runs

/-- The buffers of the parser and of the modem are large enough. -/
structure StorageBounded (h : List AtEvent) (t : Terminal) : Prop where
  ptr : 0 ≤ t.at_line_ptr ∧ t.at_line_ptr ≤ 255
  stored : ∀ i : Int, .stored i ∈ h → 0 ≤ i ∧ i < AT_LINE_SIZE
  /-- A number and its terminating zero. -/
  dialled : ∀ number ∈ dials h, number.length + 1 ≤ CALL_NUM_SIZE

/-- Whatever comes from the terminal, and however the calls of the parser and of the modem follow
each other, the line stays in its buffer.  The numbers dialled fit theirs exactly if no line typed
has more than 63 characters to dial. -/
theorem at_storage_iff (cfg : AtConfig) (at_line : Int → BitVec 8) (inputs : List AtInput) :
    let run := feed (Terminal.step cfg) inputs [] (terminal_init at_line)
    StorageBounded run.1 run.2 ↔
      ∀ line ∈ (typed (parsedBytes run.1)).1, ∀ number, dialNumber? line = some number →
        number.length ≤ 63 := by
  intro run
  have typing : Typing run.1 run.2 := typing_run cfg at_line inputs
  constructor
  · intro bounded line member number dial
    have dialled : number ∈ dials run.1 := by
      rw [typing.dialled]
      exact List.mem_filterMap.mpr ⟨line, member, dial⟩
    exact Nat.le_of_succ_le_succ (bounded.dialled number dialled)
  · intro fits
    refine ⟨?_, typing.stored, ?_⟩
    · have short := typing.line.short
      rw [typing.line.ptr]
      unfold AT_LINE_SIZE at short
      omega
    · intro number dialled
      rw [typing.dialled] at dialled
      obtain ⟨line, member, dial⟩ := List.mem_filterMap.mp dialled
      exact Nat.succ_le_succ (fits line member number dial)

/-- `ATD` and 64 digits. -/
theorem long_number : ¬ StorageBounded
    (feed (Terminal.step ⟨default_lm_config, false⟩)
      [.tty (ascii "ATD" ++ List.replicate 64 0x31 ++ [0x0d]), .parser] [] (terminal_init 0)).1
    (feed (Terminal.step ⟨default_lm_config, false⟩)
      [.tty (ascii "ATD" ++ List.replicate 64 0x31 ++ [0x0d]), .parser] [] (terminal_init 0)).2 := by
  intro bounded
  have fits : (List.replicate 64 (0x31 : BitVec 8)).length + 1 ≤ CALL_NUM_SIZE := by
    apply bounded.dialled
    decide +kernel
  revert fits
  decide

end QFax.Linmodem

import QFax.Extmodem.Hdlc

/-!
# Packet modem: the encoder

A zero is sent as a change of the symbol and a one as no change, least significant bit first.  Flags go
before and behind a packet; its octets and its check are stuffed.  The samples of a symbol are left to
the synthesizer: here a transmission is the list of its symbols.
-/

namespace QFax.Extmodem

open Bits BitStuffing Octets

/-- `tx_last_symbol` is true for one; `out` lists the symbols passed to `generateSymbolSamples`. -/
structure encoder_af1200stj where
  tx_last_symbol : Bool
  tx_stuff_count : Nat
  out : List Bool

def generateSymbolSamples (symbol : Bool) (e : encoder_af1200stj) : encoder_af1200stj :=
  { e with out := e.out ++ [symbol] }

/-- The body of the loop of `byteToSymbols`. -/
def bitToSymbols (stuff : Bool) (e : encoder_af1200stj) (bit : Bool) : encoder_af1200stj :=
  if bit = false then
    let symbol := if e.tx_last_symbol = false then true else false
    { generateSymbolSamples symbol e with
      tx_stuff_count := if stuff then 0 else e.tx_stuff_count
      tx_last_symbol := symbol }
  else
    let symbol := if e.tx_last_symbol = false then false else true
    let e : encoder_af1200stj := { generateSymbolSamples symbol e with
      tx_stuff_count := if stuff then e.tx_stuff_count + 1 else e.tx_stuff_count
      tx_last_symbol := symbol }
    if stuff ∧ e.tx_stuff_count = 5 then
      -- send a zero
      let symbol := if e.tx_last_symbol = false then true else false
      { generateSymbolSamples symbol e with tx_stuff_count := 0, tx_last_symbol := symbol }
    else e

/-- The turns of the loop of `byteToSymbols` that are left. -/
def byteToSymbolsLoop (stuff : Bool) : Nat → Nat → encoder_af1200stj → encoder_af1200stj
  | 0, _, e => e
  | n + 1, bits, e => byteToSymbolsLoop stuff n (bits >>> 1) (bitToSymbols stuff e (bits % 2 == 1))

def byteToSymbols (bits : Nat) (stuff : Bool) (e : encoder_af1200stj) : encoder_af1200stj :=
  byteToSymbolsLoop stuff 8 bits e

/-- The flags that a delay of some milliseconds leaves room for. -/
def flagCount (delay : Nat) : Nat := delay * 1200 / (1000 * 8)

def sendFlags (n : Nat) (e : encoder_af1200stj) : encoder_af1200stj :=
  (List.replicate n 0x7e).foldl (fun e flag => byteToSymbols flag false e) e

/-- The symbols of a packet between its preamble and its tail. -/
def transmission (tx_delay tx_tail : Nat) (data : List UInt8) : List Bool :=
  let e := sendFlags (flagCount tx_delay) ⟨false, 0, []⟩
  let e := data.foldl (fun e b => byteToSymbols b.toNat true e) e
  let crc := calc_crc_ccitt data
  let e := byteToSymbols (crc &&& 0xff#32).toNat true e
  let e := byteToSymbols ((crc >>> 8) &&& 0xff#32).toNat true e
  (sendFlags (flagCount tx_tail) e).out

/-- `encoder_af1200stj::send`: the buffers waiting for the sound card.  A packet is dropped when more
than five are waiting. -/
def send (tx_delay tx_tail : Nat) (out_queue : List (List Bool)) (fp : Frame) : List (List Bool) :=
  if 5 < out_queue.length then out_queue else out_queue ++ [transmission tx_delay tx_tail fp.data]

/-! ## The bits of a transmission -/

/-- The symbols of a bit string behind a symbol. -/
def symbols : Bool → List Bool → List Bool
  | _, [] => []
  | last, true :: bits => last :: symbols last bits
  | last, false :: bits => (!last) :: symbols (!last) bits

/-- The symbol behind a bit string. -/
def lastSymbol : Bool → List Bool → Bool
  | last, [] => last
  | last, true :: bits => lastSymbol last bits
  | last, false :: bits => lastSymbol (!last) bits

theorem symbols_append (last : Bool) (as bs : List Bool) :
    symbols last (as ++ bs) = symbols last as ++ symbols (lastSymbol last as) bs := by
  induction as generalizing last with
  | nil => rfl
  | cons a as ih =>
    cases a
    · exact congrArg ((!last) :: ·) (ih (!last))
    · exact congrArg (last :: ·) (ih last)

theorem lastSymbol_append (last : Bool) (as bs : List Bool) :
    lastSymbol last (as ++ bs) = lastSymbol (lastSymbol last as) bs := by
  induction as generalizing last with
  | nil => rfl
  | cons a as ih =>
    cases a
    · exact ih (!last)
    · exact ih last

/-- The encoder behind some bits that are sent as they are. -/
def encoder_af1200stj.sent (e : encoder_af1200stj) (bits : List Bool) (count : Nat) : encoder_af1200stj :=
  ⟨lastSymbol e.tx_last_symbol bits, count, e.out ++ symbols e.tx_last_symbol bits⟩

theorem sent_sent (e : encoder_af1200stj) (as bs : List Bool) (m n : Nat) :
    (e.sent as m).sent bs n = e.sent (as ++ bs) n := by
  show encoder_af1200stj.mk _ _ _ = encoder_af1200stj.mk _ _ _
  rw [lastSymbol_append, symbols_append, ← List.append_assoc]
  rfl

theorem bitToSymbols_plain (e : encoder_af1200stj) (bit : Bool) :
    bitToSymbols false e bit = e.sent [bit] e.tx_stuff_count := by
  cases e with | mk last count out =>
  cases bit <;> cases last <;> rfl

/-- A stuffed bit, and the zero behind five ones. -/
theorem bitToSymbols_stuffed (e : encoder_af1200stj) (bit : Bool) :
    bitToSymbols true e bit =
      e.sent (stuff 5 e.tx_stuff_count [bit]) (run e.tx_stuff_count (stuff 5 e.tx_stuff_count [bit])) := by
  cases e with | mk last count out =>
  cases bit
  · cases last <;> rfl
  · rw [stuff]
    by_cases five : count + 1 = 5
    · obtain rfl : count = 4 := Nat.succ.inj five
      have twice (x y : Bool) : out ++ [x] ++ [y] = out ++ [x, y] := List.append_assoc out [x] [y]
      cases last
      · exact congrArg (encoder_af1200stj.mk true 0) (twice false true)
      · exact congrArg (encoder_af1200stj.mk false 0) (twice true false)
    · rw [if_neg five]
      have open' : ¬ (true = true ∧ count + 1 = 5) := fun both => five both.2
      cases last
      · exact if_neg open'
      · exact if_neg open'

theorem byteToSymbolsLoop_eq (stuff : Bool) (n bits : Nat) (e : encoder_af1200stj) :
    byteToSymbolsLoop stuff n bits e = (lowBits n bits).foldl (bitToSymbols stuff) e := by
  induction n generalizing bits e with
  | zero => rfl
  | succ n ih =>
    have first : lowBits (n + 1) bits = (bits % 2 == 1) :: lowBits n ((bits >>> 1 : Nat) : Int) := by
      rw [lowBits_natCast, lowBits_natCast, List.range_succ_eq_map, List.map_cons, List.map_map]
      refine congrArg₂ List.cons (Nat.testBit_zero bits) (List.map_congr_left fun i _ => ?_)
      rw [Function.comp_apply, Nat.succ_eq_add_one, Nat.testBit_succ, Nat.shiftRight_one]
    rw [byteToSymbolsLoop, ih, first, List.foldl_cons]

/-- Bits that are sent as they are. -/
theorem foldl_plain (bits : List Bool) (e : encoder_af1200stj) :
    bits.foldl (bitToSymbols false) e = e.sent bits e.tx_stuff_count := by
  induction bits generalizing e with
  | nil => exact congrArg (encoder_af1200stj.mk _ _) (List.append_nil e.out).symm
  | cons b bits ih => rw [List.foldl_cons, bitToSymbols_plain, ih, sent_sent]; rfl

/-- Bits that are stuffed. -/
theorem foldl_stuffed (bits : List Bool) (e : encoder_af1200stj) :
    bits.foldl (bitToSymbols true) e =
      e.sent (stuff 5 e.tx_stuff_count bits) (run e.tx_stuff_count (stuff 5 e.tx_stuff_count bits)) := by
  induction bits generalizing e with
  | nil => exact congrArg (encoder_af1200stj.mk _ _) (List.append_nil e.out).symm
  | cons b bits ih =>
    have split := stuff_append 5 e.tx_stuff_count [b] bits
    rw [List.foldl_cons, bitToSymbols_stuffed, ih, sent_sent]
    have count : (e.sent (stuff 5 e.tx_stuff_count [b])
        (run e.tx_stuff_count (stuff 5 e.tx_stuff_count [b]))).tx_stuff_count =
          run e.tx_stuff_count (stuff 5 e.tx_stuff_count [b]) := rfl
    rw [count, ← run_append, ← split]
    rfl

/-- The octets of a packet and its check. -/
def checkedPacket (data : List UInt8) : List UInt8 := data ++ crcBytes (calc_crc_ccitt data)

/-- Some flags. -/
def flagBits (n : Nat) : List Bool := bitsOf (List.replicate n 0x7e)

theorem flagBits_succ (n : Nat) : flagBits (n + 1) = octetBits 0x7e ++ flagBits n := rfl

theorem sendFlags_eq (n : Nat) (e : encoder_af1200stj) :
    sendFlags n e = e.sent (flagBits n) e.tx_stuff_count := by
  induction n generalizing e with
  | zero => exact congrArg (encoder_af1200stj.mk _ _) (List.append_nil e.out).symm
  | succ n ih =>
    have first : sendFlags (n + 1) e = sendFlags n (byteToSymbols 0x7e false e) := rfl
    rw [first, ih, byteToSymbols, byteToSymbolsLoop_eq, foldl_plain, sent_sent]
    rfl

theorem byteToSymbols_stuffed (b : UInt8) (e : encoder_af1200stj) :
    byteToSymbols b.toNat true e = (octetBits b).foldl (bitToSymbols true) e :=
  byteToSymbolsLoop_eq true 8 b.toNat e

/-- The octets of a packet are stuffed as one string. -/
theorem foldl_octets (bytes : List UInt8) (e : encoder_af1200stj) :
    bytes.foldl (fun e b => byteToSymbols b.toNat true e) e = (bitsOf bytes).foldl (bitToSymbols true) e := by
  induction bytes generalizing e with
  | nil => rfl
  | cons b bytes ih => rw [List.foldl_cons, ih, byteToSymbols_stuffed, bitsOf_cons, List.foldl_append]

/-- The bits between preamble and tail. -/
def packetBits (data : List UInt8) : List Bool := stuff 5 0 (bitsOf (checkedPacket data))

/-- A transmission is made of flags, the stuffed packet, and flags. -/
theorem transmission_eq (tx_delay tx_tail : Nat) (data : List UInt8) :
    transmission tx_delay tx_tail data =
      symbols false (flagBits (flagCount tx_delay) ++ packetBits data ++ flagBits (flagCount tx_tail)) := by
  have octet (crc : BitVec 32) : (crc &&& 0xff#32).toNat = (UInt8.ofNat (crc &&& 0xff#32).toNat).toNat := by
    have small : (crc &&& 0xff#32).toNat ≤ 0xff := by
      rw [BitVec.toNat_and]
      exact Nat.and_le_right
    rw [UInt8.toNat_ofNat', Nat.mod_eq_of_lt (by omega)]
  have packet : ∀ e : encoder_af1200stj, e.tx_stuff_count = 0 →
      byteToSymbols ((calc_crc_ccitt data >>> 8) &&& 0xff#32).toNat true
        (byteToSymbols (calc_crc_ccitt data &&& 0xff#32).toNat true
          (data.foldl (fun e b => byteToSymbols b.toNat true e) e)) =
        e.sent (packetBits data) (run 0 (packetBits data)) := by
    intro e fresh
    have whole := foldl_octets (checkedPacket data) e
    rw [foldl_stuffed, fresh, checkedPacket, crcBytes, List.foldl_append, List.foldl_cons, List.foldl_cons,
      List.foldl_nil, ← octet, ← octet] at whole
    exact whole
  have preamble := sendFlags_eq (flagCount tx_delay) ⟨false, 0, []⟩
  have whole := packet _ (congrArg encoder_af1200stj.tx_stuff_count preamble)
  show (sendFlags (flagCount tx_tail) _).out = _
  rw [whole, preamble, sendFlags_eq, sent_sent, sent_sent, ← List.append_assoc]
  rfl

end QFax.Extmodem

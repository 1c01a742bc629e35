import QFax.Lib.Machine
import QFax.Linmodem.Lm
import Mathlib.Data.BitVec

/-!
# Asynchronous serial line

`serial_get_bit` puts a start bit, the data bits, a parity bit and a stop bit around each byte of
the transmit queue, and idles with ones.  `serial_put_bit` looks for words in a window over the last
bits; the counter keeps it from finding one that overlaps the word before.
-/

namespace QFax.Linmodem

/-- What `serial_init` sets up; `serial_parity` is set for odd parity. -/
structure SerialParams where
  serial_data_bits : Nat
  serial_use_parity : Bool
  serial_parity : Bool
  range : 5 ≤ serial_data_bits ∧ serial_data_bits ≤ 8

/-- Start bit, data bits, parity bit and stop bit. -/
def SerialParams.serial_wordsize (p : SerialParams) : Nat :=
  p.serial_data_bits + 2 + p.serial_use_parity.toNat

/-- Init the serial encoder & decoder. 5 <= data_bits <= 8 and parity can be 'E', 'O', or 'N' -/
def serial_init (data_bits : Nat) (parity : Char) (range : 5 ≤ data_bits ∧ data_bits ≤ 8) :
    SerialParams :=
  ⟨data_bits, parity = 'E' ∨ parity = 'O', parity = 'O', range⟩

structure SerialTx where
  tx_fifo : SmFifo (BitVec 8)
  serial_tx_buf : BitVec 32
  serial_tx_cnt : Nat

structure SerialRx where
  serial_buf : BitVec 32
  serial_cnt : Nat

/-- `for (j = 0; j < n; j++) p ^= (data >> j) & 1` -/
def parityOver (p : Bool) (bit : Nat → Bool) (n : Nat) : Bool :=
  (List.range n).foldl (fun p j => p ^^ bit j) p

section Params

variable (p : SerialParams)

/-- The word of a byte, its first bit highest. -/
def txWord (data : BitVec 8) : BitVec 32 :=
  if p.serial_use_parity then
    let parity := parityOver p.serial_parity data.getLsbD p.serial_data_bits
    (data.setWidth 32 <<< 2) ||| ((BitVec.ofBool parity).setWidth 32 <<< 1) ||| 1#32
  else (data.setWidth 32 <<< 1) ||| 1#32

/-- The next bit of the word being sent. -/
def nextBit (s : SerialTx) : Bool × SerialTx :=
  (s.serial_tx_buf.getLsbD (s.serial_tx_cnt - 1), { s with serial_tx_cnt := s.serial_tx_cnt - 1 })

/-- Return a bit from the tx fifo with serial encoding. -/
def serial_get_bit (s : SerialTx) : Bool × SerialTx :=
  if s.serial_tx_cnt = 0 then
    match sm_get_bit s.tx_fifo with
    | (none, _) => (true, s)
    | (some data, tx_fifo) => nextBit ⟨tx_fifo, txWord p data, p.serial_wordsize⟩
  else nextBit s

/-- Decode a serial stream: the value put in the rx fifo, if a word is complete. -/
def serial_put_bit (bit : Bool) (s : SerialRx) : Option (BitVec 8) × SerialRx :=
  let serial_buf := (s.serial_buf <<< 1) ||| (BitVec.ofBool bit).setWidth 32
  if p.serial_wordsize - 1 ≤ s.serial_cnt then
    let mask := 1#32 ||| (1#32 <<< (p.serial_wordsize - 1))
    if serial_buf &&& mask = 1#32 then
      let data := (serial_buf &&& ((1#32 <<< p.serial_wordsize) - 1#32)) >>> 1
      let put :=
        if p.serial_use_parity then
          if parityOver p.serial_parity data.getLsbD (p.serial_data_bits + 1) then none
          else some ((data >>> 1).setWidth 8)
        else some (data.setWidth 8)
      (put, ⟨serial_buf, 0⟩)
    else (none, ⟨serial_buf, s.serial_cnt⟩)
  else (none, ⟨serial_buf, s.serial_cnt + 1⟩)

end Params

/-! ## Words -/

section Word

variable {p : SerialParams}

theorem wordsize_range (p : SerialParams) : 7 ≤ p.serial_wordsize ∧ p.serial_wordsize ≤ 11 := by
  have range := p.range
  have parity := p.serial_use_parity.toNat_le
  simp only [SerialParams.serial_wordsize]
  omega

theorem parityOver_succ (x : Bool) (bit : Nat → Bool) (n : Nat) :
    parityOver x bit (n + 1) = parityOver (x ^^ bit 0) (fun j => bit (j + 1)) n := by
  simp [parityOver, List.range_succ_eq_map, List.foldl_map]

theorem parityOver_congr {x : Bool} {bit bit' : Nat → Bool} {n : Nat}
    (same : ∀ j < n, bit j = bit' j) : parityOver x bit n = parityOver x bit' n := by
  induction n generalizing x bit bit' with
  | zero => rfl
  | succ n ih =>
    rw [parityOver_succ, parityOver_succ, same 0 (Nat.succ_pos n)]
    exact ih fun j lt => same (j + 1) (Nat.succ_lt_succ lt)

theorem parityOver_xor (x y : Bool) (bit : Nat → Bool) (n : Nat) :
    parityOver (x ^^ y) bit n = (y ^^ parityOver x bit n) := by
  induction n generalizing x bit with
  | zero => exact Bool.xor_comm x y
  | succ n ih =>
    rw [parityOver_succ, parityOver_succ, Bool.xor_assoc, Bool.xor_comm y, ← Bool.xor_assoc, ih]

theorem one_bit (j : Nat) : (1#32).getLsbD j = decide (j = 0) := by
  rw [BitVec.getLsbD_one]
  simp

theorem ofBool_bit (b : Bool) (j : Nat) :
    ((BitVec.ofBool b).setWidth 32).getLsbD j = (decide (j = 0) && b) := by
  rw [BitVec.getLsbD_setWidth, BitVec.getLsbD_ofBool]
  cases j <;> simp

/-- The bits of a word, from the stop bit up. -/
theorem txWord_bit (p : SerialParams) (data : BitVec 8) {j : Nat} (inside : j < 32) :
    (txWord p data).getLsbD j =
      if j = 0 then true
      else if p.serial_use_parity then
        if j = 1 then parityOver p.serial_parity data.getLsbD p.serial_data_bits
        else data.getLsbD (j - 2)
      else data.getLsbD (j - 1) := by
  unfold txWord
  cases p.serial_use_parity
  · simp only [Bool.false_eq_true, if_false, BitVec.getLsbD_or, BitVec.getLsbD_shiftLeft,
      BitVec.getLsbD_setWidth, one_bit]
    rcases j with - | j
    · simp
    · simp [show j < 32 by omega, inside]
  · simp only [if_true, BitVec.getLsbD_or, BitVec.getLsbD_shiftLeft, BitVec.getLsbD_setWidth,
      one_bit]
    rcases j with - | - | j
    · simp
    · simp
    · simp [show j < 32 by omega, inside]

/-- The start bit is the bit above the data bits. -/
theorem txWord_start (data : BitVec 8) :
    (txWord p data).getLsbD (p.serial_wordsize - 1) = data.getLsbD p.serial_data_bits := by
  have range := p.range
  have size := wordsize_range p
  rw [txWord_bit p data (by omega), if_neg (by omega)]
  cases parity : p.serial_use_parity
  · simp [SerialParams.serial_wordsize, parity]
  · simp [SerialParams.serial_wordsize, parity]

/-! ## Windows -/

section Window

variable (p : SerialParams) (bit : Bool) (s : SerialRx)

/-- The window once a bit has come in. -/
def window : BitVec 32 := (s.serial_buf <<< 1) ||| (BitVec.ofBool bit).setWidth 32

theorem window_zero : (window bit s).getLsbD 0 = bit := by
  simp [window]

theorem window_succ {i : Nat} (inside : i + 1 < 32) :
    (window bit s).getLsbD (i + 1) = s.serial_buf.getLsbD i := by
  simp only [window, BitVec.getLsbD_or, BitVec.getLsbD_shiftLeft, ofBool_bit]
  simp [inside]

/-- A window is a word when its first bit is zero and its last one is one. -/
theorem window_mask (x : BitVec 32) :
    x &&& (1#32 ||| (1#32 <<< (p.serial_wordsize - 1))) = 1#32 ↔
      x.getLsbD 0 = true ∧ x.getLsbD (p.serial_wordsize - 1) = false := by
  have size := wordsize_range p
  have bits : ∀ j < 32, (x &&& (1#32 ||| (1#32 <<< (p.serial_wordsize - 1)))).getLsbD j =
      (x.getLsbD j && (decide (j = 0) || decide (j = p.serial_wordsize - 1))) := by
    intro j inside
    simp only [BitVec.getLsbD_and, BitVec.getLsbD_or, BitVec.getLsbD_shiftLeft, one_bit]
    congr 2
    by_cases same : j = p.serial_wordsize - 1
    · simp [same]
      omega
    · simp [same]
      omega
  constructor
  · intro equal
    have low := bits 0 (by decide)
    have high := bits (p.serial_wordsize - 1) (by omega)
    rw [equal, one_bit] at low high
    constructor
    · simpa using low.symm
    · simpa [show p.serial_wordsize - 1 ≠ 0 by omega] using high.symm
  · rintro ⟨low, high⟩
    refine BitVec.eq_of_getLsbD_eq fun j inside => ?_
    rw [bits j inside, one_bit]
    by_cases zero : j = 0
    · simp [zero, low]
    · by_cases top : j = p.serial_wordsize - 1
      · simp [top, high]
        omega
      · simp [zero, top]

variable {p bit s}

/-- No word starts with a one. -/
theorem serial_put_bit_none (high : (window bit s).getLsbD (p.serial_wordsize - 1) = true) :
    serial_put_bit p bit s = (none, ⟨window bit s,
      if p.serial_wordsize - 1 ≤ s.serial_cnt then s.serial_cnt else s.serial_cnt + 1⟩) := by
  have other : ¬ window bit s &&& (1#32 ||| (1#32 <<< (p.serial_wordsize - 1))) = 1#32 := by
    rw [window_mask, high]
    exact nofun
  unfold serial_put_bit
  rw [← window]
  simp only [if_neg other]
  split <;> rfl

/-- While the counter runs nothing is looked for. -/
theorem serial_put_bit_early (early : s.serial_cnt < p.serial_wordsize - 1) :
    serial_put_bit p bit s = (none, ⟨window bit s, s.serial_cnt + 1⟩) :=
  if_neg (Nat.not_le.mpr early)

/-- The low data bits of a byte. -/
def lowData (p : SerialParams) (data : BitVec 8) : BitVec 8 :=
  data &&& BitVec.ofNat 8 (2 ^ p.serial_data_bits - 1)

theorem lowData_bit (data : BitVec 8) {j : Nat} (inside : j < 8) :
    (lowData p data).getLsbD j = (data.getLsbD j && decide (j < p.serial_data_bits)) := by
  rw [lowData, BitVec.getLsbD_and, BitVec.getLsbD_ofNat, Nat.testBit_two_pow_sub_one]
  simp [inside]

theorem lowMask_bit {n j : Nat} (short : n < 12) (inside : j < 32) :
    ((1#32 <<< n) - 1#32).getLsbD j = decide (j < n) := by
  have table : ∀ n : Fin 12, ∀ j : Fin 32,
      ((1#32 <<< n.val) - 1#32).getLsbD j = decide (j.val < n.val) := by decide +kernel
  exact table ⟨n, short⟩ ⟨j, inside⟩

/-- A window that holds the word of a byte gives the byte's data bits. -/
theorem serial_put_bit_word {data : BitVec 8} (ready : p.serial_wordsize - 1 ≤ s.serial_cnt)
    (whole : ∀ i < p.serial_wordsize, (window bit s).getLsbD i = (txWord p data).getLsbD i)
    (start : data.getLsbD p.serial_data_bits = false) :
    serial_put_bit p bit s = (some (lowData p data), ⟨window bit s, 0⟩) := by
  have size := wordsize_range p
  have range := p.range
  have found : window bit s &&& (1#32 ||| (1#32 <<< (p.serial_wordsize - 1))) = 1#32 := by
    rw [window_mask, whole 0 (by omega), whole _ (by omega), txWord_start, start,
      txWord_bit p data (by omega)]
    exact ⟨rfl, rfl⟩
  -- the word without its stop bit
  have body : ∀ j, ((window bit s &&& ((1#32 <<< p.serial_wordsize) - 1#32)) >>> 1).getLsbD j =
      (decide (j + 1 < p.serial_wordsize) && (txWord p data).getLsbD (j + 1)) := by
    intro j
    rw [BitVec.getLsbD_ushiftRight, BitVec.getLsbD_and, Nat.add_comm 1]
    rcases Nat.lt_or_ge (j + 1) 32 with inside | beyond
    · rw [lowMask_bit (by omega) inside, Bool.and_comm]
      by_cases within : j + 1 < p.serial_wordsize
      · rw [whole _ within]
      · simp [within]
    · rw [BitVec.getLsbD_of_ge _ _ beyond, decide_eq_false (by omega)]
      rfl
  unfold serial_put_bit
  rw [← window]
  simp only [if_pos ready, if_pos found]
  generalize (window bit s &&& ((1#32 <<< p.serial_wordsize) - 1#32)) >>> 1 = word at body
  refine Prod.ext ?_ rfl
  -- the bit above the data bits is the start bit
  have cut : ∀ j, (decide (j < p.serial_data_bits + 1) && data.getLsbD j) =
      (data.getLsbD j && decide (j < p.serial_data_bits)) := by
    intro j
    rcases Nat.lt_trichotomy j p.serial_data_bits with below | same | above
    · rw [decide_eq_true (by omega), decide_eq_true below, Bool.true_and, Bool.and_true]
    · rw [same, start, Bool.and_false, Bool.false_and]
    · rw [decide_eq_false (by omega), decide_eq_false (by omega), Bool.and_false, Bool.false_and]
  cases parity : p.serial_use_parity
  · have wordsize : p.serial_wordsize = p.serial_data_bits + 2 := by
      simp [SerialParams.serial_wordsize, parity]
    have bits : ∀ j < 8, (word.setWidth 8).getLsbD j = (lowData p data).getLsbD j := by
      intro j inside
      rw [BitVec.getLsbD_setWidth, decide_eq_true inside, Bool.true_and, body,
        lowData_bit data inside, ← cut, txWord_bit p data (by omega), wordsize]
      simp [parity]
    simp only [Bool.false_eq_true, if_false]
    exact congrArg some (BitVec.eq_of_getLsbD_eq bits)
  · have wordsize : p.serial_wordsize = p.serial_data_bits + 3 := by
      simp [SerialParams.serial_wordsize, parity]
    have even : parityOver p.serial_parity word.getLsbD (p.serial_data_bits + 1) = false := by
      have dataBits : ∀ j < p.serial_data_bits, word.getLsbD (j + 1) = data.getLsbD j := by
        intro j inside
        rw [body, txWord_bit p data (by omega), decide_eq_true (by omega)]
        simp [parity]
      rw [parityOver_succ, parityOver_congr dataBits, body, txWord_bit p data (by decide),
        parityOver_xor, decide_eq_true (by omega)]
      simp [parity]
    have bits : ∀ j < 8, ((word >>> 1).setWidth 8).getLsbD j = (lowData p data).getLsbD j := by
      intro j inside
      rw [BitVec.getLsbD_setWidth, decide_eq_true inside, Bool.true_and,
        BitVec.getLsbD_ushiftRight, body, lowData_bit data inside, ← cut,
        txWord_bit p data (by omega), wordsize, show 1 + j + 1 = j + 2 by omega]
      simp [parity]
    simp only [if_true, even, Bool.false_eq_true, if_false]
    exact congrArg some (BitVec.eq_of_getLsbD_eq bits)

end Window

end Word

end QFax.Linmodem

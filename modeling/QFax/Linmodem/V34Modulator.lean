import Mathlib.Data.Nat.Sqrt
import QFax.Linmodem.CpPacket
import QFax.Linmodem.TxQueue

/-!
# The V.34 modulator

`V34_mod` modulates the symbols of the queue, and when they run out goes to the next phase of the
start-up, which queues a sequence of its own.  A phase can queue 1024 symbols at once, and some queue
none.  From `V34_mod_init` on, the queue never overflows and every call gives the samples asked for
(`transmit_queue_safe`).
-/

namespace QFax.Linmodem

open Machine

/-- The states of the transmitter, in the order of the source. -/
inductive TxState
  | startup3_S1
  | startup3_SINV1
  | startup3_S2
  | startup3_SINV2
  | startup3_PP
  | startup3_TRN
  | startup3_J
  | startup3_JP
  | startup3_WAIT_J
  | startup4_S
  | startup4_WAIT_JP
  | startup4_SINV
  | startup4_TRN
  | startup4_MP
  | startup4_MPP
  | startup4_E
  | data
  deriving DecidableEq

/-- What the modulator is given: the parameters of the connection, the source of its bits, and what is
computed in floating point. -/
structure TxSetup (σ : Type) where
  p : V34State
  rc_filter : Fin 6 → Nat → Int
  carrier_incr : BitVec 32
  cos_tab : CosTab
  tabPP : Nat → Point
  callback : σ → Option Bool × σ
  stale : Nat → Nat
  non_linear : Point → Point

namespace TxSetup

variable {σ : Type} (k : TxSetup σ)

def params : V34Params := V34_init_low k.p

def filter : TxFilter := ⟨k.p.S, k.rc_filter, k.carrier_incr, k.cos_tab⟩

def poly : BitVec 23 := if k.p.calling then V34_GPC else V34_GPA

end TxSetup

/-- The fields of `V34DSPState` that `V34_mod` uses. -/
structure V34Modulator (σ : Type) where
  state : TxState
  queue : TxQueue
  tx_amp : Int
  encoder : Encoder σ
  is_16states : Bool
  J_received : Bool
  JP_received : Bool

/-! ## The sequences of the start-up -/

def S_POWER : Nat := 2
def TRN4_POWER : Nat := 2
def TRN16_POWER : Nat := 10

/-- The normalized amplitude `128 * 128 / sqrt(x)`, without its fraction. -/
def CALC_AMP (x : Nat) : Int := Nat.sqrt ((128 * 128) ^ 2 / x)

def V34_PP_SIZE : Nat := 48

/-- Divide several bits by `poly`. -/
def scramble_bits (poly : BitVec 23) : BitVec 23 → List Bool → List Bool × BitVec 23
  | reg, [] => ([], reg)
  | reg, b :: bits =>
    let (b1, reg) := scramble_bit reg b poly
    let (rest, reg) := scramble_bits poly reg bits
    (b1 :: rest, reg)

/-- Bits of a symbol: `I1` and `I2`, and with 16 states `Q1` and `Q2`. -/
def symbolBits (is_16states : Bool) : Nat := if is_16states then 4 else 2

/-- The quarter turns and the point of each of `n` symbols. -/
def trainingFields (is_16states : Bool) (bits : List Bool) (n : Nat) : List (Nat × Nat) :=
  (List.range n).map fun i =>
    let bit := fun j => (bits.getD (symbolBits is_16states * i + j) false).toNat
    (2 * bit 1 + bit 0, if is_16states then 2 * bit 3 + bit 2 else 0)

/-- Each symbol is turned from the one before it. -/
def differential : Nat → List (Nat × Nat) → List (Nat × Nat)
  | _, [] => []
  | z, (turns, q) :: rest => ((turns + z) % 4, q) :: differential ((turns + z) % 4) rest

def trainingPoint (field : Nat × Nat) : Point :=
  let (x, y) := constellation.getD field.2 (0, 0)
  rotate_clockwise (x <<< (7 : Nat), y <<< (7 : Nat)) field.1

/-- What `put_bits` writes for an MP sequence. -/
def mpBits (h : Fin 3 → Int × Int) (type : Nat) (do_ack : Bool) : List Bool :=
  let body := put_bits 1 0 ++ put_bits 1 type ++ put_bits 1 0 ++ put_bits 4 12 ++ put_bits 4 12 ++
    put_bits 1 0 ++ put_bits 2 0 ++ put_bits 1 0 ++ put_bits 1 0 ++ put_bits 1 do_ack.toNat ++
    -- all rates up to 28800, asymmetric rates
    put_bits 1 0 ++ put_bits 15 0x7ff8 ++ put_bits 1 1 ++
    (if type = 1 then (List.finRange 3).flatMap fun i =>
      put_bits 1 0 ++ put_bits 16 (h i).1 ++ put_bits 1 0 ++ put_bits 16 (h i).2 else []) ++
    put_bits 1 0 ++ put_bits 16 0 ++ put_bits 1 0
  put_bits 17 0x1ffff ++ body ++ put_bits 16 (calc_crc body).toNat ++ put_bits 1 0 ++
    if type = 0 then put_bits 2 0 else []

def J4POINTS : Int := 0x0991
def J16POINTS : Int := 0x0d91
def JEND : Int := 0xf991

namespace V34Modulator

variable {σ : Type} (k : TxSetup σ) (m : V34Modulator σ)

/-- Set the amplitude and put the symbols of a sequence in the queue. -/
def send (tx_amp : Int) (symbols : List Point) : Option (List TxEvent × V34Modulator σ) := do
  let (es, queue) ← put_syms tx_amp m.queue symbols
  some (es, { m with tx_amp := tx_amp, queue := queue })

/-- Duration: 128 T. -/
def V34_send_S : Option (List TxEvent × V34Modulator σ) :=
  m.send (CALC_AMP S_POWER) (List.replicate 64 [(128, 128), (-128, 128)]).flatten

/-- Duration: 16 T. -/
def V34_send_Sinv : Option (List TxEvent × V34Modulator σ) :=
  m.send (CALC_AMP S_POWER) (List.replicate 8 [(-128, -128), (128, -128)]).flatten

/-- Duration: 288 T, in 6 periods. -/
def V34_send_PP : Option (List TxEvent × V34Modulator σ) :=
  m.send 128 (List.replicate 6 ((List.range V34_PP_SIZE).map k.tabPP)).flatten

/-- The amplitude of the training signal. -/
def trainingAmp (is_16states : Bool) : Int := CALC_AMP (if is_16states then TRN16_POWER else TRN4_POWER)

/-- The scrambler and the last turn behind a sequence. -/
def settle (reg : BitVec 23) (fields : List (Nat × Nat)) : V34Modulator σ :=
  let e := m.encoder
  let Z_1 : Int := (fields.getLast?.map fun field => (field.1 : Int)).getD e.mapper.Z_1
  { m with encoder := { e with
      mapper := { e.mapper with Z_1 := Z_1 }
      bits := { e.bits with scrambler_reg := reg } } }

def V34_send_TRN : Option (List TxEvent × V34Modulator σ) :=
  let (bits, reg) := scramble_bits k.poly m.encoder.bits.scrambler_reg
    (List.replicate (symbolBits m.is_16states * 1024) true)
  let fields := trainingFields m.is_16states bits 1024
  (m.settle reg fields).send (trainingAmp m.is_16states) (fields.map trainingPoint)

/-- Modulate an MP sequence. -/
def V34_mod_MP (buf : List Bool) (is_16states : Bool) : Option (List TxEvent × V34Modulator σ) :=
  let (bits, reg) := scramble_bits k.poly m.encoder.bits.scrambler_reg buf
  let fields := differential m.encoder.mapper.Z_1.toNat
    (trainingFields is_16states bits (buf.length / symbolBits is_16states))
  (m.settle reg fields).send (trainingAmp is_16states) (fields.map trainingPoint)

/-- `type` selects its type (0 or 1); `do_ack` selects if it is an acknowledge sequence. -/
def V34_send_MP (type : Nat) (do_ack : Bool) : Option (List TxEvent × V34Modulator σ) :=
  m.V34_mod_MP k (mpBits k.params.h type do_ack) m.is_16states

def V34_send_E : Option (List TxEvent × V34Modulator σ) :=
  m.V34_mod_MP k (List.replicate 20 true) m.is_16states

/-- The J sequence is modulated with 4 states. -/
def V34_send_J (k : TxSetup σ) : Nat → V34Modulator σ → Option (List TxEvent × V34Modulator σ)
  | 0, m => some ([], m)
  | length + 1, m => do
    let val := if m.is_16states then J16POINTS else J4POINTS
    let (es, m) ← m.V34_mod_MP k (put_bits 16 val) false
    let (later, m) ← V34_send_J k length m
    some (es ++ later, m)

def V34_send_JP : Option (List TxEvent × V34Modulator σ) := m.V34_mod_MP k (put_bits 16 JEND) false

/-- The next 8 baseband symbols of the data. -/
def sendData : Option (List TxEvent × V34Modulator σ) := do
  let frame ← encode_mapping_frame k.params k.callback k.stale m.encoder
  { m with encoder := frame.next }.send m.tx_amp
    (frame.points.flatMap fun point : Emitted × Emitted =>
      [k.non_linear point.1.sent, k.non_linear point.2.sent])

/-! ## The state machine -/

/-- Go on to a state. -/
def enter (state : TxState) (sent : Option (List TxEvent × V34Modulator σ)) :
    Option (List TxEvent × V34Modulator σ) :=
  sent.map fun (es, m) => (es, { m with state := state })

/-- The protocol state machine of `V34_mod`. -/
def startup : Option (List TxEvent × V34Modulator σ) :=
  match m.state with
  -- phase 3
  | .startup3_S1 => enter .startup3_SINV1 m.V34_send_S
  | .startup3_SINV1 => enter .startup3_S2 m.V34_send_Sinv
  | .startup3_S2 => enter .startup3_SINV2 m.V34_send_S
  | .startup3_SINV2 => enter .startup3_PP m.V34_send_Sinv
  | .startup3_PP => enter .startup3_TRN (m.V34_send_PP k)
  -- the line that would go on to J is commented out
  | .startup3_TRN => m.V34_send_TRN k
  | .startup3_J =>
    enter (if k.p.calling then .startup3_JP else .startup3_WAIT_J) (V34_send_J k 10 m)
  | .startup3_JP => enter .startup3_S1 (m.V34_send_JP k)
  | .startup3_WAIT_J => some ([], if m.J_received then { m with state := .startup4_S } else m)
  -- phase 4
  | .startup4_S => enter .startup4_WAIT_JP m.V34_send_S
  | .startup4_WAIT_JP => some ([], if m.JP_received then { m with state := .startup4_SINV } else m)
  | .startup4_SINV => enter .startup4_TRN m.V34_send_S
  | .startup4_TRN => enter .startup4_MP (m.V34_send_TRN k)
  | .startup4_MP => enter .startup4_MPP (m.V34_send_MP k 1 false)
  | .startup4_MPP => enter .startup4_E (m.V34_send_MP k 1 true)
  | .startup4_E => enter .data (m.V34_send_E k)
  | .data => m.sendData k

/-- Samples out of the queue, or silence; the number of those left comes with it. -/
def modulate (nb : Nat) : List TxEvent × V34Modulator σ × Nat :=
  match m.state with
  | .startup3_WAIT_J => if 0 < nb then ([.silence], m, nb - 1) else ([], m, nb)
  | _ =>
    let (es, queue, left) := modulateQueue k.filter nb m.queue nb
    (es, { m with queue := queue }, left)

end V34Modulator

/-- `V34_mod`, with a bound on the turns of its loop. -/
def V34_mod {σ : Type} (k : TxSetup σ) :
    Nat → V34Modulator σ → Nat → Option (List TxEvent × V34Modulator σ)
  | 0, _, _ => none
  | turns + 1, m, nb =>
    let (es, m, left) := m.modulate k nb
    if left = 0 then some (es, m)
    else do
      let (sent, m) ← m.startup k
      let (later, m) ← V34_mod k turns m left
      some (es ++ sent ++ later, m)

/-- `V34_mod_init`, on the memory of an instance. -/
def V34_mod_init {σ : Type} (m : V34Modulator σ) : V34Modulator σ :=
  { m with
    state := .startup3_S1
    queue := build_tx_filter m.queue.tx_buf
    encoder := ⟨⟨0, 0, 0⟩, ⟨0, 0, Nat.zero_lt_two, fun _ => (0, 0), ⟨0, 0, 0⟩⟩,
      ⟨0, m.encoder.bits.input⟩⟩
    JP_received := true
    is_16states := false }

/-- A call of `V34_mod`, with what the receiver has set before it. -/
structure TxCall where
  J_received : Bool
  JP_received : Bool
  nb : Nat

/-- One call after the other, each with the events of its own. -/
def modCalls {σ : Type} (k : TxSetup σ) (turns : Nat) :
    V34Modulator σ → List TxCall → Option (List (List TxEvent) × V34Modulator σ)
  | m, [] => some ([], m)
  | m, call :: calls => do
    let m := { m with J_received := call.J_received, JP_received := call.JP_received }
    let (es, m) ← V34_mod k turns m call.nb
    let (blocks, m) ← modCalls k turns m calls
    some (es :: blocks, m)

section Turns

variable {σ : Type} {k : TxSetup σ} {turns turns' : Nat}

/-- A call that has returned is not changed by a larger bound. -/
theorem mod_mono (more : turns ≤ turns') {m : V34Modulator σ} {nb : Nat}
    {result : List TxEvent × V34Modulator σ} (returned : V34_mod k turns m nb = some result) :
    V34_mod k turns' m nb = some result := by
  induction turns generalizing turns' m nb result with
  | zero => cases returned
  | succ turns ih =>
    obtain ⟨turns', rfl⟩ := Nat.exists_eq_add_of_le' (Nat.le_trans (Nat.le_add_left 1 turns) more)
    rw [V34_mod] at returned ⊢
    generalize m.modulate k nb = modulated at returned ⊢
    obtain ⟨es, m₁, left⟩ := modulated
    dsimp only at returned ⊢
    by_cases done : left = 0
    · rw [if_pos done] at returned ⊢
      exact returned
    · rw [if_neg done, Option.bind_eq_bind, Option.bind_eq_some_iff] at returned
      obtain ⟨⟨sent, m₂⟩, started, returned⟩ := returned
      rw [Option.bind_eq_some_iff] at returned
      obtain ⟨later, rest, returned⟩ := returned
      rw [if_neg done, started]
      show (V34_mod k turns' m₂ left).bind _ = _
      rw [ih (Nat.le_of_succ_le_succ more) rest]
      exact returned

theorem modCalls_mono (more : turns ≤ turns') {m : V34Modulator σ} {calls : List TxCall}
    {result : List (List TxEvent) × V34Modulator σ}
    (returned : modCalls k turns m calls = some result) :
    modCalls k turns' m calls = some result := by
  induction calls generalizing m result with
  | nil => exact returned
  | cons call calls ih =>
    rw [modCalls, Option.bind_eq_bind, Option.bind_eq_some_iff] at returned
    obtain ⟨⟨es, m₁⟩, first, returned⟩ := returned
    dsimp only at returned
    rw [Option.bind_eq_bind, Option.bind_eq_some_iff] at returned
    obtain ⟨blocks, rest, returned⟩ := returned
    rw [modCalls, mod_mono more first]
    show (modCalls k turns' m₁ calls).bind _ = _
    rw [ih rest]
    exact returned

end Turns

/-! ## From the start of the training -/

/-- The states that `V34_mod_init` leads to. -/
inductive Training : TxState → Prop
  | s1 : Training .startup3_S1
  | sinv1 : Training .startup3_SINV1
  | s2 : Training .startup3_S2
  | sinv2 : Training .startup3_SINV2
  | pp : Training .startup3_PP
  | trn : Training .startup3_TRN

/-- The modulator between two turns of its loop: but for the very first, nearly a window of symbols
is in the queue. -/
structure Ready {σ : Type} (m : V34Modulator σ) : Prop where
  training : Training m.state
  bounded : m.queue.tx_buf_size ≤ TX_BUF_SIZE
  filled : m.state = .startup3_S1 ∨ RC_FILTER_SIZE ≤ m.queue.tx_buf_size + 1

section Training

variable {σ : Type} {k : TxSetup σ} {start : TxQueue} {h : List TxEvent} {m : V34Modulator σ}

/-- What a phase of the training leaves: a queue with at least one window in it. -/
def Refilled (k : TxSetup σ) (start : TxQueue) (h : List TxEvent)
    (sent : Option (List TxEvent × V34Modulator σ)) : Prop :=
  ∃ es m', sent = some (es, m') ∧ Sound k.filter start (h ++ es) m'.queue ∧ samples es = [] ∧ Ready m' ∧
    RC_FILTER_SIZE ≤ m'.queue.tx_buf_size

theorem Refilled.enter {sent : Option (List TxEvent × V34Modulator σ)}
    (refilled : Refilled k start h sent)
    {state : TxState} (training : Training state) :
    Refilled k start h (V34Modulator.enter state sent) := by
  obtain ⟨es, m', rfl, sound, silent, ready, enough⟩ := refilled
  exact ⟨es, { m' with state := state }, rfl, sound, silent,
    ⟨training, ready.bounded, Or.inr (Nat.le_succ_of_le enough)⟩, enough⟩

/-- A sequence of enough symbols, but not too many, for a queue that has run short. -/
theorem send_refilled (training : Training m.state) (tx_amp : Int) {symbols : List Point} {n : Nat}
    (length : symbols.length = n) (sound : Sound k.filter start h m.queue)
    (short : m.queue.tx_buf_size < RC_FILTER_SIZE) (enough : RC_FILTER_SIZE ≤ m.queue.tx_buf_size + n)
    (few : n ≤ 1024) : Refilled k start h (m.send tx_amp symbols) := by
  have room : m.queue.tx_buf_size + n ≤ TX_BUF_SIZE := by
    unfold RC_FILTER_SIZE TX_BUF_SIZE at *
    omega
  rw [← length] at room enough
  obtain ⟨es, queue, stored, sound', silent, size⟩ := put_syms_stored tx_amp symbols sound room
  rw [← size] at room enough
  refine ⟨es, { m with tx_amp := tx_amp, queue := queue }, ?_, sound', silent, ?_, enough⟩
  · rw [V34Modulator.send, stored]
    rfl
  · exact ⟨training, room, Or.inr (Nat.le_succ_of_le enough)⟩

/-- The symbols of a sequence that is repeated. -/
theorem length_periods (n : Nat) (period : List Point) :
    (List.replicate n period).flatten.length = n * period.length := by
  rw [List.length_flatten, List.map_replicate, List.sum_replicate, Nat.nsmul_eq_mul]

/-- A phase of the training is entered with a queue that lacks one symbol, or is empty. -/
theorem startup_refilled (ready : Ready m) (sound : Sound k.filter start h m.queue)
    (short : m.queue.tx_buf_size < RC_FILTER_SIZE) : Refilled k start h (m.startup k) := by
  -- every phase but the first finds all but one symbol of a window
  have more : ∀ n ≥ 1, m.state ≠ .startup3_S1 → RC_FILTER_SIZE ≤ m.queue.tx_buf_size + n := by
    intro n some later
    have filled := ready.filled.resolve_left later
    omega
  have training := ready.training
  unfold V34Modulator.startup
  cases state : m.state <;> rw [state] at more <;> try (rw [state] at training; cases training)
  case startup3_S1 =>
    apply (send_refilled ready.training _ (length_periods 64 _) sound short _ (by decide)).enter .sinv1
    exact Nat.le_add_left_of_le (by decide)
  case startup3_SINV1 =>
    apply (send_refilled ready.training _ (length_periods 8 _) sound short _ (by decide)).enter .s2
    exact more _ (by decide) (by decide)
  case startup3_S2 =>
    apply (send_refilled ready.training _ (length_periods 64 _) sound short _ (by decide)).enter .sinv2
    exact more _ (by decide) (by decide)
  case startup3_SINV2 =>
    apply (send_refilled ready.training _ (length_periods 8 _) sound short _ (by decide)).enter .pp
    exact more _ (by decide) (by decide)
  case startup3_PP =>
    have length : (List.replicate 6 ((List.range V34_PP_SIZE).map k.tabPP)).flatten.length = 288 := by
      rw [length_periods, List.length_map, List.length_range]
      rfl
    apply (send_refilled ready.training _ length sound short _ (by decide)).enter .trn
    exact more _ (by decide) (by decide)
  case startup3_TRN =>
    -- the training goes on in the same state
    have length : ∀ bits, ((trainingFields m.is_16states bits 1024).map trainingPoint).length =
      1024 := by
      intro bits
      rw [List.length_map, trainingFields, List.length_map, List.length_range]
    show Refilled k start h (m.V34_send_TRN k)
    unfold V34Modulator.V34_send_TRN
    generalize scramble_bits k.poly m.encoder.bits.scrambler_reg
      (List.replicate (symbolBits m.is_16states * 1024) true) = scrambled
    obtain ⟨bits, reg⟩ := scrambled
    apply send_refilled (m := m.settle reg _) ready.training _ (length bits) sound short _ (Nat.le_refl _)
    exact more _ (by decide) (by decide)

theorem modulate_training (training : Training m.state) (nb : Nat) :
    m.modulate k nb = ((modulateQueue k.filter nb m.queue nb).1,
      { m with queue := (modulateQueue k.filter nb m.queue nb).2.1 },
      (modulateQueue k.filter nb m.queue nb).2.2) := by
  unfold V34Modulator.modulate
  cases state : m.state <;> first | rfl | (rw [state] at training; cases training)

/-- A call returns after `nb` turns at most, apart from one that finds too few symbols and the one that
finds all samples written. -/
theorem mod_returns (turns nb : Nat) (ready : Ready m) (sound : Sound k.filter start h m.queue)
    (enough : nb + (if m.queue.tx_buf_size < RC_FILTER_SIZE then 1 else 0) < turns) :
    ∃ es m', V34_mod k turns m nb = some (es, m') ∧ Sound k.filter start (h ++ es) m'.queue ∧ Ready m' ∧
      (samples es).length = nb := by
  induction turns generalizing h m nb with
  | zero => omega
  | succ turns ih =>
    rw [V34_mod, modulate_training ready.training]
    have drained := modulateQueue_drained nb nb (Nat.le_refl nb) sound ready.bounded
    generalize modulateQueue k.filter nb m.queue nb = result at drained
    obtain ⟨es, queue, left⟩ := result
    have count : (samples es).length + left = nb := drained.count
    have ready' : Ready { m with queue := queue } := by
      refine ⟨ready.training, Nat.le_trans drained.bounded ready.bounded, ?_⟩
      rcases ready.filled with first | filled
      · exact Or.inl first
      · rcases drained.keeps with all | window
        · exact Or.inr (Nat.le_trans filled (Nat.succ_le_succ all))
        · exact Or.inr window
    dsimp only
    by_cases done : left = 0
    · rw [if_pos done]
      exact ⟨es, _, rfl, drained.sound, ready', by omega⟩
    · rw [if_neg done]
      obtain ⟨sent, m₁, started, sound₁, silent, ready₁, refilled⟩ :=
        startup_refilled ready' drained.sound (drained.finished.resolve_left done)
      have fewer : left + (if m₁.queue.tx_buf_size < RC_FILTER_SIZE then 1 else 0) < turns := by
        rw [if_neg (Nat.not_lt.mpr refilled)]
        by_cases short : m.queue.tx_buf_size < RC_FILTER_SIZE
        · rw [if_pos short] at enough
          omega
        · have progress : left < nb := drained.progress (Nat.not_lt.mp short) (by omega)
          rw [if_neg short] at enough
          omega
      obtain ⟨later, m₂, rest, sound₂, ready₂, length⟩ := ih left ready₁ sound₁ fewer
      refine ⟨es ++ sent ++ later, m₂, ?_, ?_, ready₂, ?_⟩
      · rw [started]
        show (V34_mod k turns m₁ left).bind _ = _
        rw [rest]
        rfl
      · rw [← List.append_assoc, ← List.append_assoc]
        exact sound₂
      · rw [samples_append, samples_append, silent, List.append_nil, List.length_append, length]
        exact count

/-- Every call of a run returns. -/
theorem calls_return (turns : Nat) (calls : List TxCall) (enough : ∀ call ∈ calls, call.nb + 2 ≤ turns)
    (ready : Ready m) (sound : Sound k.filter start h m.queue) :
    ∃ blocks m', modCalls k turns m calls = some (blocks, m') ∧
      Sound k.filter start (h ++ blocks.flatten) m'.queue ∧
      blocks.map (fun es => (samples es).length) = calls.map TxCall.nb := by
  induction calls generalizing h m with
  | nil =>
    refine ⟨[], m, rfl, ?_, rfl⟩
    rwa [List.flatten_nil, List.append_nil]
  | cons call calls ih =>
    let asked : V34Modulator σ := { m with J_received := call.J_received, JP_received :=
      call.JP_received }
    have ready' : Ready asked := ⟨ready.training, ready.bounded, ready.filled⟩
    have turns_enough : call.nb + (if m.queue.tx_buf_size < RC_FILTER_SIZE then 1 else 0) < turns := by
      have two := enough call List.mem_cons_self
      split <;> omega
    obtain ⟨es, m₁, returned, sound₁, ready₁, length⟩ :=
      mod_returns turns call.nb ready' sound turns_enough
    obtain ⟨blocks, m₂, rest, sound₂, lengths⟩ :=
      ih (fun call member => enough call (List.mem_cons_of_mem _ member)) ready₁ sound₁
    refine ⟨es :: blocks, m₂, ?_, ?_, ?_⟩
    · show (V34_mod k turns asked call.nb).bind _ = _
      rw [returned]
      show (modCalls k turns m₁ calls).bind _ = _
      rw [rest]
      rfl
    · rw [List.flatten_cons, ← List.append_assoc]
      exact sound₂
    · rw [List.map_cons, List.map_cons, length, lengths]

end Training

/-- Whatever the symbol rate, the blocks asked for and what the receiver sets between them, no
assertion fails and every call returns with the samples asked for.  No sample is silence: each of them
was made from a whole window of the symbols that were queued, in their order, with coefficients of the
filter; and at every moment the size of the queue agrees with its pointers and the ring. -/
theorem transmit_queue_safe {σ : Type} (k : TxSetup σ) (memory : V34Modulator σ) (calls : List TxCall) :
    ∃ blocks m,
      (∃ least, ∀ turns ≥ least, modCalls k turns (V34_mod_init memory) calls = some (blocks, m)) ∧
      blocks.map (fun es => (samples es).length) = calls.map TxCall.nb ∧
      (∀ e ∈ blocks.flatten, e ≠ .silence) ∧
      Always (WindowRight k.filter) blocks.flatten ∧
      (∀ before after, blocks.flatten = before ++ after →
        QueueSafe (replayed k.filter (V34_mod_init memory).queue before)) ∧
      m.queue = replayed k.filter (V34_mod_init memory).queue blocks.flatten := by
  let least := (calls.map fun call => call.nb + 2).sum
  have enough : ∀ call ∈ calls, call.nb + 2 ≤ least := fun call member =>
    List.le_sum_of_mem (List.mem_map_of_mem member)
  have ready : Ready (V34_mod_init memory) := ⟨.s1, Nat.zero_le _, Or.inl rfl⟩
  have sound : Sound k.filter (V34_mod_init memory).queue [] (V34_mod_init memory).queue :=
    .init k.filter _
  have first : QueueSafe (V34_mod_init memory).queue := ⟨Nat.zero_le _, sound.tracks.pointers⟩
  obtain ⟨blocks, m, returned, sound', lengths⟩ := calls_return least calls enough ready sound
  refine ⟨blocks, m, ⟨least, fun turns more => modCalls_mono more returned⟩, lengths, ?_, ?_, ?_, ?_⟩
  · intro e member
    obtain ⟨before, after, split⟩ := List.append_of_mem member
    exact (sound'.right before e after split).1
  · intro before e after split
    exact (sound'.right before e after split).2.1
  · intro before after split
    exact sound'.safe first split
  · exact sound'.replay.symm

end QFax.Linmodem

import QFax.Lib.BitClock
import QFax.Linmodem.Fsk
import QFax.Linmodem.SerialLink

/-!
# An FSK line

The modulator takes a bit from the serial encoder whenever its clock overflows; the demodulator of the
other modem gives the serial decoder a bit whenever its own clock does.  Both clocks run at one rate.  The
line may be taken for anything in the first part of each bit: once the receiver's clock has found its
place, every byte arrives.
-/

namespace QFax.Linmodem

open Machine BitClock

def V21_mod_init (calling : Bool) : FskSettings :=
  if calling then ⟨1080 + 100, 1080 - 100, FSK_SAMPLE_RATE, 300⟩
  else ⟨1750 + 100, 1750 - 100, FSK_SAMPLE_RATE, 300⟩

def V23_mod_init (calling : Bool) : FskSettings :=
  if calling then ⟨390, 450, FSK_SAMPLE_RATE, 75⟩ else ⟨1300, 2100, FSK_SAMPLE_RATE, 1200⟩

/-- The modulator of the modem at the other end. -/
def FskLine.modulator : FskLine → FskSettings
  | .v21 calling => V21_mod_init (!calling)
  | .v23 calling => V23_mod_init (!calling)

theorem modulator_eq (line : FskLine) : line.modulator = line.settings := by
  cases line with
  | v21 calling => cases calling <;> rfl
  | v23 calling => cases calling <;> rfl

/-- The local variables of `FSK_mod_state` that change. -/
structure FskMod where
  phase : BitVec 32
  baud_frac : Nat
  current_bit : Bool

/-- `omega[b]` -/
def FskSettings.omega (v : FskSettings) (b : Bool) : BitVec 32 :=
  BitVec.ofNat 32 (PHASE_BASE * (if b then v.f_hi else v.f_lo) / v.sample_rate)

section Modulator

variable {γ : Type} (v : FskSettings) (cos_tab : CosTab) (get_bit : γ → Bool × γ)

/-- One turn of the loop of `FSK_mod`. -/
def FskMod.sample (s : FskMod) (g : γ) : Int × FskMod × γ :=
  let baud_frac := s.baud_frac + v.baud_incr
  if 0x10000 ≤ baud_frac then
    let (b, g) := get_bit g
    (dsp_cos cos_tab s.phase, ⟨s.phase + v.omega b, baud_frac - 0x10000, b⟩, g)
  else
    (dsp_cos cos_tab s.phase, ⟨s.phase + v.omega s.current_bit, baud_frac, s.current_bit⟩, g)

/-- A call, and the samples it writes. -/
def FSK_mod : Nat → FskMod → γ → List Int × FskMod × γ
  | 0, s, g => ([], s, g)
  | nb + 1, s, g =>
    let (x, s, g) := s.sample v cos_tab get_bit g
    let (samples, s, g) := FSK_mod nb s g
    (x :: samples, s, g)

end Modulator

/-- A modem that sends and one that receives. -/
structure FskLink where
  mod : FskMod
  tx : SerialTx
  demod : FskDemod
  rx : SerialRx

inductive FskInput where
  /-- A byte is put into the sender's queue. -/
  | put (data : BitVec 8)
  /-- A sample is sent, and one arrives. -/
  | sample (x : BitVec 16)

namespace FskLink

variable (line : FskLine) (k : FskFilters) (cos_tab : CosTab) (p : SerialParams)

/-- The modulator one sample on. -/
def modulated (s : FskLink) : FskMod × SerialTx :=
  (s.mod.sample line.modulator cos_tab (serial_get_bit p) s.tx).2

/-- What an arriving sample is taken for. -/
def decided (s : FskLink) (x : BitVec 16) : Bool :=
  FskDemod.newsample line.settings k ((s.demod.insert line.settings x).slice line.settings)

def step : Step FskLink FskInput LineEvent
  | .put data, s =>
    ({ s with tx := { s.tx with tx_fifo := sm_put_bit s.tx.tx_fifo data } },
      if s.tx.tx_fifo.items.length < s.tx.tx_fifo.max_size then [.queued data] else [])
  | .sample x, s =>
    let next := if 0x10000 ≤ s.mod.baud_frac + line.modulator.baud_incr ∧ s.tx.serial_tx_cnt = 0 then
      (sm_get_bit s.tx.tx_fifo).1 else none
    let (mod, tx) := s.modulated line cos_tab p
    let (bit, demod) := s.demod.sample line.settings k x
    match bit with
    | none => (⟨mod, tx, demod, s.rx⟩, (next.map .taken).toList)
    | some bit =>
      let (put, rx) := serial_put_bit p bit s.rx
      (⟨mod, tx, demod, rx⟩, (next.map .taken).toList ++ (put.map .received).toList)

/-- Behind the first part of a bit, `c` of `0x10000`, the line is taken for what is sent; a byte has no
bit set above its data bits. -/
def Sees (c : Nat) (_ : List LineEvent) (s : FskLink) : FskInput → Prop
  | .put data => data.getLsbD p.serial_data_bits = false
  | .sample x => c ≤ (s.modulated line cos_tab p).1.baud_frac →
      s.decided line k x = (s.modulated line cos_tab p).1.current_bit

end FskLink

/-! ## The two clocks -/

/-- The rate of both clocks, with a first part of `c`. -/
def FskLine.rate (line : FskLine) (c : Nat)
    (room : 2 * (line.settings.baud_incr + line.settings.baud_pll_adj + c) ≤ 0x10000) : Rate :=
  ⟨0x10000, line.settings.baud_incr, line.settings.baud_pll_adj, c, room⟩

section Clocks

variable {line : FskLine} {k : FskFilters} {cos_tab : CosTab} {p : SerialParams} {c : Nat}
  (room : 2 * (line.settings.baud_incr + line.settings.baud_pll_adj + c) ≤ 0x10000)

/-- The modulator is a sender of the encoder's bits. -/
theorem modulated_eq (s : FskLink) :
    let sent := send (line.rate c room) (serial_get_bit p s.tx).1 s.mod.baud_frac s.mod.current_bit
    (s.modulated line cos_tab p).1.baud_frac = sent.1 ∧
      (s.modulated line cos_tab p).1.current_bit = sent.2.1 ∧
      (s.mod.baud_frac + line.settings.baud_incr < 0x10000 ∧ sent.2.2 = [] ∧
          (s.modulated line cos_tab p).2 = s.tx ∨
        0x10000 ≤ s.mod.baud_frac + line.settings.baud_incr ∧ sent.2.2 = [(serial_get_bit p s.tx).1] ∧
          (s.modulated line cos_tab p).2 = (serial_get_bit p s.tx).2) := by
  intro sent
  rw [FskLink.modulated, FskMod.sample, modulator_eq]
  by_cases same : s.mod.baud_frac + line.settings.baud_incr < 0x10000
  · have inside : sent = (s.mod.baud_frac + line.settings.baud_incr, s.mod.current_bit, []) := by
      show send _ _ _ _ = _
      rw [send, Accumulator.advance, FskLine.rate, if_pos same]
      rfl
    rw [if_neg (by omega), inside]
    exact ⟨rfl, rfl, Or.inl ⟨same, rfl, rfl⟩⟩
  · have next : sent = (s.mod.baud_frac + line.settings.baud_incr - 0x10000, (serial_get_bit p s.tx).1,
        [(serial_get_bit p s.tx).1]) := by
      show send _ _ _ _ = _
      rw [send, Accumulator.advance, FskLine.rate, if_neg same]
      rfl
    rw [if_pos (by omega), next]
    exact ⟨rfl, rfl, Or.inr ⟨by omega, rfl, rfl⟩⟩

theorem adjusted_toNat {s : FskDemod} (inBit : s.InBit) (d : Bool) :
    (s.adjusted line.settings d).toNat =
      if s.lastsample ≠ d then correct (line.rate c room) s.baud_pll.toNat else s.baud_pll.toNat := by
  have slow := line.sane.slow
  obtain ⟨low, high⟩ := inBit
  rw [FskDemod.adjusted, correct, FskLine.rate]
  dsimp only
  split_ifs <;> omega

/-- The demodulator is a receiver. -/
theorem demod_eq {s : FskLink} (inBit : s.demod.InBit) (x : BitVec 16) :
    let read := receive (line.rate c room) (s.decided line k x) s.demod.lastsample s.demod.baud_pll.toNat
    ((s.demod.sample line.settings k x).1.toList = read.2 ∧
      (s.demod.sample line.settings k x).2.baud_pll.toNat = read.1 ∧
      (s.demod.sample line.settings k x).2.lastsample = s.decided line k x) ∧
      (s.demod.sample line.settings k x).2.InBit := by
  intro read
  obtain ⟨pll, last⟩ := insert_clock (v := line.settings) s.demod x
  have inserted : (s.demod.insert line.settings x).InBit := by
    unfold FskDemod.InBit
    rw [pll]
    exact inBit
  have clocked := clock_eq line.sane inserted (s.decided line k x)
  have start := adjusted_toNat room inserted (s.decided line k x)
  rw [pll, last] at start
  rw [start] at clocked
  have sampled : s.demod.sample line.settings k x =
      (s.demod.insert line.settings x).clock line.settings (s.decided line k x) := rfl
  refine ⟨?_, sample_inBit line.sane inBit x⟩
  rw [sampled, clocked]
  refine ⟨?_, Int.toNat_natCast _, rfl⟩
  have listed : ∀ overflow d : Bool, (if overflow then some d else none).toList =
      if overflow then [d] else [] := by decide
  exact listed _ _

end Clocks

/-! ## Bits and bytes -/

section Bytes

variable (p : SerialParams)

/-- The decoder over some bits: the bytes it puts in its queue, and its state. -/
def readBits : List Bool → SerialRx → List (BitVec 8) × SerialRx
  | [], rx => ([], rx)
  | bit :: bits, rx =>
    let (put, rx) := serial_put_bit p bit rx
    let (puts, rx) := readBits bits rx
    (put.toList ++ puts, rx)

variable {p}

theorem readBits_append (as bs : List Bool) (rx : SerialRx) : readBits p (as ++ bs) rx =
    ((readBits p as rx).1 ++ (readBits p bs (readBits p as rx).2).1,
      (readBits p bs (readBits p as rx).2).2) := by
  induction as generalizing rx with
  | nil => rfl
  | cons a as ih =>
    rw [List.cons_append, readBits, readBits]
    dsimp only
    rw [ih, List.append_assoc]

/-- While words have start bits both sides stay in step. -/
theorem Progress.framed {h h' : List LineEvent} {s s' : SerialLink} (progress : Progress p h h' s s')
    (starts : ∀ data ∈ takenBytes h', data.getLsbD p.serial_data_bits = false) : Framed p h' s' := by
  rcases progress with ⟨framed, -⟩ | ⟨data, sent, noStart, -⟩
  · exact framed
  · have member : data ∈ sentBytes h' s' := by
      rw [sent]
      exact List.mem_append_right _ List.mem_cons_self
    have taken : data ∈ takenBytes h' := by
      rw [sentBytes] at member
      split at member
      · exact member
      · exact List.mem_of_mem_dropLast member
    rw [starts data taken] at noStart
    cases noStart

/-- A bit that the encoder gives and the decoder takes at once. -/
theorem Framed.fetch {h : List LineEvent} {tx : SerialTx} {rx : SerialRx} (framed : Framed p h ⟨tx, rx⟩)
    (starts : ∀ data ∈ takenBytes h ++ (if tx.serial_tx_cnt = 0 then
      (sm_get_bit tx.tx_fifo).1 else none).toList, data.getLsbD p.serial_data_bits = false) :
    ∃ h', Framed p h' ⟨(serial_get_bit p tx).2, (readBits p [(serial_get_bit p tx).1] rx).2⟩ ∧
      takenBytes h' = takenBytes h ++ (if tx.serial_tx_cnt = 0 then
        (sm_get_bit tx.tx_fifo).1 else none).toList ∧
      receivedBytes h' = receivedBytes h ++ (readBits p [(serial_get_bit p tx).1] rx).1 := by
  have taken := takenBytes_request h (if tx.serial_tx_cnt = 0 then (sm_get_bit tx.tx_fifo).1 else none)
    (serial_put_bit p (serial_get_bit p tx).1 rx).1
  have received := receivedBytes_request h
    (if tx.serial_tx_cnt = 0 then (sm_get_bit tx.tx_fifo).1 else none)
    (serial_put_bit p (serial_get_bit p tx).1 rx).1
  rw [← taken] at starts
  refine ⟨_, framed.request.framed starts, taken, received.trans ?_⟩
  exact congrArg (receivedBytes h ++ ·) (List.append_nil _).symm

end Bytes

/-! ## Runs -/

section Runs

variable {line : FskLine} {k : FskFilters} {cos_tab : CosTab} {p : SerialParams} {c : Nat}
  (room : 2 * (line.settings.baud_incr + line.settings.baud_pll_adj + c) ≤ 0x10000)

/-- The byte that leaves the queue with a sample. -/
def FskLink.fetched (line : FskLine) (s : FskLink) : Option (BitVec 8) :=
  if 0x10000 ≤ s.mod.baud_frac + line.modulator.baud_incr ∧ s.tx.serial_tx_cnt = 0 then
    (sm_get_bit s.tx.tx_fifo).1 else none

theorem step_sample (s : FskLink) (x : BitVec 16) :
    let read := readBits p (s.demod.sample line.settings k x).1.toList s.rx
    FskLink.step line k cos_tab p (.sample x) s =
      (⟨(s.modulated line cos_tab p).1, (s.modulated line cos_tab p).2,
        (s.demod.sample line.settings k x).2, read.2⟩,
        ((s.fetched line).map .taken).toList ++ read.1.map .received) := by
  rw [FskLink.step]
  dsimp only
  rw [← FskLink.fetched]
  generalize s.demod.sample line.settings k x = sampled
  obtain ⟨bit, demod⟩ := sampled
  cases bit with
  | none => exact congrArg (Prod.mk _) (List.append_nil _).symm
  | some bit =>
    rw [Option.toList_some, readBits]
    dsimp only
    rw [readBits]
    dsimp only
    rw [List.append_nil]
    cases (serial_put_bit p bit s.rx).1 <;> rfl

/-- A call of `FSK_mod` at one end and one of `FSK_demod` at the other are a run of samples. -/
theorem calls_eq_samples (xs : List (BitVec 16)) (h : List LineEvent) (s : FskLink) :
    (feed (FskLink.step line k cos_tab p) (xs.map .sample) h s).2 =
      let sent := (FSK_mod line.modulator cos_tab (serial_get_bit p) xs.length s.mod s.tx).2
      let got := FSK_demod line.settings k xs s.demod
      ⟨sent.1, sent.2, got.2, (readBits p got.1 s.rx).2⟩ := by
  induction xs generalizing h s with
  | nil => rfl
  | cons x xs ih =>
    rw [List.map_cons, feed, step_sample, ih, List.length_cons, FSK_mod, FSK_demod]
    dsimp only
    rw [readBits_append, FskLink.modulated]

theorem events_sample (h : List LineEvent) (next : Option (BitVec 8)) (puts : List (BitVec 8)) :
    let h' := h ++ ((next.map LineEvent.taken).toList ++ puts.map LineEvent.received)
    takenBytes h' = takenBytes h ++ next.toList ∧ queuedBytes h' = queuedBytes h ∧
      receivedBytes h' = receivedBytes h ++ puts := by
  cases next <;> simp [takenBytes, queuedBytes, receivedBytes, List.filterMap_map]

/-- Both sides are in step, and the decoder would be with the encoder if it had the bit on the line; `h'` is
what both would then have done. -/
structure Linked (p : SerialParams) (v : Rate) (h : List LineEvent) (s : FskLink) (given : Bool)
    (h' : List LineEvent) : Prop where
  locked : Locked v s.mod.baud_frac s.mod.current_bit s.demod.baud_pll.toNat s.demod.lastsample given
  inBit : s.demod.InBit
  framed : Framed p h' ⟨s.tx, (readBits p (waiting given s.mod.current_bit) s.rx).2⟩
  taken : takenBytes h' = takenBytes h
  received : receivedBytes h' =
    receivedBytes h ++ (readBits p (waiting given s.mod.current_bit) s.rx).1
  order : queuedBytes h = takenBytes h ++ s.tx.tx_fifo.items
  starts : ∀ data ∈ queuedBytes h, data.getLsbD p.serial_data_bits = false

variable {h h' : List LineEvent} {s : FskLink} {given : Bool}

theorem Linked.put (linked : Linked p (line.rate c room) h s given h') {data : BitVec 8}
    (start : data.getLsbD p.serial_data_bits = false) :
    ∃ h'', Linked p (line.rate c room) (h ++ (FskLink.step line k cos_tab p (.put data) s).2)
      (FskLink.step line k cos_tab p (.put data) s).1 given h'' := by
  have events : (FskLink.step line k cos_tab p (.put data) s).2 = [] ∨
      (FskLink.step line k cos_tab p (.put data) s).2 = [.queued data] := by
    rw [FskLink.step]
    dsimp only
    split
    · exact Or.inr rfl
    · exact Or.inl rfl
  have others : ∀ h, takenBytes (h ++ (FskLink.step line k cos_tab p (.put data) s).2) = takenBytes h ∧
      receivedBytes (h ++ (FskLink.step line k cos_tab p (.put data) s).2) = receivedBytes h := by
    intro h
    rcases events with none | one
    · rw [none, List.append_nil]
      exact ⟨rfl, rfl⟩
    · rw [one]
      simp [takenBytes, receivedBytes]
  have framed := linked.framed.put data
  refine ⟨h' ++ (FskLink.step line k cos_tab p (.put data) s).2, linked.locked, linked.inBit,
    framed.framed fun sent taken => ?_, ?_, ?_, @order_step p h ⟨s.tx, s.rx⟩ linked.order (.put data), ?_⟩
  · refine linked.starts sent ?_
    rw [linked.order, ← linked.taken, ← (others h').1]
    exact List.mem_append_left _ taken
  · rw [(others h').1, (others h).1, linked.taken]
  · rw [(others h').2, (others h).2, linked.received]
    rfl
  · intro sent member
    rcases events with none | one
    · rw [none, List.append_nil] at member
      exact linked.starts sent member
    · rw [one, queuedBytes, List.filterMap_append, List.mem_append] at member
      rcases member with before | now
      · exact linked.starts sent before
      · rwa [List.mem_singleton.mp now]

/-- The encoder's side of a sample. -/
theorem Linked.ahead (linked : Linked p (line.rate c room) h s given h') :
    let sent := send (line.rate c room) (serial_get_bit p s.tx).1 s.mod.baud_frac s.mod.current_bit
    let ahead := readBits p (waiting given s.mod.current_bit ++ sent.2.2) s.rx
    ∃ h'', Framed p h'' ⟨(s.modulated line cos_tab p).2, ahead.2⟩ ∧
      takenBytes h'' = takenBytes h ++ (s.fetched line).toList ∧
      receivedBytes h'' = receivedBytes h ++ ahead.1 ∧
      queuedBytes h = takenBytes h ++ (s.fetched line).toList ++
        (s.modulated line cos_tab p).2.tx_fifo.items := by
  intro sent ahead
  have incr : line.modulator.baud_incr = line.settings.baud_incr := by rw [modulator_eq]
  rcases (@modulated_eq line cos_tab p c room s).2.2 with ⟨same, none, tx⟩ | ⟨ended, one, tx⟩
  · have fetched : s.fetched line = Option.none := if_neg fun both => by
      rw [incr] at both
      omega
    have ahead_eq : ahead = readBits p (waiting given s.mod.current_bit) s.rx := by
      show readBits p (_ ++ sent.2.2) s.rx = _
      rw [show sent.2.2 = [] from none, List.append_nil]
    rw [fetched, tx, ahead_eq, Option.toList_none, List.append_nil]
    exact ⟨h', linked.framed, linked.taken, linked.received, linked.order⟩
  · have fetched : s.fetched line =
        if s.tx.serial_tx_cnt = 0 then (sm_get_bit s.tx.tx_fifo).1 else Option.none := by
      rw [FskLink.fetched, incr]
      refine if_congr ?_ rfl rfl
      exact and_iff_right ended
    have ahead_eq : ahead = readBits p (waiting given s.mod.current_bit ++ [(serial_get_bit p s.tx).1]) s.rx := by
      show readBits p (_ ++ sent.2.2) s.rx = _
      rw [show sent.2.2 = _ from one]
    have order : queuedBytes h = takenBytes h ++
        (if s.tx.serial_tx_cnt = 0 then (sm_get_bit s.tx.tx_fifo).1 else Option.none).toList ++
          (serial_get_bit p s.tx).2.tx_fifo.items := by
      rw [← takenBytes_request h _ (serial_put_bit p (serial_get_bit p s.tx).1 s.rx).1]
      exact (queuedBytes_request h _ _).symm.trans (@order_step p h ⟨s.tx, s.rx⟩ linked.order .request)
    rw [readBits_append] at ahead_eq
    rw [ahead_eq, tx, fetched]
    obtain ⟨h'', framed, taken, received⟩ := linked.framed.fetch fun data member => by
      refine linked.starts data ?_
      rw [order]
      rw [linked.taken] at member
      exact List.mem_append_left _ member
    refine ⟨h'', framed, ?_, ?_, order⟩
    · rw [taken, linked.taken]
    · rw [received, linked.received, List.append_assoc]

theorem Linked.sample (linked : Linked p (line.rate c room) h s given h') {x : BitVec 16}
    (sees : s.Sees line k cos_tab p c h (.sample x)) :
    ∃ given' h'', Linked p (line.rate c room) (h ++ (FskLink.step line k cos_tab p (.sample x) s).2)
      (FskLink.step line k cos_tab p (.sample x) s).1 given' h'' := by
  obtain ⟨frac, bit, -⟩ := @modulated_eq line cos_tab p c room s
  obtain ⟨⟨delivered, pll, last⟩, inBit⟩ := @demod_eq line k c room s linked.inBit x
  obtain ⟨given', locked, bits⟩ := @Locked.step _ _ _ _ _ _ (serial_get_bit p s.tx).1 (s.decided line k x)
    linked.locked (by rw [← frac, ← bit]; exact sees)
  obtain ⟨h'', framed, taken, received, order⟩ := @Linked.ahead line cos_tab p c room _ _ _ _ linked
  rw [bits, ← delivered, readBits_append] at framed received
  rw [← frac, ← bit, ← pll, ← last] at locked
  rw [← bit] at framed received
  rw [step_sample]
  obtain ⟨takenNow, queuedNow, receivedNow⟩ := events_sample h (s.fetched line)
    (readBits p (s.demod.sample line.settings k x).1.toList s.rx).1
  refine ⟨given', h'', locked, inBit, framed, taken.trans takenNow.symm, ?_, ?_, ?_⟩
  · rw [received, receivedNow, List.append_assoc]
  · rw [queuedNow, takenNow]
    exact order
  · rw [queuedNow]
    exact linked.starts

/-- The line is at rest: nothing waits to be sent, a one is sent, and the receiver's clock has its place.  What
the line delays is in the receiver's clock and window. -/
structure FskLink.Rests (p : SerialParams) (v : Rate) (s : FskLink) : Prop where
  idle : s.tx.serial_tx_cnt = 0
  empty : s.tx.tx_fifo.items = []
  one : s.mod.current_bit = true
  locked : ∃ given, Locked v s.mod.baud_frac true s.demod.baud_pll.toNat s.demod.lastsample given
  inBit : s.demod.InBit
  quiet : ∃ q, Tail p 0 0 q s.rx

theorem FskLink.Rests.linked (rests : s.Rests p (line.rate c room)) :
    ∃ given h', Linked p (line.rate c room) [] s given h' := by
  obtain ⟨given, locked⟩ := rests.locked
  obtain ⟨q, tail⟩ := rests.quiet
  have ahead : ∃ q, (readBits p (waiting given true) s.rx).1 = [] ∧
      Tail p 0 0 q (readBits p (waiting given true) s.rx).2 := by
    cases given with
    | true => exact ⟨q, rfl, tail⟩
    | false =>
      obtain ⟨rx, put, tail'⟩ := tail.idleBit
      have read : readBits p (waiting false true) s.rx = ([], rx) := by
        rw [waiting, if_neg Bool.false_ne_true, readBits, put]
        rfl
      rw [read]
      exact ⟨q + 1, rfl, tail'⟩
  obtain ⟨q', none, tail'⟩ := ahead
  have framed : Framed p [] ⟨s.tx, (readBits p (waiting given true) s.rx).2⟩ := .idle rests.idle tail' rfl
  refine ⟨given, [], ?_, rests.inBit, ?_, rfl, ?_, ?_, nofun⟩
  · rw [rests.one]
    exact locked
  · rw [rests.one]
    exact framed
  · rw [rests.one, none]
    rfl
  · rw [rests.empty]
    rfl

/-- However the line takes the first part of each bit, and whenever bytes are queued, every byte that is sent
is received, in the order in which they were queued: at most the last bit of the last one is still on the
line. -/
theorem fsk_line {start : FskLink} (rests : start.Rests p (line.rate c room))
    (run : Runs (FskLink.step line k cos_tab p) (fun h s i => s.Sees line k cos_tab p c h i) start h s) :
    queuedBytes h = takenBytes h ++ s.tx.tx_fifo.items ∧
      ∃ late, (sentBytes h ⟨s.tx, s.rx⟩).map (lowData p) = receivedBytes h ++ late ∧ late.length ≤ 1 := by
  have linked : ∃ given h', Linked p (line.rate c room) h s given h' := by
    refine run.invariant (P := fun h s => ∃ given h', Linked p (line.rate c room) h s given h') ?_ ?_
    · exact rests.linked
    · rintro h s (data | x) ⟨given, h', linked⟩ sees
      · exact ⟨given, linked.put room sees⟩
      · exact linked.sample room sees
  obtain ⟨given, h', linked⟩ := linked
  refine ⟨linked.order, (readBits p (waiting given s.mod.current_bit) s.rx).1, ?_, ?_⟩
  · have sent := linked.framed.received
    rw [sentBytes, linked.taken] at sent
    exact sent.symm.trans linked.received
  · cases given with
    | true => exact Nat.zero_le 1
    | false =>
      rw [waiting, if_neg Bool.false_ne_true, readBits]
      dsimp only
      rw [readBits]
      dsimp only
      rcases (serial_put_bit p s.mod.current_bit s.rx).1 with - | data
      · exact Nat.zero_le 1
      · exact Nat.le_refl 1

end Runs

/-! ## A byte over the 1200 baud channel of V.23 -/

/-- The filters of the calling side. -/
def v23Filters : FskFilters where
  filter_lo_i i := [16384, 8560, -7438, -16333, -9630, 6269].getD i 0
  filter_lo_q i := [0, 13969, 14598, 1285, -13254, -15136].getD i 0
  filter_hi_i i := [16384, -1285, -16182, 3824, 15582, -6269].getD i 0
  filter_hi_q i := [0, 16333, -2563, -15931, 5062, 15136].getD i 0

/-- What the calling side hears: a one, then the seven bits of a word. -/
def v23Samples : List (BitVec 16) :=
  [-7778, -1251, 7975, 0, -6821, -7128, -627, 6472, 7391, 1251, -6083, -7608, -1867, 5656, 7778, 2472,
    -5195, -7901, 1867, 7608, -3061, -7128, 4179, 6472, -5195, -5656, 6083, 4702, -6821, -3631, 7391,
    6472, -627, -7128, -6821, 0, 6821, 7128, -4179, -6472, 5195, 5656, -6083, -4702, 6821, 3631, -7391,
    -2472, 7778, 1251, -7975, 0, 7975, -1251, -7778, 2472].map (BitVec.ofInt 16)

/-- A one is on the line, which arrives three samples late. -/
def v23Rest : FskLink where
  mod := ⟨0, 0, true⟩
  tx := ⟨sm_init_fifo 16, 0, 0⟩
  demod := ⟨fun i => [3041, 2351, -3411, -1816, 3695, 1236].getD i 0, 6, 0x8000, true⟩
  rx := ⟨0, 0⟩

theorem v23_room : 2 * ((FskLine.v23 true).settings.baud_incr +
    (FskLine.v23 true).settings.baud_pll_adj + 0x5000) ≤ 0x10000 := by
  decide

theorem v23_rests :
    v23Rest.Rests (serial_init 5 'N' (by decide)) ((FskLine.v23 true).rate 0x5000 v23_room) where
  idle := rfl
  empty := rfl
  one := rfl
  locked := ⟨false, by decide, fun _ => rfl, fun _ => by decide, nofun⟩
  inBit := by unfold FskDemod.InBit; decide
  quiet := ⟨0, (Nat.zero_min _).symm, le_rfl, nofun, nofun⟩

instance (line : FskLine) (k : FskFilters) (cos_tab : CosTab) (p : SerialParams) (c : Nat)
    (h : List LineEvent) (s : FskLink) : ∀ i, Decidable (s.Sees line k cos_tab p c h i)
  | .put data => inferInstanceAs (Decidable (data.getLsbD p.serial_data_bits = false))
  | .sample _ => inferInstanceAs (Decidable (_ → _))

/-- A byte of five bits arrives. -/
theorem fsk_line_byte :
    let run := feed (FskLink.step (.v23 true) v23Filters (fun _ => 0) (serial_init 5 'N' (by decide)))
      (.put 0x0d :: v23Samples.map .sample) [] v23Rest
    ∃ late, (sentBytes run.1 ⟨run.2.tx, run.2.rx⟩).map (lowData (serial_init 5 'N' (by decide))) =
      receivedBytes run.1 ++ late ∧ late.length ≤ 1 := by
  intro run
  have allowed : Allowed (FskLink.step (.v23 true) v23Filters (fun _ => 0) (serial_init 5 'N' (by decide)))
      (fun h s i => s.Sees (.v23 true) v23Filters (fun _ => 0) (serial_init 5 'N' (by decide)) 0x5000 h i)
      (.put 0x0d :: v23Samples.map .sample) [] v23Rest := by
    decide +kernel
  exact (fsk_line v23_room v23_rests (Runs.refl.feed allowed)).2

example : receivedBytes (feed (FskLink.step (.v23 true) v23Filters (fun _ => 0)
    (serial_init 5 'N' (by decide))) (.put 0x0d :: v23Samples.map .sample) [] v23Rest).1 = [0x0d] := by
  decide +kernel

end QFax.Linmodem

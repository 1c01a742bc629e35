import QFax.Extmodem.Ax25
import QFax.Extmodem.Hdlc

/-!
# Packet modem: AGWPE frames

A client of the other kind sends and gets frames with a header of 36 octets, which says what the
frame is for and how much data follow.  `agwpe_decode_frame` is told how many octets there are and
asks for the header only: the data of a frame may lie outside of them.
-/

namespace QFax.Extmodem

open ByteOrder

/-- A frame as it lies in memory, its header and 512 octets of data. -/
structure agwpe_tcp_frame where
  header : List UInt8
  data : List UInt8
  deriving DecidableEq, Repr

def agwpe_tcp_frame.dataKind (frame : agwpe_tcp_frame) : UInt8 := frame.header.getD 4 0

def agwpe_tcp_frame.dataLen (frame : agwpe_tcp_frame) : Nat := lowValue ((frame.header.drop 28).take 4)

def AGWPE_MIN_HEADER_SIZE : Nat := 1 + 3 + 1 + 1 + 1 + 1 + 10 + 10 + 4 + 4

/-- The size of `raw_data`. -/
def RAW_DATA_SIZE : Nat := 512

/-- All zero. -/
def agwpe_tcp_frame.zero : agwpe_tcp_frame :=
  ⟨List.replicate AGWPE_MIN_HEADER_SIZE 0, List.replicate RAW_DATA_SIZE 0⟩

/-- What a client sends without data. -/
def emptyKinds : List UInt8 :=
  ['X', 'x', 'G', 'm', 'R', 'g', 'H', 'y', 'Y', 'C', 'd', 'c', 'k'].map Char.toUInt8

/-- What a client sends with data that are copied. -/
def dataKinds : List UInt8 := ['M', 'D', 'v', 'V', 'K'].map Char.toUInt8

/-- The switch over the kinds, with the header and what is behind it. -/
def decodeKind (header p : List UInt8) : Option (Int × agwpe_tcp_frame) :=
  let frame : agwpe_tcp_frame := ⟨header, List.replicate RAW_DATA_SIZE 0⟩
  if frame.dataKind = 'P'.toUInt8 then
    if frame.dataLen ≠ 512 then some (-1, frame) else some (AGWPE_MIN_HEADER_SIZE + 512, frame)
  else if frame.dataKind ∈ emptyKinds then
    if frame.dataLen ≠ 0 then some (-1, frame) else some (AGWPE_MIN_HEADER_SIZE, frame)
  else if frame.dataKind ∈ dataKinds then
    if RAW_DATA_SIZE ≤ frame.dataLen then some (-1, frame)
    else if p.length < frame.dataLen then none
    else some (AGWPE_MIN_HEADER_SIZE + frame.dataLen,
      { frame with data := p.take frame.dataLen ++ List.replicate (RAW_DATA_SIZE - frame.dataLen) 0 })
  else some (-1, frame)

/-- What is returned, and the frame; nothing when octets outside of `data` are read. -/
def agwpe_decode_frame (data : List UInt8) (len : Nat) : Option (Int × agwpe_tcp_frame) :=
  if len < AGWPE_MIN_HEADER_SIZE then some (0, .zero)
  else if data.length < AGWPE_MIN_HEADER_SIZE then none
  else decodeKind (data.take AGWPE_MIN_HEADER_SIZE) (data.drop AGWPE_MIN_HEADER_SIZE)

/-- The data length that `agwpe_encode_frame` fills in. -/
def encodedLen (frame : agwpe_tcp_frame) : Option Nat :=
  let kind := frame.dataKind
  if kind = 'R'.toUInt8 then some 8
  else if kind = 'X'.toUInt8 then some 1
  else if kind = 'G'.toUInt8 then some ((Efax.cString frame.data).length + 1)
  else if kind = 'g'.toUInt8 then some 12
  else if kind = 'y'.toUInt8 ∨ kind = 'Y'.toUInt8 then some 4
  else if kind ∈ ['H', 'C', 'D', 'I', 'S', 'U', 'T'].map Char.toUInt8 then some 0
  else if kind = 'K'.toUInt8 then some frame.dataLen
  else none

/-- A header with another data length. -/
def withLen (header : List UInt8) (n : Nat) : List UInt8 :=
  header.take 28 ++ lowBytes 4 n ++ header.drop 32

/-- What is returned, and the octets written. -/
def agwpe_encode_frame (frame : agwpe_tcp_frame) : Int × List UInt8 :=
  match encodedLen frame with
  | some n => (AGWPE_MIN_HEADER_SIZE + n, withLen frame.header n ++ frame.data.take n)
  | none => (-1, [])

/-! ## What a session does -/

/-- Octets for the client, or a packet for the air. -/
inductive AgwpeEvent
  | write_raw (octets : List UInt8)
  | output_packet_to_sc (data : List UInt8)
  deriving DecidableEq, Repr

/-- A frame that is all zero but for its kind. -/
def blankFrame (kind : UInt8) (data : List UInt8) : agwpe_tcp_frame :=
  ⟨(List.replicate AGWPE_MIN_HEADER_SIZE 0).set 4 kind,
    data ++ List.replicate (RAW_DATA_SIZE - data.length) 0⟩

/-- A string in memory, unless it does not end there. -/
def stringAt (memory : List UInt8) (p : Nat) : Option (List UInt8) :=
  if 0 ∈ memory.drop p then some (Efax.cString (memory.drop p)) else none

/-- The names of the repeaters, ten octets apart. -/
def repeatersAt (raw_data : List UInt8) : Nat → Nat → Option (List (List UInt8))
  | 0, _ => some []
  | ndigi + 1, p => do
    let repeater ← stringAt raw_data p
    let repeaters ← repeatersAt raw_data ndigi (p + 10)
    return repeater :: repeaters

/-- `handle_agwpe_frame`, with `want_raw_frames_`; nothing when octets outside of the frame are read
or the program is left by an exception. -/
def handle_agwpe_frame (want_raw_frames : Bool) (frame : agwpe_tcp_frame) :
    Option (Bool × List AgwpeEvent) :=
  if frame.dataKind = 'R'.toUInt8 then
    let reply := blankFrame 'R'.toUInt8 (lowBytes 2 2000 ++ [0, 0] ++ lowBytes 2 99 ++ [0, 0])
    some (want_raw_frames, [.write_raw (agwpe_encode_frame reply).2])
  else if frame.dataKind = 'G'.toUInt8 then
    let reply := blankFrame 'G'.toUInt8 ("1; Port 1 EXTMODEM;".toList.map Char.toUInt8)
    some (want_raw_frames, [.write_raw (agwpe_encode_frame reply).2])
  else if frame.dataKind = 'K'.toUInt8 then
    -- without data the length of the packet wraps around
    if frame.dataLen = 0 then none
    else some (want_raw_frames, [.output_packet_to_sc ((frame.data.drop 1).take (frame.dataLen - 1))])
  else if frame.dataKind = 'k'.toUInt8 then some (!want_raw_frames, [])
  else if frame.dataKind = 'V'.toUInt8 then do
    let raw_data := frame.data.set frame.dataLen 0
    -- a negative number of repeaters cannot be reserved
    let ndigi := (raw_data.headD 0).toNat
    if 128 ≤ ndigi then none
    else
      let repeaters ← repeatersAt raw_data ndigi 1
      let data ← stringAt raw_data (1 + 10 * ndigi)
      let callFrom ← stringAt (frame.header ++ raw_data) 8
      let callTo ← stringAt (frame.header ++ raw_data) 18
      return (want_raw_frames,
        [.output_packet_to_sc (encode_frame_data_repeater_mode callFrom callTo repeaters data)])
  else some (want_raw_frames, [])

/-- `agwpe_session::write`; nothing when octets outside of the frame are written. -/
def agwpe_write (want_raw_frames : Bool) (fp : Frame) : Option (List AgwpeEvent) :=
  if want_raw_frames then
    if RAW_DATA_SIZE < fp.data.length + 1 then none
    else
      let frame := blankFrame 'K'.toUInt8 (0 :: fp.data)
      let frame := { frame with header := withLen frame.header (fp.data.length + 1) }
      some [.write_raw (agwpe_encode_frame frame).2]
  else some []

/-! ## Whole frames -/

/-- How many octets belong to a frame behind its header, and whether they are copied. -/
def dataSize (header : List UInt8) : Option (Bool × Nat) :=
  let frame : agwpe_tcp_frame := ⟨header, []⟩
  if frame.dataKind = 'P'.toUInt8 then if frame.dataLen = 512 then some (false, 512) else none
  else if frame.dataKind ∈ emptyKinds then if frame.dataLen = 0 then some (true, 0) else none
  else if frame.dataKind ∈ dataKinds then
    if frame.dataLen < RAW_DATA_SIZE then some (true, frame.dataLen) else none
  else none

/-- The frame that is read, when there is enough behind the header. -/
def readFrame (header p : List UInt8) (copied : Bool) (n : Nat) : agwpe_tcp_frame :=
  ⟨header, if copied then p.take n ++ List.replicate (RAW_DATA_SIZE - n) 0
    else List.replicate RAW_DATA_SIZE 0⟩

theorem decodeKind_eq (header p : List UInt8) :
    decodeKind header p =
      match dataSize header with
      | none => some (-1, ⟨header, List.replicate RAW_DATA_SIZE 0⟩)
      | some (copied, n) =>
        if copied ∧ p.length < n then none
        else some (AGWPE_MIN_HEADER_SIZE + n, readFrame header p copied n) := by
  unfold decodeKind dataSize agwpe_tcp_frame.dataKind agwpe_tcp_frame.dataLen
  simp only
  generalize header.getD 4 0 = kind
  generalize lowValue ((header.drop 28).take 4) = len
  by_cases login : kind = 'P'.toUInt8
  · rw [if_pos login, if_pos login]
    by_cases size : len = 512
    · rw [if_neg (not_not.2 size), if_pos size]
      simp [readFrame]
    · rw [if_pos size, if_neg size]
  · rw [if_neg login, if_neg login]
    by_cases empty : kind ∈ emptyKinds
    · rw [if_pos empty, if_pos empty]
      by_cases size : len = 0
      · rw [if_neg (not_not.2 size), if_pos size]
        simp [readFrame]
      · rw [if_pos size, if_neg size]
    · rw [if_neg empty, if_neg empty]
      by_cases data : kind ∈ dataKinds
      · rw [if_pos data, if_pos data]
        by_cases size : len < RAW_DATA_SIZE
        · rw [if_neg (Nat.not_le_of_lt size), if_pos size]
          simp [readFrame]
        · rw [if_pos (Nat.le_of_not_lt size), if_neg size]
      · rw [if_neg data, if_neg data]

/-- The octets of a frame that is accepted, with all its data and nothing behind them. -/
def Whole (octets : List UInt8) : Prop :=
  AGWPE_MIN_HEADER_SIZE ≤ octets.length ∧
    (dataSize (octets.take AGWPE_MIN_HEADER_SIZE)).map Prod.snd =
      some (octets.length - AGWPE_MIN_HEADER_SIZE)

instance (octets : List UInt8) : Decidable (Whole octets) := inferInstanceAs (Decidable (_ ∧ _))

/-- The frame that octets are read as. -/
def frameOf (octets : List UInt8) : agwpe_tcp_frame :=
  ((agwpe_decode_frame octets octets.length).map Prod.snd).getD .zero

/-- A whole frame is read, whatever is behind it. -/
theorem agwpe_decode_whole {octets : List UInt8} (whole : Whole octets) (rest : List UInt8) {len : Nat}
    (enough : AGWPE_MIN_HEADER_SIZE ≤ len) :
    agwpe_decode_frame (octets ++ rest) len = some ((octets.length : Int), frameOf octets) := by
  obtain ⟨size, data⟩ := whole
  obtain ⟨⟨copied, n⟩, sized, rest'⟩ := Option.map_eq_some_iff.1 data
  have count : n = octets.length - AGWPE_MIN_HEADER_SIZE := rest'
  have decoded (more : List UInt8) {len : Nat} (enough : AGWPE_MIN_HEADER_SIZE ≤ len) :
      agwpe_decode_frame (octets ++ more) len =
        some ((octets.length : Int), readFrame (octets.take AGWPE_MIN_HEADER_SIZE)
          (octets.drop AGWPE_MIN_HEADER_SIZE) copied n) := by
    have there : AGWPE_MIN_HEADER_SIZE ≤ (octets ++ more).length := by
      rw [List.length_append]
      omega
    have behind : n = (octets.drop AGWPE_MIN_HEADER_SIZE).length := by
      rw [List.length_drop, count]
    have total : ((AGWPE_MIN_HEADER_SIZE : Int) + n) = octets.length := by
      omega
    unfold agwpe_decode_frame
    rw [if_neg (Nat.not_lt_of_le enough), if_neg (Nat.not_lt_of_le there),
      List.take_append_of_le_length size, List.drop_append_of_le_length size, decodeKind_eq, sized]
    simp only
    have room : ¬ (copied = true ∧ (octets.drop AGWPE_MIN_HEADER_SIZE ++ more).length < n) := by
      rw [List.length_append]
      omega
    rw [if_neg room, total]
    unfold readFrame
    rw [List.take_append_of_le_length behind.le]
  have alone := decoded [] size
  rw [List.append_nil] at alone
  rw [decoded rest enough]
  unfold frameOf
  rw [alone]
  rfl

theorem dataSize_le {header : List UInt8} {copied : Bool} {n : Nat}
    (sized : dataSize header = some (copied, n)) : n ≤ 512 := by
  unfold dataSize at sized
  simp only at sized
  split_ifs at sized with login size empty none data few
  · cases sized
    exact Nat.le_refl _
  · cases sized
    exact Nat.zero_le _
  · cases sized
    exact Nat.le_of_lt few

/-- What is read of octets is a whole frame, or is not accepted. -/
theorem agwpe_decode_inv {data : List UInt8} {len : Nat} {ret : Int} {frame : agwpe_tcp_frame}
    (decoded : agwpe_decode_frame data len = some (ret, frame)) :
    (ret = 0 ∧ len < AGWPE_MIN_HEADER_SIZE) ∨ (ret = -1 ∧ AGWPE_MIN_HEADER_SIZE ≤ len) ∨
      ∃ n : Nat, ret = n ∧ AGWPE_MIN_HEADER_SIZE ≤ n ∧ n ≤ AGWPE_MIN_HEADER_SIZE + 512 ∧
        AGWPE_MIN_HEADER_SIZE ≤ len ∧ AGWPE_MIN_HEADER_SIZE ≤ data.length ∧
          (n ≤ data.length → Whole (data.take n)) := by
  unfold agwpe_decode_frame at decoded
  split at decoded
  · next short =>
    cases decoded
    exact .inl ⟨rfl, short⟩
  · next enough =>
    split at decoded
    · cases decoded
    · next there =>
      rw [decodeKind_eq] at decoded
      split at decoded
      · cases decoded
        exact .inr (.inl ⟨rfl, Nat.le_of_not_lt enough⟩)
      · next copied n sized =>
        split at decoded
        · cases decoded
        · cases decoded
          have few := dataSize_le sized
          refine .inr (.inr ⟨AGWPE_MIN_HEADER_SIZE + n, rfl, Nat.le_add_right _ _, by omega,
            Nat.le_of_not_lt enough, Nat.le_of_not_lt there, fun fits => ?_⟩)
          have length : (data.take (AGWPE_MIN_HEADER_SIZE + n)).length = AGWPE_MIN_HEADER_SIZE + n :=
            List.length_take_of_le fits
          refine ⟨by omega, ?_⟩
          rw [length, List.take_take, min_eq_left (Nat.le_add_right _ _), sized,
            Nat.add_sub_cancel_left]
          rfl

theorem frameOf_append {header data : List UInt8} (size : header.length = AGWPE_MIN_HEADER_SIZE)
    (sized : dataSize header = some (true, data.length)) :
    Whole (header ++ data) ∧
      frameOf (header ++ data) =
        ⟨header, data ++ List.replicate (RAW_DATA_SIZE - data.length) 0⟩ := by
  have taken : (header ++ data).take AGWPE_MIN_HEADER_SIZE = header := List.take_left' size
  have dropped : (header ++ data).drop AGWPE_MIN_HEADER_SIZE = data := List.drop_left' size
  have length : (header ++ data).length = AGWPE_MIN_HEADER_SIZE + data.length := by
    rw [List.length_append, size]
  constructor
  · refine ⟨by omega, ?_⟩
    rw [taken, sized, length, Nat.add_sub_cancel_left]
    rfl
  · have enough : ¬ (header ++ data).length < AGWPE_MIN_HEADER_SIZE := by omega
    unfold frameOf agwpe_decode_frame
    rw [if_neg enough, if_neg enough, taken, dropped, decodeKind_eq, sized]
    simp only
    rw [if_neg (fun short => Nat.lt_irrefl _ short.2)]
    unfold readFrame
    rw [if_pos rfl, List.take_length]
    rfl

/-! ## Packets for a client -/

/-- The header of a frame that is all zero but for its kind and the length of its data. -/
def headerOf (kind : UInt8) (n : Nat) : List UInt8 :=
  withLen ((List.replicate AGWPE_MIN_HEADER_SIZE 0).set 4 kind) n

theorem headerOf_spec (kind : UInt8) (n : Nat) (data : List UInt8) :
    (headerOf kind n).length = AGWPE_MIN_HEADER_SIZE ∧
      agwpe_tcp_frame.dataKind ⟨headerOf kind n, data⟩ = kind ∧
      agwpe_tcp_frame.dataLen ⟨headerOf kind n, data⟩ = n % 256 ^ 4 ∧
      withLen (headerOf kind n) n = headerOf kind n :=
  ⟨rfl, rfl, lowValue_lowBytes 4 n, rfl⟩

/-- The frame for a packet; an octet that is not used comes before it. -/
def packetFrame (data : List UInt8) : List UInt8 :=
  headerOf 'K'.toUInt8 (data.length + 1) ++ (0 :: data)

/-- The octets that a session writes for a packet. -/
theorem agwpe_write_eq {fp : Frame} (fits : fp.data.length + 1 ≤ RAW_DATA_SIZE) :
    agwpe_write true fp = some [.write_raw (packetFrame fp.data)] := by
  have small : fp.data.length + 1 < 256 ^ 4 := Nat.lt_of_le_of_lt fits (by decide)
  obtain ⟨-, kind, len, again⟩ := headerOf_spec 'K'.toUInt8 (fp.data.length + 1)
    ((0 :: fp.data) ++ List.replicate (RAW_DATA_SIZE - (0 :: fp.data).length) 0)
  rw [Nat.mod_eq_of_lt small] at len
  have encoded : encodedLen ⟨headerOf 'K'.toUInt8 (fp.data.length + 1),
      (0 :: fp.data) ++ List.replicate (RAW_DATA_SIZE - (0 :: fp.data).length) 0⟩ =
        some (fp.data.length + 1) := by
    unfold encodedLen
    rw [kind, len]
    rfl
  have written : agwpe_encode_frame ⟨headerOf 'K'.toUInt8 (fp.data.length + 1),
      (0 :: fp.data) ++ List.replicate (RAW_DATA_SIZE - (0 :: fp.data).length) 0⟩ =
        (AGWPE_MIN_HEADER_SIZE + ((fp.data.length + 1 : Nat) : Int), packetFrame fp.data) := by
    unfold agwpe_encode_frame packetFrame
    rw [encoded]
    simp only
    rw [again, List.take_left' (List.length_cons)]
  unfold agwpe_write
  rw [if_pos rfl, if_neg (Nat.not_lt_of_le fits)]
  exact congrArg (fun r : Int × List UInt8 => some [AgwpeEvent.write_raw r.2]) written

/-- What is done for a whole `K` frame: its packet goes to the air. -/
theorem handle_packet {data : List UInt8} (short : data.length + 1 < RAW_DATA_SIZE) (want : Bool) :
    Whole (packetFrame data) ∧
      handle_agwpe_frame want (frameOf (packetFrame data)) =
        some (want, [.output_packet_to_sc data]) := by
  have small : data.length + 1 < 256 ^ 4 := Nat.lt_trans short (by decide)
  have spec := headerOf_spec 'K'.toUInt8 (data.length + 1)
  have sized : dataSize (headerOf 'K'.toUInt8 (data.length + 1)) = some (true, (0 :: data).length) := by
    obtain ⟨-, kind, len, -⟩ := spec []
    rw [Nat.mod_eq_of_lt small] at len
    unfold dataSize
    simp only
    rw [kind, len, if_neg (by decide), if_neg (by decide), if_pos (by decide), if_pos short]
    rfl
  obtain ⟨whole, read⟩ := frameOf_append (spec []).1 sized
  refine ⟨whole, ?_⟩
  obtain ⟨-, kind, len, -⟩ := spec
    ((0 :: data) ++ List.replicate (RAW_DATA_SIZE - (0 :: data).length) 0)
  rw [Nat.mod_eq_of_lt small] at len
  unfold packetFrame
  rw [read]
  unfold handle_agwpe_frame
  rw [kind, len, if_neg (by decide), if_neg (by decide), if_pos rfl, if_neg (Nat.succ_ne_zero _),
    Nat.add_sub_cancel]
  have packet : (((0 :: data) ++ List.replicate (RAW_DATA_SIZE - (0 :: data).length) 0).drop 1).take
      data.length = data := List.take_left
  simp only
  rw [packet]

/-- A packet of more than 511 octets is written beyond the frame.  What is written for another one
is a whole frame, which puts the same packet on the air when it comes back, unless the packet has
511 octets. -/
theorem agwpe_write_read (fp : Frame) :
    (agwpe_write true fp = none ↔ 511 < fp.data.length) ∧
      ∀ octets, agwpe_write true fp = some [.write_raw octets] →
        (Whole octets ↔ fp.data.length ≤ 510) ∧
          (Whole octets → ∀ want, handle_agwpe_frame want (frameOf octets) =
            some (want, [.output_packet_to_sc fp.data])) := by
  by_cases fits : fp.data.length + 1 ≤ RAW_DATA_SIZE
  · have written := agwpe_write_eq fits
    have within : fp.data.length ≤ 511 := Nat.le_of_succ_le_succ fits
    refine ⟨iff_of_false (fun none => ?_) (Nat.not_lt_of_le within), fun octets same => ?_⟩
    · cases written.symm.trans none
    · have octets' : packetFrame fp.data = octets := by
        cases written.symm.trans same
        rfl
      subst octets'
      by_cases short : fp.data.length + 1 < RAW_DATA_SIZE
      · obtain ⟨whole, -⟩ := handle_packet short true
        exact ⟨iff_of_true whole (Nat.le_of_lt_succ (Nat.lt_of_succ_lt_succ short)),
          fun _ want => (handle_packet short want).2⟩
      · have full : fp.data.length + 1 = RAW_DATA_SIZE := Nat.le_antisymm fits (Nat.le_of_not_lt short)
        have refused : ¬ Whole (packetFrame fp.data) := by
          rintro ⟨-, sized⟩
          unfold packetFrame at sized
          rw [List.take_left' (headerOf_spec _ _ []).1, full] at sized
          have none : dataSize (headerOf 'K'.toUInt8 RAW_DATA_SIZE) = none := by decide
          rw [none] at sized
          cases sized
        have long : ¬ fp.data.length ≤ 510 := by
          have size : RAW_DATA_SIZE = 512 := rfl
          omega
        exact ⟨iff_of_false refused long, fun whole => absurd whole refused⟩
  · have none : agwpe_write true fp = none := by
      unfold agwpe_write
      rw [if_pos rfl, if_pos (Nat.lt_of_not_le fits)]
    refine ⟨iff_of_true none ?_, fun octets written => ?_⟩
    · have size : RAW_DATA_SIZE = 512 := rfl
      omega
    · cases none.symm.trans written

theorem agwpe_write_read_letter :
    Whole (headerOf 'K'.toUInt8 2 ++ [0, 65]) ∧
      handle_agwpe_frame false (frameOf (headerOf 'K'.toUInt8 2 ++ [0, 65])) =
        some (false, [.output_packet_to_sc [65]]) := by
  have written : agwpe_write true ⟨[65], 0⟩ =
    some [.write_raw (headerOf 'K'.toUInt8 2 ++ [0, 65])] := by
    decide
  obtain ⟨whole, reads⟩ := (agwpe_write_read ⟨[65], 0⟩).2 _ written
  exact ⟨whole.2 (by decide), reads (whole.2 (by decide)) false⟩

/-! ## Packets by way of repeaters -/

/-- A call sign in its field of ten octets. -/
def field (a : Address) : List UInt8 := a.text ++ List.replicate (10 - a.text.length) 0

/-- The header of a frame with call signs, as a client sends it. -/
def viaHeader (source destination : Address) (n : Nat) : List UInt8 :=
  [0, 0, 0, 0, 'V'.toUInt8, 0, 0, 0] ++
    (field source ++ (field destination ++ (lowBytes 4 n ++ [0, 0, 0, 0])))

/-- The data of such a frame: the repeaters behind their number, and the text. -/
def viaData (repeaters : List Address) (data : List UInt8) : List UInt8 :=
  UInt8.ofNat repeaters.length :: (repeaters.flatMap field ++ data)

theorem digits_short (n : Fin 16) : (digits n).length ≤ 2 ∧ 0 ∉ digits n := by
  revert n
  decide

theorem Address.text_spec (a : Address) : a.text.length ≤ 9 ∧ 0 ∉ a.text := by
  obtain ⟨few, free⟩ := digits_short a.ssid
  have short := a.short
  unfold Address.text
  constructor
  · rw [List.length_append, List.length_cons]
    omega
  · rw [List.mem_append, List.mem_cons, not_or, not_or]
    exact ⟨fun mem => absurd (a.plain 0 mem).1 (by decide), by decide, free⟩

theorem length_field (a : Address) : (field a).length = 10 := by
  have short := a.text_spec.1
  unfold field
  rw [List.length_append, List.length_replicate]
  omega

/-- The string in a field ends there. -/
theorem field_eq (a : Address) : field a = a.text ++ 0 :: List.replicate (9 - a.text.length) 0 := by
  have short := a.text_spec.1
  have blanks : 10 - a.text.length = (9 - a.text.length) + 1 := by omega
  unfold field
  rw [blanks, List.replicate_succ]

theorem stringAt_eq {memory text rest : List UInt8} {p : Nat}
    (place : memory.drop p = text ++ 0 :: rest) (free : 0 ∉ text) :
    stringAt memory p = some text := by
  have others : ∀ b ∈ text, decide (b ≠ 0) = true := fun b mem =>
    decide_eq_true fun zero => free (zero ▸ mem)
  have stop : (0 :: rest).takeWhile (fun b : UInt8 => decide (b ≠ 0)) = [] := rfl
  unfold stringAt Efax.cString
  rw [place, if_pos (List.mem_append_right _ List.mem_cons_self),
    List.takeWhile_append_of_pos others, stop, List.append_nil]

theorem stringAt_field {memory rest : List UInt8} {p : Nat} {a : Address}
    (place : memory.drop p = field a ++ rest) : stringAt memory p = some a.text := by
  rw [field_eq, List.append_assoc] at place
  exact stringAt_eq place a.text_spec.2

theorem repeatersAt_eq {raw_data rest : List UInt8} {repeaters : List Address} {p : Nat}
    (place : raw_data.drop p = repeaters.flatMap field ++ rest) :
    repeatersAt raw_data repeaters.length p = some (repeaters.map Address.text) := by
  induction repeaters generalizing p with
  | nil => rfl
  | cons a repeaters ih =>
    rw [List.flatMap_cons, List.append_assoc] at place
    have next : raw_data.drop (p + 10) = repeaters.flatMap field ++ rest := by
      rw [← List.drop_drop, place]
      exact List.drop_left' (length_field a)
    rw [List.length_cons, repeatersAt, stringAt_field place, ih next]
    rfl

theorem length_fields (repeaters : List Address) :
    (repeaters.flatMap field).length = 10 * repeaters.length := by
  induction repeaters with
  | nil => rfl
  | cons a repeaters ih =>
    rw [List.flatMap_cons, List.length_append, ih, length_field, List.length_cons]
    omega

theorem length_viaData (repeaters : List Address) (data : List UInt8) :
    (viaData repeaters data).length = 1 + 10 * repeaters.length + data.length := by
  unfold viaData
  rw [List.length_cons, List.length_append, length_fields]
  omega

theorem viaHeader_spec (source destination : Address) (n : Nat) (data : List UInt8) :
    (viaHeader source destination n).length = AGWPE_MIN_HEADER_SIZE ∧
      agwpe_tcp_frame.dataKind ⟨viaHeader source destination n, data⟩ = 'V'.toUInt8 ∧
      agwpe_tcp_frame.dataLen ⟨viaHeader source destination n, data⟩ = n % 256 ^ 4 := by
  have size := length_field source
  have size' := length_field destination
  refine ⟨?_, rfl, ?_⟩
  · unfold viaHeader
    rw [List.length_append, List.length_append, List.length_append, List.length_append, size, size',
      length_lowBytes]
    rfl
  · have behind : (viaHeader source destination n).drop 28 = lowBytes 4 n ++ [0, 0, 0, 0] := by
      have pieces : viaHeader source destination n = ([0, 0, 0, 0, 'V'.toUInt8, 0, 0, 0] ++
          field source ++ field destination) ++ (lowBytes 4 n ++ [0, 0, 0, 0]) := by
        unfold viaHeader
        rw [List.append_assoc, List.append_assoc]
      rw [pieces]
      refine List.drop_left' ?_
      rw [List.length_append, List.length_append, size, size']
      rfl
    unfold agwpe_tcp_frame.dataLen
    rw [behind, List.take_left' (length_lowBytes 4 n)]
    exact lowValue_lowBytes 4 n

/-- The zero that is put behind the data is there already. -/
theorem set_behind (xs : List UInt8) {n : Nat} (room : xs.length < n) :
    (xs ++ List.replicate (n - xs.length) 0).set xs.length 0 =
      xs ++ List.replicate (n - xs.length) 0 := by
  obtain ⟨m, more⟩ : ∃ m, n - xs.length = m + 1 := ⟨n - xs.length - 1, by omega⟩
  rw [more, List.replicate_succ, List.set_append_right _ _ (Nat.le_refl _), Nat.sub_self]
  rfl

end QFax.Extmodem

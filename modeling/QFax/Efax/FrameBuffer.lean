import QFax.Efax.Capability
import QFax.Efax.Frames
import QFax.Efax.ModemLink

/-!
# The frame buffer

`getfr` reads every frame into one buffer and does not pass on its length.  `dislen` follows the
extension bits in the buffer, and `mkcap` reads the fields that this length covers, so that the bytes
of an earlier frame count where the received frame ends before its last extension bit.
-/

namespace QFax.Efax

/-- `MAXFRLEN`. -/
def maxFrLen : Nat := 130

/-- The frame buffer. -/
abbrev FrameBuf : Type := Nat → UInt8

/-- The FIF in the buffer: `fif = buf + 3`. -/
def fifOf (buf : FrameBuf) : List Nat :=
  (List.range (maxFrLen - 3)).map fun i => (buf (i + 3)).toNat

/-- `receive_frame_data`: the data characters of a frame go into the buffer as far as it reaches. -/
def receiveFrameData (n : Nat) (data : List UInt8) (buf : FrameBuf) : FrameBuf := fun i =>
  if i < n then data.getD i (buf i) else buf i

/-- A missing initial 0xff is inserted. -/
def insertFlag (buf : FrameBuf) (n : Nat) : FrameBuf × Nat :=
  if buf 0 = 0xc0 ∨ buf 0 = 0xc8 then
    (fun i => if i = 0 then 0xff else if i ≤ n then buf (i - 1) else buf i, n + 1)
  else (buf, n)

/-- A frame with its bits in reverse order is turned. -/
def turnFrame (buf : FrameBuf) (n : Nat) : FrameBuf × Nat :=
  if buf 1 = 0x03 ∨ buf 1 = 0x13 then
    (fun i => if i < n then BitOrder.normalbits.byte (buf i) else buf i, n)
  else (buf, n)

/-- `fixframe`: the buffer and the length of the frame. -/
def fixframe (buf : FrameBuf) (n : Nat) : FrameBuf × Nat :=
  let (buf, n) := insertFlag buf n
  turnFrame buf n

/-- `getfr` on the data characters of a frame: the frame and the buffer, unless the frame is too short
or too long. -/
def getfr (data : List UInt8) (buf : FrameBuf) : Option (Frame × FrameBuf) :=
  if maxFrLen ≤ data.length ∨ data.length < 3 then none
  else
    let buf := (fixframe (receiveFrameData maxFrLen data buf) data.length).1
    some (Frame.ofCode ((buf 2).toNat &&& 0x7f), buf)

/-- What `c1sndrcv` takes from a frame: of DIS and DTC at label `A`, of DCS at label `F_2`. -/
inductive Negotiated
  | remote (c : Cap) (rxdislen remtx remrx : Nat)
  | session (c : Cap)

def negotiated (frame : Frame) (fif : List Nat) : Option Negotiated :=
  match frame with
  | .dis | .dtc =>
    some (.remote (mkcap fif true) (dislen fif) (fif.getD 1 0 &&& 0x80) (fif.getD 1 0 &&& 0x40))
  | .dcs => some (.session (mkcap fif false))
  | _ => none

/-- The settings that a frame leads to. -/
def fromFrame (data : List UInt8) (buf : FrameBuf) : Option Negotiated :=
  (getfr data buf).bind fun (frame, buf) => negotiated frame (fifOf buf)

/-! ## What was received -/

/-- The bytes of a frame after `insertFlag`. -/
def flagged (data : List UInt8) : List UInt8 :=
  if data.getD 0 0 = 0xc0 ∨ data.getD 0 0 = 0xc8 then 0xff :: data else data

/-- The bytes of a frame after `turnFrame`. -/
def turned (data : List UInt8) : List UInt8 :=
  if data.getD 1 0 = 0x03 ∨ data.getD 1 0 = 0x13 then data.map BitOrder.normalbits.byte else data

/-- The bytes of a frame after `fixframe`. -/
def fixed (data : List UInt8) : List UInt8 := turned (flagged data)

/-- The frame that a frame is taken for. -/
def frameOf (data : List UInt8) : Frame := .ofCode (((fixed data).getD 2 0).toNat &&& 0x7f)

/-- The bytes of the FIF that were received. -/
def receivedFif (data : List UInt8) : List UInt8 := (fixed data).drop 3

/-- A buffer that holds a frame. -/
def held (data : List UInt8) (buf : FrameBuf) : FrameBuf := fun i => data.getD i (buf i)

theorem held_of_lt {data : List UInt8} {i : Nat} (lt : i < data.length) (buf : FrameBuf) :
    held data buf i = data.getD i 0 := by
  rw [held, List.getD_eq_getElem _ _ lt, List.getD_eq_getElem _ _ lt]

theorem held_of_ge {data : List UInt8} {i : Nat} (ge : data.length ≤ i) (buf : FrameBuf) :
    held data buf i = buf i := List.getD_eq_default _ _ ge

theorem insertFlag_held {data : List UInt8} (long : 3 ≤ data.length) (buf : FrameBuf) :
    insertFlag (held data buf) data.length = (held (flagged data) buf, (flagged data).length) := by
  unfold insertFlag flagged
  rw [held_of_lt (by omega)]
  split
  case isFalse => rfl
  case isTrue missing =>
    rw [List.length_cons, Prod.mk.injEq]
    refine ⟨funext fun i => ?_, rfl⟩
    cases i with
    | zero => rfl
    | succ i =>
      rw [if_neg (Nat.succ_ne_zero i), Nat.add_sub_cancel]
      split
      case isTrue inside =>
        rw [held_of_lt inside, held_of_lt (Nat.succ_lt_succ inside)]
        rfl
      case isFalse outside =>
        rw [held_of_ge (by omega), held_of_ge (by rw [List.length_cons]; omega)]

theorem turnFrame_held {data : List UInt8} (long : 3 ≤ data.length) (buf : FrameBuf) :
    turnFrame (held data buf) data.length = (held (turned data) buf, (turned data).length) := by
  unfold turnFrame turned
  rw [held_of_lt (by omega)]
  split
  case isFalse => rfl
  case isTrue reversed =>
    rw [List.length_map, Prod.mk.injEq]
    refine ⟨funext fun i => ?_, rfl⟩
    split
    case isTrue inside =>
      have inside' : i < (data.map BitOrder.normalbits.byte).length := by rwa [List.length_map]
      rw [held, held, List.getD_eq_getElem _ _ inside, List.getD_eq_getElem _ _ inside',
        List.getElem_map]
    case isFalse outside =>
      rw [held_of_ge (Nat.le_of_not_lt outside),
        held_of_ge (by rw [List.length_map]; exact Nat.le_of_not_lt outside)]

theorem length_flagged (data : List UInt8) : data.length ≤ (flagged data).length := by
  unfold flagged
  split
  · exact Nat.le_succ _
  · exact Nat.le_refl _

theorem length_fixed (data : List UInt8) : (fixed data).length = (flagged data).length := by
  unfold fixed turned
  split
  · exact List.length_map _
  · rfl

/-- `fixframe` on a buffer that holds a frame. -/
theorem fixframe_held {data : List UInt8} (long : 3 ≤ data.length) (buf : FrameBuf) :
    fixframe (held data buf) data.length = (held (fixed data) buf, (fixed data).length) := by
  rw [fixframe, insertFlag_held long]
  exact turnFrame_held (long.trans (length_flagged data)) buf

theorem receiveFrameData_eq {data : List UInt8} (short : data.length < maxFrLen) (buf : FrameBuf) :
    receiveFrameData maxFrLen data buf = held data buf := by
  funext i
  unfold receiveFrameData
  split
  case isTrue => rfl
  case isFalse outside => rw [held_of_ge (by omega)]

theorem getfr_eq {data : List UInt8} (long : 3 ≤ data.length) (short : data.length < maxFrLen)
    (buf : FrameBuf) : getfr data buf = some (frameOf data, held (fixed data) buf) := by
  have control : 2 < (fixed data).length := by
    have flagged := length_flagged data
    rw [length_fixed]
    omega
  simp only [getfr]
  rw [if_neg (by omega), receiveFrameData_eq short, fixframe_held long, frameOf,
    ← held_of_lt control buf]

/-! ## The length of a FIF -/

theorem getD_fifOf {buf : FrameBuf} {i : Nat} (inside : i < 127) :
    (fifOf buf).getD i 0 = (buf (i + 3)).toNat := by
  have inside' : i < (fifOf buf).length := by simpa [fifOf, maxFrLen] using inside
  rw [List.getD_eq_getElem _ _ inside']
  simp [fifOf]

/-- No extension bit: the FIF ends at this byte. -/
def Ends (fif : List Nat) (i : Nat) : Prop := fif.getD i 0 &&& 0x01 = 0

instance (fif : List Nat) (i : Nat) : Decidable (Ends fif i) :=
  inferInstanceAs (Decidable (_ = _))

theorem disLenFrom_le_iff {fif : List Nat} {fuel n b : Nat} (enough : maxFifLen ≤ fuel + n)
    (start : n ≤ maxFifLen) (positive : 0 < n) : disLenFrom fif fuel n ≤ b ↔
      n ≤ b ∧ ((∃ i, n ≤ i + 1 ∧ i < b ∧ Ends fif i) ∨ maxFifLen ≤ b) := by
  induction fuel generalizing n with
  | zero =>
    rw [disLenFrom]
    exact ⟨fun le => ⟨le, .inr (by omega)⟩, fun ⟨le, _⟩ => le⟩
  | succ fuel ih =>
    rw [disLenFrom]
    split
    case isTrue more =>
      obtain ⟨extended, inside⟩ := more
      rw [ih (by omega) inside (Nat.succ_pos n)]
      constructor
      · rintro ⟨le, ⟨i, from', lt, ends⟩ | limit⟩
        · exact ⟨by omega, .inl ⟨i, by omega, lt, ends⟩⟩
        · exact ⟨by omega, .inr limit⟩
      · rintro ⟨le, ⟨i, from', lt, ends⟩ | limit⟩
        · have later : i ≠ n - 1 := by
            rintro rfl
            exact extended ends
          exact ⟨by omega, .inl ⟨i, by omega, lt, ends⟩⟩
        · exact ⟨by omega, .inr limit⟩
    case isFalse last =>
      refine ⟨fun le => ⟨le, ?_⟩, fun ⟨le, _⟩ => le⟩
      by_cases ends : Ends fif (n - 1)
      · exact .inl ⟨n - 1, by omega, by omega, ends⟩
      · exact .inr (by_contra fun short => last ⟨ends, by omega⟩)

/-- The length is within `b` when a byte from the third on ends the FIF there, or by its limit. -/
theorem dislen_le_iff {fif : List Nat} {b : Nat} :
    dislen fif ≤ b ↔ 3 ≤ b ∧ ((∃ i, 2 ≤ i ∧ i < b ∧ Ends fif i) ∨ maxFifLen ≤ b) := by
  rw [dislen, disLenFrom_le_iff (by decide) (by decide) (by decide)]
  simp only [Nat.succ_le_succ_iff]

/-! ## Which frames settle their settings -/

/-- A byte of the FIF that was received has no extension bit, or the bytes that matter for the frame
were received: all up to the limit of the length for DIS and DTC, all fields for DCS. -/
def Complete (data : List UInt8) : Prop :=
  (∃ i < (receivedFif data).length, 2 ≤ i ∧ ((receivedFif data).getD i 0).toNat &&& 0x01 = 0) ∨
    (if frameOf data = .dcs then 6 else maxFifLen - 1) ≤ (receivedFif data).length

/-- The settings depend on the received frame only. -/
def FrameOnly (data : List UInt8) : Prop := ∀ buf buf', fromFrame data buf = fromFrame data buf'

/-- The FIF that is read from the buffer after a frame. -/
def fifAfter (data : List UInt8) (buf : FrameBuf) : List Nat := fifOf (held (fixed data) buf)

variable {data : List UInt8} {buf buf' : FrameBuf}

theorem fifAfter_received {i : Nat} (received : i < (receivedFif data).length) (inside : i < 127) :
    (fifAfter data buf).getD i 0 = ((receivedFif data).getD i 0).toNat := by
  have received' : i + 3 < (fixed data).length := by
    rw [receivedFif, List.length_drop] at received
    omega
  rw [fifAfter, getD_fifOf inside, held_of_lt received', receivedFif]
  simp [List.getD_eq_getElem?_getD, Nat.add_comm]

theorem fifAfter_stale {i : Nat} (stale : (receivedFif data).length ≤ i) (inside : i < 127) :
    (fifAfter data buf).getD i 0 = (buf (i + 3)).toNat := by
  have stale' : (fixed data).length ≤ i + 3 := by
    rw [receivedFif, List.length_drop] at stale
    omega
  rw [fifAfter, getD_fifOf inside, held_of_ge stale']

theorem length_receivedFif (short : data.length < maxFrLen) : (receivedFif data).length ≤ 127 := by
  have flagged : (flagged data).length ≤ data.length + 1 := by
    unfold flagged
    split
    · exact Nat.le_refl _
    · exact Nat.le_succ _
  rw [receivedFif, List.length_drop, length_fixed]
  unfold maxFrLen at short
  omega

theorem fifAfter_same (short : data.length < maxFrLen) {i : Nat}
    (received : i < (receivedFif data).length) :
    (fifAfter data buf).getD i 0 = (fifAfter data buf').getD i 0 := by
  have inside := received.trans_le (length_receivedFif short)
  rw [fifAfter_received received inside, fifAfter_received received inside]

theorem dislen_le_congr {fif fif' : List Nat} {b : Nat}
    (same : ∀ i < b, fif.getD i 0 = fif'.getD i 0) : dislen fif ≤ b ↔ dislen fif' ≤ b := by
  rw [dislen_le_iff, dislen_le_iff]
  refine and_congr_right fun _ => or_congr_left (exists_congr fun i => and_congr_right fun _ =>
    and_congr_right fun inside => ?_)
  rw [Ends, Ends, same i inside]

theorem byte_le_five (i : CapType) : (t30tab i).byte ≤ 5 := by
  cases i <;> decide

/-- `mkcap` reads the bytes of the fields that the length covers. -/
theorem mkcap_congr {fif fif' : List Nat} (dis : Bool)
    (length : ∀ b ≤ 5, dislen fif ≤ b ↔ dislen fif' ≤ b)
    (same : ∀ b ≤ 5, b < dislen fif → fif.getD b 0 = fif'.getD b 0) :
    mkcap fif dis = mkcap fif' dis := by
  funext i
  have bound := byte_le_five i
  simp only [mkcap]
  by_cases covered : dislen fif ≤ (t30tab i).byte
  · rw [if_pos covered, if_pos ((length _ bound).mp covered)]
  · rw [if_neg covered, if_neg fun le => covered ((length _ bound).mpr le),
      same _ bound (Nat.lt_of_not_le covered)]

theorem negotiated_congr {fif fif' : List Nat} (frame : Frame) (length : dislen fif = dislen fif')
    (same : ∀ b ≤ 5, b < dislen fif → fif.getD b 0 = fif'.getD b 0) :
    negotiated frame fif = negotiated frame fif' := by
  have caps : ∀ dis, mkcap fif dis = mkcap fif' dis := fun dis =>
    mkcap_congr dis (fun b _ => by rw [length]) same
  have three : 1 < dislen fif := Nat.lt_of_not_le fun le => by
    have start := (dislen_le_iff.mp le).1
    omega
  unfold negotiated
  split <;> simp only [caps, length, same 1 (by decide) three]

/-- A FIF that ends in a received byte has one length and the same fields. -/
theorem negotiated_ended (short : data.length < maxFrLen) {m : Nat}
    (received : m < (receivedFif data).length) (third : 2 ≤ m)
    (ends : ((receivedFif data).getD m 0).toNat &&& 0x01 = 0) (frame : Frame) :
    negotiated frame (fifAfter data buf) = negotiated frame (fifAfter data buf') := by
  have inside := received.trans_le (length_receivedFif short)
  have bounded : ∀ buf, dislen (fifAfter data buf) ≤ m + 1 := by
    intro buf
    refine dislen_le_iff.mpr ⟨by omega, .inl ⟨m, third, Nat.lt_succ_self m, ?_⟩⟩
    rwa [Ends, fifAfter_received received inside]
  refine negotiated_congr frame (eq_of_forall_ge_iff fun b => ?_) fun b _ lt =>
    fifAfter_same short (by have := bounded buf; omega)
  by_cases beyond : m + 1 ≤ b
  · exact iff_of_true ((bounded buf).trans beyond) ((bounded buf').trans beyond)
  · exact dislen_le_congr fun i lt => fifAfter_same short (by omega)

/-- A FIF whose extension bits go on up to the limit has the greatest length. -/
theorem negotiated_longest (short : data.length < maxFrLen)
    (long : maxFifLen - 1 ≤ (receivedFif data).length) (frame : Frame) :
    negotiated frame (fifAfter data buf) = negotiated frame (fifAfter data buf') := by
  have limit : maxFifLen = 125 := rfl
  refine negotiated_congr frame (eq_of_forall_ge_iff fun b => ?_) fun b _ _ =>
    fifAfter_same short (by omega)
  by_cases beyond : maxFifLen ≤ b
  · exact iff_of_true (dislen_le_iff.mpr ⟨by omega, .inr beyond⟩)
      (dislen_le_iff.mpr ⟨by omega, .inr beyond⟩)
  · exact dislen_le_congr fun i lt => fifAfter_same short (by omega)

/-- The fields of a DCS frame are in its first six bytes. -/
theorem negotiated_session (short : data.length < maxFrLen) (long : 6 ≤ (receivedFif data).length) :
    negotiated .dcs (fifAfter data buf) = negotiated .dcs (fifAfter data buf') := by
  have caps : mkcap (fifAfter data buf) false = mkcap (fifAfter data buf') false :=
    mkcap_congr false (fun b le => dislen_le_congr fun i lt => fifAfter_same short (by omega))
      fun b le _ => fifAfter_same short (by omega)
  simp only [negotiated, caps]

theorem Complete.negotiated (complete : Complete data) (short : data.length < maxFrLen) :
    negotiated (frameOf data) (fifAfter data buf) = negotiated (frameOf data) (fifAfter data buf') := by
  rcases complete with ⟨m, received, third, ends⟩ | long
  · exact negotiated_ended short received third ends _
  · split at long
    case isTrue dcs => rw [dcs]; exact negotiated_session short long
    case isFalse => exact negotiated_longest short long _

/-- Where no received byte ends the FIF, it goes on while the buffer has extension bits. -/
theorem goes_on (odd : ∀ i < (receivedFif data).length, 2 ≤ i →
    ((receivedFif data).getD i 0).toNat &&& 0x01 ≠ 0) {b : Nat} (below : b < maxFifLen) :
    ¬ dislen (fifAfter data fun _ => 0xff) ≤ b := by
  intro le
  obtain ⟨start, ⟨i, third, lt, ends⟩ | limit⟩ := dislen_le_iff.mp le
  · have inside : i < 127 := by
      have limit : maxFifLen = 125 := rfl
      omega
    by_cases received : i < (receivedFif data).length
    · rw [Ends, fifAfter_received received inside] at ends
      exact odd i received third ends
    · rw [Ends, fifAfter_stale (Nat.le_of_not_lt received) inside] at ends
      exact absurd ends (by decide)
  · omega

/-- A byte that was not received ends the FIF if the buffer has no extension bit there. -/
theorem stops_at {m : Nat} (stale : (receivedFif data).length ≤ m) (third : 2 ≤ m)
    (inside : m < 127) : dislen (fifAfter data fun _ => 0) ≤ m + 1 := by
  refine dislen_le_iff.mpr ⟨by omega, .inl ⟨m, third, Nat.lt_succ_self m, ?_⟩⟩
  rw [Ends, fifAfter_stale stale inside]
  decide

/-- The last field of a DCS frame that is too short comes from the buffer. -/
theorem session_differs (odd : ∀ i < (receivedFif data).length, 2 ≤ i →
    ((receivedFif data).getD i 0).toNat &&& 0x01 ≠ 0) (short : (receivedFif data).length ≤ 5) :
    mkcap (fifAfter data fun _ => 0) false .bf ≠ mkcap (fifAfter data fun _ => 0xff) false .bf := by
  have zero : mkcap (fifAfter data fun _ => 0) false .bf = 0 := by
    simp only [mkcap, t30tab, fifAfter_stale short (show 5 < 127 by decide)]
    split <;> rfl
  have one : mkcap (fifAfter data fun _ => 0xff) false .bf = 1 := by
    simp only [mkcap, t30tab, fifAfter_stale short (show 5 < 127 by decide),
      if_neg (goes_on odd (show 5 < maxFifLen by decide))]
    rfl
  rw [zero, one]
  decide

/-- Without the bytes that matter, two earlier contents of the buffer lead to different settings. -/
theorem not_complete_differs (incomplete : ¬ Complete data)
    (accepted : frameOf data ∈ [.dis, .dtc, .dcs]) :
    negotiated (frameOf data) (fifAfter data fun _ => 0) ≠
      negotiated (frameOf data) (fifAfter data fun _ => 0xff) := by
  rw [Complete, not_or] at incomplete
  obtain ⟨goesOn, short⟩ := incomplete
  have odd : ∀ i < (receivedFif data).length, 2 ≤ i →
      ((receivedFif data).getD i 0).toNat &&& 0x01 ≠ 0 := fun i received third ends =>
    goesOn ⟨i, received, third, ends⟩
  have remote : (receivedFif data).length < maxFifLen - 1 →
      dislen (fifAfter data fun _ => 0) ≠ dislen (fifAfter data fun _ => 0xff) := by
    intro short same
    have limit : maxFifLen = 125 := rfl
    have stop : dislen (fifAfter data fun _ => 0) ≤ max (receivedFif data).length 2 + 1 :=
      stops_at (le_max_left _ _) (le_max_right _ _) (by omega)
    exact goes_on odd (by omega) (same ▸ stop)
  intro same
  have frames : frameOf data = .dis ∨ frameOf data = .dtc ∨ frameOf data = .dcs := by
    simpa using accepted
  rcases frames with frame | frame | frame
  · rw [frame, if_neg (by decide), Nat.not_le] at short
    rw [frame] at same
    exact remote short (Negotiated.remote.inj (Option.some.inj same)).2.1
  · rw [frame, if_neg (by decide), Nat.not_le] at short
    rw [frame] at same
    exact remote short (Negotiated.remote.inj (Option.some.inj same)).2.1
  · rw [frame, if_pos rfl, Nat.not_le] at short
    rw [frame] at same
    exact session_differs odd (Nat.le_of_lt_succ short)
      (congrFun (Negotiated.session.inj (Option.some.inj same)) .bf)

/-- `getfr` accepts the frame as DIS, DTC or DCS. -/
def Accepted (data : List UInt8) : Prop :=
  ∃ buf frame buf', getfr data buf = some (frame, buf') ∧ frame ∈ [.dis, .dtc, .dcs]

theorem Accepted.spec (accepted : Accepted data) : 3 ≤ data.length ∧ data.length < maxFrLen ∧
    frameOf data ∈ [.dis, .dtc, .dcs] := by
  obtain ⟨buf, frame, buf', taken, kind⟩ := accepted
  by_cases refused : maxFrLen ≤ data.length ∨ data.length < 3
  · rw [getfr, if_pos refused] at taken
    cases taken
  · rw [not_or, Nat.not_le, Nat.not_lt] at refused
    rw [getfr_eq refused.2 refused.1] at taken
    cases taken
    exact ⟨refused.2, refused.1, kind⟩

/-- What is taken from an accepted DIS, DTC or DCS frame depends on this frame alone exactly when the
bytes that matter were received. -/
theorem frame_only_iff {data : List UInt8} (accepted : Accepted data) :
    FrameOnly data ↔ Complete data := by
  obtain ⟨long, short, kind⟩ := accepted.spec
  have settings : ∀ buf, fromFrame data buf = negotiated (frameOf data) (fifAfter data buf) := by
    intro buf
    rw [fromFrame, getfr_eq long short]
    rfl
  constructor
  · intro only
    by_contra incomplete
    exact not_complete_differs incomplete kind (by rw [← settings, ← settings]; exact only _ _)
  · intro complete buf buf'
    rw [settings, settings]
    exact complete.negotiated short

/-- A DIS frame of the usual length. -/
def shortDis : List UInt8 := [0xff, 0xc8, 0x01, 0x00, 0x46, 0x88]

theorem accepted_shortDis : Accepted shortDis :=
  ⟨fun _ => 0, _, _, rfl, by decide⟩

theorem frame_only_dis : FrameOnly shortDis ↔ Complete shortDis := frame_only_iff accepted_shortDis

/-- The length in some settings. -/
def Negotiated.rxdislen : Negotiated → Nat
  | .remote _ rxdislen _ _ => rxdislen
  | .session _ => 0

/-- A DIS frame that lost its last byte: the length of the FIF comes from the buffer. -/
theorem truncated_dis_differs : Accepted [0xff, 0xc8, 0x01, 0x00, 0x46] ∧
    ¬ FrameOnly [0xff, 0xc8, 0x01, 0x00, 0x46] := by
  refine ⟨⟨fun _ => 0, _, _, rfl, by decide⟩, fun only => ?_⟩
  have lengths := congrArg (Option.map Negotiated.rxdislen) (only (fun _ => 0) fun _ => 0xff)
  exact absurd lengths (by decide +kernel)

end QFax.Efax

import QFax.Efax.Responses
import QFax.Extmodem.Crc
import QFax.Lib.ByteOrder

/-!
# Packet modem: addresses

`ax25_utils` puts the header of a packet together from call signs written out, and
`ax25_print_packet` shows packets for the log.  What is shown of a packet are the call signs it was made from.
-/

namespace QFax.Extmodem

def AX25_UI_FRAME : UInt8 := 3
def AX25_PID_NO_LAYER_3 : UInt8 := 0xf0

/-! ## Putting a packet together -/

/-- `atoi` reads what `sscanf` does, and zero where there is no number. -/
def atoi (s : List UInt8) : Int := (Efax.scanInt s).getD 0

/-- `-flag`, of which one bit is used. -/
def minus (flag : Bool) : UInt8 := if flag then 0xff else 0

/-- The number behind the separator, and where the call sign ends. -/
def ssidOf (address : List UInt8) : Int × Nat :=
  match address.idxOf? '-'.toUInt8 with
  | some sep =>
    if sep ≠ address.length - 1 then (atoi (address.drop (sep + 1)), sep) else (0, address.length)
  | none => (0, address.length)

/-- The octet with the number and the flags. -/
def ssidOctet (ssid : Int) (flags_first_bit flags_last_bit : Bool) : UInt8 :=
  let octet : UInt8 := .ofInt ssid
  let octet := octet <<< 1
  let octet := octet ^^^ ((minus flags_first_bit ^^^ octet) &&& 0x80)
  let octet := octet ||| 0x40
  let octet := octet ||| 0x20
  octet ^^^ ((minus flags_last_bit ^^^ octet) &&& 1)

def encode_addr (address : List UInt8) (flags_first_bit flags_last_bit : Bool) : List UInt8 :=
  let (ssid, sep) := ssidOf address
  let call := (address.take (min sep 6)).map fun b : UInt8 => b <<< 1
  call ++ List.replicate (6 - call.length) 0x40 ++ [ssidOctet ssid flags_first_bit flags_last_bit]

def encode_source_addr (address : List UInt8) (is_cmd_res has_repeaters : Bool) : List UInt8 :=
  encode_addr address is_cmd_res !has_repeaters

def encode_destination_addr (address : List UInt8) (is_cmd_res : Bool) : List UInt8 :=
  encode_addr address is_cmd_res false

def encode_repeater_addr (address : List UInt8) (has_been_repeated is_last_repeater : Bool) :
    List UInt8 :=
  encode_addr address has_been_repeated is_last_repeater

/-- The loop over the repeaters. -/
def encodeRepeaters : List (List UInt8) → List UInt8
  | [] => []
  | repeater :: repeaters =>
    encode_repeater_addr repeater false repeaters.isEmpty ++ encodeRepeaters repeaters

def encode_frame_data_repeater_mode (source_addr destination_addr : List UInt8)
    (repeaters_addrs : List (List UInt8)) (data : List UInt8) : List UInt8 :=
  encode_destination_addr destination_addr true ++
    (encode_source_addr source_addr true (repeaters_addrs.length > 0) ++
      (encodeRepeaters repeaters_addrs ++ (AX25_UI_FRAME :: AX25_PID_NO_LAYER_3 :: data)))

/-! ## Showing a packet -/

/-- `%c`. -/
def char (b : UInt8) : Char := Char.ofNat b.toNat

/-- `%u`, of an octet. -/
def decimal (b : UInt8) : List Char := Nat.toDigits 10 b.toNat

/-- `%0wx`. -/
def hex (w n : Nat) : List Char :=
  List.replicate (w - (Nat.toDigits 16 n).length) '0' ++ Nat.toDigits 16 n

/-- A call sign, without the blanks behind it. -/
def printCall (bp : List UInt8) : List Char :=
  ((bp.take 6).filter fun b => b &&& 0xfe ≠ 0x40).map fun b : UInt8 => char (b >>> 1)

/-- The number of a station. -/
def printSsid (b : UInt8) : List Char := '-' :: decimal ((b >>> 1) &&& 0xf)

/-- The repeaters, with `bp[-1]`, and what comes behind them. -/
def printVia (before : UInt8) : List UInt8 → List Char × List UInt8
  | a :: b :: c :: d :: e :: f :: g :: bp =>
    if before &&& 1 = 0 then
      let more := printVia g bp
      let comma := if g &&& 1 = 0 ∧ 7 ≤ bp.length then [','] else []
      (printCall [a, b, c, d, e, f] ++ printSsid g ++ comma ++ more.1, more.2)
    else ([], a :: b :: c :: d :: e :: f :: g :: bp)
  | bp => ([], bp)

/-- What an unnumbered or a supervisory control octet is called. -/
def controlName (i : UInt8) : List Char :=
  if i &&& 1 = 0 then " I".toList ++ decimal ((i >>> 5) &&& 7) ++ decimal ((i >>> 1) &&& 7)
  else if i &&& 2 ≠ 0 then
    let u := i &&& ~~~ 0x10
    if u = 0x03 then " UI".toList
    else if u = 0x2f then " SABM".toList
    else if u = 0x43 then " DISC".toList
    else if u = 0x0f then " DM".toList
    else if u = 0x63 then " UA".toList
    else if u = 0x87 then " FRMR".toList
    else " unknown U (0x".toList ++ Nat.toDigits 16 u.toNat ++ [')']
  else
    let s := i &&& 0xf
    if s = 0x1 then " RR".toList ++ decimal ((i >>> 5) &&& 7)
    else if s = 0x5 then " RNR".toList ++ decimal ((i >>> 5) &&& 7)
    else if s = 0x9 then " REJ".toList ++ decimal ((i >>> 5) &&& 7)
    else " unknown S (0x".toList ++ Nat.toDigits 16 s.toNat ++ [')'] ++ decimal ((i >>> 5) &&& 7)

/-- The mark behind it: the poll bit, and whether the packet is a command. -/
def controlMark (i : UInt8) (v1 cmd : Bool) : Char :=
  if v1 then (if i &&& 0x10 ≠ 0 then '!' else ' ')
  else if i &&& 0x10 ≠ 0 then (if cmd then '+' else '-')
  else if cmd then '^' else 'v'

/-- The text of a packet; `j` is set in a line that has begun. -/
def printInfo : Bool → List UInt8 → List Char
  | j, [] => if j then ['\n'] else []
  | j, i :: bp =>
    if 32 ≤ i ∧ i < 128 then char i :: printInfo true bp
    else if i = 13 then (if j then ['\n'] else []) ++ printInfo false bp
    else '.' :: printInfo (j || decide (32 ≤ i)) bp

/-- What follows the addresses. -/
def printControl (v1 cmd : Bool) (crc : Nat) : List UInt8 → List Char
  | [] => []
  | i :: bp =>
    controlName i ++ controlMark i v1 cmd ::
      match bp with
      | [] => ['\n']
      | pid :: bp =>
        " pid=".toList ++ (hex 2 pid.toNat).map Char.toUpper ++ " crc=".toList ++ hex 4 crc ++
          '\n' :: printInfo false bp

/-- A compressed header: a character of six bits, unless it is zero. -/
def printSix (i : UInt8) : List Char := if i ≠ 0 then [char (i + 0x20)] else []

/-- What `ax25_print_packet` writes of a packet with its header behind `name`. -/
def printHeader (bp : List UInt8) (name : List Char) (crc : Nat) : List Char :=
  match bp with
  | b0 :: b1 :: b2 :: b3 :: b4 :: b5 :: b6 :: rest =>
    if b1 &&& 1 ≠ 0 then
      name ++ ": fm ? to ".toList ++ printSix ((b2 >>> 2) &&& 0x3f) ++
        printSix (((b2 <<< 4) ||| ((b3 >>> 4) &&& 0xf)) &&& 0x3f) ++
        printSix (((b3 <<< 2) ||| ((b4 >>> 6) &&& 3)) &&& 0x3f) ++ printSix (b4 &&& 0x3f) ++
        printSix ((b5 >>> 2) &&& 0x3f) ++ printSix (((b5 <<< 4) ||| ((b6 >>> 4) &&& 0xf)) &&& 0x3f) ++
        '-' :: decimal (b6 &&& 0xf) ++ " QSO Nr ".toList ++
        Nat.toDigits 10 ((b0.toNat <<< 6) ||| (b1.toNat >>> 2)) ++
        printControl false (b1 &&& 2 ≠ 0) crc rest
    else
      match rest with
      | c0 :: c1 :: c2 :: c3 :: c4 :: c5 :: c6 :: i :: rest =>
        let same : Bool := b6 &&& 0x80 = c6 &&& 0x80
        let via := printVia c6 (i :: rest)
        name ++ ": fm ".toList ++ printCall [c0, c1, c2, c3, c4, c5] ++ printSsid c6 ++ " to ".toList ++
          printCall [b0, b1, b2, b3, b4, b5] ++ printSsid b6 ++
          (if c6 &&& 1 = 0 ∧ 7 ≤ (i :: rest).length then " via ".toList else []) ++ via.1 ++
          printControl same (!same && b6 &&& 0x80 ≠ 0) crc via.2
      | _ => []
  | _ => []

/-- `ax25_print_packet`; the check stands behind the packet, or is computed. -/
def ax25_print_packet (bp : List UInt8) (name : List Char) (has_crc : Bool) : List Char :=
  if bp.length < 10 then []
  else if has_crc then
    printHeader (bp.take (bp.length - 2)) name (ByteOrder.lowValue (bp.drop (bp.length - 2)))
  else printHeader bp name (calc_crc_ccitt bp).toNat

/-! ## Stations -/

/-- The digits of a number, as a client writes them. -/
def digits (n : Nat) : List UInt8 := (Nat.toDigits 10 n).map fun c => .ofNat c.toNat

/-- A call sign and the number of a station. -/
structure Address where
  call : List UInt8
  ssid : Fin 16
  short : call.length ≤ 6
  plain : ∀ c ∈ call, 32 < c ∧ c < 128 ∧ c ≠ '-'.toUInt8

/-- An address written out. -/
def Address.text (a : Address) : List UInt8 := a.call ++ '-'.toUInt8 :: digits a.ssid

/-- What is shown of it. -/
def Address.shown (a : Address) : List Char := a.text.map char

theorem digits_read (n : Fin 16) : atoi (digits n) = (n : Nat) ∧ digits n ≠ [] := by
  revert n
  decide

theorem ssidOf_text (a : Address) : ssidOf a.text = (((a.ssid : Nat) : Int), a.call.length) := by
  obtain ⟨read, some'⟩ := digits_read a.ssid
  have place : a.text.idxOf? '-'.toUInt8 = some a.call.length := by
    have absent : a.call.findIdx? (· == '-'.toUInt8) = none :=
      List.findIdx?_eq_none_iff.2 fun c mem => beq_false_of_ne (a.plain c mem).2.2
    unfold List.idxOf? Address.text
    rw [List.findIdx?_append, absent, List.findIdx?_cons]
    simp
  have length : a.text.length = a.call.length + (1 + (digits a.ssid).length) := by
    unfold Address.text
    rw [List.length_append, List.length_cons, Nat.add_comm 1]
  have positive := List.length_pos_of_ne_nil some'
  unfold ssidOf
  rw [place]
  simp only
  rw [if_pos (by omega)]
  have rest : a.text.drop (a.call.length + 1) = digits a.ssid := by
    unfold Address.text
    rw [← List.drop_drop, List.drop_left]
    rfl
  rw [rest, read]

/-- The flags and the number are read back from their octet. -/
theorem ssidOctet_read (n : Fin 16) (first last : Bool) :
    (ssidOctet (n : Nat) first last &&& 1 = 0 ↔ last = false) ∧
      (ssidOctet (n : Nat) first last &&& 0x80 = if first then 0x80 else 0) ∧
      printSsid (ssidOctet (n : Nat) first last) = '-' :: (digits n).map char := by
  revert n first last
  decide

/-- A character is shifted and shifted back. -/
theorem plain_shift {c : UInt8} (plain : 32 < c ∧ c < 128) :
    (c <<< 1) >>> 1 = c ∧ c <<< 1 &&& 0xfe ≠ 0x40 ∧ c <<< 1 &&& 1 = 0 := by
  have all : ∀ n < 128, 32 < n → (UInt8.ofNat n <<< 1) >>> 1 = UInt8.ofNat n ∧
      UInt8.ofNat n <<< 1 &&& 0xfe ≠ 0x40 ∧ UInt8.ofNat n <<< 1 &&& 1 = 0 := by
    decide
  have same := all c.toNat (UInt8.lt_iff_toNat_lt.1 plain.2) (UInt8.lt_iff_toNat_lt.1 plain.1)
  rwa [UInt8.ofNat_toNat] at same

/-- The six octets of a call sign. -/
def Address.octets (a : Address) : List UInt8 :=
  (a.call.map fun b : UInt8 => b <<< 1) ++ List.replicate (6 - a.call.length) 0x40

theorem Address.length_octets (a : Address) : a.octets.length = 6 := by
  have short := a.short
  unfold Address.octets
  rw [List.length_append, List.length_map, List.length_replicate]
  omega

theorem Address.even_octets (a : Address) : ∀ b ∈ a.octets, b &&& 1 = 0 := by
  intro b mem
  rcases List.mem_append.1 mem with call | blank
  · obtain ⟨c, inside, rfl⟩ := List.mem_map.1 call
    obtain ⟨above, below, -⟩ := a.plain c inside
    exact (plain_shift ⟨above, below⟩).2.2
  · rw [List.eq_of_mem_replicate blank]
    rfl

/-- Blanks are not shown. -/
theorem Address.printCall_octets (a : Address) : printCall a.octets = a.call.map char := by
  unfold printCall
  rw [List.take_of_length_le a.length_octets.le]
  unfold Address.octets
  have blanks : (List.replicate (6 - a.call.length) (0x40 : UInt8)).filter
      (fun b => b &&& 0xfe ≠ 0x40) = [] := by
    rw [List.filter_eq_nil_iff]
    intro b mem
    rw [List.eq_of_mem_replicate mem]
    decide
  have letters : ∀ b ∈ a.call.map (fun b : UInt8 => b <<< 1), decide (b &&& 0xfe ≠ 0x40) = true := by
    intro b mem
    obtain ⟨c, inside, rfl⟩ := List.mem_map.1 mem
    obtain ⟨above, below, -⟩ := a.plain c inside
    exact decide_eq_true (plain_shift ⟨above, below⟩).2.1
  rw [List.filter_append, blanks, List.append_nil, List.filter_eq_self.2 letters, List.map_map]
  refine List.map_congr_left fun c mem => ?_
  obtain ⟨above, below, -⟩ := a.plain c mem
  exact congrArg char (plain_shift ⟨above, below⟩).1

theorem encode_addr_text (a : Address) (first last : Bool) :
    encode_addr a.text first last = a.octets ++ [ssidOctet (a.ssid : Nat) first last] := by
  have taken : a.text.take a.call.length = a.call := List.take_left
  unfold encode_addr
  rw [ssidOf_text]
  simp only
  rw [min_eq_left a.short, taken, List.length_map]
  rfl

/-- Six octets, one by one. -/
theorem Address.exists_octets (a : Address) : ∃ b0 b1 b2 b3 b4 b5,
    a.octets = [b0, b1, b2, b3, b4, b5] ∧ b1 &&& 1 = 0 ∧
      printCall [b0, b1, b2, b3, b4, b5] = a.call.map char := by
  have size := a.length_octets
  have even := a.even_octets
  have shows := a.printCall_octets
  generalize a.octets = octets at size even shows
  match octets, size with
  | [b0, b1, b2, b3, b4, b5], _ =>
    exact ⟨b0, b1, b2, b3, b4, b5, rfl, even b1 (List.mem_cons_of_mem _ List.mem_cons_self), shows⟩

/-- An address is shown as it was written. -/
theorem Address.shown_eq (a : Address) (first last : Bool) :
    a.call.map char ++ printSsid (ssidOctet (a.ssid : Nat) first last) = a.shown := by
  rw [(ssidOctet_read a.ssid first last).2.2]
  unfold Address.shown Address.text
  rw [List.map_append, List.map_cons]
  rfl

/-- The repeaters, as they are shown. -/
def shownVia (repeaters : List Address) : List Char :=
  if repeaters = [] then [] else " via ".toList ++ [','].intercalate (repeaters.map Address.shown)

theorem printVia_closed {before : UInt8} (last : before &&& 1 ≠ 0) (bp : List UInt8) :
    printVia before bp = ([], bp) := by
  unfold printVia
  split
  · rw [if_neg last]
  · rfl

theorem encodeRepeaters_cons (a : Address) (repeaters : List Address) :
    encodeRepeaters ((a :: repeaters).map Address.text) =
      a.octets ++ ssidOctet (a.ssid : Nat) false repeaters.isEmpty ::
        encodeRepeaters (repeaters.map Address.text) := by
  rw [List.map_cons, encodeRepeaters, encode_repeater_addr, encode_addr_text, List.isEmpty_map,
    List.append_assoc]
  rfl

/-- A repeater that is not the last one has room for another behind it. -/
theorem seven_le_encodeRepeaters {repeaters : List Address} (some' : repeaters ≠ [])
    (rest : List UInt8) :
    7 ≤ (encodeRepeaters (repeaters.map Address.text) ++ rest).length := by
  obtain ⟨a, repeaters, rfl⟩ := List.exists_cons_of_ne_nil some'
  rw [encodeRepeaters_cons, List.length_append, List.length_append, a.length_octets, List.length_cons]
  omega

/-- The repeaters are shown with commas between them. -/
theorem printVia_text {before : UInt8} {repeaters : List Address} (rest : List UInt8)
    (more : before &&& 1 = 0 ↔ repeaters ≠ []) :
    printVia before (encodeRepeaters (repeaters.map Address.text) ++ rest) =
      ([','].intercalate (repeaters.map Address.shown), rest) := by
  induction repeaters generalizing before with
  | nil => exact printVia_closed (fun even => more.1 even rfl) rest
  | cons a repeaters ih =>
    obtain ⟨b0, b1, b2, b3, b4, b5, octets, -, shows⟩ := a.exists_octets
    have last := (ssidOctet_read a.ssid false repeaters.isEmpty).1
    have shown := a.shown_eq false repeaters.isEmpty
    have flag : repeaters.isEmpty = false ↔ repeaters ≠ [] := by
      rw [Bool.eq_false_iff, ne_eq, ne_eq, List.isEmpty_iff]
    rw [flag] at last
    rw [encodeRepeaters_cons, octets, List.append_assoc]
    show printVia before (b0 :: b1 :: b2 :: b3 :: b4 :: b5 ::
      ssidOctet (a.ssid : Nat) false repeaters.isEmpty :: (encodeRepeaters (repeaters.map Address.text) ++ rest)) = _
    rw [printVia, if_pos (more.2 (List.cons_ne_nil _ _)), ih last, shows, shown]
    simp only
    by_cases none : repeaters = []
    · rw [if_neg fun both => last.1 both.1 none, none, List.append_nil, List.map_nil,
        List.intercalate_nil, List.append_nil]
      exact congrArg (·, rest) List.intercalate_singleton.symm
    · have shownMore : repeaters.map Address.shown ≠ [] := mt List.map_eq_nil_iff.1 none
      rw [if_pos ⟨last.2 none, seven_le_encodeRepeaters none rest⟩, List.map_cons,
        List.intercalate_cons_of_ne_nil shownMore]

/-- However many repeaters there are, the log shows of a packet the call signs that it was made
from, and the text of its data. -/
theorem repeater_mode_shown (source destination : Address) (repeaters : List Address)
    (data : List UInt8) (name : List Char) :
    let bp := encode_frame_data_repeater_mode source.text destination.text (repeaters.map Address.text) data
    ax25_print_packet bp name false =
      name ++ ": fm ".toList ++ source.shown ++ " to ".toList ++ destination.shown ++ shownVia repeaters ++
        " UI  pid=F0 crc=".toList ++ hex 4 (calc_crc_ccitt bp).toNat ++ '\n' :: printInfo false data := by
  intro bp
  obtain ⟨d0, d1, d2, d3, d4, d5, octets, even, shows⟩ := destination.exists_octets
  obtain ⟨s0, s1, s2, s3, s4, s5, octets', -, shows'⟩ := source.exists_octets
  generalize check : (calc_crc_ccitt bp).toNat = crc
  have flag : repeaters.isEmpty = !decide ((repeaters.map Address.text).length > 0) := by
    cases repeaters <;> rfl
  have last := (ssidOctet_read source.ssid true repeaters.isEmpty).1
  have more : repeaters.isEmpty = false ↔ repeaters ≠ [] := by
    rw [Bool.eq_false_iff, ne_eq, ne_eq, List.isEmpty_iff]
  rw [more] at last
  have via := printVia_text (AX25_UI_FRAME :: AX25_PID_NO_LAYER_3 :: data) last
  have room : repeaters ≠ [] → 7 ≤ (encodeRepeaters (repeaters.map Address.text) ++
      AX25_UI_FRAME :: AX25_PID_NO_LAYER_3 :: data).length :=
        fun some' => seven_le_encodeRepeaters some' _
  have packet : bp = d0 :: d1 :: d2 :: d3 :: d4 :: d5 :: ssidOctet (destination.ssid : Nat) true false ::
      s0 :: s1 :: s2 :: s3 :: s4 :: s5 :: ssidOctet (source.ssid : Nat) true repeaters.isEmpty ::
        (encodeRepeaters (repeaters.map Address.text) ++ AX25_UI_FRAME :: AX25_PID_NO_LAYER_3 :: data) := by
    show encode_frame_data_repeater_mode _ _ _ _ = _
    unfold encode_frame_data_repeater_mode encode_destination_addr encode_source_addr
    rw [encode_addr_text, encode_addr_text, octets, octets', flag]
    rfl
  obtain ⟨i, rest, tail⟩ : ∃ i rest, encodeRepeaters (repeaters.map Address.text) ++
      AX25_UI_FRAME :: AX25_PID_NO_LAYER_3 :: data = i :: rest := by
    refine List.exists_cons_of_ne_nil fun none => ?_
    cases (List.append_eq_nil_iff.1 none).2
  rw [tail] at packet via room
  have shownVia' : (if ssidOctet (source.ssid : Nat) true repeaters.isEmpty &&& 1 = 0 ∧
        7 ≤ (i :: rest).length then " via ".toList else []) ++ [','].intercalate (repeaters.map Address.shown) =
        shownVia repeaters := by
    unfold shownVia
    by_cases none : repeaters = []
    · rw [if_pos none, if_neg fun both => last.1 both.1 none, none]
      rfl
    · rw [if_neg none, if_pos ⟨last.2 none, room none⟩]
  have commands : (ssidOctet (destination.ssid : Nat) true false &&& 0x80 =
      ssidOctet (source.ssid : Nat) true repeaters.isEmpty &&& 0x80) := by
    rw [(ssidOctet_read destination.ssid true false).2.1, (ssidOctet_read source.ssid true _).2.1]
  unfold ax25_print_packet
  rw [check, packet, if_neg (by simp), if_neg (by decide)]
  unfold printHeader
  simp only
  rw [if_neg (by rw [even]; decide), via, decide_eq_true commands, shows, shows',
    ← source.shown_eq true repeaters.isEmpty, ← destination.shown_eq true false, ← shownVia']
  have control : printControl true (!true && decide
      (ssidOctet (destination.ssid : Nat) true false &&& 0x80 ≠ 0)) crc
        (AX25_UI_FRAME :: AX25_PID_NO_LAYER_3 :: data) =
      " UI  pid=F0 crc=".toList ++ hex 4 crc ++ '\n' :: printInfo false data := by
    rfl
  rw [control]
  simp only [List.append_assoc]

end QFax.Extmodem

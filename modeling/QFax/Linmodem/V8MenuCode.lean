import QFax.Linmodem.V8Stream
import Mathlib.Logic.Function.Iterate

/-!
# V.8: what a menu says

Three menus in a row are enough: the header of the second one stores the octets of the first, and the
header of the third finds the same octets again and decodes them.  The decoder walks over the stored
octets with a pointer, and a zero behind them is its sentinel.
-/

namespace QFax.Linmodem

/-! ## The walk over the stored octets -/

/-- `c = *p++`, for a pointer into a buffer: nothing can be read behind the end. -/
def readOctet : List Nat → Option (Nat × List Nat)
  | [] => none
  | c :: p => some (c, p)

/-- Skip other extensions. -/
def skipExtensions : List Nat → Option (List Nat)
  | [] => none
  | c :: p => if c &&& 0x1c = V8_EXT then skipExtensions p else some p

/-- The octets behind the modulation octet. -/
def walkExtensions (decoded : Nat) (p : List Nat) : Option (Nat × List Nat) := do
  let (c, p) ← readOctet p
  if c &&& 0x1c = V8_EXT then
    -- ignored
    let (c, p) ← readOctet p
    if c &&& 0x1c = V8_EXT then
      let decoded := if c &&& V8_MODN2_V23 ≠ 0 then decoded ||| V8_MOD_V23 else decoded
      let decoded := if c &&& V8_MODN2_V21 ≠ 0 then decoded ||| V8_MOD_V21 else decoded
      (skipExtensions p).map fun p => (decoded, p)
    else some (decoded, p)
  else some (decoded, p)

/-- Decode a menu: the modulations, and where the pointer is left. -/
def walkMenu (p : List Nat) : Option (Nat × List Nat) := do
  let (c, p) ← readOctet p
  -- call function
  if c &&& 0xf8 ≠ 0x80 then some (0, p)
  else if c ≠ V8_CALL_FUNC_DATA then some (0, p)
  else
    -- modulation
    let (c, p) ← readOctet p
    if c &&& 0xf8 ≠ V8_MODN0 then some (0, p)
    else
      let decoded := 0
      let decoded := if c &&& V8_MODN0_V90 ≠ 0 then decoded ||| V8_MOD_V90 else decoded
      let decoded := if c &&& V8_MODN0_V34 ≠ 0 then decoded ||| V8_MOD_V34 else decoded
      walkExtensions decoded p

theorem skipExtensions_terminated (octets stale : List Nat) :
    ∃ unread, skipExtensions (octets ++ 0 :: stale) = some (unread ++ stale) := by
  induction octets with
  | nil => exact ⟨[], rfl⟩
  | cons c octets ih =>
    by_cases extension : c &&& 0x1c = V8_EXT
    · rw [List.cons_append, skipExtensions, if_pos extension]
      exact ih
    · refine ⟨octets ++ [0], ?_⟩
      rw [List.cons_append, skipExtensions, if_neg extension, List.append_assoc]
      rfl

theorem zero_ne_ext : (0 : Nat) ≠ V8_EXT := by decide

/-- What the extensions add to the modulations. -/
def extensionModulations (octets : List Nat) : Nat :=
  let p (i : Nat) : Nat := octets.getD i 0
  if p 0 &&& 0x1c = V8_EXT ∧ p 1 &&& 0x1c = V8_EXT then
    (if p 1 &&& V8_MODN2_V23 ≠ 0 then V8_MOD_V23 else 0) |||
      if p 1 &&& V8_MODN2_V21 ≠ 0 then V8_MOD_V21 else 0
  else 0

theorem walkExtensions_terminated (decoded : Nat) (octets stale : List Nat) :
    ∃ unread, walkExtensions decoded (octets ++ 0 :: stale) =
      some (decoded ||| extensionModulations octets, unread ++ stale) := by
  rcases octets with _ | ⟨c, octets⟩
  · refine ⟨[], ?_⟩
    simp [walkExtensions, readOctet, extensionModulations, zero_ne_ext]
  by_cases first : c &&& 0x1c = V8_EXT
  swap
  · refine ⟨octets ++ [0], ?_⟩
    simp [walkExtensions, readOctet, extensionModulations, first]
  rcases octets with _ | ⟨c, octets⟩
  · refine ⟨[], ?_⟩
    simp [walkExtensions, readOctet, extensionModulations, first, zero_ne_ext]
  by_cases second : c &&& 0x1c = V8_EXT
  swap
  · refine ⟨octets ++ [0], ?_⟩
    simp [walkExtensions, readOctet, extensionModulations, first, second]
  obtain ⟨unread, skipped⟩ := skipExtensions_terminated octets stale
  refine ⟨unread, ?_⟩
  simp only [walkExtensions, V8State.or_ite]
  simp [readOctet, extensionModulations, first, second, skipped, Nat.or_assoc]

theorem menuModulations_call {c : Nat} (modulation : c &&& 0xf8 = V8_MODN0) (octets : List Nat) :
    menuModulations (V8_CALL_FUNC_DATA :: c :: octets) =
      (if c &&& V8_MODN0_V90 ≠ 0 then V8_MOD_V90 else 0) |||
        (if c &&& V8_MODN0_V34 ≠ 0 then V8_MOD_V34 else 0) ||| extensionModulations octets := by
  have call : V8_CALL_FUNC_DATA &&& 0xf8 = 0x80 := by decide
  simp only [menuModulations, extensionModulations, List.getD_cons_zero, List.getD_cons_succ, call,
    modulation, ne_eq, not_true_eq_false, if_false]
  split
  · rw [Nat.or_assoc]
  · rw [Nat.or_zero]

/-- The walk decodes the menu and reads nothing behind the zero. -/
theorem walkMenu_terminated (octets stale : List Nat) :
    ∃ unread, walkMenu (octets ++ 0 :: stale) = some (menuModulations octets, unread ++ stale) := by
  have call : V8_CALL_FUNC_DATA &&& 0xf8 = 0x80 := by decide
  rcases octets with _ | ⟨c, octets⟩
  · exact ⟨[], rfl⟩
  by_cases function : c = V8_CALL_FUNC_DATA
  swap
  · refine ⟨octets ++ [0], ?_⟩
    simp [walkMenu, readOctet, menuModulations, function]
  subst function
  rcases octets with _ | ⟨c, octets⟩
  · exact ⟨[], rfl⟩
  by_cases modulation : c &&& 0xf8 = V8_MODN0
  swap
  · refine ⟨octets ++ [0], ?_⟩
    simp [walkMenu, readOctet, menuModulations, call, modulation]
  obtain ⟨unread, walked⟩ := walkExtensions_terminated
    ((if c &&& V8_MODN0_V90 ≠ 0 then V8_MOD_V90 else 0) |||
      if c &&& V8_MODN0_V34 ≠ 0 then V8_MOD_V34 else 0) octets stale
  refine ⟨unread, ?_⟩
  rw [menuModulations_call modulation, ← walked]
  simp only [walkMenu, V8State.or_ite, Nat.zero_or]
  simp [readOctet, call, modulation]

/-- A menu that `cm_decode` decodes is one that the walk decodes. -/
theorem cm_decode_walk {m : V8Menu} {octets : List Nat} (waiting : m.got_cm = false)
    (got : (cm_decode m octets).got_cm = true) (stale : List Nat) :
    ∃ unread, walkMenu (m.cm_data ++ 0 :: stale) =
      some ((cm_decode m octets).decoded_modulations, unread ++ stale) := by
  have same : m.cm_data ≠ [] ∧ m.cm_data = octets := by
    by_contra other
    rw [cm_decode, if_neg (by rw [waiting]; exact Bool.false_ne_true), if_neg other] at got
    exact Bool.false_ne_true (waiting.symm.trans got)
  rw [cm_decode, if_neg (by rw [waiting]; exact Bool.false_ne_true), if_pos same]
  exact walkMenu_terminated m.cm_data stale

/-! ## The room for the octets -/

/-- The octets leave room for the zero. -/
def V8Ear.Room (e : V8Ear) : Prop := e.1.rx_data.length ≤ 63 ∧ e.2.cm_data.length ≤ 63

theorem V8Data.rx_data_parse_le {d : V8Data} (room : d.rx_data.length ≤ 63) (bit : Bool) :
    (d.parse bit).1.rx_data.length ≤ 63 := by
  by_cases octet : d.data_state.isSome ∧
      shiftIn 10 d.bit_buf bit &&& 0x201 = 0x001 ∧ 10 ≤ d.bit_cnt + 1
  · rw [parse_octet octet.1 octet.2]
    simp only
    split
    · rw [List.length_append, List.length_singleton]
      omega
    · exact room
  · rw [parse_eq fun active found => octet ⟨active, found⟩]
    split
    · exact room
    · exact room

theorem V8Data.rx_data_next_le {d : V8Data} (room : d.rx_data.length ≤ 63) (bit : Bool) :
    (d.next bit).rx_data.length ≤ 63 := by
  unfold next
  refine rx_data_parse_le ?_ bit
  cases foundSync (shiftIn 20 d.bit_sync bit) with
  | none => exact room
  | some sync => exact Nat.zero_le 63

theorem cm_data_decode_le {m : V8Menu} {octets : List Nat} (stored : m.cm_data.length ≤ 63)
    (room : octets.length ≤ 63) : (cm_decode m octets).cm_data.length ≤ 63 := by
  unfold cm_decode
  split
  · exact stored
  · split
    · exact stored
    · exact room

theorem V8Ear.Room.hear {e : V8Ear} (room : e.Room) (bit : Bool) : (e.hear bit).Room := by
  refine ⟨V8Data.rx_data_next_le room.1 bit, ?_⟩
  unfold V8Ear.hear
  split
  · exact cm_data_decode_le room.2 room.1
  · exact room.2

theorem V8Ear.Room.foldl_hear {e : V8Ear} (room : e.Room) (bits : List Bool) :
    (bits.foldl V8Ear.hear e).Room := by
  induction bits generalizing e with
  | nil => exact room
  | cons bit bits ih => exact ih (room.hear bit)

/-! ## The modulations of a menu -/

theorem and_modulation (mask n : Nat) :
    mask &&& 1 <<< n = if hasMod mask (1 <<< n) then 1 <<< n else 0 := by
  rw [hasMod, Nat.one_shiftLeft, Nat.and_two_pow]
  cases mask.testBit n <;> simp

theorem menuModulations_bytes (f : V8Flags) :
    menuModulations f.bytes = (if f.v90 then V8_MOD_V90 else 0) |||
      (if f.v34 then V8_MOD_V34 else 0) ||| (if f.v23 then V8_MOD_V23 else 0) |||
      if f.v21 then V8_MOD_V21 else 0 := by
  obtain ⟨v90, v34, v23, v21⟩ := f
  cases v90 <;> cases v34 <;> cases v23 <;> cases v21 <;> rfl

/-- The modulations that V.8 negotiates here, as a mask. -/
def V8_MOD_ALL : Nat := V8_MOD_V90 ||| V8_MOD_V34 ||| V8_MOD_V23 ||| V8_MOD_V21

theorem menuModulations_ofMask (mask : Nat) :
    menuModulations (V8Flags.ofMask mask).bytes = mask &&& V8_MOD_ALL := by
  simp only [menuModulations_bytes, V8Flags.ofMask, V8_MOD_ALL, Nat.and_or_distrib_left, V8_MOD_V90,
    V8_MOD_V34, V8_MOD_V23, V8_MOD_V21, ← and_modulation]

/-! ## Menus in a row -/

namespace V8Data

theorem data_state_parse (d : V8Data) (bit : Bool) : (d.parse bit).1.data_state = d.data_state := by
  by_cases octet : d.data_state.isSome ∧
      shiftIn 10 d.bit_buf bit &&& 0x201 = 0x001 ∧ 10 ≤ d.bit_cnt + 1
  · rw [parse_octet octet.1 octet.2]
  · rw [parse_eq fun active found => octet ⟨active, found⟩]
    split
    · rfl
    · rfl

theorem data_state_next {d : V8Data} {bit : Bool} (quiet : d.Quiet bit) :
    (d.next bit).data_state = d.data_state := by
  rw [next, quiet]
  exact data_state_parse _ bit

/-- Without a synchro the state of the parser stays. -/
theorem QuietRun.data_state {d : V8Data} {bits : List Bool} (quiet : d.QuietRun bits) :
    (bits.foldl next d).data_state = d.data_state := by
  induction bits generalizing d with
  | nil => rfl
  | cons bit bits ih => exact (ih quiet.2).trans (data_state_next quiet.1)

/-- Any number of idle ones. -/
theorem Idle.idles {f : V8Flags} {d : V8Data} (idle : d.Idle f) (n : Nat) :
    d.QuietRun (List.replicate n true) ∧ ((List.replicate n true).foldl V8Data.next d).Idle f := by
  induction n generalizing d with
  | zero => exact ⟨trivial, idle⟩
  | succ n ih =>
    obtain ⟨quiet, idle', -⟩ := idle.next
    obtain ⟨later, idle''⟩ := ih idle'
    exact ⟨⟨quiet, later⟩, idle''⟩

end V8Data

namespace V8Ear

variable {f : V8Flags} {e : V8Ear}

/-- The header of a packet decodes the menu before it. -/
theorem hear_header (idle : e.1.Idle f) (kind : V8Sync) :
    (V8Flags.ones ++ V8Flags.sync kind).foldl hear e = (V8Data.started kind,
      if e.1.data_state = some .cm then cm_decode e.2 f.bytes else e.2) := by
  have header : HeaderBits 1023 (V8Flags.code kind) := by cases kind <;> decide
  have length : (V8Flags.code kind).length = 9 := by cases kind <;> rfl
  obtain ⟨quiet, known⟩ := idle.header
  have state := quiet.data_state
  rw [List.foldl_append, foldl_hear_quiet quiet]
  generalize V8Flags.ones.foldl V8Data.next e.1 = d at known state ⊢
  obtain ⟨quiet', known'⟩ := known.run le_rfl (by omega) header
  have state' := quiet'.data_state.trans state
  rw [length] at known'
  rw [V8Flags.sync_eq, List.foldl_append, foldl_hear_quiet (e := (d, e.2)) quiet']
  generalize (V8Flags.code kind).foldl V8Data.next d = d' at known' state' ⊢
  -- the last bit
  obtain ⟨found, started⟩ := known'.found
  rw [List.foldl_cons, List.foldl_nil, hear, started, found]
  by_cases menu : e.1.data_state = some .cm
  · have menu' : d'.data_state = some .cm := state'.trans menu
    rw [if_pos ⟨rfl, menu'⟩, if_pos menu, known'.rx menu']
  · rw [if_neg fun both => menu (state'.symm.trans both.2), if_neg menu]

theorem started_data_state (kind : V8Sync) : (V8Data.started kind).data_state = some kind := by
  cases kind <;> rfl

theorem hear_packet (idle : e.1.Idle f) (kind : V8Sync) :
    ((f.packet kind).foldl hear e).1.Idle f ∧
      ((f.packet kind).foldl hear e).1.data_state = some kind ∧
      ((f.packet kind).foldl hear e).2 =
        if e.1.data_state = some .cm then cm_decode e.2 f.bytes else e.2 := by
  obtain ⟨quiet, idle'⟩ := body_quiet f kind
  have state := quiet.data_state.trans (started_data_state kind)
  have all : (f.packet kind).foldl hear e = ((f.body kind).foldl V8Data.next (V8Data.started kind),
      if e.1.data_state = some .cm then cm_decode e.2 f.bytes else e.2) := by
    rw [V8Flags.packet, ← List.append_assoc, List.foldl_append, hear_header idle kind,
      foldl_hear_quiet quiet]
  rw [all]
  exact ⟨idle', state, rfl⟩

/-- What a receiver has heard that began to listen with the menu `m`: `n` whole menus. -/
structure HeardMenus (f : V8Flags) (m : V8Menu) (n : Nat) (e : V8Ear) : Prop where
  idle : e.1.Idle f
  state : e.1.data_state = if n = 0 then none else some .cm
  /-- The last one still waits for the next header. -/
  menu : e.2 = (fun m => cm_decode m f.bytes)^[n - 1] m

variable {m : V8Menu} {n : Nat}

theorem HeardMenus.idles (heard : HeardMenus f m n e) (k : Nat) :
    HeardMenus f m n ((List.replicate k true).foldl hear e) := by
  obtain ⟨quiet, idle⟩ := heard.idle.idles k
  rw [foldl_hear_quiet quiet]
  exact ⟨idle, quiet.data_state.trans heard.state, heard.menu⟩

theorem HeardMenus.packet (heard : HeardMenus f m n e) :
    HeardMenus f m (n + 1) ((f.packet .cm).foldl hear e) := by
  obtain ⟨idle, state, menu⟩ := hear_packet heard.idle .cm
  refine ⟨idle, state, menu.trans ?_⟩
  rw [heard.state, heard.menu]
  cases n with
  | zero => rfl
  | succ n =>
    rw [if_neg (Nat.succ_ne_zero n), if_pos rfl]
    exact (Function.iterate_succ_apply' (fun m => cm_decode m f.bytes) n m).symm

/-- Menus with idle ones behind each of them. -/
theorem HeardMenus.run (heard : HeardMenus f m n e) (gaps : List Nat) :
    HeardMenus f m (n + gaps.length)
      ((gaps.flatMap fun k => f.packet .cm ++ List.replicate k true).foldl hear e) := by
  induction gaps generalizing n e with
  | nil => exact heard
  | cons k gaps ih =>
    rw [List.flatMap_cons, List.foldl_append, List.foldl_append, List.length_cons, Nat.add_comm _ 1,
      ← Nat.add_assoc]
    exact ih (heard.packet.idles k)

end V8Ear

/-- From the third menu on the decoder has what two of them say. -/
theorem iterate_cm_decode {octets : List Nat} (some_octets : octets ≠ []) {m : V8Menu}
    (empty : m.cm_data = []) (waiting : m.got_cm = false) (n : Nat) :
    (fun m => cm_decode m octets)^[n + 2] m = ⟨octets, true, menuModulations octets⟩ := by
  induction n with
  | zero =>
    have first : cm_decode m octets = { m with cm_data := octets } := by
      rw [cm_decode, waiting, if_neg Bool.false_ne_true, if_neg fun both => both.1 empty]
    have second : cm_decode { m with cm_data := octets } octets =
        ⟨octets, true, menuModulations octets⟩ := by
      rw [cm_decode, waiting, if_neg Bool.false_ne_true, if_pos ⟨some_octets, rfl⟩]
    exact (congrArg (cm_decode · octets) first).trans second
  | succ n ih =>
    rw [Function.iterate_succ_apply', ih]
    rfl

/-! ## What is received -/

/-- Menus as `cm_send` queues them, each with some idle ones behind it. -/
def menuBits (mod_mask : Nat) (gaps : List Nat) : List Bool :=
  gaps.flatMap fun n => (V8State.cm_send (sm_init_fifo 256) mod_mask).items ++ List.replicate n true

theorem cm_send_items (mod_mask : Nat) :
    (V8State.cm_send (sm_init_fifo 256) mod_mask).items = (V8Flags.ofMask mod_mask).packet .cm := by
  have queued := (queue_packets (q := sm_init_fifo 256) rfl rfl (V8Flags.ofMask mod_mask) [.cm]
    (by decide)).1
  rw [V8State.cm_send_eq]
  simpa using queued

theorem menuBits_eq (mod_mask : Nat) (gaps : List Nat) : menuBits mod_mask gaps =
    gaps.flatMap fun n => (V8Flags.ofMask mod_mask).packet .cm ++ List.replicate n true := by
  rw [menuBits, cm_send_items]

/-- What a receiver has that has just begun to listen and hears three menus or more. -/
theorem menu_of_menuBits (s : V8State) (mask before : Nat) {gaps : List Nat}
    (three : 3 ≤ gaps.length) :
    ((List.replicate before true ++ menuBits mask gaps).foldl V8State.put_bit
      s.v8_decode_init).menu = ⟨(V8Flags.ofMask mask).bytes, true, mask &&& V8_MOD_ALL⟩ := by
  have fresh : s.v8_decode_init.ear.Fresh := ⟨rfl, rfl, rfl, rfl⟩
  have start : V8Ear.HeardMenus (V8Flags.ofMask mask) s.v8_decode_init.menu 0
      s.v8_decode_init.ear := ⟨fresh.idle _, rfl, rfl⟩
  have heard := (start.idles before).run gaps
  have said : (V8Flags.ofMask mask).bytes ≠ [] := List.cons_ne_nil _ _
  obtain ⟨n, length⟩ := Nat.exists_eq_add_of_le three
  have decodings : 0 + gaps.length - 1 = n + 2 := by omega
  have menu := heard.menu
  rw [decodings, iterate_cm_decode said rfl rfl, menuModulations_ofMask] at menu
  have ear := V8State.ear_foldl_put_bit s.v8_decode_init
    (List.replicate before true ++ menuBits mask gaps)
  rw [menuBits_eq] at ear ⊢
  refine (congrArg Prod.snd ear).trans ?_
  rw [List.foldl_append]
  exact menu

/-- Any number of menus from the third on, with idle ones before, between and behind them, is decoded
to the modulations that were sent; and whatever the octets of a menu are, it is decoded from them and
the zero behind them. -/
theorem menu_coding (s : V8State) :
    (∀ (mask before : Nat) (gaps : List Nat), 3 ≤ gaps.length →
      let t := (List.replicate before true ++ menuBits mask gaps).foldl V8State.put_bit
        s.v8_decode_init
      t.menu.got_cm = true ∧ t.menu.decoded_modulations =
        mask &&& (V8_MOD_V90 ||| V8_MOD_V34 ||| V8_MOD_V23 ||| V8_MOD_V21)) ∧
    (∀ bits : List Bool, let t := bits.foldl V8State.put_bit s.v8_decode_init
      t.data.rx_data.length ≤ 63 ∧ t.menu.cm_data.length ≤ 63) ∧
    ∀ (m : V8Menu) (octets stale : List Nat), m.got_cm = false →
      (cm_decode m octets).got_cm = true →
      ∃ unread, walkMenu (m.cm_data ++ 0 :: stale) =
        some ((cm_decode m octets).decoded_modulations, unread ++ stale) := by
  refine ⟨fun mask before gaps three => ?_, fun bits => ?_, fun m octets stale waiting got =>
    cm_decode_walk waiting got stale⟩
  · have menu := menu_of_menuBits s mask before three
    exact ⟨congrArg V8Menu.got_cm menu, congrArg V8Menu.decoded_modulations menu⟩
  · have start : s.v8_decode_init.ear.Room := ⟨Nat.zero_le 63, Nat.zero_le 63⟩
    have room := start.foldl_hear bits
    rw [← V8State.ear_foldl_put_bit] at room
    exact room

/-- Three menus with all modulations; a menu of two octets behind which an old one goes on. -/
theorem menu_coding_all :
    ((List.replicate 7 true ++ menuBits 0x1403 [0, 5, 2]).foldl V8State.put_bit
      (V8State.V8_init true 0).v8_decode_init).menu.decoded_modulations = 0x1403 ∧
    ∃ unread, walkMenu ([0x83, 0xa6] ++ 0 :: [0x08, 0x29]) =
      some ((cm_decode ⟨[0x83, 0xa6], false, 0⟩ [0x83, 0xa6]).decoded_modulations,
        unread ++ [0x08, 0x29]) :=
  ⟨((menu_coding (V8State.V8_init true 0)).1 0x1403 7 [0, 5, 2] (by decide)).2.trans (by decide),
    (menu_coding (V8State.V8_init true 0)).2.2 ⟨[0x83, 0xa6], false, 0⟩ [0x83, 0xa6] [0x08, 0x29]
      rfl (by decide)⟩

end QFax.Linmodem

import QFax.Linmodem.V8
import Mathlib.Tactic.IntervalCases

/-!
# V.8: decoding a stream of packets

What a modem sends is a sequence of blocks: idle ones, CI packets and menus, all with the same
modulations.  The decoder may start anywhere in it.  A synchro is found only in the header of a block,
and by then the bytes of the menu before it are complete.
-/

namespace QFax.Linmodem

/-! ## The decoder without the sender -/

/-- The part of the state that finds the menu. -/
abbrev V8Ear : Type := V8Data × V8Menu

namespace V8Data

/-- The parser after one bit. -/
def next (d : V8Data) (bit : Bool) : V8Data :=
  let d := { d with bit_sync := shiftIn 20 d.bit_sync bit }
  (((foundSync d.bit_sync).elim d d.restart).parse bit).1

/-- The bit completes no synchro. -/
def Quiet (d : V8Data) (bit : Bool) : Prop := foundSync (shiftIn 20 d.bit_sync bit) = none

instance (d : V8Data) (bit : Bool) : Decidable (d.Quiet bit) :=
  inferInstanceAs (Decidable (foundSync _ = none))

/-- The bits complete no synchro. -/
def QuietRun : V8Data → List Bool → Prop
  | _, [] => True
  | d, bit :: bits => d.Quiet bit ∧ (d.next bit).QuietRun bits

instance QuietRun.instDecidable : ∀ (d : V8Data) (bits : List Bool), Decidable (d.QuietRun bits)
  | _, [] => .isTrue trivial
  | d, bit :: bits =>
    have := instDecidable (d.next bit) bits
    inferInstanceAs (Decidable (d.Quiet bit ∧ (d.next bit).QuietRun bits))

end V8Data

namespace V8Ear

def hear (e : V8Ear) (bit : Bool) : V8Ear :=
  (e.1.next bit, if (foundSync (shiftIn 20 e.1.bit_sync bit)).isSome ∧ e.1.data_state = some .cm then
    cm_decode e.2 e.1.rx_data else e.2)

theorem hear_quiet {e : V8Ear} {bit : Bool} (quiet : e.1.Quiet bit) :
    e.hear bit = (e.1.next bit, e.2) := by
  rw [hear, quiet, Option.isSome_none, if_neg fun found => Bool.noConfusion found.1]

theorem foldl_hear_quiet {e : V8Ear} {bits : List Bool} (quiet : e.1.QuietRun bits) :
    bits.foldl hear e = (bits.foldl V8Data.next e.1, e.2) := by
  induction bits generalizing e with
  | nil => rfl
  | cons bit bits ih =>
    rw [List.foldl_cons, List.foldl_cons, hear_quiet quiet.1]
    exact ih quiet.2

end V8Ear

/-- What a modem hears. -/
def V8State.ear (s : V8State) : V8Ear := (s.data, s.menu)

theorem V8State.ear_put_bit (s : V8State) (bit : Bool) : (s.put_bit bit).ear = s.ear.hear bit := rfl

theorem V8State.ear_foldl_put_bit (s : V8State) (bits : List Bool) :
    (bits.foldl put_bit s).ear = bits.foldl V8Ear.hear s.ear := by
  induction bits generalizing s with
  | nil => rfl
  | cons bit bits ih => exact (ih _).trans (congrArg (bits.foldl V8Ear.hear) (ear_put_bit s bit))

/-! ## Blocks -/

/-- The modulations that V.8 negotiates here. -/
structure V8Flags where
  v90 : Bool
  v34 : Bool
  v23 : Bool
  v21 : Bool

def V8Flags.ofMask (mask : Nat) : V8Flags :=
  ⟨hasMod mask V8_MOD_V90, hasMod mask V8_MOD_V34, hasMod mask V8_MOD_V23, hasMod mask V8_MOD_V21⟩

theorem V8Flags.forall_iff {P : V8Flags → Prop} : (∀ f, P f) ↔ ∀ a b c d, P ⟨a, b, c, d⟩ :=
  ⟨fun all a b c d => all ⟨a, b, c, d⟩, fun all f => all f.v90 f.v34 f.v23 f.v21⟩

instance {P : V8Flags → Prop} [DecidablePred P] : Decidable (∀ f, P f) :=
  decidable_of_iff _ V8Flags.forall_iff.symm

namespace V8Flags

variable (f : V8Flags)

/-- The bytes of a menu. -/
def bytes : List Nat :=
  [V8_CALL_FUNC_DATA,
    (V8_MODN0 ||| if f.v90 then V8_MODN0_V90 else 0) ||| if f.v34 then V8_MODN0_V34 else 0,
    V8_EXT,
    (V8_EXT ||| if f.v23 then V8_MODN2_V23 else 0) ||| if f.v21 then V8_MODN2_V21 else 0]

open V8State

/-- A byte between start and stop bit. -/
def octet (data : Nat) : List Bool := bitsOf ((data &&& 0xff) <<< 1 ||| 1) 10

def ones : List Bool := List.replicate 10 true

def sync : V8Sync → List Bool
  | .ci => bitsOf V8_CI_SYNC 10
  | .cm => bitsOf V8_CM_SYNC 10

/-- The bytes of a packet. -/
def body : V8Sync → List Bool
  | .ci => octet V8_CALL_FUNC_DATA
  | .cm => f.bytes.flatMap octet

/-- A CI packet or a menu. -/
def packet (kind : V8Sync) : List Bool := ones ++ (sync kind ++ f.body kind)

def IsBlock (b : List Bool) : Prop := b = [true] ∨ ∃ kind, b = f.packet kind

end V8Flags

/-- Two identical menus were decoded to the modulations that were sent. -/
structure V8Menu.Good (f : V8Flags) (m : V8Menu) : Prop where
  data : m.cm_data = [] ∨ m.cm_data = f.bytes
  decoded : m.got_cm → V8Flags.ofMask m.decoded_modulations = f

theorem ofMask_menuModulations (f : V8Flags) :
    V8Flags.ofMask (menuModulations f.bytes) = f := by
  have all : ∀ a b c d, V8Flags.ofMask (menuModulations (V8Flags.bytes ⟨a, b, c, d⟩)) =
      ⟨a, b, c, d⟩ := by
    intro a b c d
    cases a <;> cases b <;> cases c <;> cases d <;> rfl
  exact all f.v90 f.v34 f.v23 f.v21

theorem V8Menu.Good.cm_decode {f : V8Flags} {m : V8Menu} (good : m.Good f) :
    (cm_decode m f.bytes).Good f := by
  unfold QFax.Linmodem.cm_decode
  split
  · exact good
  · split
    · rename_i same
      exact ⟨good.data, fun _ => by rw [same.2, ofMask_menuModulations]⟩
    · exact ⟨.inr rfl, fun got => absurd got ‹_›⟩

/-! ## Between two packets -/

/-- No ones can complete a synchro: the last bits are not the head of one up to a run of ones. -/
def SafeSync (bit_sync : Nat) : Prop :=
  bit_sync % 2 ^ 16 ≠ 0x3ff * 2 ^ 6 ∧ bit_sync % 2 ^ 17 ≠ 0x3ff * 2 ^ 7 + 1 ∧
    bit_sync % 2 ^ 18 ≠ 0x3ff * 2 ^ 8 + 3 ∧ bit_sync % 2 ^ 19 ≠ 0x3ff * 2 ^ 9 + 7 ∧
    bit_sync % 2 ^ 19 ≠ 0x3ff * 2 ^ 9

instance (bit_sync : Nat) : Decidable (SafeSync bit_sync) := by
  unfold SafeSync
  infer_instance

theorem foundSync_eq_none {bit_sync : Nat} (ci : bit_sync ≠ 0x3ff * 2 ^ 10 + 1)
    (cm : bit_sync ≠ 0x3ff * 2 ^ 10 + 15) : foundSync bit_sync = none :=
  (if_neg ci).trans (if_neg cm)

theorem SafeSync.shiftIn {bit_sync : Nat} (safe : SafeSync bit_sync) :
    foundSync (shiftIn 20 bit_sync true) = none ∧ SafeSync (shiftIn 20 bit_sync true) := by
  obtain ⟨s6, s7, s8, s9, s0⟩ := safe
  simp only [QFax.Linmodem.shiftIn, Bool.toNat_true, SafeSync]
  exact ⟨foundSync_eq_none (by omega) (by omega), by omega⟩

/-- The parser between two packets: nothing is found, and the bytes of a menu are complete. -/
structure V8Data.Idle (f : V8Flags) (d : V8Data) : Prop where
  safe : SafeSync d.bit_sync
  /-- The bits since the last byte are ones. -/
  buf : d.data_state.isSome →
    d.bit_buf % 2 ^ min d.bit_cnt 10 = 2 ^ min d.bit_cnt 10 - 1 ∧ d.bit_buf < 2 ^ 10
  rx : d.data_state = some .cm → d.rx_data = f.bytes

theorem parse_eq {d : V8Data} {bit : Bool} (same : d.data_state.isSome →
    ¬ (shiftIn 10 d.bit_buf bit &&& 0x201 = 0x001 ∧ 10 ≤ d.bit_cnt + 1)) :
    d.parse bit = if d.data_state.isSome then
      ({ d with bit_buf := shiftIn 10 d.bit_buf bit, bit_cnt := d.bit_cnt + 1 }, none)
    else (d, none) := by
  unfold V8Data.parse
  split
  · rename_i active
    exact if_neg (same active)
  · rfl

/-- A bit that completes an octet. -/
theorem parse_octet {d : V8Data} {bit : Bool} (active : d.data_state.isSome)
    (octet : shiftIn 10 d.bit_buf bit &&& 0x201 = 0x001 ∧ 10 ≤ d.bit_cnt + 1) :
    d.parse bit = ({ d with
      bit_buf := shiftIn 10 d.bit_buf bit
      bit_cnt := 0
      rx_data := if d.rx_data.length < 63 then
          d.rx_data ++ [shiftIn 10 d.bit_buf bit >>> 1 &&& 0xff] else d.rx_data },
      some (shiftIn 10 d.bit_buf bit >>> 1 &&& 0xff)) := by
  rw [V8Data.parse, if_pos active]
  exact if_pos octet

/-- A bit that completes neither a synchro nor a byte. -/
theorem next_eq {d : V8Data} {bit : Bool} (quiet : d.Quiet bit) (same : d.data_state.isSome →
    ¬ (shiftIn 10 d.bit_buf bit &&& 0x201 = 0x001 ∧ 10 ≤ d.bit_cnt + 1)) :
    (d.next bit).bit_sync = shiftIn 20 d.bit_sync bit ∧
    (d.next bit).data_state = d.data_state ∧ (d.next bit).rx_data = d.rx_data ∧
    (d.data_state.isSome →
      (d.next bit).bit_buf = shiftIn 10 d.bit_buf bit ∧ (d.next bit).bit_cnt = d.bit_cnt + 1) := by
  have parsed := parse_eq (d := { d with bit_sync := shiftIn 20 d.bit_sync bit }) same
  have eq : d.next bit = (({ d with bit_sync := shiftIn 20 d.bit_sync bit } : V8Data).parse bit).1 := by
    rw [V8Data.next, quiet]
    rfl
  rw [eq, parsed]
  split
  · exact ⟨rfl, rfl, rfl, fun _ => ⟨rfl, rfl⟩⟩
  · rename_i passive
    exact ⟨rfl, rfl, rfl, fun active => absurd active passive⟩

theorem shiftIn_ones {buf cnt : Nat} (ones : buf % 2 ^ min cnt 10 = 2 ^ min cnt 10 - 1)
    (lt : buf < 2 ^ 10) :
    shiftIn 10 buf true % 2 ^ min (cnt + 1) 10 = 2 ^ min (cnt + 1) 10 - 1 := by
  simp only [shiftIn, Bool.toNat_true]
  by_cases short : cnt < 10
  · rw [min_eq_left short.le] at ones
    rw [min_eq_left short]
    interval_cases cnt <;> omega
  · rw [min_eq_right (by omega)] at ones ⊢
    omega

/-- A one leaves the parser between two packets. -/
theorem V8Data.Idle.next {f : V8Flags} {d : V8Data} (idle : d.Idle f) :
    d.Quiet true ∧ (d.next true).Idle f ∧ (d.next true).data_state = d.data_state ∧
      (d.next true).bit_sync = shiftIn 20 d.bit_sync true ∧
      (d.data_state.isSome → (d.next true).bit_cnt = d.bit_cnt + 1) := by
  obtain ⟨quiet, safe⟩ := idle.safe.shiftIn
  have same : d.data_state.isSome →
      ¬ (shiftIn 10 d.bit_buf true &&& 0x201 = 0x001 ∧ 10 ≤ d.bit_cnt + 1) := by
    rintro active ⟨byte, long⟩
    obtain ⟨ones, lt⟩ := idle.buf active
    have full := shiftIn_ones ones lt
    rw [min_eq_right long] at full
    have all : shiftIn 10 d.bit_buf true = 1023 := by
      rw [shiftIn, Nat.mod_mod] at full
      exact full
    rw [all] at byte
    revert byte
    decide
  obtain ⟨bit_sync, data_state, rx_data, buf⟩ := next_eq quiet same
  refine ⟨quiet, ⟨?_, ?_, ?_⟩, data_state, bit_sync, fun active => (buf active).2⟩
  · rw [bit_sync]
    exact safe
  · intro active
    rw [data_state] at active
    obtain ⟨ones, lt⟩ := idle.buf active
    rw [(buf active).1, (buf active).2]
    exact ⟨shiftIn_ones ones lt, Nat.mod_lt _ (by decide)⟩
  · intro menu
    rw [data_state] at menu
    rw [rx_data]
    exact idle.rx menu

/-- The known low bits of the shift registers in the header of a packet. -/
structure V8Data.Known (f : V8Flags) (n v : Nat) (d : V8Data) : Prop where
  bit_sync : d.bit_sync % 2 ^ n = v
  bit_buf : d.data_state.isSome → d.bit_buf = v % 2 ^ 10
  rx : d.data_state = some .cm → d.rx_data = f.bytes

/-- Ones between two packets: after `k` of them there come `n` more. -/
theorem V8Data.Idle.ones {f : V8Flags} {d : V8Data} (idle : d.Idle f) {k n : Nat}
    (le : k + n ≤ 10) (sync : d.bit_sync % 2 ^ k = 2 ^ k - 1)
    (cnt : d.data_state.isSome → k ≤ d.bit_cnt) :
    d.QuietRun (List.replicate n true) ∧
      ((List.replicate n true).foldl V8Data.next d).Idle f ∧
      ((List.replicate n true).foldl V8Data.next d).bit_sync % 2 ^ (k + n) = 2 ^ (k + n) - 1 ∧
      (((List.replicate n true).foldl V8Data.next d).data_state.isSome →
        k + n ≤ ((List.replicate n true).foldl V8Data.next d).bit_cnt) := by
  induction n generalizing d k with
  | zero => exact ⟨trivial, idle, sync, cnt⟩
  | succ n ih =>
    obtain ⟨quiet, idle', data_state, bit_sync, bit_cnt⟩ := idle.next
    have sync' : (d.next true).bit_sync % 2 ^ (k + 1) = 2 ^ (k + 1) - 1 := by
      have short : k < 10 := by omega
      rw [bit_sync, shiftIn, Bool.toNat_true]
      interval_cases k <;> omega
    have cnt' : (d.next true).data_state.isSome → k + 1 ≤ (d.next true).bit_cnt := by
      intro active
      rw [data_state] at active
      rw [bit_cnt active]
      exact Nat.succ_le_succ (cnt active)
    obtain ⟨quiet', rest⟩ := ih idle' (by omega) sync' cnt'
    rw [Nat.add_right_comm] at rest
    exact ⟨⟨quiet, quiet'⟩, rest⟩

/-- The ten ones of a header leave the parser with ones in both registers. -/
theorem V8Data.Idle.header {f : V8Flags} {d : V8Data} (idle : d.Idle f) :
    d.QuietRun V8Flags.ones ∧ (V8Flags.ones.foldl V8Data.next d).Known f 10 1023 := by
  obtain ⟨quiet, idle', sync, cnt⟩ :=
    idle.ones (k := 0) (n := 10) le_rfl (Nat.mod_one _) fun _ => Nat.zero_le _
  refine ⟨quiet, sync, fun active => ?_, idle'.rx⟩
  obtain ⟨ones, lt⟩ := idle'.buf active
  rw [min_eq_right (cnt active), Nat.mod_eq_of_lt lt] at ones
  exact ones

/-- One more bit of a header. -/
theorem V8Data.Known.next {f : V8Flags} {n v : Nat} {d : V8Data} (known : d.Known f n v)
    (header : 10 ≤ n) (short : n < 20) (bit : Bool)
    (sync : (2 * v + bit.toNat) % 2 ^ 10 ≠ 1 ∧ (2 * v + bit.toNat) % 2 ^ 10 ≠ 15)
    (byte : (2 * v + bit.toNat) % 2 ^ 10 &&& 0x201 ≠ 1) :
    d.Quiet bit ∧ (d.next bit).Known f (n + 1) (2 * v + bit.toNat) := by
  have low : shiftIn 20 d.bit_sync bit % 2 ^ (n + 1) = 2 * v + bit.toNat := by
    have small := bit.toNat_lt
    rw [← known.bit_sync, shiftIn]
    interval_cases n <;> omega
  have low10 : shiftIn 20 d.bit_sync bit % 2 ^ 10 = (2 * v + bit.toNat) % 2 ^ 10 := by
    rw [← low, Nat.mod_mod_of_dvd _ (Nat.pow_dvd_pow 2 (header.trans n.le_succ))]
  have quiet : d.Quiet bit := foundSync_eq_none (by omega) (by omega)
  have buf : d.data_state.isSome →
      shiftIn 10 d.bit_buf bit = (2 * v + bit.toNat) % 2 ^ 10 := by
    intro active
    rw [known.bit_buf active, shiftIn]
    omega
  obtain ⟨bit_sync, data_state, rx_data, bit_buf⟩ := next_eq quiet
    fun active found => byte ((buf active).symm ▸ found.1)
  refine ⟨quiet, ⟨by rw [bit_sync, low], fun active => ?_, fun menu => ?_⟩⟩
  · rw [data_state] at active
    rw [(bit_buf active).1, buf active]
  · rw [data_state] at menu
    rw [rx_data, known.rx menu]

/-- The value of the low bits when more bits come in. -/
def shiftedIn (v : Nat) (bits : List Bool) : Nat := bits.foldl (fun v bit => 2 * v + bit.toNat) v

/-- Bits of a header before its last one. -/
def HeaderBits : Nat → List Bool → Prop
  | _, [] => True
  | v, bit :: bits =>
    ((2 * v + bit.toNat) % 2 ^ 10 ≠ 1 ∧ (2 * v + bit.toNat) % 2 ^ 10 ≠ 15) ∧
      (2 * v + bit.toNat) % 2 ^ 10 &&& 0x201 ≠ 1 ∧ HeaderBits (2 * v + bit.toNat) bits

instance HeaderBits.instDecidable : ∀ v bits, Decidable (HeaderBits v bits)
  | _, [] => .isTrue trivial
  | v, bit :: bits =>
    have := instDecidable (2 * v + bit.toNat) bits
    inferInstanceAs (Decidable (_ ∧ _ ∧ HeaderBits (2 * v + bit.toNat) bits))

theorem V8Data.Known.run {f : V8Flags} {n v : Nat} {d : V8Data} (known : d.Known f n v)
    (start : 10 ≤ n) {bits : List Bool} (short : n + bits.length ≤ 20) (header : HeaderBits v bits) :
    d.QuietRun bits ∧ (bits.foldl V8Data.next d).Known f (n + bits.length) (shiftedIn v bits) := by
  induction bits generalizing n v d with
  | nil => exact ⟨trivial, known⟩
  | cons bit bits ih =>
    rw [List.length_cons] at short
    obtain ⟨sync, byte, later⟩ := header
    obtain ⟨quiet, known'⟩ := known.next start (by omega) bit sync byte
    obtain ⟨quiet', known''⟩ := ih known' (by omega) (by omega) later
    rw [List.length_cons, ← Nat.add_assoc, Nat.add_right_comm]
    exact ⟨⟨quiet, quiet'⟩, known''⟩

/-- The parser right after a synchro. -/
def V8Data.started : V8Sync → V8Data
  | .ci => ⟨1, V8_TEN_ONES <<< 10 ||| V8_CI_SYNC, 1, some .ci, []⟩
  | .cm => ⟨1, V8_TEN_ONES <<< 10 ||| V8_CM_SYNC, 1, some .cm, []⟩

/-- The code of a header without its last bit, a one. -/
def V8Flags.code (kind : V8Sync) : List Bool := (sync kind).take 9

theorem V8Flags.sync_eq (kind : V8Sync) : sync kind = code kind ++ [true] := by
  cases kind <;> rfl

/-- The last bit of a header. -/
theorem V8Data.Known.found {f : V8Flags} {d : V8Data} {kind : V8Sync}
    (known : d.Known f 19 (shiftedIn 1023 (V8Flags.code kind))) :
    foundSync (shiftIn 20 d.bit_sync true) = some kind ∧ d.next true = started kind := by
  have sync : shiftIn 20 d.bit_sync true = (started kind).bit_sync := by
    have low := known.bit_sync
    cases kind
    · have low' : d.bit_sync % 2 ^ 19 = 523776 := low
      have goal : shiftIn 20 d.bit_sync true = 1047553 := by
        rw [shiftIn, Bool.toNat_true]
        omega
      exact goal
    · have low' : d.bit_sync % 2 ^ 19 = 523783 := low
      have goal : shiftIn 20 d.bit_sync true = 1047567 := by
        rw [shiftIn, Bool.toNat_true]
        omega
      exact goal
  have found : foundSync (started kind).bit_sync = some kind := by cases kind <;> rfl
  rw [sync, V8Data.next, sync, found]
  refine ⟨rfl, ?_⟩
  cases kind <;> simp [V8Data.restart, V8Data.parse, started, shiftIn]

/-- The bytes of a packet complete no synchro, and leave the parser between two packets. -/
theorem body_quiet (f : V8Flags) (kind : V8Sync) :
    (V8Data.started kind).QuietRun (f.body kind) ∧
      ((f.body kind).foldl V8Data.next (V8Data.started kind)).Idle f := by
  have all : ∀ kind, ∀ f : V8Flags, (V8Data.started kind).QuietRun (f.body kind) ∧
      SafeSync ((f.body kind).foldl V8Data.next (V8Data.started kind)).bit_sync ∧
      ((f.body kind).foldl V8Data.next (V8Data.started kind)).bit_cnt = 0 ∧
      ((f.body kind).foldl V8Data.next (V8Data.started kind)).bit_buf < 2 ^ 10 ∧
      (((f.body kind).foldl V8Data.next (V8Data.started kind)).data_state = some .cm →
        ((f.body kind).foldl V8Data.next (V8Data.started kind)).rx_data = f.bytes) := by
    intro kind
    cases kind <;> decide +kernel
  obtain ⟨quiet, safe, cnt, lt, rx⟩ := all kind f
  refine ⟨quiet, safe, fun _ => ⟨?_, lt⟩, rx⟩
  rw [cnt]
  exact Nat.mod_one _

/-! ## Whole blocks -/

/-- What was decoded is right before and after every bit of a run. -/
def GoodRun (f : V8Flags) : V8Ear → List Bool → Prop
  | e, [] => e.2.Good f
  | e, bit :: bits => e.2.Good f ∧ GoodRun f (e.hear bit) bits

/-- A run that is right throughout and ends between two packets. -/
def Whole (f : V8Flags) (e : V8Ear) (bits : List Bool) : Prop :=
  GoodRun f e bits ∧ (bits.foldl V8Ear.hear e).1.Idle f

theorem GoodRun.start {f : V8Flags} {e : V8Ear} {bits : List Bool} (good : GoodRun f e bits) :
    e.2.Good f := by
  cases bits with
  | nil => exact good
  | cons bit bits => exact good.1

theorem Whole.append {f : V8Flags} {e : V8Ear} {bits bits' : List Bool} (good : GoodRun f e bits)
    (whole : Whole f (bits.foldl V8Ear.hear e) bits') : Whole f e (bits ++ bits') := by
  induction bits generalizing e with
  | nil => exact whole
  | cons bit bits ih =>
    obtain ⟨good', idle⟩ := ih good.2 whole
    exact ⟨⟨good.1, good'⟩, idle⟩

theorem goodRun_quiet {f : V8Flags} {e : V8Ear} {bits : List Bool} (quiet : e.1.QuietRun bits)
    (good : e.2.Good f) : GoodRun f e bits := by
  induction bits generalizing e with
  | nil => exact good
  | cons bit bits ih =>
    have same := V8Ear.hear_quiet quiet.1
    exact ⟨good, ih (same ▸ quiet.2) (same ▸ good)⟩

theorem whole_quiet {f : V8Flags} {e : V8Ear} {bits : List Bool} (quiet : e.1.QuietRun bits)
    (good : e.2.Good f) (idle : (bits.foldl V8Data.next e.1).Idle f) : Whole f e bits :=
  ⟨goodRun_quiet quiet good, by rwa [V8Ear.foldl_hear_quiet quiet]⟩

/-- The last bit of a header decodes the menu before it, and the packet follows. -/
theorem whole_body {f : V8Flags} {e : V8Ear} {kind : V8Sync}
    (known : e.1.Known f 19 (shiftedIn 1023 (V8Flags.code kind))) (good : e.2.Good f) :
    Whole f e ([true] ++ f.body kind) := by
  obtain ⟨found, started⟩ := known.found
  obtain ⟨quiet, idle⟩ := body_quiet f kind
  have menu : (e.hear true).2.Good f := by
    rw [V8Ear.hear]
    split
    · rename_i previous
      rw [known.rx previous.2]
      exact good.cm_decode
    · exact good
  have data : (e.hear true).1 = V8Data.started kind := started
  rw [← data] at quiet idle
  obtain ⟨later, idle'⟩ := whole_quiet quiet menu idle
  exact ⟨⟨good, later⟩, idle'⟩

/-- The code of a header and what follows. -/
theorem whole_sync {f : V8Flags} {e : V8Ear} {kind : V8Sync} (known : e.1.Known f 10 1023)
    (good : e.2.Good f) : Whole f e (V8Flags.sync kind ++ f.body kind) := by
  have header : HeaderBits 1023 (V8Flags.code kind) := by cases kind <;> decide
  have length : (V8Flags.code kind).length = 9 := by cases kind <;> rfl
  obtain ⟨quiet, known'⟩ := known.run le_rfl (by omega) header
  rw [length] at known'
  rw [V8Flags.sync_eq, List.append_assoc]
  refine Whole.append (goodRun_quiet quiet good) ?_
  rw [V8Ear.foldl_hear_quiet quiet]
  exact whole_body known' good

/-- A packet heard from between two packets. -/
theorem whole_packet {f : V8Flags} {e : V8Ear} (idle : e.1.Idle f) (good : e.2.Good f)
    (kind : V8Sync) : Whole f e (f.packet kind) := by
  obtain ⟨quiet, known⟩ := idle.header
  refine Whole.append (goodRun_quiet quiet good) ?_
  rw [V8Ear.foldl_hear_quiet quiet]
  generalize V8Flags.ones.foldl V8Data.next e.1 = d at known ⊢
  exact whole_sync known good

/-- A block heard from between two packets. -/
theorem whole_block {f : V8Flags} {e : V8Ear} (idle : e.1.Idle f) (good : e.2.Good f)
    {b : List Bool} (block : f.IsBlock b) : Whole f e b := by
  obtain rfl | ⟨kind, rfl⟩ := block
  · obtain ⟨quiet, idle', -⟩ := idle.next
    exact whole_quiet ⟨quiet, trivial⟩ good idle'
  · exact whole_packet idle good kind

/-- The state of a modem that begins to listen. -/
def V8Ear.Fresh (e : V8Ear) : Prop :=
  e.1.data_state = none ∧ e.1.bit_sync = 0 ∧ e.2.cm_data = [] ∧ e.2.got_cm = false

theorem V8Ear.Fresh.idle {e : V8Ear} (fresh : e.Fresh) (f : V8Flags) : e.1.Idle f := by
  obtain ⟨passive, zero, -, -⟩ := fresh
  refine ⟨by rw [zero]; decide, fun active => ?_, fun active => ?_⟩
  · rw [passive] at active
    cases active
  · rw [passive] at active
    cases active

/-- Bits that complete no synchro in a shift register, and what it holds then. -/
def quietSync : Nat → List Bool → Option Nat
  | bit_sync, [] => some bit_sync
  | bit_sync, bit :: bits =>
    if foundSync (shiftIn 20 bit_sync bit) = none then quietSync (shiftIn 20 bit_sync bit) bits
    else none

/-- Before the first synchro only the shift register changes. -/
theorem quietRun_of_quietSync {d : V8Data} (passive : d.data_state = none) {bits : List Bool}
    {bit_sync : Nat} (quiet : quietSync d.bit_sync bits = some bit_sync) :
    d.QuietRun bits ∧ (bits.foldl V8Data.next d).bit_sync = bit_sync ∧
      (bits.foldl V8Data.next d).data_state = none := by
  induction bits generalizing d with
  | nil => exact ⟨trivial, Option.some.inj quiet, passive⟩
  | cons bit bits ih =>
    rw [quietSync] at quiet
    split at quiet
    · rename_i now
      obtain ⟨sync, data_state, -⟩ :=
        next_eq now fun active => absurd active (by rw [passive]; decide)
      rw [← sync] at quiet
      obtain ⟨later, rest⟩ := ih (data_state.trans passive) quiet
      exact ⟨⟨now, later⟩, rest⟩
    · cases quiet

theorem packet_length (f : V8Flags) (kind : V8Sync) :
    (f.packet kind).length ≤ 60 := by
  cases kind <;> simp [V8Flags.packet, V8Flags.ones, V8Flags.sync, V8Flags.body, V8Flags.bytes,
    V8Flags.octet, V8State.bitsOf]

/-- A packet heard from its middle on: nothing is found. -/
theorem whole_drop {f : V8Flags} {e : V8Ear} (fresh : e.Fresh) {b : List Bool}
    (block : f.IsBlock b) (n : Nat) : Whole f e (b.drop n) := by
  have idle := fresh.idle f
  obtain ⟨passive, zero, empty, waiting⟩ := fresh
  have good : e.2.Good f := ⟨.inl empty, fun got => by rw [waiting] at got; cases got⟩
  cases n with
  | zero => exact whole_block idle good block
  | succ n =>
    have all : ∀ kind, ∀ f : V8Flags, ∀ n < 60,
        ((quietSync 0 ((f.packet kind).drop (n + 1))).any fun σ => decide (SafeSync σ)) = true := by
      intro kind
      cases kind <;> decide +kernel
    have heard : ∃ bit_sync, quietSync 0 (b.drop (n + 1)) = some bit_sync ∧ SafeSync bit_sync := by
      obtain rfl | ⟨kind, rfl⟩ := block
      · exact ⟨0, by rw [List.drop_of_length_le (Nat.le_add_left 1 n)]; rfl, by decide⟩
      · obtain inside | outside := Nat.lt_or_ge n 60
        · have found := all kind f n inside
          cases quiet : quietSync 0 ((f.packet kind).drop (n + 1)) with
          | none => rw [quiet] at found; cases found
          | some bit_sync =>
            rw [quiet] at found
            exact ⟨bit_sync, rfl, of_decide_eq_true found⟩
        · have short := packet_length f kind
          exact ⟨0, by rw [List.drop_of_length_le (by omega)]; rfl, by decide⟩
    obtain ⟨bit_sync, quiet, safe⟩ := heard
    rw [← zero] at quiet
    obtain ⟨quietRun, sync, passive'⟩ := quietRun_of_quietSync passive quiet
    refine whole_quiet quietRun good ⟨sync ▸ safe, fun active => ?_, fun active => ?_⟩
    · rw [passive'] at active
      cases active
    · rw [passive'] at active
      cases active

end QFax.Linmodem

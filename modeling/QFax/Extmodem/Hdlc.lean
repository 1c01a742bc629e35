import QFax.Extmodem.Crc
import QFax.Lib.BitWindow
import QFax.Lib.Machine

/-!
# Packet modem: the HDLC receiver

`rxbit` takes one demodulated bit at a time.  It keeps the latest bits in a word, looks there for flags,
for aborts and for stuffed zeros, and gathers octets in a buffer of 1024.  The receiver that `hear`
describes remembers everything since the last flag and reads it as a whole when the next flag ends; both
hand on the same packets whatever bits come in (`rxbit_refines`).
-/

namespace QFax.Extmodem

open Bits BitStuffing BitWindow Octets

/-- A packet without its check, which is computed again. -/
structure Frame where
  data : List UInt8
  crc : BitVec 32
  deriving DecidableEq, Repr

/-- The constructor of `frame` that takes a buffer. -/
def Frame.ofBuffer (buffer : List UInt8) : Frame := ⟨buffer, calc_crc_ccitt buffer⟩

/-- `rxbuf` holds the octets up to `rxptr`. -/
structure l2_state_hdlc where
  rxbuf : List UInt8
  rxstate : Bool
  rxbitstream : BitVec 32
  rxbitbuf : Nat
  deriving DecidableEq, Repr

/-- `hdlc::init`. -/
def l2_state_hdlc.init : l2_state_hdlc := ⟨[], false, 0, 0⟩

def ax25_dispatch_packet (bp : List UInt8) : List Frame :=
  if check_crc_ccitt bp then [.ofBuffer (bp.take (bp.length - 2))] else []

/-- One bit, and the packets handed to the modem. -/
def rxbit : Machine.Step l2_state_hdlc Bool Frame := fun bit hdlc =>
  let rxbitstream := (hdlc.rxbitstream <<< 1) ||| (if bit then 1 else 0)
  if rxbitstream &&& 0xff#32 = 0x7e#32 then
    (⟨[], true, rxbitstream, 0x80⟩,
      if hdlc.rxstate ∧ 2 < hdlc.rxbuf.length then ax25_dispatch_packet hdlc.rxbuf else [])
  else if rxbitstream &&& 0x7f#32 = 0x7f#32 then
    ({ hdlc with rxstate := false, rxbitstream := rxbitstream }, [])
  else if !hdlc.rxstate then
    ({ hdlc with rxbitstream := rxbitstream }, [])
  else if rxbitstream &&& 0x3f#32 = 0x3e#32 then
    -- stuffed bit
    ({ hdlc with rxbitstream := rxbitstream }, [])
  else
    let rxbitbuf := if rxbitstream &&& 1#32 = 1#32 then hdlc.rxbitbuf ||| 0x100 else hdlc.rxbitbuf
    if rxbitbuf % 2 = 1 then
      if 1024 ≤ hdlc.rxbuf.length then
        -- packet size too large
        ({ hdlc with rxstate := false, rxbitstream := rxbitstream, rxbitbuf := rxbitbuf }, [])
      else
        ({ hdlc with
            rxbuf := hdlc.rxbuf ++ [UInt8.ofNat (rxbitbuf >>> 1)]
            rxbitstream := rxbitstream
            rxbitbuf := 0x80 }, [])
    else
      ({ hdlc with rxbitstream := rxbitstream, rxbitbuf := rxbitbuf >>> 1 }, [])

/-! ## What a receiver is for -/

/-- The packet between two flags: never seven ones in a row, at most 1024 octets without the stuffed
zeros, and a check that holds. -/
def received (body : List Bool) : List Frame :=
  let bytes := octets (destuff 5 0 body)
  if Calm 6 0 body ∧ 2 < bytes.length ∧ bytes.length ≤ 1024 then ax25_dispatch_packet bytes else []

/-- All bits so far, and those since the last flag. -/
structure Heard where
  text : List Bool
  body : Option (List Bool)

/-- A flag ends with a zero behind exactly six ones. -/
def hear : Machine.Step Heard Bool Frame := fun bit heard =>
  if bit = false ∧ run 0 heard.text = 6 then
    (⟨heard.text ++ [bit], some []⟩, heard.body.elim [] received)
  else (⟨heard.text ++ [bit], heard.body.map (· ++ [bit])⟩, [])

/-! ## Patterns among the latest bits -/

section Patterns

variable {stream : BitVec 32} {text : List Bool} {bit : Bool}

theorem flag_iff (recent : Recent stream (text ++ [bit])) :
    stream &&& 0xff#32 = 0x7e#32 ↔ bit = false ∧ run 0 text = 6 := by
  have places (i : Nat) (lt : i + 1 < 32) : stream.getLsbD (i + 1) = text.reverse.getD i false := by
    rw [recent (i + 1) lt, List.reverse_append]
    rfl
  have newest : stream.getLsbD 0 = bit := by
    rw [recent 0 (by decide), List.reverse_append]
    rfl
  rw [masked_eq_iff (n := 8) (by decide) (by decide)]
  constructor
  · intro same
    have six : 6 ≤ run 0 text := le_run_iff.mpr fun i lt => by
      rw [← places i (by omega), same (i + 1) (by omega) (by omega)]
      clear same places
      revert i
      decide
    have seven : ¬ 7 ≤ run 0 text := fun all => by
      have last := same 7 (by decide) (by decide)
      rw [places 6 (by decide), le_run_iff.mp all 6 (by decide)] at last
      cases last
    exact ⟨newest.symm.trans (same 0 (by decide) (by decide)), by omega⟩
  · rintro ⟨rfl, six⟩ i - below
    rcases i with - | i
    · exact newest
    · rw [places i (by omega)]
      rcases Nat.lt_or_ge i 6 with inside | beyond
      · rw [le_run_iff.mp six.ge i inside]
        clear places below
        revert i
        decide
      · obtain rfl : i = 6 := by omega
        have seven : ¬ 7 ≤ run 0 text := by omega
        by_contra set
        refine seven (le_run_iff.mpr fun j lt => ?_)
        rcases Nat.lt_or_ge j 6 with early | last
        · exact le_run_iff.mp six.ge j early
        · obtain rfl : j = 6 := by omega
          exact Bool.eq_true_of_not_eq_false set

theorem abort_iff (recent : Recent stream text) :
    stream &&& 0x7f#32 = 0x7f#32 ↔ 7 ≤ run 0 text := by
  rw [masked_eq_iff (n := 7) (by decide) (by decide), le_run_iff]
  have pattern : ∀ i < 7, (0x7f#32).getLsbD i = true := by decide
  constructor
  · intro same i below
    rw [← recent i (by omega), same i (by omega) below, pattern i below]
  · intro all i _ below
    rw [recent i (by omega), all i below, pattern i below]

theorem stuffed_iff (recent : Recent stream (text ++ [bit])) :
    stream &&& 0x3f#32 = 0x3e#32 ↔ bit = false ∧ 5 ≤ run 0 text := by
  have places (i : Nat) (lt : i + 1 < 32) : stream.getLsbD (i + 1) = text.reverse.getD i false := by
    rw [recent (i + 1) lt, List.reverse_append]
    rfl
  have newest : stream.getLsbD 0 = bit := by
    rw [recent 0 (by decide), List.reverse_append]
    rfl
  have pattern : ∀ i < 5, (0x3e#32).getLsbD (i + 1) = true := by decide
  rw [masked_eq_iff (n := 6) (by decide) (by decide), le_run_iff]
  constructor
  · intro same
    refine ⟨newest.symm.trans (same 0 (by decide) (by decide)), fun i below => ?_⟩
    rw [← places i (by omega), same (i + 1) (by omega) (by omega), pattern i below]
  · rintro ⟨rfl, all⟩ i - below
    rcases i with - | i
    · exact newest
    · rw [places i (by omega), all i (by omega), pattern i (by omega)]

theorem newest_iff (recent : Recent stream (text ++ [bit])) : stream &&& 1#32 = 1#32 ↔ bit = true := by
  have newest : stream.getLsbD 0 = bit := by
    rw [recent 0 (by decide), List.reverse_append]
    rfl
  rw [masked_eq_iff (n := 1) (by decide) (by decide), ← newest]
  constructor
  · exact fun same => same 0 (by decide) (by decide)
  · intro set i _ below
    obtain rfl : i = 0 := by omega
    exact set

end Patterns

/-! ## The bits of an unfinished octet -/

/-- The waiting bits at the top of an octet, above a mark. -/
def mark (bits : List Bool) : Nat := (2 * word bits + 1) * 2 ^ (7 - bits.length)

theorem mark_lt {bits : List Bool} (short : bits.length < 8) : mark bits < 2 ^ 8 := by
  have small := word_lt bits
  have width : 2 ^ 8 = 2 ^ (bits.length + 1) * 2 ^ (7 - bits.length) := by
    rw [← Nat.pow_add, show bits.length + 1 + (7 - bits.length) = 8 by omega]
  rw [mark, width, Nat.pow_succ]
  exact Nat.mul_lt_mul_of_pos_right (by omega) (Nat.two_pow_pos _)

/-- A bit comes in above those that wait. -/
theorem mark_snoc {bits : List Bool} (short : bits.length < 8) (b : Bool) :
    (if b = true then mark bits ||| 0x100 else mark bits) =
      (2 * word (bits ++ [b]) + 1) * 2 ^ (7 - bits.length) := by
  have top : 2 ^ bits.length * 2 * 2 ^ (7 - bits.length) = 256 := by
    rw [← Nat.pow_succ, ← Nat.pow_add, show bits.length + 1 + (7 - bits.length) = 8 by omega]
  have value : (2 * word (bits ++ [b]) + 1) * 2 ^ (7 - bits.length) = mark bits + 256 * b.toNat := by
    have last : word [b] = b.toNat := Nat.add_zero _
    rw [word_append, last, mark, ← top]
    ring
  have above : mark bits ||| 0x100 = mark bits + 256 := by
    have sum := Nat.two_pow_add_eq_or_of_lt (mark_lt short) 1
    rw [Nat.mul_one] at sum
    rw [Nat.lor_comm, ← sum, Nat.add_comm]
  rw [value]
  cases b
  · rfl
  · exact above

/-! ## The receiver against its purpose -/

/-- Whatever follows, the bits since the last flag are no packet. -/
def Lost (body : List Bool) : Prop := Calm 6 0 body → 1024 < (octets (destuff 5 0 body)).length

theorem Lost.snoc {body : List Bool} (lost : Lost body) (bit : Bool) : Lost (body ++ [bit]) := by
  intro calm
  have before := lost (calm_append.mp calm).1
  have grows : (octets (destuff 5 0 body)).length ≤ (octets (destuff 5 0 (body ++ [bit]))).length := by
    rw [destuff_append]
    exact (octets_initial _ _).length_le
  exact before.trans_le grows

/-- The receiver holds the octets and the waiting bits of a body that can still become a packet. -/
structure Gathers (hdlc : l2_state_hdlc) (body : List Bool) : Prop where
  live : hdlc.rxstate = true
  calm : Calm 6 0 body
  stored : hdlc.rxbuf = octets (destuff 5 0 body)
  room : hdlc.rxbuf.length ≤ 1024
  waiting : hdlc.rxbitbuf = mark (pending (destuff 5 0 body))

/-- A receiver that has heard some bits. -/
structure Hears (hdlc : l2_state_hdlc) (heard : Heard) : Prop where
  recent : Recent hdlc.rxbitstream heard.text
  bounded : hdlc.rxbuf.length ≤ 1024
  idle : heard.body = none → hdlc.rxstate = false
  body : ∀ body, heard.body = some body → run 0 heard.text = run 0 body ∧
    (Gathers hdlc body ∨ hdlc.rxstate = false ∧ Lost body)

theorem hears_init : Hears .init ⟨[], none⟩ where
  recent := recent_zero
  bounded := Nat.zero_le _
  idle _ := rfl
  body _ none := nomatch none

/-- Nothing was stored before a flag. -/
theorem gathers_nil (stream : BitVec 32) : Gathers ⟨[], true, stream, 0x80⟩ [] where
  live := rfl
  calm := Nat.zero_le 6
  stored := rfl
  room := Nat.zero_le _
  waiting := rfl

/-- A body that is read at a flag. -/
theorem Gathers.received_eq {hdlc : l2_state_hdlc} {body : List Bool} (gathers : Gathers hdlc body) :
    received body = if hdlc.rxstate ∧ 2 < hdlc.rxbuf.length then ax25_dispatch_packet hdlc.rxbuf
      else [] := by
  have conds : (Calm 6 0 body ∧ 2 < (octets (destuff 5 0 body)).length ∧
      (octets (destuff 5 0 body)).length ≤ 1024) ↔ (hdlc.rxstate = true ∧ 2 < hdlc.rxbuf.length) := by
    rw [← gathers.stored]
    exact ⟨fun conds => ⟨gathers.live, conds.2.1⟩, fun conds => ⟨gathers.calm, conds.2, gathers.room⟩⟩
  rw [received, if_congr conds rfl rfl, gathers.stored]

theorem Lost.received_eq {body : List Bool} (lost : Lost body) : received body = [] := by
  refine if_neg fun conds => ?_
  exact absurd (lost conds.1) (Nat.not_lt.mpr conds.2.2)

/-- A bit that is not stuffed. -/
theorem destuff_snoc {body : List Bool} {bit : Bool} (data : ¬ (bit = false ∧ 5 ≤ run 0 body)) :
    destuff 5 0 (body ++ [bit]) = destuff 5 0 body ++ [bit] := by
  rw [destuff_append]
  cases bit
  · rw [destuff, if_neg fun five => data ⟨rfl, five⟩, destuff]
  · rfl

theorem Gathers.calm_snoc {hdlc : l2_state_hdlc} {body : List Bool} (gathers : Gathers hdlc body)
    {bit : Bool} (few : ¬ 7 ≤ run 0 (body ++ [bit])) : Calm 6 0 (body ++ [bit]) := by
  refine calm_append.mpr ⟨gathers.calm, ?_⟩
  cases bit
  · exact ⟨gathers.calm.run_le, Nat.zero_le 6⟩
  · rw [run_snoc_true] at few
    exact Nat.le_of_lt_succ (Nat.not_le.mp few)

/-- A stuffed bit leaves no trace. -/
theorem Gathers.stuffed {hdlc : l2_state_hdlc} {body : List Bool} (gathers : Gathers hdlc body)
    (five : 5 ≤ run 0 body) (stream : BitVec 32) :
    Gathers { hdlc with rxbitstream := stream } (body ++ [false]) := by
  have same : destuff 5 0 (body ++ [false]) = destuff 5 0 body := by
    rw [destuff_append, destuff, if_pos five, destuff, List.append_nil]
  refine ⟨gathers.live, ?_, ?_, gathers.room, ?_⟩
  · refine gathers.calm_snoc fun many => ?_
    rw [run_snoc_false] at many
    cases many
  · rw [same]
    exact gathers.stored
  · rw [same]
    exact gathers.waiting

/-- A data bit waits, completes an octet, or finds the buffer full. -/
theorem Gathers.data {hdlc : l2_state_hdlc} {body : List Bool} (gathers : Gathers hdlc body)
    {bit : Bool} (few : ¬ 7 ≤ run 0 (body ++ [bit])) (data : ¬ (bit = false ∧ 5 ≤ run 0 body))
    (stream : BitVec 32) {rxbitbuf : Nat}
    (buf : rxbitbuf = if bit = true then hdlc.rxbitbuf ||| 0x100 else hdlc.rxbitbuf) :
    (rxbitbuf % 2 = 1 ∧ hdlc.rxbuf.length < 1024 ∧
      Gathers ⟨hdlc.rxbuf ++ [UInt8.ofNat (rxbitbuf >>> 1)], hdlc.rxstate, stream, 0x80⟩
        (body ++ [bit])) ∨
    (rxbitbuf % 2 = 1 ∧ 1024 ≤ hdlc.rxbuf.length ∧ Lost (body ++ [bit])) ∨
    (rxbitbuf % 2 ≠ 1 ∧ Gathers ⟨hdlc.rxbuf, hdlc.rxstate, stream, rxbitbuf >>> 1⟩ (body ++ [bit])) := by
  have calm := gathers.calm_snoc few
  have short := pending_lt (destuff 5 0 body)
  have snoc := destuff_snoc data
  rw [gathers.waiting, mark_snoc short] at buf
  rcases eq_or_ne (pending (destuff 5 0 body)).length 7 with full | room
  · obtain ⟨whole, rest⟩ := octets_snoc_full full bit
    rw [full, Nat.sub_self, Nat.pow_zero, Nat.mul_one] at buf
    have odd : rxbitbuf % 2 = 1 := by omega
    have octet : rxbitbuf >>> 1 = word (pending (destuff 5 0 body) ++ [bit]) := by
      rw [Nat.shiftRight_one]
      omega
    rw [← snoc] at whole rest
    rcases Nat.lt_or_ge hdlc.rxbuf.length 1024 with space | none
    · refine Or.inl ⟨odd, space, gathers.live, calm, ?_, ?_, ?_⟩
      · show hdlc.rxbuf ++ _ = _
        rw [octet, gathers.stored, whole]
      · show (hdlc.rxbuf ++ _).length ≤ 1024
        rw [List.length_append]
        exact space
      · rw [rest]
        rfl
    · refine Or.inr (Or.inl ⟨odd, none, fun _ => ?_⟩)
      rw [whole, List.length_append, ← gathers.stored]
      exact Nat.lt_succ_of_le none
  · obtain ⟨whole, rest⟩ := octets_snoc_room room bit
    rw [← snoc] at whole rest
    have half : (2 * word (pending (destuff 5 0 body) ++ [bit]) + 1) *
        2 ^ (7 - (pending (destuff 5 0 body)).length) =
          2 * mark (pending (destuff 5 0 body) ++ [bit]) := by
      have size : (pending (destuff 5 0 body) ++ [bit]).length =
          (pending (destuff 5 0 body)).length + 1 := List.length_append
      have width : 2 ^ (7 - (pending (destuff 5 0 body)).length) =
          2 * 2 ^ (7 - ((pending (destuff 5 0 body)).length + 1)) := by
        rw [← Nat.pow_succ']
        congr 1
        omega
      rw [mark, size, width]
      ring
    rw [half] at buf
    refine Or.inr (Or.inr ⟨by omega, gathers.live, calm, ?_, gathers.room, ?_⟩)
    · show hdlc.rxbuf = _
      rw [gathers.stored, whole]
    · show rxbitbuf >>> 1 = _
      rw [rest, Nat.shiftRight_one]
      omega

/-- A receiver that has heard a bit inside a body, or before the first flag. -/
theorem Hears.next {hdlc hdlc' : l2_state_hdlc} {heard : Heard} {bit : Bool} (hears : Hears hdlc heard)
    (recent : Recent hdlc'.rxbitstream (heard.text ++ [bit])) (bounded : hdlc'.rxbuf.length ≤ 1024)
    (idle : hdlc.rxstate = false → hdlc'.rxstate = false)
    (body : ∀ body, Gathers hdlc body → run 0 heard.text = run 0 body →
      Gathers hdlc' (body ++ [bit]) ∨ hdlc'.rxstate = false ∧ Lost (body ++ [bit])) :
    Hears hdlc' ⟨heard.text ++ [bit], heard.body.map (· ++ [bit])⟩ where
  recent := recent
  bounded := bounded
  idle none := by
    cases found : heard.body with
    | none => exact idle (hears.idle found)
    | some body => rw [found] at none; cases none
  body := by
    intro body' some'
    obtain ⟨body₀, found, rfl⟩ := Option.map_eq_some_iff.mp some'
    obtain ⟨same, before⟩ := hears.body body₀ found
    refine ⟨?_, ?_⟩
    · show run 0 (heard.text ++ [bit]) = run 0 (body₀ ++ [bit])
      rw [run_append, run_append, same]
    · rcases before with gathers | ⟨off, lost⟩
      · exact body body₀ gathers same
      · exact Or.inr ⟨idle off, lost.snoc bit⟩

/-- At a flag both receivers read the same body. -/
theorem Hears.flag {hdlc : l2_state_hdlc} {heard : Heard} (hears : Hears hdlc heard) :
    (if hdlc.rxstate ∧ 2 < hdlc.rxbuf.length then ax25_dispatch_packet hdlc.rxbuf else []) =
      heard.body.elim [] received := by
  cases found : heard.body with
  | none => rw [hears.idle found, if_neg fun on => nomatch on.1]; rfl
  | some body =>
    rcases (hears.body body found).2 with gathers | ⟨off, lost⟩
    · exact gathers.received_eq.symm
    · rw [off, if_neg fun on => nomatch on.1]
      exact lost.received_eq.symm

/-- Each bit keeps the two receivers in step. -/
theorem rxbit_refines : Machine.Refines rxbit hear Hears := by
  intro bit hdlc heard hears
  have recent : Recent ((hdlc.rxbitstream <<< 1) ||| (if bit then 1 else 0)) (heard.text ++ [bit]) :=
    hears.recent.push bit
  by_cases flag : bit = false ∧ run 0 heard.text = 6
  · simp only [rxbit, hear, if_pos ((flag_iff recent).mpr flag), if_pos flag]
    refine ⟨hears.flag, recent, Nat.zero_le _, (fun none => nomatch none), ?_⟩
    rintro _ ⟨⟩
    refine ⟨?_, Or.inl (gathers_nil _)⟩
    rw [flag.1]
    exact run_snoc_false _
  · simp only [rxbit, hear, if_neg (mt (flag_iff recent).mp flag), if_neg flag]
    by_cases abort : 7 ≤ run 0 (heard.text ++ [bit])
    · rw [if_pos ((abort_iff recent).mpr abort)]
      refine ⟨rfl, hears.next recent hears.bounded (fun _ => rfl) fun body _ same => Or.inr ⟨rfl, ?_⟩⟩
      intro calm
      have few := calm.run_le
      rw [run_append, ← same, ← run_append] at few
      omega
    · rw [if_neg (mt (abort_iff recent).mp abort)]
      by_cases off : hdlc.rxstate = false
      · have test : (!hdlc.rxstate) = true := by rw [off]; rfl
        rw [if_pos test]
        refine ⟨rfl, hears.next recent hears.bounded id fun body gathers _ => ?_⟩
        rw [gathers.live] at off
        cases off
      · have test : ¬ (!hdlc.rxstate) = true := by
          rwa [Bool.not_eq_true', ← ne_eq]
        rw [if_neg test]
        by_cases stuffed : bit = false ∧ 5 ≤ run 0 heard.text
        · rw [if_pos ((stuffed_iff recent).mpr stuffed)]
          refine ⟨rfl, hears.next recent hears.bounded id fun body gathers same => Or.inl ?_⟩
          rw [same] at stuffed
          obtain ⟨rfl, five⟩ := stuffed
          exact gathers.stuffed five _
        · rw [if_neg (mt (stuffed_iff recent).mp stuffed),
            if_congr (newest_iff recent) (rfl : hdlc.rxbitbuf ||| 0x100 = _) rfl]
          have data (body : List Bool) (gathers : Gathers hdlc body)
              (same : run 0 heard.text = run 0 body) :=
            gathers.data (by rwa [run_append, ← same, ← run_append]) (same ▸ stuffed)
              ((hdlc.rxbitstream <<< 1) ||| (if bit then 1 else 0)) rfl
          generalize (if bit = true then hdlc.rxbitbuf ||| 0x100 else hdlc.rxbitbuf) = rxbitbuf at data ⊢
          by_cases odd : rxbitbuf % 2 = 1
          · rw [if_pos odd]
            by_cases full : 1024 ≤ hdlc.rxbuf.length
            · rw [if_pos full]
              refine ⟨rfl, hears.next recent hears.bounded (fun _ => rfl) fun body gathers same => ?_⟩
              rcases data body gathers same with ⟨-, space, -⟩ | ⟨-, -, lost⟩ | ⟨even, -⟩
              · omega
              · exact Or.inr ⟨rfl, lost⟩
              · exact absurd odd even
            · rw [if_neg full]
              refine ⟨rfl, hears.next recent ?_ (absurd · off) fun body gathers same => ?_⟩
              · show (hdlc.rxbuf ++ _).length ≤ 1024
                rw [List.length_append]
                exact Nat.not_le.mp full
              · rcases data body gathers same with ⟨-, -, whole⟩ | ⟨-, none, -⟩ | ⟨even, -⟩
                · exact Or.inl whole
                · exact absurd none full
                · exact absurd odd even
          · rw [if_neg odd]
            refine ⟨rfl, hears.next recent hears.bounded (absurd · off) fun body gathers same => ?_⟩
            rcases data body gathers same with ⟨one, -⟩ | ⟨one, -⟩ | ⟨-, waits⟩
            · exact absurd one odd
            · exact absurd one odd
            · exact Or.inl waits

/-- Whatever bits come in, the receiver hands on the packets that stand between flags, and its buffer
never holds more than 1024 octets. -/
theorem rxbit_frames (bits : List Bool) :
    (Machine.feed rxbit bits [] .init).1 = (Machine.feed hear bits [] ⟨[], none⟩).1 ∧
      (Machine.feed rxbit bits [] .init).2.rxbuf.length ≤ 1024 := by
  obtain ⟨same, hears⟩ := rxbit_refines.feed bits hears_init []
  exact ⟨same, hears.bounded⟩

end QFax.Extmodem

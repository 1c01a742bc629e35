import QFax.Efax.Encode
import QFax.Efax.RunVector

/-!
# The row reader

`readruns` and `readfaxruns` share one loop: they refill a bit window from a byte source, look up
nine bits at a time and store run codes up to an EOL.  The loop is generic in the source, which is a
file for one and the modem for the other.

A window `Holds` a bit string when its unused bits, followed by the bytes the source still delivers,
are that string.  As long as nine bits are left, a lookup only moves along the string; a code word
is one lookup or two, an EOL at least three.
-/

namespace QFax.Efax

open Bits

variable {σ : Type}

/-! ## The loop -/

/-- The bits in hand: the byte source, the register as the bit pattern of an `int`, the number of
unused bits less nine, and the last character read, negative at the end of the data. -/
structure Window (σ : Type) where
  src : σ
  x : Nat
  shift : Int
  c : Int

/-- Take one character into the register, or fifteen bits of EOL pad at the end of the data. -/
def Window.fetch (get : σ → Int × σ) (w : Window σ) : Window σ :=
  let (c, src) := get w.src
  if c < 0 then ⟨src, (w.x <<< 15 ||| 1) % 2 ^ 32, w.shift + 15, c⟩
  else ⟨src, (w.x <<< 8 ||| c.toNat) % 2 ^ 32, w.shift + 8, c⟩

/-- Fetch until nine bits are in hand.  The number bounds the fetches. -/
def Window.refill (get : σ → Int × σ) : Nat → Window σ → Window σ
  | 0, w => w
  | n + 1, w => if w.shift < 0 then refill get n (w.fetch get) else w

/-- The next nine bits. -/
def Window.index (w : Window σ) : Nat := w.x >>> w.shift.toNat % 512

/-- Look up the next nine bits in a table and drop the bits its entry says. -/
def Window.lookup (get : σ → Int × σ) (w : Window σ) (tab : TabName) : Window σ × Dtab :=
  let w := w.refill get (-w.shift).toNat
  let t := dtabs tab w.index
  ({ w with shift := w.shift - t.bits }, t)

/-- Look up and store codes up to an EOL, `codes` being those stored so far.  The number bounds the
lookups. -/
def readCodes (get : σ → Int × σ) :
    Nat → Window σ → TabName → List Int → Option (Window σ × TabName × List Int)
  | 0, _, _, _ => none
  | n + 1, w, tab, codes =>
    let (w, t) := w.lookup get tab
    if t.code = 0 then readCodes get n w t.next codes
    else
      let codes := if codes.length < maxRuns then codes ++ [t.code] else codes
      if t.code = -1 then some (w, t.next, codes) else readCodes get n w t.next codes

/-- Combine make-up and terminating codes and remove the offset of one in the codes. -/
def combine : List Int → List Int
  | [] => []
  | [c] => [c - 1]
  | c :: d :: codes =>
    if c > 64 then (c + d - 2) :: combine codes else (c - 1) :: combine (d :: codes)

/-- The pel count of a row, summed in a `short`. -/
def rowLen (runs : List Int) : Int := runs.foldl (fun len run => toShort (len + run)) 0

/-- What a row reader returns: the number of runs, or `-1` on RTC, `-2` at the end of the data; the
runs stored; their pel count. -/
structure Row where
  nr : Int
  runs : List Int
  pels : Int
  deriving DecidableEq, Repr

/-- `readruns` and `readfaxruns`: read the run lengths of one scan line. -/
def readRow (get : σ → Int × σ) (fuel : Nat) (d : Decoder) (src : σ) :
    Option (Row × Decoder × σ) :=
  match readCodes get fuel ⟨src, d.x, d.shift, -1⟩ d.tab [] with
  | none => none
  | some (w, tab, codes) =>
    let runs := combine codes.dropLast
    let len := rowLen runs
    let eolcnt := if len ≠ 0 then 0 else d.eolcnt + 1
    let err : Int := if w.c < 0 then -2 else if len = 0 ∧ rtcEol ≤ eolcnt then -1 else 0
    some (⟨if err ≠ 0 then err else runs.length, runs, len⟩, ⟨w.x, w.shift, tab, eolcnt⟩, w.src)

/-! ## Sources that deliver a byte string -/

/-- The source delivers the related byte string and nothing after it. -/
structure Delivers (get : σ → Int × σ) (R : σ → List UInt8 → Prop) : Prop where
  byte : ∀ {s : σ} {b : UInt8} {bs : List UInt8},
    R s (b :: bs) → (get s).1 = b.toNat ∧ R (get s).2 bs
  done : ∀ {s : σ}, R s [] → (get s).1 < 0 ∧ R (get s).2 []

/-- The unused bits, followed by the bytes that the source still delivers.  At most sixteen bits are
in hand. -/
structure Window.Holds (R : σ → List UInt8 → Prop) (w : Window σ) (bits : List Bool) : Prop where
  lower : -9 ≤ w.shift
  upper : w.shift ≤ 7
  content : ∃ data, R w.src data ∧ toBits (w.shift + 9).toNat w.x ++ bytesBits data = bits

variable {get : σ → Int × σ} {R : σ → List UInt8 → Prop} {w : Window σ} {bits rest : List Bool}

/-- A fetch that reads a byte. -/
theorem Delivers.fetch_eq (delivers : Delivers get R) {b : UInt8} {bs : List UInt8}
    (related : R w.src (b :: bs)) : R (get w.src).2 bs ∧
      w.fetch get = ⟨(get w.src).2, (w.x <<< 8 ||| b.toNat) % 2 ^ 32, w.shift + 8, b.toNat⟩ := by
  obtain ⟨value, related'⟩ := delivers.byte related
  have nonneg : ¬ (b.toNat : Int) < 0 := by omega
  refine ⟨related', ?_⟩
  simp only [Window.fetch, value, if_neg nonneg, Int.toNat_natCast]

/-- The byte comes behind the unused bits. -/
theorem toBits_fetch {shift : Int} (lower : -9 ≤ shift) (few : shift < 0) (x : Nat) (b : UInt8) :
    toBits (shift + 8 + 9).toNat ((x <<< 8 ||| b.toNat) % 2 ^ 32) =
      toBits (shift + 9).toNat x ++ byteBits b := by
  have width : (shift + 8 + 9).toNat = (shift + 9).toNat + 8 := by omega
  rw [width, toBits_mod _ (by omega), toBits_shiftLeft_or _ _ b.toNat_lt]
  rfl

/-- With fewer than nine bits in hand and more to come, a fetch reads a byte. -/
theorem Window.Holds.fetch (delivers : Delivers get R) (holds : w.Holds R bits)
    (more : w.shift + 9 < bits.length) (few : w.shift < 0) :
    (w.fetch get).Holds R bits ∧ 0 ≤ (w.fetch get).c ∧ (w.fetch get).shift = w.shift + 8 := by
  obtain ⟨lower, upper, data, related, content⟩ := holds
  cases data with
  | nil =>
    rw [← content] at more
    simp only [bytesBits_nil, List.append_nil, length_toBits] at more
    omega
  | cons b bs =>
    obtain ⟨related', fetched⟩ := delivers.fetch_eq related
    rw [fetched]
    refine ⟨⟨?_, ?_, bs, related', ?_⟩, ?_, rfl⟩
    · show -9 ≤ w.shift + 8
      omega
    · show w.shift + 8 ≤ 7
      omega
    · show toBits (w.shift + 8 + 9).toNat ((w.x <<< 8 ||| b.toNat) % 2 ^ 32) ++ bytesBits bs = bits
      rw [toBits_fetch lower few, List.append_assoc, ← content, bytesBits_cons]
    · show (0 : Int) ≤ b.toNat
      omega

/-- Refilling a window with nine bits left keeps what it holds. -/
theorem Window.Holds.refill (delivers : Delivers get R) (holds : w.Holds R bits)
    (left : 9 ≤ bits.length) {n : Nat} (fuel : -w.shift ≤ n) :
    (w.refill get n).Holds R bits ∧ 0 ≤ (w.refill get n).shift ∧
      (0 ≤ w.c ∨ w.shift < 0 → 0 ≤ (w.refill get n).c) := by
  induction n generalizing w with
  | zero =>
    have enough : 0 ≤ w.shift := by simpa using fuel
    refine ⟨holds, enough, ?_⟩
    rintro (read | few)
    · exact read
    · exact absurd enough (by omega)
  | succ n ih =>
    rw [Window.refill]
    split
    case isTrue few =>
      obtain ⟨holds', read, shift⟩ := holds.fetch delivers (by omega) few
      obtain ⟨final, enough, later⟩ := ih holds' (by omega)
      exact ⟨final, enough, fun _ => later (Or.inl read)⟩
    case isFalse enough =>
      refine ⟨holds, by omega, ?_⟩
      rintro (read | few)
      · exact read
      · exact absurd few enough

/-- The index of a window is the next nine bits of what it holds. -/
theorem Window.Holds.index (holds : w.Holds R bits) (enough : 0 ≤ w.shift) :
    toBits 9 w.index = bits.take 9 := by
  obtain ⟨lower, upper, data, related, content⟩ := holds
  have width : (w.shift + 9).toNat = 9 + w.shift.toNat := by omega
  have value : w.index = w.x >>> w.shift.toNat % 2 ^ 9 := rfl
  rw [width, toBits_add] at content
  rw [value, toBits_mod _ le_rfl, ← content, List.append_assoc,
    List.take_left' (length_toBits 9 _)]

/-- Dropping bits in hand. -/
theorem Window.Holds.drop (holds : w.Holds R bits) (enough : 0 ≤ w.shift) {k : Nat} (le : k ≤ 9) :
    ({ w with shift := w.shift - k } : Window σ).Holds R (bits.drop k) := by
  obtain ⟨lower, upper, data, related, content⟩ := holds
  refine ⟨?_, ?_, data, related, ?_⟩
  · show -9 ≤ w.shift - k
    omega
  · show w.shift - k ≤ 7
    omega
  · show toBits (w.shift - k + 9).toNat w.x ++ bytesBits data = bits.drop k
    have width : (w.shift + 9).toNat = k + (w.shift - k + 9).toNat := by omega
    rw [width, toBits_add, List.append_assoc] at content
    rw [← content, List.drop_left' (length_toBits k _)]

/-- A lookup moves along the bits held, as long as nine of them are left. -/
theorem Window.Holds.lookup (delivers : Delivers get R) (holds : w.Holds R bits)
    (left : 9 ≤ bits.length) (tab : TabName) (t : Dtab)
    (entry : ∀ i < 512, toBits 9 i = bits.take 9 → dtabs tab i = t) (few : t.bits ≤ 9) :
    ∃ w', w.lookup get tab = (w', t) ∧ w'.Holds R (bits.drop t.bits) ∧
      w'.shift ≤ 7 - t.bits ∧ (w.shift < 0 ∨ w'.shift = w.shift - t.bits) ∧
      (0 ≤ w.c ∨ w.shift < 0 → 0 ≤ w'.c) := by
  obtain ⟨holds', enough, read⟩ := holds.refill delivers left (n := (-w.shift).toNat) (by omega)
  have found : dtabs tab (w.refill get (-w.shift).toNat).index = t :=
    entry _ (Nat.mod_lt _ (by decide)) (holds'.index enough)
  refine ⟨{ w.refill get (-w.shift).toNat with
    shift := (w.refill get (-w.shift).toNat).shift - t.bits }, ?_, holds'.drop enough few, ?_, ?_,
    read⟩
  · rw [Window.lookup, found]
  · show (w.refill get (-w.shift).toNat).shift - t.bits ≤ 7 - t.bits
    have := holds'.upper
    omega
  · by_cases short : w.shift < 0
    · exact Or.inl short
    · right
      have none : (-w.shift).toNat = 0 := by omega
      rw [none]
      rfl

end QFax.Efax

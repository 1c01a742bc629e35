import QFax.Efax.RunVector
import QFax.Efax.T4

/-!
# Scan lines as bit maps

`runtobit` fills the bytes of a scan line run by run and `bittorun` finds the runs again with a table
of the runs in each byte.  `runtobit` keeps the pels of the line (`pels_runtobit`), and the table has
those of its byte (`rltab_runs`).
-/

namespace QFax.Efax

open Bits

/-! ## Pels -/

/-- The pels of a colour in a bit map. -/
def Colour.bit : Colour → Bool
  | .white => false
  | .black => true

/-- A byte of pels of one colour. -/
def Colour.byte : Colour → UInt8
  | .white => 0x00
  | .black => 0xff

/-- The pels of a run vector whose first run has a colour. -/
def pels (c : Colour) : List Int → List Bool
  | [] => []
  | run :: runs => List.replicate run.toNat c.bit ++ pels c.other runs

/-- The colour behind a number of runs. -/
def Colour.after (c : Colour) : Nat → Colour
  | 0 => c
  | n + 1 => c.other.after n

theorem pels_append (c : Colour) (as bs : List Int) :
    pels c (as ++ bs) = pels c as ++ pels (c.after as.length) bs := by
  induction as generalizing c with
  | nil => rfl
  | cons run as ih => rw [List.cons_append, pels, pels, ih c.other, List.append_assoc]; rfl

theorem length_pels (c : Colour) {runs : List Int} (nonneg : ∀ r ∈ runs, 0 ≤ r) :
    ((pels c runs).length : Int) = runs.sum := by
  induction runs generalizing c with
  | nil => rfl
  | cons run runs ih =>
    have first : 0 ≤ run := nonneg run List.mem_cons_self
    have rest := ih c.other fun r member => nonneg r (List.mem_cons_of_mem run member)
    rw [pels, List.length_append, List.length_replicate, List.sum_cons]
    omega

/-! ## From runs to bits -/

/-- The table `zerofill` of `runtobit`. -/
def zerofill : List UInt8 := [0xff, 0xfe, 0xfc, 0xf8, 0xf0, 0xe0, 0xc0, 0x80, 0x00]

/-- The table `onefill` of `runtobit`. -/
def onefill : List UInt8 := [0x00, 0x01, 0x03, 0x07, 0x0f, 0x1f, 0x3f, 0x7f, 0xff]

/-- The buffer of `runtobit`: the bytes in front of the current one, the current byte, and the number
of its bits that are not filled. -/
structure BitOut where
  done : List UInt8
  cur : UInt8
  b : Nat

/-- Fill the right bits of the current byte. -/
def BitOut.flood (o : BitOut) : Colour → UInt8
  | .white => o.cur &&& zerofill.getD o.b 0
  | .black => o.cur ||| onefill.getD o.b 0

/-- Fill a run. -/
def BitOut.fill (o : BitOut) (col : Colour) (len : Nat) : BitOut :=
  if len < o.b then
    -- done fill
    { o with cur := o.flood col, b := o.b - len }
  else
    -- continue to next byte, fill the whole bytes and flood the rest
    let len := len - o.b
    let bytes := len >>> 3
    ⟨o.done ++ o.flood col :: List.replicate bytes col.byte, col.byte, 8 - (len - bytes * 8)⟩

/-- The loop of `runtobit`. -/
def fillRuns (o : BitOut) (col : Colour) : List Int → BitOut
  | [] => o
  | run :: runs => fillRuns (o.fill col run.toNat) col.other runs

/-- `runtobit`: the bytes filled.  The first run, which is white, clears the first byte. -/
def runtobit (runs : List Int) : List UInt8 :=
  let o := fillRuns ⟨[], 0, 8⟩ .white runs
  o.done ++ if o.b < 8 then [o.cur] else []

/-- The pels filled so far. -/
structure BitOut.Holds (o : BitOut) (bits : List Bool) : Prop where
  pos : 1 ≤ o.b
  le : o.b ≤ 8
  filled : bytesBits o.done ++ (byteBits o.cur).take (8 - o.b) = bits

theorem byteBits_byte (c : Colour) : byteBits c.byte = List.replicate 8 c.bit := by
  cases c <;> rfl

theorem bytesBits_byte (c : Colour) (n : Nat) :
    bytesBits (List.replicate n c.byte) = List.replicate (8 * n) c.bit := by
  induction n with
  | zero => rfl
  | succ n ih =>
    rw [List.replicate_succ, bytesBits_cons, ih, byteBits_byte, List.replicate_append_replicate,
      Nat.mul_succ, Nat.add_comm]

theorem testBit_flood (o : BitOut) (col : Colour) (le : o.b ≤ 8) {i : Nat} (lt : i < 8) :
    (o.flood col).toNat.testBit i = if i < o.b then col.bit else o.cur.toNat.testBit i := by
  have ones : ∀ b < 9, ∀ i < 8, (onefill.getD b 0).toNat.testBit i = decide (i < b) := by decide
  have zeros : ∀ b < 9, ∀ i < 8, (zerofill.getD b 0).toNat.testBit i = decide (b ≤ i) := by decide
  cases col with
  | white =>
    rw [BitOut.flood, UInt8.toNat_and, Nat.testBit_and, zeros o.b (by omega) i lt]
    split
    case isTrue below => simp [Nat.not_le.mpr below, Colour.bit]
    case isFalse above => simp [Nat.not_lt.mp above]
  | black =>
    rw [BitOut.flood, UInt8.toNat_or, Nat.testBit_or, ones o.b (by omega) i lt]
    split
    case isTrue below => simp [below, Colour.bit]
    case isFalse above => simp [above]

/-- The bits that were filled stay, the others get the colour. -/
theorem byteBits_flood (o : BitOut) (col : Colour) (le : o.b ≤ 8) :
    byteBits (o.flood col) = (byteBits o.cur).take (8 - o.b) ++ List.replicate o.b col.bit := by
  have width : 8 = (8 - o.b) + o.b := by omega
  rw [byteBits, byteBits, width, Nat.add_sub_cancel]
  refine toBits_flood fun i lt => ?_
  exact testBit_flood o col le (by omega)

theorem BitOut.Holds.fill {o : BitOut} {bits : List Bool} (holds : o.Holds bits) (col : Colour)
    (len : Nat) : (o.fill col len).Holds (bits ++ List.replicate len col.bit) := by
  obtain ⟨pos, le, filled⟩ := holds
  have flooded := byteBits_flood o col le
  have kept : ((byteBits o.cur).take (8 - o.b)).length = 8 - o.b := by
    rw [List.length_take, length_byteBits, Nat.min_eq_left (by omega)]
  unfold BitOut.fill
  split
  case isTrue fits =>
    refine ⟨by show 1 ≤ o.b - len; omega, by show o.b - len ≤ 8; omega, ?_⟩
    have room : 8 - (o.b - len) = (8 - o.b) + len := by omega
    show bytesBits o.done ++ (byteBits (o.flood col)).take (8 - (o.b - len)) = _
    rw [flooded, room, List.take_append, kept, Nat.add_sub_cancel_left,
      List.take_of_length_le (by omega), List.take_replicate, Nat.min_eq_left (by omega),
      ← List.append_assoc, filled]
  case isFalse long =>
    obtain ⟨more, split⟩ : ∃ more, len = o.b + more := ⟨len - o.b, by omega⟩
    subst split
    have whole : o.b + more - o.b = more := by omega
    have parts : more = 8 * (more >>> 3) + more % 8 := by rw [Nat.shiftRight_eq_div_pow]; omega
    have last : more - (more >>> 3) * 8 = more % 8 := by omega
    simp only [whole, last]
    refine ⟨by show 1 ≤ 8 - more % 8; omega, by show 8 - more % 8 ≤ 8; omega, ?_⟩
    have rest : 8 - (8 - more % 8) = more % 8 := by omega
    show bytesBits (o.done ++ o.flood col :: List.replicate (more >>> 3) col.byte) ++
      (byteBits col.byte).take (8 - (8 - more % 8)) = _
    rw [bytesBits_append, bytesBits_cons, flooded, bytesBits_byte, byteBits_byte, rest,
      List.take_replicate,
      Nat.min_eq_left (by omega), ← filled]
    simp only [List.append_assoc, List.replicate_append_replicate, Nat.add_assoc]
    rw [← parts]

theorem BitOut.Holds.fillRuns {o : BitOut} {bits : List Bool} (holds : o.Holds bits) (col : Colour)
    (runs : List Int) : (fillRuns o col runs).Holds (bits ++ pels col runs) := by
  induction runs generalizing o bits col with
  | nil => simpa [QFax.Efax.fillRuns, pels] using holds
  | cons run runs ih =>
    rw [QFax.Efax.fillRuns, pels, ← List.append_assoc]
    exact ih (holds.fill col run.toNat) col.other

theorem fillRuns_holds (runs : List Int) :
    (fillRuns ⟨[], 0, 8⟩ .white runs).Holds (pels .white runs) :=
  BitOut.Holds.fillRuns (⟨by decide, le_rfl, rfl⟩ : BitOut.Holds ⟨[], 0, 8⟩ []) .white runs

/-- A line of whole bytes is stored pel by pel. -/
theorem pels_runtobit {runs : List Int} {n : Nat} (whole : (pels .white runs).length = 8 * n) :
    bytesBits (runtobit runs) = pels .white runs ∧ (runtobit runs).length = n := by
  obtain ⟨pos, le, filled⟩ := fillRuns_holds runs
  have size := congrArg List.length filled
  rw [List.length_append, length_bytesBits, List.length_take, length_byteBits, whole] at size
  have aligned : (fillRuns ⟨[], 0, 8⟩ .white runs).b = 8 := by omega
  have same : bytesBits (runtobit runs) = pels .white runs := by
    rw [← filled]
    simp [runtobit, aligned]
  refine ⟨same, ?_⟩
  have total := congrArg List.length same
  rw [length_bytesBits, whole] at total
  omega

/-! ## From bits to runs -/

/-- The decimal digits of a number, most significant first. -/
def digits : Nat → Nat → List Nat
  | 0, _ => []
  | w + 1, n => n / 10 ^ w % 10 :: digits w n

/-- `byteruns`: zero-terminated lists of run lengths for each byte. -/
def byteruns : List Nat := [
  8071061106205120511105210530413041210411110411204220421104310440,
  3140313103121103122031112031111103112103113032303221032111032120,
  3320331103410350215021410213110213202121202121110212210212302111,
  3021112102111111021111202112202112110211310211402240223102221102,
  2220221120221111022121022130233023210231110231202420241102510260,
  1160115101141101142011312011311101132101133011213011212101121111,
  0112112011222011221101123101124011114011113101111211011112201111,
  1120111111110111112101111130111230111221011121110111212011132011,
  1311011141011150125012410123110123201221201221110122210122301211,
  3012112101211111012111201212201212110121310121401340133101321101,
  3220131120131111013121013130143014210141110141201520151101610170,
  1701610151101520141201411101421014301313013121013111101311201322,
  0132110133101340121401213101212110121220121112012111110121121012,
  1130122301222101221110122120123201231101241012501115011141011131,
  1011132011121201112111011122101112301111130111112101111111101111,
  1120111122011112110111131011114011240112310112211011222011211201,
  1211110112121011213011330113210113111011312011420114110115101160,
  2602510241102420231202311102321023302213022121022111102211202222,
  0222110223102240211402113102112110211220211112021111110211121021,
  1130212302122102121110212120213202131102141021503503410331103320,
  3212032111032210323031130311210311111031112031220312110313103140,
  4404310421104220411204111104121041305305210511105120620611071080].flatMap (digits 64)

/-- The lists of a table, without their terminating zeros. -/
def splitRuns (run : List Int) : List Nat → List (List Int)
  | [] => []
  | p :: ps => if p = 0 then run :: splitRuns [] ps else splitRuns (run ++ [(p : Int)]) ps

/-- `rltab`: the runs of a byte. -/
def rltab (c : UInt8) : List Int := (splitRuns [] byteruns).getD c.toNat []

/-- A byte starts with a new run: its first bit differs from the last bit of the byte before. -/
def newRun (lastc c : UInt8) : Bool :=
  if lastc &&& 0x01 ≠ 0 then c &&& 0x80 = 0 else c &&& 0x80 ≠ 0

/-- The loop of `bittorun`: the runs from the current one on. -/
def bittorunFrom (lastc : UInt8) (cur : Int) : List UInt8 → List Int
  | [] => [cur]
  | c :: bits =>
    let p := rltab c
    -- new run, or continue run
    let runs := if newRun lastc c then cur :: p else toShort (cur + p.headD 0) :: p.tail
    runs.dropLast ++ bittorunFrom c (runs.getLastD 0) bits

/-- `bittorun`. -/
def bittorun (bits : List UInt8) : List Int := bittorunFrom 0x00 0 bits

/-- The colour of the first pel of a byte. -/
def firstColour (c : UInt8) : Colour := if c.toNat.testBit 7 then .black else .white

/-- The colour of the last pel of a byte. -/
def lastColour (c : UInt8) : Colour := if c.toNat.testBit 0 then .black else .white

/-- What the table says about a byte. -/
structure ByteRuns (c : UInt8) (runs : List Int) : Prop where
  bits : pels (firstColour c) runs = byteBits c
  nonneg : ∀ r ∈ runs, 0 ≤ r
  last : (firstColour c).after runs.length = (lastColour c).other
  ne : runs ≠ []

instance (c : UInt8) (runs : List Int) : Decidable (ByteRuns c runs) :=
  decidable_of_iff (pels (firstColour c) runs = byteBits c ∧ (∀ r ∈ runs, 0 ≤ r) ∧
      (firstColour c).after runs.length = (lastColour c).other ∧ runs ≠ [])
    ⟨fun ⟨bits, nonneg, last, ne⟩ => ⟨bits, nonneg, last, ne⟩,
      fun ⟨bits, nonneg, last, ne⟩ => ⟨bits, nonneg, last, ne⟩⟩

theorem rltab_runs (c : UInt8) : ByteRuns c (rltab c) := by
  have size : (splitRuns [] byteruns).length = 256 := by decide +kernel
  have all : ((splitRuns [] byteruns).zipIdx.all fun entry =>
      decide (ByteRuns (UInt8.ofNat entry.2) entry.1)) = true := by decide +kernel
  have lt : c.toNat < (splitRuns [] byteruns).length := by rw [size]; exact c.toNat_lt
  have entry : (rltab c, c.toNat) ∈ (splitRuns [] byteruns).zipIdx := by
    rw [rltab, List.getD_eq_getElem _ _ lt]
    exact List.mem_zipIdx_iff_getElem?.mpr (List.getElem?_eq_getElem lt)
  have byte := of_decide_eq_true (List.all_eq_true.mp all _ entry)
  rwa [UInt8.ofNat_toNat] at byte

theorem newRun_iff (lastc c : UInt8) :
    newRun lastc c = true ↔ firstColour c = (lastColour lastc).other := by
  have low : ∀ c : Fin 256, (UInt8.ofFin c &&& 0x01 ≠ 0) ↔ lastColour (UInt8.ofFin c) = .black := by
    decide +kernel
  have high : ∀ c : Fin 256,
      (UInt8.ofFin c &&& 0x80 ≠ 0) ↔ firstColour (UInt8.ofFin c) = .black := by decide +kernel
  have lastBit := low lastc.toFin
  have firstBit := high c.toFin
  simp only [UInt8.ofFin_toFin] at lastBit firstBit
  unfold newRun
  cases last : lastColour lastc with
  | white =>
    rw [if_neg (by rw [lastBit, last]; decide)]
    simpa [Colour.other] using firstBit
  | black =>
    rw [if_pos (by rw [lastBit, last])]
    cases first : firstColour c with
    | white => simpa [Colour.other, first] using firstBit
    | black => simpa [Colour.other, first] using firstBit

theorem Colour.after_succ (c : Colour) (n : Nat) : c.after (n + 1) = (c.after n).other := by
  induction n generalizing c with
  | zero => rfl
  | succ n ih => exact ih c.other

theorem Colour.other_other (c : Colour) : c.other.other = c := by cases c <;> rfl

theorem Colour.eq_other {c d : Colour} (ne : c ≠ d.other) : c = d := by
  cases c <;> cases d <;> simp_all [Colour.other]

end QFax.Efax

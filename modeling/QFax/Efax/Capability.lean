import Mathlib.Data.List.Basic
import Mathlib.Logic.Function.Basic

/-!
# Capabilities

The capability fields of a fax session and their coding in DIS and DCS frames: the tables of
`efax.c`, `checkcap`, `mkdis`, `dislen`, `mkcap` and `mincap`.
-/

namespace QFax.Efax

/-- `captype`: the capability fields. -/
inductive CapType
  | vr
  | br
  | wd
  | ln
  | df
  | ec
  | bf
  | st
  deriving DecidableEq, Repr

/-- The fields in index order. -/
def capTypes : List CapType := [.vr, .br, .wd, .ln, .df, .ec, .bf, .st]

/-- `cap`: a value for every field. -/
abbrev Cap : Type := CapType → Int

/-- A capability from its values in index order. -/
def Cap.of (vr br wd ln df ec bf st : Int) : Cap
  | .vr => vr
  | .br => br
  | .wd => wd
  | .ln => ln
  | .df => df
  | .ec => ec
  | .bf => bf
  | .st => st

/-- `DEFCAP`. -/
def defCap : Cap := Cap.of 1 3 0 2 0 0 0 0

/-- `capmax`. -/
def capMax : Cap := Cap.of 1 7 2 2 3 2 1 7

/-- An entry of a table of integers. -/
def entry (table : List Int) (i : Int) : Int := table.getD i.toNat 0

/-- `cps`: characters per second of a rate. -/
def cps : Int → Int := entry [300, 600, 900, 1200, 1500, 1800, 900, 1200]

/-- `fallback`: the rate to try next. -/
def fallback : Int → Int := entry [-1, 0, 1, 2, 7, 4, 3, 6]

/-- `brindex`: the negotiation speed index of a rate. -/
def brIndex : Int → Int := entry [0, 1, 2, 3, 4, 7, 5, 6]

/-- `mst`: the minimum scan time in ms. -/
def mst : Int → Int := entry [0, 5, 10, 10, 20, 20, 40, 40]

/-- `pagewidth`: the page width in pixels. -/
def pageWidth : Int → Int := entry [1728, 2048, 2432, 1216, 864]

/-- `checkcap`: every field out of range becomes zero. -/
def checkCap (c : Cap) : Cap := fun i => if c i > capMax i ∨ c i < 0 then 0 else c i

/-- Every field is within the range that `checkcap` accepts. -/
def Cap.InRange (c : Cap) : Prop := ∀ i, 0 ≤ c i ∧ c i ≤ capMax i

theorem checkCap_inRange (c : Cap) : (checkCap c).InRange := by
  intro i
  unfold checkCap
  split
  · exact ⟨Int.le_refl 0, by cases i <;> decide⟩
  · omega

theorem Cap.InRange.checkCap_eq {c : Cap} (range : c.InRange) : checkCap c = c := by
  funext i
  obtain ⟨lower, upper⟩ := range i
  exact if_neg (by omega)

/-! ## Frame coding -/

/-- `t30tabst`: where a field stands in a DIS, DCS or DTC frame and how its values are coded. -/
structure T30Tab where
  byte : Nat
  shift : Nat
  mask : Nat
  safeval : Nat
  captodis : List Nat
  distocap : List Nat
  captodcs : List Nat
  dcstocap : List Nat
  deriving DecidableEq, Repr

/-- `X`: an invalid value. -/
def invalidX : Nat := 0xff

/-- `t30tab`, with `0xff` for invalid values.  Entries that a table leaves out are zero. -/
def t30tab : CapType → T30Tab
  | .vr => ⟨1, 1, 0x01, 0, [0, 1], [0, 1], [0, 1], [0, 1]⟩
  | .br => ⟨1, 2, 0x0f, 0, [0, 4, 12, 12, 13, 13],
      [0, 0xff, 0xff, 0xff, 1, 0xff, 0xff, 0xff, 3, 0xff, 0xff, 0xff, 3, 5, 3, 0xff],
      [0, 4, 12, 8, 5, 1],
      [0, 5, 5, 0xff, 1, 4, 4, 0xff, 3, 7, 0xff, 0xff, 2, 6, 0xff, 0xff]⟩
  | .wd => ⟨2, 6, 0x03, 0, [0, 2, 1], [0, 2, 1, 2], [0, 2, 1], [0, 2, 1, 2]⟩
  | .ln => ⟨2, 4, 0x03, 0, [0, 2, 1], [0, 2, 1, 0xff], [0, 2, 1], [0, 2, 1, 0xff]⟩
  | .df => ⟨1, 0, 0x01, 0, [0, 1], [0, 1], [0, 1], [0, 1]⟩
  | .ec => ⟨3, 4, 0x03, 0, [0, 2, 2], [0, 0xff, 2, 0xff], [0, 3, 2], [0, 0, 2, 1]⟩
  | .bf => ⟨5, 5, 0x01, 0, [0, 1], [0, 1], [0, 1], [0, 1]⟩
  | .st => ⟨2, 1, 0x07, 7, [7, 4, 3, 2, 6, 0, 5, 1], [5, 7, 3, 2, 1, 6, 4, 0],
      [7, 4, 0xff, 2, 0xff, 0, 0xff, 1], [5, 7, 3, 1, 0xff, 0xff, 0xff, 0]⟩

/-- `DCSLEN`, `DEFDISLEN`: the length of the FIF of the DCS and DIS frames sent. -/
def dcsLen : Nat := 3

/-- `MAXFIFLEN`. -/
def maxFifLen : Nat := 125

/-- The bits that a field adds to its byte of the FIF; invalid values are sent as zero. -/
def fieldBits (c : Cap) (isdis : Bool) (i : CapType) : Nat :=
  let p := t30tab i
  let k := (if isdis then p.captodis else p.captodcs).getD (c i).toNat 0
  (if k = invalidX then 0 else k) <<< p.shift

/-- The bytes of the FIF that `mkdis` starts from. -/
def blankFif (len : Nat) (isdis t4tx : Bool) : List Nat :=
  [0, (if isdis && t4tx then 0x80 else 0) ||| 0x40] ++ List.replicate (len - 3) 0x01 ++ [0]

/-- `mkdis`: the FIF of a DIS frame, or of a DCS frame, for a capability.  A field in a byte beyond
the length is left out. -/
def mkdis (c : Cap) (len : Nat) (isdis t4tx : Bool) : List Nat :=
  let len := if len > dcsLen then dcsLen else len
  let c := checkCap c
  capTypes.foldl
    (fun fif i =>
      let byte := (t30tab i).byte
      if byte < len then fif.modify byte fun b => (b ||| fieldBits c isdis i) % 256 else fif)
    (blankFif len isdis t4tx)

/-- The loop of `dislen`: extension bits are counted from byte `n - 1` on. -/
def disLenFrom (fif : List Nat) : Nat → Nat → Nat
  | 0, n => n
  | fuel + 1, n =>
    if fif.getD (n - 1) 0 &&& 0x01 ≠ 0 ∧ n < maxFifLen then disLenFrom fif fuel (n + 1) else n

/-- `dislen`: the length of a DIS or DTC FIF. -/
def dislen (fif : List Nat) : Nat := disLenFrom fif maxFifLen 3

/-- `mkcap`: the capability in a received DIS, DCS or DTC FIF.  A bad field gets its safe value. -/
def mkcap (fif : List Nat) (dis : Bool) : Cap := fun i =>
  let p := t30tab i
  if dislen fif ≤ p.byte then 0
  else
    let j := fif.getD p.byte 0 >>> p.shift &&& p.mask
    let k := (if dis then p.distocap else p.dcstocap).getD j 0
    if k = invalidX then p.safeval else k

/-! ## Negotiation -/

/-- `msttab`: the scan time for a resolution and a remote scan time. -/
def mstTab (vr st : Int) : Int :=
  entry (if vr = 0 then [0, 1, 3, 3, 5, 5, 7, 7] else [0, 1, 1, 3, 3, 5, 5, 7]) st

/-- The fields that the loop of `mincap` gets to: it ends at the first field that it leaves out. -/
def mincapFields : List CapType := capTypes.takeWhile fun i => i ≠ .st ∧ i ≠ .br

/-- The rate that `mincap` chooses. -/
def minRate (localBr remoteBr : Int) : Int :=
  if brIndex remoteBr < brIndex localBr then remoteBr else localBr

/-- `mincap`: the local, remote and session capabilities after it, and whether local and remote are
incompatible.  `printcap` checks each of them. -/
def mincap (loc remote session : Cap) : (Cap × Cap × Cap) × Bool :=
  let loc := checkCap loc
  let remote := checkCap remote
  let session := mincapFields.foldl
    (fun session i => Function.update session i (if remote i < loc i then remote i else loc i))
    session
  let session := Function.update session .br (minRate (loc .br) (remote .br))
  let session := Function.update session .st (mstTab (session .vr) (remote .st))
  let session := checkCap session
  ((loc, remote, session),
    loc .wd ≠ session .wd || loc .ln > session .ln || loc .df ≠ session .df)

end QFax.Efax

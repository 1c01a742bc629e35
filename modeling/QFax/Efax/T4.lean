import QFax.Lib.Bits
import QFax.Lib.PrefixTable

/-!
# The T.4 run-length code

The one-dimensional code tables of `efaxlib.c` and the two small machines built on them: the
variable-length code word encoder (`putcode`, `runtocode`) and the lookup tables of the decoder
(`addcode`, `init1dtab`, `newDecoder`).
-/

namespace QFax.Efax

open Bits PrefixTable

/-- `MAXRUNS`: the size of a run-length buffer. -/
def maxRuns : Nat := 8192

/-- `MAXCODES`: the size of a buffer of T.4 codes. -/
def maxCodes : Nat := maxRuns * 25 / 8 / 2 + 1

/-- `MAXRUNLEN`: the longest run the tables can encode. -/
def maxRunLen : Int := 2560 + 63

/-- `EOLCODE`. -/
def eolCode : Nat := 1

/-- `EOLBITS`. -/
def eolBits : Nat := 12

/-- `RTCEOL`: the number of EOLs of a return to control. -/
def rtcEol : Nat := 5

/-! ## Coding tables -/

/-- An entry of a coding table: code, bits, run length. -/
structure T4Tab where
  code : Nat
  bits : Nat
  rlen : Nat
  deriving DecidableEq, Repr

/-- Runs of white, in run length order, without the terminating null entry. -/
def wtab : List T4Tab := [
  ⟨53, 8, 0⟩, ⟨7, 6, 1⟩, ⟨7, 4, 2⟩, ⟨8, 4, 3⟩, ⟨11, 4, 4⟩, ⟨12, 4, 5⟩, ⟨14, 4, 6⟩, ⟨15, 4, 7⟩,
  ⟨19, 5, 8⟩, ⟨20, 5, 9⟩, ⟨7, 5, 10⟩, ⟨8, 5, 11⟩, ⟨8, 6, 12⟩, ⟨3, 6, 13⟩, ⟨52, 6, 14⟩,
  ⟨53, 6, 15⟩, ⟨42, 6, 16⟩, ⟨43, 6, 17⟩, ⟨39, 7, 18⟩, ⟨12, 7, 19⟩, ⟨8, 7, 20⟩, ⟨23, 7, 21⟩,
  ⟨3, 7, 22⟩, ⟨4, 7, 23⟩, ⟨40, 7, 24⟩, ⟨43, 7, 25⟩, ⟨19, 7, 26⟩, ⟨36, 7, 27⟩, ⟨24, 7, 28⟩,
  ⟨2, 8, 29⟩, ⟨3, 8, 30⟩, ⟨26, 8, 31⟩, ⟨27, 8, 32⟩, ⟨18, 8, 33⟩, ⟨19, 8, 34⟩, ⟨20, 8, 35⟩,
  ⟨21, 8, 36⟩, ⟨22, 8, 37⟩, ⟨23, 8, 38⟩, ⟨40, 8, 39⟩, ⟨41, 8, 40⟩, ⟨42, 8, 41⟩, ⟨43, 8, 42⟩,
  ⟨44, 8, 43⟩, ⟨45, 8, 44⟩, ⟨4, 8, 45⟩, ⟨5, 8, 46⟩, ⟨10, 8, 47⟩, ⟨11, 8, 48⟩, ⟨82, 8, 49⟩,
  ⟨83, 8, 50⟩, ⟨84, 8, 51⟩, ⟨85, 8, 52⟩, ⟨36, 8, 53⟩, ⟨37, 8, 54⟩, ⟨88, 8, 55⟩, ⟨89, 8, 56⟩,
  ⟨90, 8, 57⟩, ⟨91, 8, 58⟩, ⟨74, 8, 59⟩, ⟨75, 8, 60⟩, ⟨50, 8, 61⟩, ⟨51, 8, 62⟩, ⟨52, 8, 63⟩,
  ⟨27, 5, 64⟩, ⟨18, 5, 128⟩, ⟨23, 6, 192⟩, ⟨55, 7, 256⟩, ⟨54, 8, 320⟩, ⟨55, 8, 384⟩,
  ⟨100, 8, 448⟩, ⟨101, 8, 512⟩, ⟨104, 8, 576⟩, ⟨103, 8, 640⟩, ⟨204, 9, 704⟩, ⟨205, 9, 768⟩,
  ⟨210, 9, 832⟩, ⟨211, 9, 896⟩, ⟨212, 9, 960⟩, ⟨213, 9, 1024⟩, ⟨214, 9, 1088⟩, ⟨215, 9, 1152⟩,
  ⟨216, 9, 1216⟩, ⟨217, 9, 1280⟩, ⟨218, 9, 1344⟩, ⟨219, 9, 1408⟩, ⟨152, 9, 1472⟩, ⟨153, 9, 1536⟩,
  ⟨154, 9, 1600⟩, ⟨24, 6, 1664⟩, ⟨155, 9, 1728⟩, ⟨8, 11, 1792⟩, ⟨12, 11, 1856⟩, ⟨13, 11, 1920⟩,
  ⟨18, 12, 1984⟩, ⟨19, 12, 2048⟩, ⟨20, 12, 2112⟩, ⟨21, 12, 2176⟩, ⟨22, 12, 2240⟩, ⟨23, 12, 2304⟩,
  ⟨28, 12, 2368⟩, ⟨29, 12, 2432⟩, ⟨30, 12, 2496⟩, ⟨31, 12, 2560⟩]

/-- Runs of black, in run length order, without the terminating null entry. -/
def btab : List T4Tab := [
  ⟨55, 10, 0⟩, ⟨2, 3, 1⟩, ⟨3, 2, 2⟩, ⟨2, 2, 3⟩, ⟨3, 3, 4⟩, ⟨3, 4, 5⟩, ⟨2, 4, 6⟩, ⟨3, 5, 7⟩,
  ⟨5, 6, 8⟩, ⟨4, 6, 9⟩, ⟨4, 7, 10⟩, ⟨5, 7, 11⟩, ⟨7, 7, 12⟩, ⟨4, 8, 13⟩, ⟨7, 8, 14⟩, ⟨24, 9, 15⟩,
  ⟨23, 10, 16⟩, ⟨24, 10, 17⟩, ⟨8, 10, 18⟩, ⟨103, 11, 19⟩, ⟨104, 11, 20⟩, ⟨108, 11, 21⟩,
  ⟨55, 11, 22⟩, ⟨40, 11, 23⟩, ⟨23, 11, 24⟩, ⟨24, 11, 25⟩, ⟨202, 12, 26⟩, ⟨203, 12, 27⟩,
  ⟨204, 12, 28⟩, ⟨205, 12, 29⟩, ⟨104, 12, 30⟩, ⟨105, 12, 31⟩, ⟨106, 12, 32⟩, ⟨107, 12, 33⟩,
  ⟨210, 12, 34⟩, ⟨211, 12, 35⟩, ⟨212, 12, 36⟩, ⟨213, 12, 37⟩, ⟨214, 12, 38⟩, ⟨215, 12, 39⟩,
  ⟨108, 12, 40⟩, ⟨109, 12, 41⟩, ⟨218, 12, 42⟩, ⟨219, 12, 43⟩, ⟨84, 12, 44⟩, ⟨85, 12, 45⟩,
  ⟨86, 12, 46⟩, ⟨87, 12, 47⟩, ⟨100, 12, 48⟩, ⟨101, 12, 49⟩, ⟨82, 12, 50⟩, ⟨83, 12, 51⟩,
  ⟨36, 12, 52⟩, ⟨55, 12, 53⟩, ⟨56, 12, 54⟩, ⟨39, 12, 55⟩, ⟨40, 12, 56⟩, ⟨88, 12, 57⟩,
  ⟨89, 12, 58⟩, ⟨43, 12, 59⟩, ⟨44, 12, 60⟩, ⟨90, 12, 61⟩, ⟨102, 12, 62⟩, ⟨103, 12, 63⟩,
  ⟨15, 10, 64⟩, ⟨200, 12, 128⟩, ⟨201, 12, 192⟩, ⟨91, 12, 256⟩, ⟨51, 12, 320⟩, ⟨52, 12, 384⟩,
  ⟨53, 12, 448⟩, ⟨108, 13, 512⟩, ⟨109, 13, 576⟩, ⟨74, 13, 640⟩, ⟨75, 13, 704⟩, ⟨76, 13, 768⟩,
  ⟨77, 13, 832⟩, ⟨114, 13, 896⟩, ⟨115, 13, 960⟩, ⟨116, 13, 1024⟩, ⟨117, 13, 1088⟩,
  ⟨118, 13, 1152⟩, ⟨119, 13, 1216⟩, ⟨82, 13, 1280⟩, ⟨83, 13, 1344⟩, ⟨84, 13, 1408⟩,
  ⟨85, 13, 1472⟩, ⟨90, 13, 1536⟩, ⟨91, 13, 1600⟩, ⟨100, 13, 1664⟩, ⟨101, 13, 1728⟩,
  ⟨8, 11, 1792⟩, ⟨12, 11, 1856⟩, ⟨13, 11, 1920⟩, ⟨18, 12, 1984⟩, ⟨19, 12, 2048⟩, ⟨20, 12, 2112⟩,
  ⟨21, 12, 2176⟩, ⟨22, 12, 2240⟩, ⟨23, 12, 2304⟩, ⟨28, 12, 2368⟩, ⟨29, 12, 2432⟩, ⟨30, 12, 2496⟩,
  ⟨31, 12, 2560⟩]

/-- The colour of a run. -/
inductive Colour
  | white
  | black
  deriving DecidableEq, Repr

/-- The colour of the next run. -/
def Colour.other : Colour → Colour
  | .white => .black
  | .black => .white

/-- The coding table of a colour. -/
def Colour.codes : Colour → List T4Tab
  | .white => wtab
  | .black => btab

/-- The entry at an index of a colour's table. -/
def Colour.code (c : Colour) (i : Nat) : T4Tab := c.codes.getD i ⟨0, 0, 0⟩

/-! ## Encoder -/

/-- `ENCODER`: the register of unused bits, as the bit pattern of a `long`, and the number of
unused bits less eight. -/
structure Encoder where
  x : Nat
  shift : Int
  deriving DecidableEq, Repr

/-- `newENCODER`. -/
def newEncoder : Encoder := ⟨0, -8⟩

/-- Shift a code word into a `long` register. -/
def shiftIn (x code bits : Nat) : Nat := (x <<< bits ||| code) % 2 ^ 64

/-- `putcode`: store a code word and hand out the complete bytes.  With `bits = 0` the pending
bits go out as the low byte of the register. -/
def putcode (e : Encoder) (code bits : Nat) : Encoder × List UInt8 :=
  let x := shiftIn e.x code bits
  let shift := e.shift + if bits ≠ 0 then (bits : Int) else -e.shift
  let (bytes, left) := drain x (shift + 1).toNat shift
  (⟨x, left⟩, bytes)

/-- The loop that `nextopage` and `send_data` end a page with: `n` EOLs. -/
def putEols : Nat → Encoder → Encoder × List UInt8
  | 0, e => (e, [])
  | n + 1, e =>
    let (e, codes) := putcode e eolCode eolBits
    let (e, rest) := putEols n e
    (e, codes ++ rest)

/-- The return to control that ends a page, flushed. -/
def putRtc (e : Encoder) : Encoder × List UInt8 :=
  let (e, codes) := putEols rtcEol e
  let (e, last) := putcode e 0 0
  (e, codes ++ last)

/-- `PUTCODE` in `runtocode`, guarded by the room left in the buffer that `codes` fills. -/
def putRunCode (e : Encoder) (codes : List UInt8) (p : T4Tab) : Encoder × List UInt8 :=
  if codes.length < maxCodes then
    let x := shiftIn e.x p.code p.bits
    let shift := e.shift + p.bits
    let (bytes, left) := drain x (shift + 1).toNat shift
    (⟨x, left⟩, codes ++ bytes)
  else (e, codes)

/-- One round of `runtocode`: the make-up code of a long run, then its terminating code. -/
def putRun (c : Colour) (e : Encoder) (codes : List UInt8) (run : Int) : Encoder × List UInt8 :=
  if run > 63 then
    let rlen := if run > maxRunLen then maxRunLen else run
    let (e, codes) := putRunCode e codes (c.code (63 + rlen / 64).toNat)
    putRunCode e codes (c.code (rlen % 64).toNat)
  else putRunCode e codes (c.code (run % 64).toNat)

/-- The loop of `runtocode`, with the codes stored so far. -/
def runtocodeFrom (c : Colour) (e : Encoder) (codes : List UInt8) :
    List Int → Encoder × List UInt8
  | [] => (e, codes)
  | run :: runs =>
    let (e, codes) := putRun c e codes run
    runtocodeFrom c.other e codes runs

/-- `runtocode`: the T.4 codes of a scan line whose first run is white. -/
def runtocode (e : Encoder) (runs : List Int) : Encoder × List UInt8 :=
  runtocodeFrom .white e [] runs

/-! ## Decoder tables -/

/-- The five lookup tables: a primary and a secondary one for each colour, and the one for FILL. -/
inductive TabName
  | tw1
  | tw2
  | tb1
  | tb2
  | fill
  deriving DecidableEq, Repr

/-- `dtab`: the next table, the bits to drop and the code found: run length plus one, `-1` for an
EOL, `0` for none. -/
structure Dtab where
  next : TabName
  bits : Nat
  code : Int
  deriving DecidableEq, Repr

/-- `addcode`: the entries of every index that starts with the code word. -/
def addcode (tab : Nat → Dtab) (cword shift : Nat) (code : Int) (bits : Nat) (next : TabName) :
    Nat → Dtab :=
  Slot.store tab ⟨cword, shift, ⟨next, bits, code⟩⟩

/-- One round of `init1dtab`: code number `i` of a table, with `t1` and `t2` the decoding tables
called `n1` and `n2` and `ot` the first table of the other colour. -/
def initCode (n1 n2 ot : TabName) (t : (Nat → Dtab) × (Nat → Dtab)) (p : T4Tab) (i : Nat) :
    (Nat → Dtab) × (Nat → Dtab) :=
  let next := if i > 63 then n1 else ot
  if p.bits ≤ 9 then
    (addcode t.1 p.code (9 - p.bits) (p.rlen + 1) p.bits next, t.2)
  else
    (addcode t.1 (p.code >>> (p.bits - 9)) 0 0 4 n2,
      addcode t.2 p.code (13 - p.bits) (p.rlen + 1) (p.bits - 4) next)

/-- `init1dtab`. -/
def init1dtab (codes : List T4Tab) (n1 n2 ot : TabName) (t : (Nat → Dtab) × (Nat → Dtab)) :
    (Nat → Dtab) × (Nat → Dtab) :=
  codes.zipIdx.foldl (fun t (p, i) => initCode n1 n2 ot t p i) t

/-- The entry of an undefined code: skip one bit and go on with the white codes. -/
def undefinedCode : Nat → Dtab := addcode (fun _ => ⟨.tw1, 0, 0⟩) 0 9 0 1 .tw1

/-- The tables of one colour before its runs are stored: undefined codes and the start of an
EOL. -/
def eolTabs (n2 : TabName) : (Nat → Dtab) × (Nat → Dtab) :=
  (addcode undefinedCode 0 0 0 4 n2, addcode undefinedCode 0 2 0 7 .fill)

/-- The tables `tw1`, `tw2`. -/
def whiteTabs : (Nat → Dtab) × (Nat → Dtab) := init1dtab wtab .tw1 .tw2 .tb1 (eolTabs .tw2)

/-- The tables `tb1`, `tb2`. -/
def blackTabs : (Nat → Dtab) × (Nat → Dtab) := init1dtab btab .tb1 .tb2 .tw1 (eolTabs .tb2)

/-- The table `fill`: nine more zeros, or an EOL that ends at the first one. -/
def fillTab : Nat → Dtab :=
  (List.range 9).foldl (fun t i => addcode t 1 i (-1) (9 - i) .tw1)
    (addcode undefinedCode 0 0 0 9 .fill)

/-- The tables that `newDECODER` builds on its first call. -/
def dtabs : TabName → Nat → Dtab
  | .tw1 => whiteTabs.1
  | .tw2 => whiteTabs.2
  | .tb1 => blackTabs.1
  | .tb2 => blackTabs.2
  | .fill => fillTab

/-- `DECODER`: undecoded bits, the number of unused bits less nine, the current table and the
count of EOLs. -/
structure Decoder where
  x : Nat
  shift : Int
  tab : TabName
  eolcnt : Nat
  deriving DecidableEq, Repr

/-- `newDECODER`: the starting state. -/
def newDecoder : Decoder := ⟨0, -9, .tw1, 0⟩

end QFax.Efax

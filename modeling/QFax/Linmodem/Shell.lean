import QFax.Linmodem.V34Init
import Mathlib.Algebra.Order.Group.Abs

/-!
# V.34 shell mapping: the code

`build_rings` fills four tables for a ring count `M`, each as far as `8 * (M - 1) + 1` entries;
`index_to_rings` turns an index into eight ring numbers by searching the tables and
`rings_to_index` goes back.  A table is the list of the entries that were filled, so that reading
an entry beyond them, or a negative one, has no result.
-/

namespace QFax.Linmodem

/-- What a 32-bit `int` holds of a value. -/
def int32 (x : Int) : Int := x.bmod (2 ^ 32)

/-- Entry `i` of a table, when it was filled. -/
def entry (tab : List Int) (i : Int) : Option Int := if i < 0 then none else tab[i.toNat]?

/-- Two ring numbers for each of the four 4D symbols. -/
abbrev RingTable := Fin 4 → Int × Int

/-! ## The tables -/

/-- The tables of the ring computation, with the ring count they were filled for. -/
structure Rings where
  M : Nat
  g2_tab : List Int
  g4_tab : List Int
  g8_tab : List Int
  z8_tab : List Int

def g2 (p m : Nat) : Int := if p ≤ 2 * (m - 1) then m - |(p : Int) - (m - 1)| else 0

/-- `for (i = 0; i <= p; i++) s += tab[i] * tab[p - i]` -/
def convolve (tab : List Int) (p : Nat) : Int :=
  (List.range (p + 1)).foldl (fun s i => s + tab.getD i 0 * tab.getD (p - i) 0) 0

def g4 (g2_tab : List Int) (p m : Nat) : Int := if p ≤ 4 * (m - 1) then convolve g2_tab p else 0

def g8 (g4_tab : List Int) (p m : Nat) : Int := if p ≤ 8 * (m - 1) then convolve g4_tab p else 0

/-- `z8_tab[0] = 0`, `z8_tab[i] = z8_tab[i-1] + g8_tab[i-1]` -/
def z8 (g8_tab : List Int) : Nat → Int
  | 0 => 0
  | i + 1 => int32 (z8 g8_tab i + g8_tab.getD i 0)

/-- The tables for `m` rings: `n` entries of each are filled. -/
def build_rings (m : Nat) : Rings :=
  let n := 8 * (m - 1) + 1
  let g2_tab := (List.range n).map (g2 · m)
  let g4_tab := (List.range n).map (g4 g2_tab · m)
  let g8_tab := (List.range n).map (g8 g4_tab · m)
  { M := m
    g2_tab := g2_tab
    g4_tab := g4_tab
    g8_tab := g8_tab
    z8_tab := (List.range n).map (z8 g8_tab) }

/-! ## From an index to rings -/

/-- `for (;;) { tmp = r0 - z8_tab[a+1]; if (tmp < 0) break; r1 = tmp; a++; }`, where the list
holds the entries from `a + 1` on. -/
def searchTotal (r0 : Int) : List Int → Int → Int → Option (Int × Int)
  | [], _, _ => none
  | z :: zs, a, r1 =>
    let tmp := int32 (r0 - z)
    if tmp < 0 then some (a, r1) else searchTotal r0 zs (a + 1) tmp

/-- `for (;;) { tmp = r - tab[i] * tab[total-i]; if (tmp < 0) break; r = tmp; i++; }`, where the
list holds the entries from `i` on. -/
def searchPair (tab : List Int) (total : Int) : List Int → Int → Int → Option (Int × Int)
  | [], _, _ => none
  | x :: xs, i, r => do
    let y ← entry tab (total - i)
    let tmp := r - x * y
    if tmp < 0 then some (i, r) else searchPair tab total xs (i + 1) tmp

/-- `r % tab[i]` and `(r - r % tab[i]) / tab[i]` -/
def divide (tab : List Int) (i r : Int) : Option (Int × Int) := do
  let tmp ← entry tab i
  if tmp = 0 then none else some (r.tmod tmp, (r - r.tmod tmp).tdiv tmp)

/-- The two rings with sum `sum` that number `e` stands for. -/
def placeRings (m sum e : Int) : Int × Int :=
  if sum < m then (e, sum - e) else (sum - (m - 1 - e), m - 1 - e)

def index_to_rings (s : Rings) (r0 : Int) : Option RingTable := do
  let m : Int := s.M
  let (a, r1) ← searchTotal r0 s.z8_tab (-1) 0
  let (b, r1) ← searchPair s.g4_tab a s.g4_tab 0 r1
  let (r2, r3) ← divide s.g4_tab b r1
  let (c, r4) ← searchPair s.g2_tab b s.g2_tab 0 r2
  let (d, r5) ← searchPair s.g2_tab (a - b) s.g2_tab 0 r3
  let (e, f) ← divide s.g2_tab c r4
  let (g, h) ← divide s.g2_tab d r5
  some ![placeRings m c e, placeRings m (b - c) f, placeRings m d g, placeRings m (a - b - d) h]

/-! ## From rings to an index -/

/-- The number of two rings among those with the same sum. -/
def ringNumber (m : Int) (ring : Int × Int) : Int :=
  if ring.1 + ring.2 < m then ring.1 else m - 1 - ring.2

/-- `for (i = 0; i < n; i++) r += tab[i] * tab[total - i]` -/
def addPairs (tab : List Int) (total : Int) : Nat → Int → Option Int
  | 0, r => some r
  | n + 1, r => do
    let r ← addPairs tab total n r
    let x ← entry tab n
    let y ← entry tab (total - n)
    some (r + x * y)

def rings_to_index (s : Rings) (ring : RingTable) : Option Int := do
  let m : Int := s.M
  let c := (ring 0).1 + (ring 0).2
  let e := ringNumber m (ring 0)
  let f := ringNumber m (ring 1)
  let b := (ring 1).1 + (ring 1).2 + c
  let d := (ring 2).1 + (ring 2).2
  let g := ringNumber m (ring 2)
  let h := ringNumber m (ring 3)
  let a := (ring 3).1 + (ring 3).2 + (b + d)
  let r5 := h * (← entry s.g2_tab d) + g
  let r4 := f * (← entry s.g2_tab c) + e
  let r3 ← addPairs s.g2_tab (a - b) d.toNat r5
  let r2 ← addPairs s.g2_tab b c.toNat r4
  let r1 := r3 * (← entry s.g4_tab b) + r2
  let r1 ← addPairs s.g4_tab a b.toNat r1
  let z ← entry s.z8_tab a
  some (int32 (r1 + z))

end QFax.Linmodem

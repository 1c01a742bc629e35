import QFax.Efax.Capability
import QFax.Efax.Frames

/-!
# The pages to send

The position in the input files, and `rdpage`, which finds the post-page message of a page from the
resolutions of this page and the next.
-/

namespace QFax.Efax

/-- `nextipage`: the page it goes to. -/
def nextipage (p : Nat) (dp : Bool) : Nat := if dp then p + 1 else p

@[simp] theorem nextipage_same (p : Nat) : nextipage p false = p := rfl

@[simp] theorem nextipage_next (p : Nat) : nextipage p true = p + 1 := rfl

/-- `lastpage`. -/
def isLast (queue : List Rat) (p : Nat) : Bool := queue.length ≤ p + 1

@[simp] theorem isLast_iff {queue : List Rat} {p : Nat} :
    isLast queue p = true ↔ queue.length ≤ p + 1 := decide_eq_true_iff

/-- The resolution of a page as an `int`. -/
def yresInt (yres : Rat) : Int := yres.num.tdiv yres.den

/-- The post-page message: EOP after the last page, MPS when the next page has the same resolution.  The
resolution of the next page is compared as a `float`. -/
def postPage (queue : List Rat) (p : Nat) (fVR : Int) : Frame :=
  match queue[p + 1]? with
  | none => .eop
  | some next =>
    let nVR : Int := if next > 147 then 1 else 0
    if nVR ≠ fVR then .eom else .mps

theorem postPage_eq_eop {queue : List Rat} {p : Nat} {fVR : Int} :
    postPage queue p fVR = .eop ↔ queue.length ≤ p + 1 := by
  unfold postPage
  split
  · rename_i none
    exact iff_of_true rfl (List.getElem?_eq_none_iff.1 none)
  · rename_i next more
    have inQueue := (List.getElem?_eq_some_iff.1 more).1
    refine iff_of_false ?_ (by omega)
    dsimp only
    generalize (if next > 147 then (1 : Int) else 0) = nVR
    split <;> exact Frame.noConfusion

/-- The results of `rdpage`. -/
structure ReadPage where
  err : Nat
  ppm : Frame
  loc : Cap
  changed : Bool

/-- `rdpage` after `nextipage` went to page `p`. -/
def rdpage (queue : List Rat) (opened : Bool) (p : Nat) (loc : Cap) (changed : Bool) : ReadPage :=
  match opened, queue[p]? with
  | true, some yres =>
    let fVR : Int := if yresInt yres > 147 then 1 else 0
    let ppm := postPage queue p fVR
    if yresInt yres ≠ 0 then ⟨0, ppm, Function.update loc .vr fVR, loc .vr ≠ fVR⟩
    else ⟨0, ppm, loc, changed⟩
  | _, _ => ⟨2, .eop, loc, changed⟩

/-- `rdpage` without an error: the page exists, and EOP is its post-page message exactly when it is the
last. -/
theorem rdpage_ok {queue : List Rat} {opened : Bool} {p : Nat} {loc : Cap} {changed : Bool}
    (ok : (rdpage queue opened p loc changed).err = 0) :
    p < queue.length ∧ ((rdpage queue opened p loc changed).ppm = .eop ↔ p + 1 = queue.length) := by
  unfold rdpage at ok ⊢
  split at ok
  · rename_i yres found
    have inQueue : p < queue.length := (List.getElem?_eq_some_iff.1 found).1
    have last : queue.length ≤ p + 1 ↔ p + 1 = queue.length := by omega
    refine ⟨inQueue, ?_⟩
    dsimp only
    split <;> exact postPage_eq_eop.trans last
  · cases ok

/-- The page after the last of the given ones. -/
def following (pages : List Nat) : Nat :=
  match pages.getLast? with
  | none => 0
  | some page => page + 1

theorem following_range (n : Nat) : following (List.range n) = n := by
  unfold following
  cases n with
  | zero => rfl
  | succ n => rw [List.range_succ, List.getLast?_concat]

/-- `NTXRETRY`. -/
def nTxRetry : Nat := 3

end QFax.Efax

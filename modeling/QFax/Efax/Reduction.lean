import Mathlib.Data.List.Induction
import QFax.Efax.PadScale
import QFax.Efax.SendData

/-!
# The reduction from 196 to 98 lpi

`send_data` saves the first of every two lines and ORs it into the second.  A line without runs, as
`readruns` makes it of an EOL, is OR-ed with stale data of its buffer, which only adds white.  Every
pair of lines is sent as its OR (`SendJob.Valid.sendLines_pairs`), and the saved line of a page with an
odd number of lines is not sent at all (`reduction_keeps_iff`).
-/

namespace QFax.Efax

/-! ## Padding keeps the pels -/

theorem getD_white (n i : Nat) : (List.replicate n false).getD i false = false := by
  rcases Nat.lt_or_ge i n with inside | behind
  · exact List.getD_replicate false inside
  · exact List.getD_eq_default _ _ (by rwa [List.length_replicate])

theorem getD_white_end (xs : List Bool) (n i : Nat) :
    (xs ++ List.replicate n false).getD i false = xs.getD i false := by
  rcases Nat.lt_or_ge i xs.length with inside | behind
  · rw [List.getD_append _ _ _ _ inside]
  · rw [List.getD_append_right _ _ _ _ behind, List.getD_eq_default _ _ behind, getD_white]

/-- `xpad` keeps the pels of the new width. -/
theorem xpad_black {runs : List Int} (nonneg : ∀ r ∈ runs, 0 ≤ r) {pad : Int}
    (upper : runs.sum + pad ≤ 32767) {i : Nat} (inside : (i : Int) < runs.sum + pad) :
    (pels .white (xpad runs pad)).getD i false = (pels .white runs).getD i false := by
  have padded := xpad_padded nonneg upper
  rcases lt_or_ge pad 0 with cut | white
  · rw [padded.cut cut, List.getD_eq_getElem?_getD, List.getD_eq_getElem?_getD,
      List.getElem?_take_of_lt (by omega)]
  · rw [padded.white white]
    exact getD_white_end _ _ i

/-! ## Merging with stale data -/

/-- The OR of two lines, also when the first one has no runs and the code of an EOL stands in its
buffer, or the second one has none and a run of another line does. -/
theorem runor_black {a b : List Int} {na nb : Nat} (lineA : LineBuffer a na) (leA : na ≤ a.length)
    (eol : na = 0 → -32768 ≤ a.headD 0 ∧ a.headD 0 < 0) (lineB : LineBuffer b nb)
    (leB : nb ≤ b.length) (head : nb = 0 → 0 ≤ b.headD 0 ∧ b.headD 0 ≤ 32767) (i : Nat) :
    (pels .white (runor a na b nb)).getD i false =
      ((pels .white (a.take na)).getD i false || (pels .white (b.take nb)).getD i false) := by
  have fitsB := lineB.fits head
  rcases Nat.eq_zero_or_pos na with rfl | posA
  · -- the first line has no runs: the second one is left
    obtain ⟨lower, negative⟩ := eol rfl
    have width : 0 + (b.headD 0 + (b.take nb).tail.sum) ≤ 32767 := fitsB.width
    have later : 0 ≤ (b.take nb).tail.sum := fitsB.rest_sum
    have rest := orRest_pels nonneg_empty 0 fitsB
    rw [runor_negative nb lower negative fitsB.here (by omega)]
    change pels .white _ = pels .white [0] ++ _ at rest
    rw [rest]
    rw [List.take_zero]
    change _ = (pels .white (b.take nb)).getD i false
    rcases Nat.eq_zero_or_pos nb with rfl | posB
    · rw [List.take_zero, List.tail_nil, Cursor.pels_last rfl]
      exact getD_white _ i
    · rw [(pels_start posB leB).1]
      rfl
  · rcases Nat.eq_zero_or_pos nb with rfl | posB
    · -- the second line has no runs: a run of another line is taken for a white one
      obtain ⟨lower, upper⟩ := head rfl
      have stale : runor a na b 0 = runor a na [b.headD 0] 1 := rfl
      have line : LineBuffer [b.headD 0] 1 := by
        refine ⟨fun r member => ?_, by simpa using upper⟩
        rwa [List.mem_singleton.mp member]
      rw [stale, runor_pels posA leA lineA Nat.one_pos le_rfl line, getD_orPels]
      have white : (pels .white ([b.headD 0].take 1)).getD i false = false := by
        change (List.replicate _ false ++ []).getD i false = false
        rw [List.append_nil, getD_white]
      rw [white]
      rfl
    · rw [runor_pels posA leA lineA posB leB lineB, getD_orPels]

/-! ## Lines and pairs -/

/-- A pel of an input line with the header OR-ed into it. -/
def SendJob.black (j : SendJob) (line : Nat) (runs : List Int) (i : Nat) : Bool :=
  (pels .white runs).getD i false ||
    (decide (hdrStrt ≤ line ∧ line < hdrStrt + hdrChrh) &&
      (pels .white (j.header (line - hdrStrt))).getD i false)

theorem SendJob.black_of_pel (j : SendJob) (line : Nat) {runs : List Int} {i : Nat}
    (black : (pels .white runs).getD i false = true) : j.black line runs i = true := by
  rw [SendJob.black, black, Bool.true_or]

/-- The lines of a page as the loop of `send_data` sees them. -/
def SendJob.input (j : SendJob) (page : List (List Int)) : List (List Int) :=
  List.replicate hdrSpce [j.pwidth] ++ page

theorem SendJob.getElem?_input (j : SendJob) (page : List (List Int)) (n : Nat) :
    (j.input page)[hdrSpce + n]? = page[n]? := by
  rw [SendJob.input, List.getElem?_append_right (by rw [List.length_replicate]; exact Nat.le_add_right ..),
    List.length_replicate, Nat.add_sub_cancel_left]

theorem SendJob.length_input (j : SendJob) (page : List (List Int)) :
    (j.input page).length = hdrSpce + page.length := by
  rw [SendJob.input, List.length_append, List.length_replicate]

/-- What a pair of lines leads to: a line of its black pels, or nothing if there are none. -/
structure SendJob.Merged (j : SendJob) (black : Nat → Bool) (out : LineOut) : Prop where
  sent : ∀ runs, out = .line runs → runs.sum = j.pwidth ∧
    ∀ i : Nat, (i : Int) < j.pwidth → (pels .white runs).getD i false = black i
  rest : (∀ runs, out ≠ .line runs) → ∀ i, black i = false

theorem getD_pels_of_sum {runs : List Int} (nonneg : ∀ r ∈ runs, 0 ≤ r) (zero : runs.sum = 0)
    (i : Nat) :
    (pels .white runs).getD i false = false := by
  have size := length_pels .white nonneg
  exact List.getD_eq_default _ _ (by omega)

/-- Giving a line its width. -/
theorem SendJob.Valid.lineOut_merged {j : SendJob} (valid : j.Valid) {runs : List Int}
    (input : InputLine runs) (ne : runs ≠ []) {out : LineOut} (result : j.lineOut runs = some out) :
    j.Merged (fun i => (pels .white runs).getD i false) out := by
  have small := valid.upper
  have pos := valid.lower
  unfold maxRunLen at small
  rw [SendJob.lineOut, if_neg ne] at result
  split at result
  case isTrue zero =>
    cases result
    refine ⟨fun sent eq => ?_, fun _ i => getD_pels_of_sum input.nonneg zero i⟩
    cases eq
  case isFalse black =>
    split at result
    case isTrue differs =>
      obtain ⟨c, fits, rfl⟩ := Option.map_eq_some_iff.mp result
      refine ⟨fun sent eq => ?_, fun other => absurd rfl (other c)⟩
      cases eq
      rw [stored_eq fits]
      have width : runs.sum + (j.pwidth - runs.sum) = j.pwidth := by omega
      refine ⟨?_, fun i inside => xpad_black input.nonneg (by omega) (by omega)⟩
      rw [(xpad_sum input.nonneg _ (by omega) (by omega)).2, width]
    case isFalse same =>
      cases result
      refine ⟨fun sent eq => ?_, fun other => absurd rfl (other runs)⟩
      cases eq
      exact ⟨by omega, fun _ _ => rfl⟩

/-- The line after the header was OR-ed into it has the pels of both. -/
theorem SendJob.Valid.orHeader_black {j : SendJob} (valid : j.Valid) {line : Nat} {runs : List Int}
    (input : InputLine runs) {buf : List Int} {nr : Nat}
    (result : j.orHeader line runs = some (buf, nr)) (i : Nat) :
    (pels .white (buf.take nr)).getD i false = j.black line runs i := by
  obtain ⟨buffer, eol, take, long⟩ := input.buffer
  unfold SendJob.orHeader at result
  unfold SendJob.black
  split at result
  case isTrue inHeader =>
    have header := valid.header (line - hdrStrt)
    obtain ⟨c, fits, pair⟩ := Option.map_eq_some_iff.mp result
    obtain ⟨rfl, rfl⟩ := Prod.mk.inj pair
    rw [stored_eq fits, List.take_length, decide_eq_true inHeader, Bool.true_and,
      runor_black buffer long eol header.lineBuffer le_rfl (fun _ => header.head), take,
      List.take_length]
  case isFalse outside =>
    obtain ⟨rfl, rfl⟩ := Prod.mk.inj (Option.some.inj result)
    rw [take, decide_eq_false outside, Bool.false_and, Bool.or_false]

/-- The saved line, and the buffer it is in. -/
structure Saved.Ready (s : Saved) : Prop where
  valid : s.Valid
  long : s.lastnr ≤ s.lastruns.length

/-- Two rounds: the first line is saved, and OR-ed into the second one. -/
theorem SendJob.Valid.pair {j : SendJob} (valid : j.Valid) (reduce : j.decimate) {s s₁ s₂ : Saved}
    (ready : s.Ready) (even : s.skip % 2 = 0) {line : Nat} {a b : List Int} (inputA : InputLine a)
    (inputB : InputLine b) {out₁ out₂ : LineOut} (first : j.sendLine s line a = some (s₁, out₁))
    (second : j.sendLine s₁ (line + 1) b = some (s₂, out₂)) :
    out₁ = .keep ∧ s₂.Ready ∧ s₂.skip % 2 = 0 ∧
      j.Merged (fun i => j.black line a i || j.black (line + 1) b i) out₂ := by
  obtain ⟨⟨bufA, nrA⟩, headerA, first⟩ := Option.bind_eq_some_iff.mp first
  obtain ⟨⟨bufB, nrB⟩, headerB, second⟩ := Option.bind_eq_some_iff.mp second
  obtain ⟨-, -, lineA, longA⟩ := valid.orHeader inputA headerA
  obtain ⟨bufferB, eolB, lineB, longB⟩ := valid.orHeader inputB headerB
  have blackA := valid.orHeader_black inputA headerA
  have blackB := valid.orHeader_black inputB headerB
  simp only [reduce, true_or, if_true] at first second
  rw [if_pos (by omega)] at first
  obtain ⟨rfl, rfl⟩ := Prod.mk.inj (Option.some.inj first)
  rw [if_neg (by dsimp only; omega)] at second
  obtain ⟨c, fits, second⟩ := Option.bind_eq_some_iff.mp second
  obtain ⟨out, lineOut, pair⟩ := Option.map_eq_some_iff.mp second
  obtain ⟨rfl, rfl⟩ := Prod.mk.inj pair
  have width : (bufA.take nrA).length = nrA := by rw [List.length_take, Nat.min_eq_left longA]
  have saved := @Saved.Valid.save s ready.valid bufA nrA (s.skip + 1) lineA longA
  have long : nrA ≤ (bufA.take nrA ++ s.lastruns.drop nrA).length := by
    rw [List.length_append, width]
    exact Nat.le_add_right ..
  refine ⟨rfl, ⟨⟨saved.line, saved.head⟩, long⟩, by dsimp only; omega, ?_⟩
  obtain ⟨nonneg, sum⟩ := runor_line bufferB eolB saved.line fun _ => saved.head
  rw [← stored_eq fits] at nonneg sum
  have merged := valid.lineOut_merged ⟨nonneg, sum⟩ (by
    rw [stored_eq fits]
    exact List.append_ne_nil_of_right_ne_nil _ (List.cons_ne_nil _ _)) lineOut
  have both (i : Nat) : (pels .white c).getD i false =
      (j.black line a i || j.black (line + 1) b i) := by
    rw [stored_eq fits, runor_black bufferB longB eolB saved.line long (fun _ => saved.head), blackB,
      List.take_left' width, blackA, Bool.or_comm]
  exact ⟨fun runs eq => by simpa only [both] using merged.sent runs eq,
    fun other i => by rw [← both]; exact merged.rest other i⟩

/-- The first line of a pair leads to nothing yet. -/
theorem SendJob.sendLine_first {j : SendJob} (reduce : j.decimate) {s s₁ : Saved}
    (even : s.skip % 2 = 0) {line : Nat} {runs : List Int} {out : LineOut}
    (result : j.sendLine s line runs = some (s₁, out)) : out = .keep := by
  obtain ⟨⟨buf, nr⟩, -, result⟩ := Option.bind_eq_some_iff.mp result
  simp only [reduce, true_or, if_true] at result
  rw [if_pos (by omega)] at result
  exact (Prod.mk.inj (Option.some.inj result)).2.symm

/-- From an even line on, every line with an even number is saved, and its pair is merged. -/
theorem SendJob.Valid.sendLines_pairs {j : SendJob} (valid : j.Valid) (reduce : j.decimate)
    {page : List (List Int)} (input : ∀ runs ∈ page, InputLine runs) {s : Saved} (ready : s.Ready)
    (even : s.skip % 2 = 0) {line : Nat} {outs : List LineOut}
    (result : j.sendLines s line page = some outs) :
    outs.length = page.length ∧
      (∀ k out, outs[2 * k]? = some out → out = .keep) ∧
      ∀ k a b, page[2 * k]? = some a → page[2 * k + 1]? = some b → ∃ out,
        outs[2 * k + 1]? = some out ∧
          j.Merged (fun i => j.black (line + 2 * k) a i || j.black (line + 2 * k + 1) b i) out := by
  induction page using List.twoStepInduction generalizing s line outs with
  | nil =>
    cases result
    exact ⟨rfl, fun k out here => absurd here (by simp), fun k a b here => absurd here (by simp)⟩
  | singleton a =>
    obtain ⟨⟨s₁, out₁⟩, first, result⟩ := Option.bind_eq_some_iff.mp result
    obtain ⟨outs₁, nil, rfl⟩ := Option.map_eq_some_iff.mp result
    cases nil
    obtain rfl := SendJob.sendLine_first reduce even first
    refine ⟨rfl, fun k out here => ?_, fun k a b _ here => ?_⟩
    · rcases k with _ | k
      · exact (Option.some.inj here).symm
      · exact absurd here (by simp [Nat.mul_add])
    · exact absurd here (by simp)
  | cons_cons a b page ih _ =>
    obtain ⟨⟨s₁, out₁⟩, first, result⟩ := Option.bind_eq_some_iff.mp result
    obtain ⟨outs₁, rest, rfl⟩ := Option.map_eq_some_iff.mp result
    obtain ⟨⟨s₂, out₂⟩, second, rest⟩ := Option.bind_eq_some_iff.mp rest
    obtain ⟨outs₂, later, rfl⟩ := Option.map_eq_some_iff.mp rest
    have inputA := input a List.mem_cons_self
    have inputB := input b (List.mem_cons_of_mem a List.mem_cons_self)
    obtain ⟨rfl, ready', even', merged⟩ := valid.pair reduce ready even inputA inputB first second
    obtain ⟨length, kept, pairs⟩ := ih (fun r member => input r (by simp [member])) ready' even' later
    refine ⟨by rw [List.length_cons, List.length_cons, length]; rfl, fun k out here => ?_,
      fun k c d hereC hereD => ?_⟩
    · rcases k with _ | k
      · exact (Option.some.inj here).symm
      · exact kept k out here
    · rcases k with _ | k
      · obtain rfl := Option.some.inj hereC
        obtain rfl := Option.some.inj hereD
        exact ⟨out₂, rfl, merged⟩
      · obtain ⟨out, here, merged'⟩ := pairs k c d hereC hereD
        refine ⟨out, here, ?_⟩
        have place : line + 1 + 1 + 2 * k = line + 2 * (k + 1) := by omega
        rwa [place] at merged'

/-! ## Pages -/

/-- The reduction of a page: every black pel of an image line, within the page width, is black in the
line that its pair leads to, and every line that is sent is the OR of a pair. -/
structure SendJob.Reduces (j : SendJob) (page : List (List Int)) (outs : List LineOut) : Prop where
  kept : ∀ n runs, page[n]? = some runs → ∀ i : Nat, (i : Int) < j.pwidth →
    (pels .white runs).getD i false = true →
      ∃ sent, outs[2 * ((hdrSpce + n) / 2) + 1]? = some (.line sent) ∧
        (pels .white sent).getD i false = true
  pairs : ∀ n sent, outs[n]? = some (.line sent) → ∃ k a b, n = 2 * k + 1 ∧
    (j.input page)[2 * k]? = some a ∧ (j.input page)[2 * k + 1]? = some b ∧ sent.sum = j.pwidth ∧
      ∀ i : Nat, (i : Int) < j.pwidth →
        (pels .white sent).getD i false = (j.black (2 * k) a i || j.black (2 * k + 1) b i)

/-- A pel of a line is one of its pair. -/
theorem SendJob.black_pair (j : SendJob) {page : List (List Int)} {n k i : Nat}
    (pair : (hdrSpce + n) / 2 = k) {runs a b : List Int} (line : (j.input page)[hdrSpce + n]? = some runs)
    (hereA : (j.input page)[2 * k]? = some a) (hereB : (j.input page)[2 * k + 1]? = some b)
    (black : (pels .white runs).getD i false = true) :
    (j.black (2 * k) a i || j.black (2 * k + 1) b i) = true := by
  rcases Nat.mod_two_eq_zero_or_one (hdrSpce + n) with first | second
  · have place : hdrSpce + n = 2 * k := by omega
    rw [place, hereA] at line
    rw [Option.some.inj line, j.black_of_pel _ black, Bool.true_or]
  · have place : hdrSpce + n = 2 * k + 1 := by omega
    rw [place, hereB] at line
    rw [Option.some.inj line, j.black_of_pel _ black, Bool.or_true]

/-- A page is reduced without a loss if and only if its number of lines is even, or the last line has no
black pels. -/
theorem reduction_keeps_iff {j : SendJob} (valid : j.Valid) (reduce : j.decimate)
    {page : List (List Int)} (input : ∀ runs ∈ page, InputLine runs) {outs : List LineOut}
    (result : j.outputs page = some outs) :
    j.Reduces page outs ↔ page.length % 2 = 0 ∨ ∀ runs ∈ page.getLast?, ∀ i : Nat,
      (i : Int) < j.pwidth → (pels .white runs).getD i false = false := by
  have start : (⟨0, [], 0⟩ : Saved).Ready := ⟨⟨⟨by simp, by simp⟩, le_rfl, by decide⟩, le_rfl⟩
  obtain ⟨length, firsts, pairs⟩ := valid.sendLines_pairs reduce (valid.input input) start rfl result
  have size := j.length_input page
  have top : hdrSpce = 20 := rfl
  change outs.length = (j.input page).length at length
  constructor
  · intro reduces
    rcases Nat.mod_two_eq_zero_or_one page.length with even | odd
    · exact .inl even
    refine .inr fun runs last i inside => Bool.eq_false_iff.mpr fun black => ?_
    rw [Option.mem_def, List.getLast?_eq_getElem?] at last
    obtain ⟨sent, here, -⟩ := reduces.kept (page.length - 1) runs last i inside black
    have behind : outs.length ≤ 2 * ((hdrSpce + (page.length - 1)) / 2) + 1 := by omega
    rw [List.getElem?_eq_none behind] at here
    exact absurd here.symm (Option.some_ne_none _)
  · intro enough
    refine ⟨fun n runs here i inside black => ?_, fun n sent here => ?_⟩
    · have lt := (List.getElem?_eq_some_iff.mp here).1
      have line := j.getElem?_input page n
      rw [here] at line
      rcases Nat.lt_or_ge (2 * ((hdrSpce + n) / 2) + 1) (j.input page).length with full | short
      · -- the line has a pair
        generalize pair : (hdrSpce + n) / 2 = k at full ⊢
        have hereA := List.getElem?_eq_getElem (l := j.input page) (i := 2 * k) (by omega)
        have hereB := List.getElem?_eq_getElem full
        obtain ⟨out, same, merged⟩ := pairs k _ _ hereA hereB
        rw [Nat.zero_add] at merged
        have either := j.black_pair pair line hereA hereB black
        by_cases sent : ∃ runs, out = .line runs
        · obtain ⟨sent, rfl⟩ := sent
          exact ⟨sent, same, ((merged.sent sent rfl).2 i inside).trans either⟩
        · have white := merged.rest (fun runs eq => sent ⟨runs, eq⟩) i
          rw [either] at white
          exact absurd white (by decide)
      · -- it is the last one of a page with an odd number of lines
        have last : page.getLast? = some runs := by
          rw [List.getLast?_eq_getElem?, ← here]
          congr 1
          omega
        rcases enough with even | white
        · omega
        · rw [white runs last i inside] at black
          exact absurd black (by decide)
    · have lt := (List.getElem?_eq_some_iff.mp here).1
      rcases Nat.even_or_odd' n with ⟨k, rfl | rfl⟩
      · exact absurd (firsts k _ here) (by simp)
      · have hereA := List.getElem?_eq_getElem (l := j.input page) (i := 2 * k) (by omega)
        have hereB := List.getElem?_eq_getElem (l := j.input page) (i := 2 * k + 1) (by omega)
        obtain ⟨out, same, merged⟩ := pairs k _ _ hereA hereB
        rw [same] at here
        obtain ⟨width, black⟩ := merged.sent sent (Option.some.inj here)
        rw [Nat.zero_add] at black
        exact ⟨k, _, _, rfl, hereA, hereB, width, black⟩

/-- A page of 196 lpi sent at 98 lpi, with a header of white pels. -/
def fineJob : SendJob := ⟨defCap, Cap.of 0 0 0 0 0 0 0 0, fun _ => [100]⟩

theorem fineJob_valid : fineJob.Valid := by
  have header : InputLine [100] := ⟨by decide, by decide⟩
  exact ⟨fun _ => header, by decide, by decide⟩

/-- The pairs of the blank lines at the top. -/
def blankPairs : List LineOut := (List.replicate 10 [.keep, .line [1728]]).flatten

/-- A page of two lines. -/
theorem reduction_keeps_two :
    fineJob.Reduces [[10, 5, 1713], [0, 8, 1720]] (blankPairs ++ [.keep, .line [0, 8, 2, 5, 1713]]) :=
  (reduction_keeps_iff fineJob_valid (by decide) (fun runs member => by
      rcases List.mem_pair.mp member with rfl | rfl <;> exact ⟨by decide, by decide⟩)
    (by decide +kernel)).mpr (.inl rfl)

/-- A page of one line is lost. -/
theorem reduction_loses_line :
    fineJob.outputs [[10, 5, 1713]] = some (blankPairs ++ [.keep]) ∧
      ¬ fineJob.Reduces [[10, 5, 1713]] (blankPairs ++ [.keep]) := by
  refine ⟨by decide +kernel, fun reduces => ?_⟩
  obtain ⟨sent, here, -⟩ := reduces.kept 0 [10, 5, 1713] rfl 10 (by decide) (by decide)
  exact absurd here (by simp [blankPairs, hdrSpce])

end QFax.Efax

import QFax.Efax.Rows
import QFax.Efax.Capability
import QFax.Efax.ModemLink

/-!
# Sending the data of a page

`send_data` turns the scan lines of a page into T.4 data.  The model has its two halves: which run
vector, if any, a line of input leads to (`sendLine`: blank lines at the top, the header, the
reduction from 196 to 98 lpi, the page width), and the bytes that are sent for it (`Packer.line`:
codes, FILL up to the minimum scan time, EOL).
-/

namespace QFax.Efax

open Bits

/-- `HDRSPCE`: the number of blank lines inserted before the image. -/
def hdrSpce : Nat := 20

/-- `HDRSTRT`: the line where the header starts. -/
def hdrStrt : Nat := 4

/-- `HDRCHRH`: the height of the header. -/
def hdrChrh : Nat := 24

/-- The arguments of `send_data`: the capabilities and, for every line of the header, the runs that
`texttorun` makes of it. -/
structure SendJob where
  loc : Cap
  session : Cap
  header : Nat → List Int

/-- `pwidth`. -/
def SendJob.pwidth (j : SendJob) : Int := pageWidth (j.session .wd)

/-- `minlen`. -/
def SendJob.minlen (j : SendJob) : Int :=
  (cps (j.session .br) * mst (j.session .st) - 1500 + 500).tdiv 1000

/-- `decimate`. -/
def SendJob.decimate (j : SendJob) : Prop := j.loc .vr > j.session .vr

instance (j : SendJob) : Decidable j.decimate :=
  inferInstanceAs (Decidable (j.loc .vr > j.session .vr))

/-! ## From lines of input to run vectors -/

/-- The line saved for the reduction: `skip` counts the lines seen, and `lastnr` runs of the buffer
`lastruns` are the line. -/
structure Saved where
  skip : Nat
  lastruns : List Int
  lastnr : Nat
  deriving DecidableEq, Repr

/-- What a line of input leads to: nothing yet, a buffer reset without output, or a run vector to
send. -/
inductive LineOut
  | keep
  | drop
  | line (runs : List Int)
  deriving DecidableEq, Repr

/-- The run vector to send, if any. -/
def LineOut.runs? : LineOut → Option (List Int)
  | .line runs => some runs
  | _ => none

/-- The run buffer after `readline`, whose pel count is the sum of the runs.  A line without runs is
what `readruns` makes of an EOL, and the buffer then starts with the code of the EOL. -/
def runBuffer (runs : List Int) : List Int := if runs = [] then [-1] else runs

/-- Give a line the right width; a line without pels is not sent. -/
def SendJob.lineOut (j : SendJob) (runs : List Int) : Option LineOut :=
  if runs = [] then some .keep
  else if runs.sum = 0 then some .drop
  else if runs.sum ≠ j.pwidth then (stored (xpad runs (j.pwidth - runs.sum))).map .line
  else some (.line runs)

/-- OR the header into a line. -/
def SendJob.orHeader (j : SendJob) (line : Nat) (runs : List Int) : Option (List Int × Nat) :=
  if hdrStrt ≤ line ∧ line < hdrStrt + hdrChrh then
    let hruns := j.header (line - hdrStrt)
    (stored (runor (runBuffer runs) runs.length hruns hruns.length)).map fun c => (c, c.length)
  else some (runBuffer runs, runs.length)

/-- One round of the loop of `send_data` up to the coding of the line, for the line that was read or
inserted.  It is undefined when a run buffer overflows. -/
def SendJob.sendLine (j : SendJob) (s : Saved) (line : Nat) (runs : List Int) :
    Option (Saved × LineOut) :=
  (j.orHeader line runs).bind fun (buf, nr) =>
    if j.decimate ∨ line < hdrStrt + hdrChrh ∧ j.loc .vr = 0 then
      if (s.skip + 1) % 2 = 1 then
        some (⟨s.skip + 1, buf.take nr ++ s.lastruns.drop nr, nr⟩, .keep)
      else
        (stored (runor buf nr s.lastruns s.lastnr)).bind fun c =>
          (j.lineOut c).map fun out => ({ s with skip := s.skip + 1 }, out)
    else (j.lineOut (buf.take nr)).map fun out => (s, out)

/-- The rounds for the lines from number `line` on. -/
def SendJob.sendLines (j : SendJob) : Saved → Nat → List (List Int) → Option (List LineOut)
  | _, _, [] => some []
  | s, line, runs :: page =>
    (j.sendLine s line runs).bind fun (s, out) =>
      (j.sendLines s (line + 1) page).map fun outs => out :: outs

/-- What the blank lines at the top and the lines of a page lead to. -/
def SendJob.outputs (j : SendJob) (page : List (List Int)) : Option (List LineOut) :=
  j.sendLines ⟨0, [], 0⟩ 0 (List.replicate hdrSpce [j.pwidth] ++ page)

/-- The run vectors that `send_data` encodes for a page. -/
def SendJob.encoded (j : SendJob) (page : List (List Int)) : Option (List (List Int)) :=
  (j.outputs page).map fun outs => outs.filterMap LineOut.runs?

/-! ## From run vectors to bytes -/

/-- The encoder, the bytes in the buffer `buf` and the buffers given to `sendbuf`. -/
structure Packer where
  e : Encoder
  buf : List UInt8
  sent : List (List UInt8)
  deriving DecidableEq, Repr

/-- Put `n` bytes of FILL into the buffer. -/
def putFill : Nat → Encoder → List UInt8 → Encoder × List UInt8
  | 0, e, buf => (e, buf)
  | n + 1, e, buf =>
    let (e, codes) := putcode e 0 8
    putFill n e (buf ++ codes)

/-- Put FILL into the buffer up to the minimum length of a line.  The number bounds the rounds. -/
def padTo (minlen : Int) : Nat → Encoder → List UInt8 → Encoder × List UInt8
  | 0, e, buf => (e, buf)
  | n + 1, e, buf =>
    if buf.length < minlen then
      let (e, codes) := putcode e 0 8
      padTo minlen n e (buf ++ codes)
    else (e, buf)

/-- The start of the data: FILL and an EOL. -/
def Packer.start : Packer :=
  let (e, buf) := putFill 32 newEncoder []
  let (e, codes) := putcode e eolCode eolBits
  ⟨e, buf ++ codes, []⟩

/-- Encode a line, pad it, add an EOL and send the buffer. -/
def Packer.line (b : Packer) (minlen : Int) (runs : List Int) : Packer :=
  let (e, codes) := runtocode b.e runs
  let (e, buf) := padTo minlen minlen.toNat e (b.buf ++ codes)
  let (e, tail) := putcode e eolCode eolBits
  ⟨e, [], b.sent ++ [buf ++ tail]⟩

/-- The number of bits in front of the next line that have not been sent. -/
def Packer.ahead (b : Packer) : Nat := 8 * b.buf.length + b.e.pend.length

/-- The bytes of FILL behind the codes of a line, with a number of bits in front of it. -/
def fillBytes (minlen : Int) (ahead codes : Nat) : Nat := (minlen - ((ahead + codes) / 8 : Nat)).toNat

/-- The rows that are sent for some lines. -/
def sentRows (minlen : Int) (ahead : Nat) : List (List Int) → List (List Int × Nat)
  | [] => []
  | runs :: lines =>
    let codes := (lineBits runs).length
    (runs, 8 * fillBytes minlen ahead codes + 11) ::
      sentRows minlen ((ahead + codes + eolBits) % 8) lines

theorem sentRows_lines (minlen : Int) (ahead : Nat) (lines : List (List Int)) :
    (sentRows minlen ahead lines).map Prod.fst = lines := by
  induction lines generalizing ahead with
  | nil => rfl
  | cons runs lines ih => rw [sentRows, List.map_cons, ih]

/-- The bytes for what one line of input leads to. -/
def Packer.output (minlen : Int) (b : Packer) : LineOut → Packer
  | .keep => b
  | .drop => { b with buf := [] }
  | .line runs => b.line minlen runs

theorem Packer.output_line (minlen : Int) (b : Packer) (runs : List Int) :
    b.output minlen (.line runs) = b.line minlen runs := rfl

/-- Add the return to control: all buffers given to `sendbuf`. -/
def Packer.finish (b : Packer) : List (List UInt8) := b.sent ++ [b.buf ++ (putRtc b.e).2]

/-- `send_data` for a page given as the lines that `readline` returns, when no command fails: the
buffers given to `sendbuf`. -/
def SendJob.sendData (j : SendJob) (page : List (List Int)) : Option (List (List UInt8)) :=
  (j.outputs page).map fun outs => (outs.foldl (Packer.output j.minlen) Packer.start).finish

/-- The bytes that reach the modem: those of every `sendbuf`, and the DLE ETX of `end_data`. -/
def modemStream (order : BitOrder) (bufs : List (List UInt8)) : List UInt8 :=
  (bufs.flatMap fun p => (sendbuf order p).flatten) ++ [dle, etx]

/-- The stream stands for the bytes of all buffers. -/
theorem modemStream_stream (order : BitOrder) (bufs : List (List UInt8)) :
    Stream order (modemStream order bufs) bufs.flatten := by
  left
  rw [modemStream]
  congr 1
  induction bufs with
  | nil => rfl
  | cons p bufs ih => rw [List.flatMap_cons, ih, flatten_sendbuf, List.flatten_cons, stuffed_append]

/-! ## The run vectors that are encoded -/

/-- A line that `send_data` may read, whatever the number of its code words. -/
structure InputLine (runs : List Int) : Prop where
  nonneg : ∀ r ∈ runs, 0 ≤ r
  width : runs.sum ≤ 32767

/-- The arguments of `send_data` in a session: the header lines are run vectors. -/
structure SendJob.Valid (j : SendJob) : Prop where
  header : ∀ i, InputLine (j.header i)
  lower : 0 < j.pwidth
  upper : j.pwidth ≤ maxRunLen

/-- The saved line is a run vector, and its buffer starts with a run. -/
structure Saved.Valid (s : Saved) : Prop where
  line : LineBuffer s.lastruns s.lastnr
  head : 0 ≤ s.lastruns.headD 0 ∧ s.lastruns.headD 0 ≤ 32767

theorem stored_eq {runs c : List Int} (fits : stored runs = some c) : c = runs := by
  unfold stored at fits
  split at fits
  · exact (Option.some.inj fits).symm
  · cases fits

theorem InputLine.buffer {runs : List Int} (line : InputLine runs) :
    LineBuffer (runBuffer runs) runs.length ∧
      (runs.length = 0 → -32768 ≤ (runBuffer runs).headD 0 ∧ (runBuffer runs).headD 0 < 0) ∧
      (runBuffer runs).take runs.length = runs ∧ runs.length ≤ (runBuffer runs).length := by
  unfold runBuffer
  split
  case isTrue empty =>
    subst empty
    exact ⟨⟨by simp, by simp⟩, fun _ => by decide, rfl, by decide⟩
  case isFalse some =>
    rw [List.take_length]
    refine ⟨⟨?_, ?_⟩, fun none => absurd (List.eq_nil_of_length_eq_zero none) some,
      rfl, le_rfl⟩
    · rw [List.take_length]
      exact line.nonneg
    · rw [List.take_length]
      exact line.width

theorem InputLine.head {runs : List Int} (line : InputLine runs) :
    0 ≤ runs.headD 0 ∧ runs.headD 0 ≤ 32767 := by
  cases runs with
  | nil => exact ⟨le_rfl, by decide⟩
  | cons run runs =>
    have here := line.nonneg run List.mem_cons_self
    have later : 0 ≤ runs.sum :=
      List.sum_nonneg fun r hr => line.nonneg r (List.mem_cons_of_mem run hr)
    have width := line.width
    rw [List.sum_cons] at width
    exact ⟨here, by show run ≤ 32767; omega⟩

theorem InputLine.lineBuffer {runs : List Int} (line : InputLine runs) :
    LineBuffer runs runs.length := by
  refine ⟨?_, ?_⟩
  · rw [List.take_length]
    exact line.nonneg
  · rw [List.take_length]
    exact line.width

/-- The blank lines at the top are such lines, too. -/
theorem SendJob.Valid.input {j : SendJob} (valid : j.Valid) {page : List (List Int)}
    (input : ∀ runs ∈ page, InputLine runs) :
    ∀ runs ∈ List.replicate hdrSpce [j.pwidth] ++ page, InputLine runs := by
  have lower := valid.lower
  have upper := valid.upper
  unfold maxRunLen at upper
  intro runs member
  rcases List.mem_append.mp member with member | member
  · rw [(List.mem_replicate.mp member).2]
    refine ⟨fun r run => ?_, by rw [List.sum_singleton]; omega⟩
    rw [List.mem_singleton.mp run]
    omega
  · exact input runs member

/-- The line after the header was OR-ed into it. -/
theorem SendJob.Valid.orHeader {j : SendJob} (valid : j.Valid) {line : Nat} {runs : List Int}
    (input : InputLine runs) {buf : List Int} {nr : Nat}
    (result : j.orHeader line runs = some (buf, nr)) :
    LineBuffer buf nr ∧ (nr = 0 → -32768 ≤ buf.headD 0 ∧ buf.headD 0 < 0) ∧
      InputLine (buf.take nr) ∧ nr ≤ buf.length := by
  obtain ⟨buffer, eol, take, long⟩ := input.buffer
  unfold SendJob.orHeader at result
  split at result
  case isTrue inHeader =>
    have header := valid.header (line - hdrStrt)
    obtain ⟨c, fits, pair⟩ := Option.map_eq_some_iff.mp result
    obtain ⟨nonneg, width⟩ := runor_line buffer eol header.lineBuffer fun _ => header.head
    have runs' := stored_eq fits
    rw [← runs'] at nonneg width
    obtain ⟨rfl, rfl⟩ := Prod.mk.inj pair
    refine ⟨(InputLine.mk nonneg width).lineBuffer, fun none => ?_, ?_, le_rfl⟩
    · -- the result of `runor` is never empty
      rw [List.length_eq_zero_iff.mp none] at runs'
      simp [runor] at runs'
    · rw [List.take_length]
      exact ⟨nonneg, width⟩
  case isFalse _ =>
    obtain ⟨rfl, rfl⟩ := Prod.mk.inj (Option.some.inj result)
    exact ⟨buffer, eol, by rw [take]; exact input, long⟩

/-- A run vector that is sent has nonnegative runs and the width of the page. -/
theorem SendJob.Valid.lineOut {j : SendJob} (valid : j.Valid) {runs : List Int}
    (input : InputLine runs) {out : LineOut} (result : j.lineOut runs = some out) :
    ∀ sent ∈ out.runs?, (∀ r ∈ sent, 0 ≤ r) ∧ sent.sum = j.pwidth := by
  have small := valid.upper
  have pos := valid.lower
  unfold maxRunLen at small
  unfold SendJob.lineOut at result
  intro sent member
  split at result
  · cases result
    cases member
  · split at result
    · cases result
      cases member
    · split at result
      · obtain ⟨c, fits, rfl⟩ := Option.map_eq_some_iff.mp result
        cases member
        rw [stored_eq fits]
        obtain ⟨nonneg, sum⟩ := xpad_sum input.nonneg (j.pwidth - runs.sum) (by omega) (by omega)
        exact ⟨nonneg, by omega⟩
      · next same =>
        cases result
        cases member
        exact ⟨input.nonneg, by simpa using same⟩

/-- Saving a line for the reduction. -/
theorem Saved.Valid.save {s : Saved} (saved : s.Valid) {buf : List Int} {nr skip : Nat}
    (input : InputLine (buf.take nr)) (long : nr ≤ buf.length) :
    (⟨skip, buf.take nr ++ s.lastruns.drop nr, nr⟩ : Saved).Valid := by
  have width : (buf.take nr).length = nr := by
    rw [List.length_take]
    omega
  refine ⟨⟨?_, ?_⟩, ?_⟩
  · show ∀ r ∈ (buf.take nr ++ s.lastruns.drop nr).take nr, 0 ≤ r
    rw [List.take_left' width]
    exact input.nonneg
  · show ((buf.take nr ++ s.lastruns.drop nr).take nr).sum ≤ 32767
    rw [List.take_left' width]
    exact input.width
  · show 0 ≤ (buf.take nr ++ s.lastruns.drop nr).headD 0 ∧
      (buf.take nr ++ s.lastruns.drop nr).headD 0 ≤ 32767
    have head := input.head
    cases front : buf.take nr with
    | nil =>
      rw [front] at width
      rw [← width]
      exact saved.head
    | cons run runs =>
      rw [front] at head
      exact head

/-- One line of input keeps the saved line a run vector. -/
theorem SendJob.Valid.sendLine {j : SendJob} (valid : j.Valid) {s s' : Saved} (saved : s.Valid)
    {line : Nat} {runs : List Int} (input : InputLine runs) {out : LineOut}
    (result : j.sendLine s line runs = some (s', out)) :
    s'.Valid ∧ ∀ sent ∈ out.runs?, (∀ r ∈ sent, 0 ≤ r) ∧ sent.sum = j.pwidth := by
  obtain ⟨⟨buf, nr⟩, header, result⟩ := Option.bind_eq_some_iff.mp result
  obtain ⟨buffer, eol, input', long⟩ := valid.orHeader input header
  simp only at result
  split at result
  · split at result
    · obtain ⟨rfl, rfl⟩ := Prod.mk.inj (Option.some.inj result)
      exact ⟨saved.save input' long, fun sent member => by cases member⟩
    · obtain ⟨c, fits, result⟩ := Option.bind_eq_some_iff.mp result
      obtain ⟨out', lineOut, pair⟩ := Option.map_eq_some_iff.mp result
      obtain ⟨rfl, rfl⟩ := Prod.mk.inj pair
      obtain ⟨nonneg, width⟩ := runor_line buffer eol saved.line fun _ => saved.head
      rw [← stored_eq fits] at nonneg width
      exact ⟨⟨saved.line, saved.head⟩, valid.lineOut ⟨nonneg, width⟩ lineOut⟩
  · obtain ⟨out', lineOut, pair⟩ := Option.map_eq_some_iff.mp result
    obtain ⟨rfl, rfl⟩ := Prod.mk.inj pair
    exact ⟨saved, valid.lineOut input' lineOut⟩

/-- Every run vector that is sent has nonnegative runs and the width of the page. -/
theorem SendJob.Valid.sendLines {j : SendJob} (valid : j.Valid) {s : Saved} (saved : s.Valid)
    {line : Nat} {page : List (List Int)} (input : ∀ runs ∈ page, InputLine runs)
    {outs : List LineOut} (result : j.sendLines s line page = some outs) :
    ∀ sent ∈ outs.filterMap LineOut.runs?, (∀ r ∈ sent, 0 ≤ r) ∧ sent.sum = j.pwidth := by
  induction page generalizing s line outs with
  | nil =>
    cases result
    simp
  | cons runs page ih =>
    obtain ⟨⟨s', out⟩, here, result⟩ := Option.bind_eq_some_iff.mp result
    obtain ⟨outs', later, rfl⟩ := Option.map_eq_some_iff.mp result
    obtain ⟨saved', sent'⟩ := valid.sendLine saved (input runs List.mem_cons_self) here
    intro sent member
    rw [List.filterMap_cons] at member
    split at member
    · exact ih saved' (fun r hr => input r (List.mem_cons_of_mem runs hr)) later sent member
    · next found =>
      rcases List.mem_cons.mp member with rfl | member
      · exact sent' sent found
      · exact ih saved' (fun r hr => input r (List.mem_cons_of_mem runs hr)) later sent member

/-! ## The first line that is sent -/

/-- OR-ing two blank lines of one width. -/
theorem runor_blank {w : Int} (lower : 0 ≤ w) (upper : w ≤ 32767) : runor [w] 1 [w] 1 = [w] := by
  have zero : toShort 0 = 0 := toShort_of_small (by decide) (by decide)
  have full : toShort w = w := toShort_of_small (by omega) upper
  simp [runor, orBoth, orRest, OrOut.add_first, zero, full]

theorem SendJob.Valid.lineOut_blank {j : SendJob} (valid : j.Valid) :
    j.lineOut [j.pwidth] = some (.line [j.pwidth]) := by
  have pos := valid.lower
  have nonzero : j.pwidth ≠ 0 := by omega
  simp [SendJob.lineOut, nonzero]

theorem SendJob.orHeader_above (j : SendJob) {line : Nat} (above : line < hdrStrt) (w : Int) :
    j.orHeader line [w] = some ([w], 1) := by
  have out : ¬ (hdrStrt ≤ line ∧ line < hdrStrt + hdrChrh) := by omega
  simp [SendJob.orHeader, if_neg out, runBuffer]

/-- The blank lines at the top make the first run vector that is sent, before any buffer reset. -/
theorem SendJob.Valid.outputs_start {j : SendJob} (valid : j.Valid) {page : List (List Int)}
    {outs : List LineOut} (result : j.outputs page = some outs) :
    ∃ n runs rest, outs = List.replicate n .keep ++ .line runs :: rest := by
  have lower := valid.lower
  have upper := valid.upper
  unfold maxRunLen at upper
  have top : List.replicate hdrSpce [j.pwidth] ++ page =
      [j.pwidth] :: [j.pwidth] :: (List.replicate 18 [j.pwidth] ++ page) := rfl
  rw [SendJob.outputs, top] at result
  obtain ⟨⟨s₁, out₁⟩, first, rest₁⟩ := Option.bind_eq_some_iff.mp result
  obtain ⟨outs₁, later, rfl⟩ := Option.map_eq_some_iff.mp rest₁
  obtain ⟨⟨s₂, out₂⟩, second, rest₂⟩ := Option.bind_eq_some_iff.mp later
  obtain ⟨outs₂, -, rfl⟩ := Option.map_eq_some_iff.mp rest₂
  have near : ∀ line < hdrStrt, (line < hdrStrt + hdrChrh ↔ True) := fun line above =>
    iff_true_intro (Nat.lt_add_right _ above)
  rw [SendJob.sendLine, j.orHeader_above (by decide)] at first
  rw [SendJob.sendLine, j.orHeader_above (by decide)] at second
  simp only [Option.bind_some, near 0 (by decide), true_and] at first
  simp only [Option.bind_some, near 1 (by decide), true_and] at second
  by_cases reduce : j.decimate ∨ j.loc .vr = 0
  · rw [if_pos reduce] at first second
    obtain ⟨rfl, rfl⟩ := Prod.mk.inj (Option.some.inj first)
    have blank : stored (runor [j.pwidth] 1 [j.pwidth] 1) = some [j.pwidth] := by
      rw [runor_blank (by omega) (by omega)]
      rfl
    simp only [List.take_succ_cons, List.take_zero, List.drop_nil, List.append_nil, Nat.zero_add,
      Nat.reduceAdd, Nat.reduceMod, Nat.zero_ne_one, if_false, blank,
      Option.bind_some, valid.lineOut_blank, Option.map_some, Option.some.injEq,
      Prod.mk.injEq] at second
    exact ⟨1, [j.pwidth], outs₂, by rw [← second.2]; rfl⟩
  · rw [if_neg reduce] at first
    simp only [List.take_succ_cons, List.take_zero, valid.lineOut_blank, Option.map_some,
      Option.some.injEq, Prod.mk.injEq] at first
    exact ⟨0, [j.pwidth], out₂ :: outs₂, by rw [← first.2]; rfl⟩

/-! ## The bits that are sent -/

/-- What was sent, what is in the buffer and what is still in the encoder. -/
structure Packer.Wrote (b : Packer) (bits : List Bool) : Prop where
  ready : b.e.Ready
  content : bytesBits b.sent.flatten ++ (bytesBits b.buf ++ b.e.pend) = bits

/-- A byte of FILL. -/
theorem putcode_fill {e : Encoder} (ready : e.Ready) :
    e.pend ++ List.replicate 8 false =
        bytesBits (putcode e 0 8).2 ++ (putcode e 0 8).1.pend ∧ (putcode e 0 8).1.Ready := by
  have written := putcode_bits ready 0 8 (by decide) (by decide) (by decide)
  rw [toBits_of_zero] at written
  exact written

/-- One more byte of FILL. -/
theorem fill_step {e : Encoder} {buf : List UInt8} (ready : e.Ready) (n : Nat) :
    bytesBits buf ++ e.pend ++ List.replicate (8 * (n + 1)) false =
        bytesBits (buf ++ (putcode e 0 8).2) ++ (putcode e 0 8).1.pend ++
          List.replicate (8 * n) false := by
  obtain ⟨bits, -⟩ := putcode_fill ready
  have split : List.replicate (8 * (n + 1)) false =
      List.replicate 8 false ++ List.replicate (8 * n) false := by
    rw [← List.replicate_add]
    congr 1
    omega
  rw [split, bytesBits_append, List.append_assoc (bytesBits buf) e.pend,
    ← List.append_assoc e.pend, bits]
  simp only [List.append_assoc]

theorem putFill_bits (n : Nat) {e : Encoder} (buf : List UInt8) (ready : e.Ready) :
    bytesBits buf ++ e.pend ++ List.replicate (8 * n) false =
        bytesBits (putFill n e buf).2 ++ (putFill n e buf).1.pend ∧
      (putFill n e buf).1.Ready := by
  induction n generalizing e buf with
  | zero => exact ⟨by simp [putFill], ready⟩
  | succ n ih =>
    obtain ⟨bits, ready'⟩ := ih (buf ++ (putcode e 0 8).2) (putcode_fill ready).2
    rw [fill_step ready n]
    exact ⟨bits, ready'⟩

theorem length_putcode_fill {e : Encoder} (ready : e.Ready) : (putcode e 0 8).2.length = 1 := by
  obtain ⟨bits, ready'⟩ := putcode_fill ready
  have size := congrArg List.length bits
  have before := ready.length_pend_lt
  have after := ready'.length_pend_lt
  rw [List.length_append, List.length_replicate, List.length_append, length_bytesBits] at size
  omega

/-- Padding adds the bytes of FILL that are missing. -/
theorem padTo_bits (minlen : Int) (fuel : Nat) {e : Encoder} (buf : List UInt8) (ready : e.Ready)
    (enough : (minlen - buf.length).toNat ≤ fuel) :
    bytesBits buf ++ e.pend ++ List.replicate (8 * (minlen - buf.length).toNat) false =
        bytesBits (padTo minlen fuel e buf).2 ++ (padTo minlen fuel e buf).1.pend ∧
      (padTo minlen fuel e buf).1.Ready := by
  induction fuel generalizing e buf with
  | zero =>
    rw [Nat.le_zero.mp enough, Nat.mul_zero, List.replicate_zero, List.append_nil]
    exact ⟨rfl, ready⟩
  | succ fuel ih =>
    rw [padTo]
    split
    case isTrue short =>
      have size : (buf ++ (putcode e 0 8).2).length = buf.length + 1 := by
        rw [List.length_append, length_putcode_fill ready]
      have missing : (minlen - buf.length).toNat =
          (minlen - (buf ++ (putcode e 0 8).2).length).toNat + 1 := by
        rw [size]
        omega
      rw [missing] at enough ⊢
      rw [fill_step ready]
      exact ih (buf ++ (putcode e 0 8).2) (putcode_fill ready).2 (by omega)
    case isFalse full =>
      have none : (minlen - buf.length).toNat = 0 := by omega
      rw [none, Nat.mul_zero, List.replicate_zero, List.append_nil]
      exact ⟨rfl, ready⟩

/-- The data starts with 32 bytes of FILL and an EOL. -/
theorem Packer.start_wrote :
    Packer.start.Wrote (List.replicate 267 false ++ [true]) := by
  obtain ⟨fill, ready⟩ := putFill_bits 32 [] newEncoder_ready
  obtain ⟨bits, ready'⟩ := putcode_eol ready
  refine ⟨ready', ?_⟩
  show bytesBits [] ++ (bytesBits ((putFill 32 newEncoder []).2 ++
    (putcode (putFill 32 newEncoder []).1 eolCode eolBits).2) ++
      (putcode (putFill 32 newEncoder []).1 eolCode eolBits).1.pend) = _
  have zeros : List.replicate 267 false = List.replicate (8 * 32) false ++ List.replicate 11 false := by
    rw [← List.replicate_add]
  rw [bytesBits_append, bytesBits_nil, List.nil_append, List.append_assoc, ← bits,
    ← List.append_assoc, ← fill, bytesBits_nil, newEncoder_pend, List.nil_append, List.nil_append,
    eol_eq, zeros, List.append_assoc]

/-- The bits that are not sent end where all the bits end in a byte. -/
theorem Packer.Wrote.ahead_mod {b : Packer} {bits : List Bool} (wrote : b.Wrote bits) :
    b.ahead % 8 = bits.length % 8 := by
  have size := congrArg List.length wrote.content
  rw [List.length_append, List.length_append, length_bytesBits, length_bytesBits] at size
  unfold Packer.ahead
  omega

/-- A line is sent as its code words, the bytes of FILL that are missing and an EOL. -/
theorem Packer.Wrote.line {b : Packer} {bits : List Bool} (wrote : b.Wrote bits) (minlen : Int)
    {runs : List Int} (line : ScanLine runs) :
    (b.line minlen runs).buf = [] ∧ (b.line minlen runs).Wrote
      (bits ++ (lineBits runs ++ (List.replicate
        (8 * fillBytes minlen b.ahead (lineBits runs).length + 11) false ++ [true]))) := by
  obtain ⟨ready, content⟩ := wrote
  have room := lineBits_room line.nonneg line.width line.words
  obtain ⟨coded, ready₁⟩ := runtocode_bits ready runs (by omega)
  obtain ⟨padded, ready₂⟩ := padTo_bits minlen minlen.toNat (b.buf ++ (runtocode b.e runs).2)
    ready₁ (by omega)
  obtain ⟨ended, ready₃⟩ := putcode_eol ready₂
  refine ⟨rfl, ready₃, ?_⟩
  have bytes : (b.buf ++ (runtocode b.e runs).2).length = (b.ahead + (lineBits runs).length) / 8 := by
    have size := congrArg List.length coded
    have kept := ready₁.length_pend_lt
    rw [List.length_append, List.length_append, length_bytesBits] at size
    rw [List.length_append, Packer.ahead]
    omega
  rw [bytes] at padded
  have zeros : List.replicate (8 * fillBytes minlen b.ahead (lineBits runs).length + 11) false ++
      [true] = List.replicate (8 * fillBytes minlen b.ahead (lineBits runs).length) false ++ eol := by
    rw [List.replicate_add, eol_eq, List.append_assoc]
  change _ = bytesBits _ ++ _ at padded
  unfold Packer.line
  simp only
  rw [fillBytes] at zeros ⊢
  generalize runtocode b.e runs = coded' at coded padded ended ⊢
  generalize padTo minlen minlen.toNat coded'.1 (b.buf ++ coded'.2) = padded' at padded ended ⊢
  rw [List.flatten_append, List.flatten_singleton, bytesBits_append, bytesBits_append,
    bytesBits_nil, List.nil_append, List.append_assoc, List.append_assoc, ← ended,
    ← List.append_assoc (bytesBits padded'.2), ← padded, bytesBits_append,
    List.append_assoc (bytesBits b.buf), ← coded, zeros, ← content]
  simp only [List.append_assoc]

/-- A row as `send_data` writes it: a scan line with pels, and an EOL after whole bytes of FILL. -/
structure SentRow (row : List Int × Nat) : Prop where
  line : ScanLine row.1
  pels : 0 < row.1.sum
  zeros : 11 ≤ row.2
  whole : row.2 % 8 = 3

theorem sentRows_sent (minlen : Int) (ahead : Nat) {lines : List (List Int)}
    (valid : ∀ runs ∈ lines, ScanLine runs ∧ 0 < runs.sum) :
    ∀ row ∈ sentRows minlen ahead lines, SentRow row := by
  induction lines generalizing ahead with
  | nil => exact fun row member => absurd member List.not_mem_nil
  | cons runs lines ih =>
    obtain ⟨line, pels⟩ := valid runs List.mem_cons_self
    intro row member
    rcases List.mem_cons.mp member with rfl | member
    · exact ⟨line, pels, Nat.le_add_left .., Nat.mul_add_mod ..⟩
    · exact ih _ (fun r hr => valid r (List.mem_cons_of_mem runs hr)) row member

/-- The bits that are left for the next line. -/
theorem Packer.Wrote.ahead_line {b : Packer} {bits : List Bool} (wrote : b.Wrote bits) (minlen : Int)
    {runs : List Int} (line : ScanLine runs) :
    (b.line minlen runs).ahead = (b.ahead + (lineBits runs).length + eolBits) % 8 := by
  obtain ⟨empty, wrote'⟩ := wrote.line minlen line
  have before := wrote.ahead_mod
  have after := wrote'.ahead_mod
  have kept := wrote'.ready.length_pend_lt
  have rest : (b.line minlen runs).ahead = (b.line minlen runs).e.pend.length := by
    rw [Packer.ahead, empty, List.length_nil, Nat.mul_zero, Nat.zero_add]
  simp only [List.length_append, List.length_replicate, List.length_singleton] at after
  unfold eolBits
  omega

/-- After the first line the buffer is empty between two lines, and a buffer reset loses nothing. -/
theorem Packer.Wrote.outputs {b : Packer} {bits : List Bool} (wrote : b.Wrote bits)
    (empty : b.buf = []) (minlen : Int) {outs : List LineOut}
    (valid : ∀ runs ∈ outs.filterMap LineOut.runs?, ScanLine runs ∧ 0 < runs.sum) :
    (outs.foldl (Packer.output minlen) b).buf = [] ∧
      (outs.foldl (Packer.output minlen) b).Wrote
        (bits ++ rowsBits (sentRows minlen b.ahead (outs.filterMap LineOut.runs?))) := by
  induction outs generalizing b bits with
  | nil => exact ⟨empty, by simpa [sentRows] using wrote⟩
  | cons out outs ih =>
    cases out with
    | keep => exact ih wrote empty valid
    | drop =>
      have same : b.output minlen .drop = b := by
        show { b with buf := [] } = b
        rw [← empty]
      rw [List.foldl_cons, same]
      exact ih wrote empty valid
    | line runs =>
      obtain ⟨line, -⟩ := valid runs (List.mem_cons_self (l := outs.filterMap LineOut.runs?))
      obtain ⟨empty', wrote'⟩ := wrote.line minlen line
      obtain ⟨empty'', wrote''⟩ := ih wrote' empty' fun r hr => valid r (List.mem_cons_of_mem runs hr)
      refine ⟨empty'', ?_⟩
      rw [wrote.ahead_line minlen line] at wrote''
      change Packer.Wrote _ (bits ++ rowsBits (sentRows minlen b.ahead (runs :: _)))
      rw [sentRows, rowsBits_cons, ← List.append_assoc]
      exact wrote''

/-- The bits that `send_data` spends on run vectors and their EOLs, FILL apart. -/
def codeBits (lines : List (List Int)) : Nat :=
  (lines.map fun runs => (lineBits runs).length + eolBits).sum

/-- The bits of sent rows and the code bits end at the same place in a byte. -/
theorem length_rowsBits {rows : List (List Int × Nat)} (sent : ∀ row ∈ rows, SentRow row) :
    (rowsBits rows).length % 8 = codeBits (rows.map Prod.fst) % 8 := by
  induction rows with
  | nil => rfl
  | cons row rows ih =>
    have later := ih fun r hr => sent r (List.mem_cons_of_mem row hr)
    have whole := (sent row List.mem_cons_self).whole
    have step : codeBits ((row :: rows).map Prod.fst) =
        (lineBits row.1).length + eolBits + codeBits (rows.map Prod.fst) := rfl
    rw [rowsBits_cons, step]
    simp only [List.length_append, List.length_replicate, List.length_cons, List.length_nil]
    unfold eolBits
    omega

/-- The bits that the encoder keeps back after sent rows. -/
theorem Packer.Wrote.pend_mod {b : Packer} {bits : List Bool} {rows : List (List Int × Nat)}
    (wrote : b.Wrote (bits ++ rowsBits rows)) (empty : b.buf = []) (start : bits.length = 268)
    (sent : ∀ row ∈ rows, SentRow row) :
    (b.e.pend.length + 4) % 8 = codeBits (rows.map Prod.fst) % 8 := by
  have total := congrArg List.length wrote.content
  rw [empty, bytesBits_nil, List.nil_append, List.length_append, List.length_append,
    length_bytesBits, start] at total
  have aligned := length_rowsBits sent
  omega

/-- The return to control at the end of the data. -/
theorem Packer.Wrote.finish {b : Packer} {bits : List Bool} (wrote : b.Wrote bits)
    (empty : b.buf = []) :
    ∃ z tail, RtcEnd z tail ∧ (tail = [] ↔ (b.e.pend.length + 4) % 8 ≠ 0) ∧
      bytesBits b.finish.flatten =
        bits ++ ((List.replicate 4 eol).flatten ++ (List.replicate z false ++ true :: tail)) := by
  obtain ⟨z, tail, rtc, ends, -⟩ := putRtc_bits wrote.ready
  have content := wrote.content
  rw [empty, bytesBits_nil, List.nil_append] at content
  refine ⟨z, tail, ?_, ?_, ?_⟩
  · rcases ends with ⟨lower, upper, nil, -⟩ | ⟨zeros, one, -⟩
    · exact Or.inl ⟨lower, upper, nil⟩
    · exact Or.inr ⟨zeros, one⟩
  · rcases ends with ⟨-, -, nil, odd⟩ | ⟨-, one, even⟩
    · exact iff_of_true nil odd
    · exact iff_of_false (by rw [one]; exact List.cons_ne_nil _ _) (by omega)
  · rw [Packer.finish, empty, List.nil_append, List.flatten_append, List.flatten_singleton,
      bytesBits_append, rtc, ← content]
    simp only [List.append_assoc]

/-- All the bits of a page: FILL and an EOL, every encoded line once and in order with the FILL that it
needs, and a return to control whose end depends on the alignment of the code bits. -/
theorem SendJob.Valid.sendData_rows {j : SendJob} (valid : j.Valid) {page : List (List Int)}
    (input : ∀ runs ∈ page, InputLine runs) {lines : List (List Int)}
    (encoded : j.encoded page = some lines)
    (words : ∀ runs ∈ lines, (lineCodes .white runs).length < maxRuns) :
    ∃ bufs z tail, j.sendData page = some bufs ∧ lines ≠ [] ∧
      (∀ runs ∈ lines, ScanLine runs ∧ 0 < runs.sum ∧ runs.sum = j.pwidth) ∧ RtcEnd z tail ∧
      (tail = [] ↔ codeBits lines % 8 ≠ 0) ∧
      bytesBits bufs.flatten = List.replicate 267 false ++
        true :: (rowsBits (sentRows j.minlen 268 lines) ++
          ((List.replicate 4 eol).flatten ++ (List.replicate z false ++ true :: tail))) := by
  obtain ⟨outs, result, rfl⟩ := Option.map_eq_some_iff.mp encoded
  have start : (⟨0, [], 0⟩ : Saved).Valid := ⟨⟨by simp, by simp⟩, le_rfl, by decide⟩
  have sums := valid.sendLines start (valid.input input) result
  have scan : ∀ runs ∈ outs.filterMap LineOut.runs?, ScanLine runs ∧ 0 < runs.sum := by
    intro runs member
    obtain ⟨nonneg, sum⟩ := sums runs member
    have lower := valid.lower
    have upper := valid.upper
    refine ⟨⟨nonneg, fun r hr => ?_, ?_, words runs member⟩, by omega⟩
    · have le := List.single_le_sum nonneg r hr
      omega
    · unfold maxRunLen at upper
      omega
  obtain ⟨n, runs, rest, split⟩ := valid.outputs_start result
  have keeps : ∀ n, (List.replicate n LineOut.keep).foldl (Packer.output j.minlen) Packer.start =
      Packer.start := by
    intro n
    induction n with
    | zero => rfl
    | succ n ih => exact ih
  have none : (List.replicate n LineOut.keep).filterMap LineOut.runs? = [] := by
    rw [List.filterMap_eq_nil_iff]
    intro out member
    rw [(List.mem_replicate.mp member).2]
    rfl
  have lines : outs.filterMap LineOut.runs? = runs :: rest.filterMap LineOut.runs? := by
    rw [split, List.filterMap_append, none]
    rfl
  have size : Packer.start.ahead = 268 := by decide +kernel
  rw [lines] at scan sums ⊢
  obtain ⟨line, -⟩ := scan runs List.mem_cons_self
  obtain ⟨empty, first⟩ := Packer.start_wrote.line j.minlen line
  obtain ⟨empty', wrote⟩ := first.outputs empty j.minlen
    fun r hr => scan r (List.mem_cons_of_mem runs hr)
  rw [Packer.start_wrote.ahead_line j.minlen line] at wrote
  have final : outs.foldl (Packer.output j.minlen) Packer.start =
      rest.foldl (Packer.output j.minlen) (Packer.start.line j.minlen runs) := by
    rw [split, List.foldl_append, keeps, List.foldl_cons, Packer.output_line]
  have all : (rest.foldl (Packer.output j.minlen) (Packer.start.line j.minlen runs)).Wrote
      (List.replicate 267 false ++ [true] ++
        rowsBits (sentRows j.minlen 268 (runs :: rest.filterMap LineOut.runs?))) := by
    rw [sentRows, rowsBits_cons, ← List.append_assoc, ← size]
    exact wrote
  have aligned := all.pend_mod empty'
    (by rw [List.length_append, List.length_replicate, List.length_singleton])
    (sentRows_sent j.minlen 268 scan)
  obtain ⟨z, tail, rtc, ends, bits⟩ := all.finish empty'
  rw [← final] at bits
  rw [aligned, sentRows_lines] at ends
  refine ⟨(outs.foldl (Packer.output j.minlen) Packer.start).finish, z, tail,
    by rw [SendJob.sendData, result]; rfl, List.cons_ne_nil _ _,
    fun r hr => ⟨(scan r hr).1, (scan r hr).2, (sums r hr).2⟩, rtc, ends, ?_⟩
  rw [bits]
  simp only [List.append_assoc, List.cons_append, List.nil_append]

/-- The rows of a page and their line widths, whatever the FILL between them. -/
theorem SendJob.Valid.sendData_bits {j : SendJob} (valid : j.Valid) {page : List (List Int)}
    (input : ∀ runs ∈ page, InputLine runs) {lines : List (List Int)}
    (encoded : j.encoded page = some lines)
    (words : ∀ runs ∈ lines, (lineCodes .white runs).length < maxRuns) :
    ∃ bufs rows z tail, j.sendData page = some bufs ∧ rows.map Prod.fst = lines ∧ rows ≠ [] ∧
      (∀ row ∈ rows, SentRow row) ∧ (∀ runs ∈ lines, runs.sum = j.pwidth) ∧ RtcEnd z tail ∧
      (tail = [] ↔ codeBits lines % 8 ≠ 0) ∧
      bytesBits bufs.flatten = List.replicate 267 false ++ true :: (rowsBits rows ++
        ((List.replicate 4 eol).flatten ++ (List.replicate z false ++ true :: tail))) := by
  obtain ⟨bufs, z, tail, sent, some, scan, rtc, ends, bits⟩ :=
    valid.sendData_rows input encoded words
  have same := sentRows_lines j.minlen 268 lines
  refine ⟨bufs, sentRows j.minlen 268 lines, z, tail, sent, same, fun none => some ?_,
    sentRows_sent j.minlen 268 fun r hr => ⟨(scan r hr).1, (scan r hr).2.1⟩,
    fun r hr => (scan r hr).2.2, rtc, ends, bits⟩
  rw [← same, none, List.map_nil]

end QFax.Efax

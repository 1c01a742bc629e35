import QFax.Efax.InputPages
import QFax.Lib.Machine

/-!
# Sending with a Class 2 modem

The send half of `c2sndrcv`.  The modem does the protocol; each round of the loop reads a page, sends it
and takes the verdict of the modem, which may report at any command that the call was hung up.
-/

namespace QFax.Efax.Class2

/-- A status response: `none` when it is missing, else the number in it, if one can be read. -/
abbrev Status : Type := Option (Option Int)

/-- The responses to a command: whether it got the prompt it waits for, a hang-up report (`+FHNG:` or
`+FHS:`) and the page transfer status (`+FPTS:`). -/
structure Answer where
  ok : Bool
  hangup : Status
  fpts : Status
  deriving DecidableEq, Repr

/-- The arguments and options of `c2sndrcv` that stay the same; `queue` holds the vertical resolutions
of the pages of the input files. -/
structure Config where
  queue : List Rat
  c20 : Bool
  noretry : Bool

/-- What comes in during a round of the loop: whether the page can be opened, and the responses to
`+FDIS`, to `+FDT`, to the end of the data and to `+FET`. -/
structure Round where
  opened : Bool
  fdis : Answer
  fdt : Answer
  endData : Answer
  fet : Answer

/-- What the loop does: a page passed to `send_data`, with the responses that follow it, a page counted
as sent, and the return. -/
inductive Event
  | transmitted (page : Nat) (endData : Answer) (fet : Option Answer)
  | counted (page : Nat)
  | returned (err : Nat)
  deriving DecidableEq, Repr

/-- The variables of `c2sndrcv`: `p` is the position in the input files, `loc` stands for `local`.
`left` is set after the return. -/
structure Sender where
  err : Nat
  done : Bool
  page : Nat
  pagetry : Nat
  dp : Bool
  ppm : Frame
  good : Int
  hsc : Int
  changed : Bool
  loc : Cap
  p : Nat
  left : Bool

namespace Sender

/-- The variables before the loop; `good` and `changed` are not initialised. -/
def start (loc : Cap) (good : Int) (changed : Bool) : Sender where
  err := 0
  done := false
  page := 1
  pagetry := 0
  dp := false
  ppm := .eop
  good := good
  hsc := -1
  changed := changed
  loc := loc
  p := 0
  left := false

/-- `gethsc`; it returns whether there is a report. -/
def gethsc (status : Status) (s : Sender) : Sender :=
  match status with
  | none => s
  | some code =>
    let hsc := code.getD s.hsc
    { s with hsc := hsc, err := if hsc > 0 ∧ s.err = 0 then 2 else s.err }

/-- The call of `rdpage`. -/
def read (cfg : Config) (opened : Bool) (s : Sender) : Sender :=
  let p := nextipage s.p s.dp
  let read := rdpage cfg.queue opened p s.loc s.changed
  { s with err := read.err, p := p, ppm := read.ppm, loc := read.loc, changed := read.changed }

/-- Whether `+FET` is sent after the data. -/
def asks (endData : Answer) (s : Sender) : Bool :=
  let s := s.gethsc endData.hangup
  s.err = 0 ∧ s.hsc < 0

/-- The variables after `+FET` and its hang-up report. -/
def ask (fet : Answer) (s : Sender) : Sender :=
  { s with err := if fet.ok then s.err else 3 }.gethsc fet.hangup

/-- The verdict in the responses to `+FET`.  Without a number to read, `good` keeps its lowest bit. -/
def verdict (fet : Answer) (good : Int) : Int :=
  match fet.fpts with
  | some (some value) => value % 2
  | some none => good % 2
  | none => if fet.hangup.isSome then 0 else 1

/-- Whether the responses to `+FET` are looked at. -/
def looks (r : Round) (s : Sender) : Bool :=
  let s := (s.gethsc r.endData.hangup).ask r.fet
  s.err = 0 ∧ s.hsc < 0

/-- The end of the data and the verdict with a Class 2 modem. -/
def endClass2 (r : Round) (s : Sender) : Sender :=
  if s.asks r.endData then
    let s' := (s.gethsc r.endData.hangup).ask r.fet
    if s.looks r then { s' with good := verdict r.fet s'.good } else s'
  else (s.gethsc r.endData.hangup).gethsc r.endData.hangup

/-- The end of the data and the verdict with a Class 2.0 modem. -/
def endClass20 (r : Round) (s : Sender) : Sender := { s with good := if r.endData.ok then 1 else 0 }

/-- The page counts as sent.  After the last page, `nextipage` marks all files done. -/
def countPage (s : Sender) : Sender :=
  { s with
    pagetry := 0
    page := s.page + 1
    dp := true
    p := if s.ppm = .eop then s.p + 1 else s.p
    done := s.done || s.ppm = .eop }

/-- The page has to be sent again, unless there were too many tries. -/
def repeatPage (s : Sender) : Sender :=
  { s with dp := false, err := if s.pagetry ≥ nTxRetry then 2 else s.err }

/-- What becomes of the page. -/
def judge (cfg : Config) (s : Sender) : Sender × List Event :=
  let s := if cfg.noretry then { s with good := 1 } else s
  if s.good ≠ 0 then (s.countPage, [.counted s.p]) else (s.repeatPage, [])

/-- The end of a round: the loop ends at a hang-up report and after the last page. -/
def close (cfg : Config) (hangup : Status) (s : Sender) : Sender :=
  let s := s.gethsc hangup
  { s with done := s.done || hangup.isSome || (s.good ≠ 0 && isLast cfg.queue s.p) }

/-- The responses to the last command of a round. -/
def lastAnswer (cfg : Config) (r : Round) (s : Sender) : Answer :=
  if ¬ cfg.c20 ∧ s.asks r.endData then r.fet else r.endData

/-- One more try for the page. -/
def tried (s : Sender) : Sender := { s with pagetry := s.pagetry + 1 }

/-- The end of the data and the verdict. -/
def ended (cfg : Config) (r : Round) (s : Sender) : Sender :=
  if cfg.c20 then s.tried.endClass20 r else s.tried.endClass2 r

/-- The responses to `+FET`, if it is sent. -/
def fetAnswer (cfg : Config) (r : Round) (s : Sender) : Option Answer :=
  if ¬ cfg.c20 ∧ s.asks r.endData then some r.fet else none

/-- A page is sent. -/
def transmit (cfg : Config) (r : Round) (s : Sender) : Sender × List Event :=
  let judged := (s.ended cfg r).judge cfg
  (judged.1.close cfg (s.lastAnswer cfg r).hangup,
    .transmitted s.p r.endData (s.fetAnswer cfg r) :: judged.2)

/-- A round of the loop. -/
def round (cfg : Config) (r : Round) (s : Sender) : Sender × List Event :=
  let s := s.read cfg r.opened
  if s.err = 0 ∧ s.changed ∧ r.fdis.hangup.isSome then (s.gethsc r.fdis.hangup, [])
  else if s.err ≠ 0 then ({ s with done := true }, [])
  else if ¬ r.fdt.ok then ({ s with err := 3, done := true }, [])
  else if r.fdt.hangup.isSome then ({ s.gethsc r.fdt.hangup with done := true }, [])
  else s.transmit cfg r

/-- The loop, and the return after it. -/
def step (cfg : Config) : Machine.Step Sender Round Event := fun r s =>
  if s.left then (s, [])
  else if s.err ≠ 0 ∨ s.done then ({ s with left := true }, [.returned s.err])
  else s.round cfg r

end Sender

end QFax.Efax.Class2

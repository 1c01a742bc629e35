import QFax.Efax.InputPages
import QFax.Lib.Machine

/-!
# The Class 1 session

`c1sndrcv`, which sends and receives the pages of one call with a Class 1 modem.  The function jumps
between labels, as the flowchart of T.30 does; here every label is one step of a machine.  What the
modem, the remote fax and the file system answer in a step is its input, and what the function does to
them is the list of its events.
-/

namespace QFax.Efax

/-- The labels of `c1sndrcv`; `rLoop` is the loop that sends DIS, and `done` its return. -/
inductive Label
  | t
  | a
  | d
  | d2
  | i
  | i2
  | sendppm
  | e
  | r
  | rLoop
  | f
  | f2
  | getdata
  | reGetdata
  | cTimeout
  | c
  | b
  | done
  deriving DecidableEq, Repr

/-- The arguments of `c1sndrcv` that stay the same; `queue` holds the vertical resolutions of the
pages of the input files, and `localid` the local ID as `revcpy` lays it out in a frame. -/
structure Config where
  queue : List Rat
  pages : Nat
  localid : List Nat
  maxpgerr : Nat
  noretry : Bool
  calling : Bool

/-- A call that sends pages of the same resolution. -/
def sending (pages : Nat) : Config where
  queue := List.replicate pages 196
  pages := pages
  localid := []
  maxpgerr := 10
  noretry := false
  calling := true

/-- What comes in while a frame is awaited. -/
inductive Answer
  | timeout
  | carrier
  | frame (fcf : Nat) (fif : List Nat)
  deriving DecidableEq, Repr

/-- `getfr`: what it returns; the control field loses its top bit. -/
def Answer.getfr : Answer → Frame
  | .timeout => .eof
  | .carrier => .carrier
  | .frame fcf _ => .ofCode (fcf % 0x80)

/-- The FIF in the buffer after `getfr`. -/
def Answer.buffer (fif : List Nat) : Answer → List Nat
  | .frame _ fif => fif
  | _ => fif

/-- What the calls made in one step return.  The results of type `Nat` are error codes. -/
structure Input where
  answer : Answer
  opened : Bool
  putid : Nat
  put : Nat
  puttrain : Nat
  command : Bool
  sendData : Nat
  endData : Nat
  wrpage : Nat
  gettrain : Bool
  receiveData : Nat
  errors : Nat

/-- The input of a step in which all goes well. -/
def answered (fcf : Nat) : Input where
  answer := .frame fcf [0x00, 0x40, 0x00]
  opened := true
  putid := 0
  put := 0
  puttrain := 0
  command := true
  sendData := 0
  endData := 0
  wrpage := 0
  gettrain := true
  receiveData := 0
  errors := 0

/-- What the function does to the modem and the files; `answered` is the frame sent back for a
command. -/
inductive Event
  | sent (frame : Frame) (disbit : Bool) (fif : List Nat)
  | answered (frame : Frame) (disbit : Bool)
  | sendData (page : Nat)
  | acked (page : Nat) (ppm : Frame)
  | trained (good : Bool)
  | command (frame : Frame)
  | received (ret nerr : Nat)
  | wrpage (page : Int)
  | returned (err : Nat)
  deriving DecidableEq, Repr

/-- The variables of `c1sndrcv`: `p` is the position in the input files, `loc` and `tries` stand for
`local` and `try`. -/
structure Call where
  pc : Label
  err : Nat
  rxpage : Nat
  page : Nat
  t : Nat
  disbit : Bool
  good : Bool
  frame : Frame
  last : Frame
  nerr : Nat
  ppm : Frame
  tries : Nat
  pagetry : Nat
  retry : Bool
  remtx : Bool
  remrx : Bool
  writepending : Bool
  dp : Bool
  loc : Cap
  remote : Cap
  session : Cap
  fif : List Nat
  p : Nat

namespace Call

/-- The variables on entry; `good` is not initialised. -/
def start (cfg : Config) (loc : Cap) (good : Bool) : Call where
  pc := if cfg.calling then .t else .r
  err := 0
  rxpage := 0
  page := 1
  t := 0
  disbit := false
  good := good
  frame := .eof
  last := .eof
  nerr := 0
  ppm := .eop
  tries := 0
  pagetry := 0
  retry := false
  remtx := false
  remrx := false
  writepending := false
  dp := false
  loc := loc
  remote := defCap
  session := defCap
  fif := []
  p := 0

/-- `goto`. -/
def goto (s : Call) (l : Label) : Call := { s with pc := l }

/-- `goto` with an error. -/
def fail (s : Call) (err : Nat) (l : Label) : Call := { s with err := err, pc := l }

@[simp] theorem goto_pc (s : Call) (l : Label) : (s.goto l).pc = l := rfl

@[simp] theorem goto_err (s : Call) (l : Label) : (s.goto l).err = s.err := rfl

@[simp] theorem fail_pc (s : Call) (err : Nat) (l : Label) : (s.fail err l).pc = l := rfl

@[simp] theorem fail_err (s : Call) (err : Nat) (l : Label) : (s.fail err l).err = err := rfl

/-- The call of `getfr`. -/
def getfr (s : Call) (answer : Answer) : Call :=
  { s with frame := answer.getfr, fif := answer.buffer s.fif }

/-- The page that `nextipage` goes to. -/
def nextPage (s : Call) : Nat := nextipage s.p s.dp

end Call

/-- A call that is made only when there is no error. -/
def unlessErr (err result : Nat) : Nat := if err = 0 then result else err

@[simp] theorem unlessErr_eq_zero {err result : Nat} :
    unlessErr err result = 0 ↔ err = 0 ∧ result = 0 := by
  unfold unlessErr
  split <;> omega

/-- An event that happens only when there is no error. -/
def unlessEvent (err : Nat) (e : Event) : List Event := if err = 0 then [e] else []

@[simp] theorem mem_unlessEvent {err : Nat} {e f : Event} :
    f ∈ unlessEvent err e ↔ err = 0 ∧ f = e := by
  unfold unlessEvent
  split <;> simp [*]

/-- `rdpage` for the page at hand. -/
def readInput (cfg : Config) (opened : Bool) (s : Call) : Nat × Call :=
  let read := rdpage cfg.queue opened s.nextPage s.loc false
  (read.err, { s with p := s.nextPage, ppm := read.ppm, loc := read.loc })

/-- `lastpage`. -/
def lastpage (cfg : Config) (s : Call) : Bool := isLast cfg.queue s.p

/-! ## Transmitter -/

namespace Call

/-- `T`: wait for DIS. -/
def stepT (input : Input) (s : Call) : Call × List Event :=
  let s := { s with pagetry := 0 }.getfr input.answer
  (if ¬ s.frame.positive then s.fail 3 .b
    else if s.frame ≠ .dis ∧ s.frame ≠ .dtc then s.goto .c
    else { s with disbit := s.frame = .dis, tries := 0, pc := .a }, [])

/-- The capabilities and requests in a DIS frame. -/
def readDis (s : Call) : Call :=
  { s with
    remote := mkcap s.fif true
    remtx := s.fif.getD 1 0 &&& 0x80 ≠ 0
    remrx := s.fif.getD 1 0 &&& 0x40 ≠ 0 }

/-- `A`: decide to send or receive. -/
def stepA (cfg : Config) (s : Call) : Call × List Event :=
  let s := if s.frame = .dis ∨ s.frame = .dtc then s.readDis else s
  (s.goto (if cfg.pages > 0 then .d else .r), [])

/-- `D`: read the page. -/
def stepD (cfg : Config) (input : Input) (s : Call) : Call × List Event :=
  let (err, s) := readInput cfg input.opened s
  (if err ≠ 0 then s.fail 2 .b else s.goto .d2, [])

/-- The capabilities after `mincap` at `D_2`. -/
def negotiate (s : Call) : Call :=
  let caps := (mincap s.loc s.remote s.session).1
  { s with loc := caps.1, remote := caps.2.1, session := caps.2.2 }

/-- The FIF of the DCS frame for the session. -/
def dcsFif (cfg : Config) (s : Call) : List Nat := mkdis s.session dcsLen false (cfg.pages ≠ 0)

/-- The frames sent at `D_2`, up to the first that fails. -/
def sendDcs (cfg : Config) (input : Input) (s : Call) : Call × List Event :=
  let err1 := unlessErr s.err input.putid
  let err2 := unlessErr err1 input.put
  ({ s with err := unlessErr err2 input.puttrain, tries := s.tries + 1 },
    unlessEvent s.err (.sent .tsi s.disbit cfg.localid) ++
      unlessEvent err1 (.sent .dcs s.disbit (s.dcsFif cfg)))

/-- The switch at `D_2` on the answer to DCS and training. -/
def answerDcs (s : Call) : Call :=
  match s.frame with
  | .dis | .dtc => if s.tries ≥ 3 then s.goto .cTimeout else s.goto .a
  | .ftt =>
    let br := fallback (s.session .br)
    let s := { s with remote := Function.update s.remote .br br }
    if 0 ≤ br then s.goto .d2 else s.fail 2 .c
  | .cfr => s.goto .i2
  | _ => s.fail 3 .c

/-- The answer at `D_2`, awaited unless there was an error. -/
def awaitDcs (input : Input) (s : Call) : Call :=
  if s.err = 0 then s.getfr input.answer else s

/-- `D_2`: send DCS and the training check. -/
def stepD2 (cfg : Config) (input : Input) (s : Call) : Call × List Event :=
  let (s, events) := s.negotiate.sendDcs cfg input
  let s := s.awaitDcs input
  (if s.err ≠ 0 ∨ s.frame.negative then s.goto (if s.tries ≥ 3 then .cTimeout else .d2)
    else s.answerDcs, events)

/-- `I`: read the next page. -/
def stepI (cfg : Config) (input : Input) (s : Call) : Call × List Event :=
  let (err, s) := readInput cfg input.opened s
  (if err ≠ 0 then s.fail 2 .b else s.goto .i2, [])

/-- `I_2`: send the page. -/
def stepI2 (cfg : Config) (input : Input) (s : Call) : Call × List Event :=
  let err1 := unlessErr s.err (if input.command then 0 else 3)
  let err2 := unlessErr err1 input.sendData
  ({ s with
      err := unlessErr err2 input.endData
      pagetry := s.pagetry + 1
      ppm := if lastpage cfg s then .eop else s.ppm
      tries := 0
      pc := .sendppm },
    unlessEvent err1 (.sendData s.p))

/-- The switch on the post-page message and its answer.  A message without a case for the answer falls
through to the next one, and the last to `E`. -/
def afterPpm (s : Call) : Label :=
  match s.ppm, s.frame with
  | _, .pin | _, .pip => .e
  | .mps, .mcf => .i
  | .mps, .rtp | .mps, .rtn => .d
  | .eop, .mcf | .eop, .rtp => if s.remtx then .r else .c
  | .eop, .rtn => if s.retry then .d else .c
  | .eom, .mcf | .eom, .rtp | .eom, .rtn => .t
  | _, _ => .e

/-- The jump after the answer.  When the last page is confirmed, `nextipage` marks all files done. -/
def leavePpm (s : Call) : Call :=
  { s with
    pc := s.afterPpm
    p := if s.ppm = .eop ∧ (s.frame = .mcf ∨ s.frame = .rtp) then s.p + 1 else s.p }

/-- The page at hand counts as sent. -/
def countPage (s : Call) : Call := { s with pagetry := 0, page := s.page + 1, dp := true }

/-- The page at hand has to be sent once more. -/
def repeatPage (s : Call) : Call := { s with dp := false, retry := s.pagetry < nTxRetry }

/-- The retry logic common to all post-page messages. -/
def answerPpm (cfg : Config) (s : Call) : Call × List Event :=
  match if cfg.noretry then .mcf else s.frame with
  | .mcf | .rtp | .pip => (s.countPage.leavePpm, [.acked s.p s.ppm])
  | .pin | .rtn => (s.repeatPage.leavePpm, [])
  | _ => (s.fail 3 .c, [])

/-- The post-page message, unless there was an error, and the answer that comes. -/
def awaitPpm (input : Input) (s : Call) : Call :=
  { s with err := unlessErr s.err input.put, tries := s.tries + 1 }.getfr input.answer

/-- `sendppm`: send the post-page message. -/
def stepSendppm (cfg : Config) (input : Input) (s : Call) : Call × List Event :=
  let events := unlessEvent s.err (.sent s.ppm s.disbit [])
  let s := s.awaitPpm input
  if s.frame.negative then (s.goto (if s.tries ≥ 3 then .cTimeout else .sendppm), events)
  else ((s.answerPpm cfg).1, events ++ (s.answerPpm cfg).2)

/-- `E`: an interrupt request is ignored. -/
def stepE (s : Call) : Call × List Event := ({ s with tries := 0, pc := .a }, [])

/-! ## Receiver -/

/-- `R`: close the page received and open the next. -/
def stepR (input : Input) (s : Call) : Call × List Event :=
  ({ s with err := unlessErr s.err input.wrpage, disbit := false, t := 0, pc := .rLoop },
    unlessEvent s.err (.wrpage s.rxpage))

/-- `T1` and `T2`, in tenths of a second. -/
def t1 : Nat := 350

/-- See `t1`. -/
def t2 : Nat := 60

/-- The frames sent in the loop at `R`, up to the first that fails. -/
def sendDis (cfg : Config) (input : Input) (s : Call) : Call × List Event :=
  let err1 := unlessErr s.err input.putid
  ({ s with err := unlessErr err1 input.put },
    unlessEvent s.err (.sent .csi s.disbit cfg.localid) ++
      unlessEvent err1 (.sent .dis s.disbit (mkdis s.loc dcsLen true (cfg.pages ≠ 0))))

/-- The loop at `R`: send DIS until a command comes. -/
def stepRLoop (cfg : Config) (input : Input) (s : Call) : Call × List Event :=
  if s.err = 0 ∧ s.t < t1 then
    let (s, events) := s.sendDis cfg input
    let s := s.getfr input.answer
    (if s.frame.positive then { s with disbit := s.frame = .dis, pc := .f2 }
      else { s with t := s.t + (t2 + 10) }, events)
  else (s.goto (if s.err ≠ 0 then .c else .cTimeout), [])

/-- What follows the wait at `F`. -/
def takeCommand (s : Call) : Call :=
  if ¬ s.frame.negative then s.goto .f2
  else if s.frame = .carrier then s.goto .getdata
  else if s.last = .eom then s.goto .r
  else s.fail 3 .b

/-- The wait at `F`. -/
def awaitCommand (input : Input) (s : Call) : Call :=
  { s with last := s.frame }.getfr input.answer

/-- The postponed end of a page. -/
def closePage (input : Input) (s : Call) : Call :=
  { s with writepending := false, err := input.wrpage }

/-- `F`: get a command, then close the file of the page before it. -/
def stepF (input : Input) (s : Call) : Call × List Event :=
  let s := s.awaitCommand input
  if s.writepending then
    let s := s.closePage input
    (if s.err ≠ 0 then s.goto .c else s.takeCommand, [.wrpage s.rxpage])
  else (s.takeCommand, [])

/-- `DCS`: take the session from the frame and check the training. -/
def stepDcs (input : Input) (s : Call) : Call × List Event :=
  ({ s with
      session := checkCap (mkcap s.fif false)
      good := input.gettrain
      pc := if input.put ≠ 0 ∨ ¬ input.gettrain then .f else .getdata },
    [.trained input.gettrain, .answered (if input.gettrain then .cfr else .ftt) s.disbit])

/-- `III`: answer a post-page command. -/
def stepPostPage (s : Call) : Call × List Event :=
  let frame := s.frame.ignoreInterrupt
  ({ s with frame := frame, pc := if s.good ∧ frame = .mps then .getdata else .f },
    [.command frame, .answered (if s.good then .mcf else .rtn) s.disbit])

/-- `F_2`: act on a command. -/
def stepF2 (input : Input) (s : Call) : Call × List Event :=
  match s.frame with
  | .dtc => (s.goto .d, [])
  | .dis => ({ s with tries := 0, pc := .a }, [])
  | .dcs => s.stepDcs input
  | .priEom | .priMps | .priEop | .mps | .eop | .eom => s.stepPostPage
  | .dcn => (s.goto .b, [])
  | _ => (s.fail 3 .b, [])

/-- `getdata`: get ready for a page. -/
def stepGetdata (s : Call) : Call × List Event := ({ s with nerr := 0, pc := .reGetdata }, [])

/-- `re_getdata`: receive the data of a page. -/
def stepReGetdata (cfg : Config) (input : Input) (s : Call) : Call × List Event :=
  if ¬ input.command then (s.goto .f, [])
  else
    let s := { s with nerr := s.nerr + input.errors }
    let events := [.received input.receiveData s.nerr]
    match input.receiveData with
    | 0 =>
      ({ s with
          good := s.nerr < cfg.maxpgerr
          writepending := true
          rxpage := s.rxpage + 1
          pc := .f }, events)
    | 1 => (s.goto .reGetdata, events)
    | _ => ({ s with good := false, pc := .f }, events)

/-! ## End of the call -/

/-- `C_timeout`. -/
def stepCTimeout (s : Call) : Call × List Event := (s.fail 3 .c, [])

/-- `C`: tell the remote fax to disconnect. -/
def stepC (s : Call) : Call × List Event := (s.goto .b, [.sent .dcn false []])

/-- `B`: hang up, remove the last file, return. -/
def stepB (s : Call) : Call × List Event :=
  (s.goto .done, (if s.rxpage > 0 then [.wrpage (-1)] else []) ++ [.returned s.err])

/-- One label of `c1sndrcv`. -/
def step (cfg : Config) : Machine.Step Call Input Event := fun input s =>
  match s.pc with
  | .t => s.stepT input
  | .a => s.stepA cfg
  | .d => s.stepD cfg input
  | .d2 => s.stepD2 cfg input
  | .i => s.stepI cfg input
  | .i2 => s.stepI2 cfg input
  | .sendppm => s.stepSendppm cfg input
  | .e => s.stepE
  | .r => s.stepR input
  | .rLoop => s.stepRLoop cfg input
  | .f => s.stepF input
  | .f2 => s.stepF2 input
  | .getdata => s.stepGetdata
  | .reGetdata => s.stepReGetdata cfg input
  | .cTimeout => s.stepCTimeout
  | .c => s.stepC
  | .b => s.stepB
  | .done => (s, [])

end Call

/-! ## The jumps -/

/-- The labels that follow a label. -/
def Label.targets : Label → List Label
  | .t => [.b, .c, .a]
  | .a => [.d, .r]
  | .d => [.b, .d2]
  | .d2 => [.cTimeout, .d2, .a, .c, .i2]
  | .i => [.b, .i2]
  | .i2 => [.sendppm]
  | .sendppm => [.cTimeout, .sendppm, .c, .e, .i, .d, .r, .t]
  | .e => [.a]
  | .r => [.rLoop]
  | .rLoop => [.f2, .rLoop, .c, .cTimeout]
  | .f => [.c, .f2, .getdata, .r, .b]
  | .f2 => [.d, .a, .f, .getdata, .b]
  | .getdata => [.reGetdata]
  | .reGetdata => [.f, .reGetdata]
  | .cTimeout => [.c]
  | .c => [.b]
  | .b => [.done]
  | .done => [.done]

namespace Call

variable {cfg : Config} {s : Call}

theorem answerDcs_pc (s : Call) :
    s.answerDcs.pc = .cTimeout ∨
      s.answerDcs.pc = .a ∧ (s.frame = .dis ∨ s.frame = .dtc) ∧ s.tries < 3 ∨
      s.answerDcs.pc = .d2 ∨ s.answerDcs.pc = .c ∧ s.answerDcs.err ≠ 0 ∨ s.answerDcs.pc = .i2 := by
  unfold answerDcs
  split
  case h_1 dis =>
    split
    · exact .inl rfl
    · exact .inr (.inl ⟨rfl, .inl dis, by omega⟩)
  case h_2 dtc =>
    split
    · exact .inl rfl
    · exact .inr (.inl ⟨rfl, .inr dtc, by omega⟩)
  case h_3 =>
    dsimp only
    split
    · exact .inr (.inr (.inl rfl))
    · exact .inr (.inr (.inr (.inl ⟨rfl, Nat.succ_ne_zero 1⟩)))
  case h_4 => exact .inr (.inr (.inr (.inr rfl)))
  case h_5 => exact .inr (.inr (.inr (.inl ⟨rfl, Nat.succ_ne_zero 2⟩)))

/-- At `D_2` an answer counts only when all frames were sent. -/
theorem stepD2_cases (cfg : Config) (s : Call) (input : Input) :
    (s.stepD2 cfg input).1.pc = .d2 ∨ (s.stepD2 cfg input).1.pc = .cTimeout ∨
      (s.err = 0 ∧ input.putid = 0 ∧ input.put = 0 ∧ input.puttrain = 0) ∧
        ((s.stepD2 cfg input).1.pc = .a ∧ (input.answer.getfr = .dis ∨ input.answer.getfr = .dtc) ∧
            s.tries + 1 < 3 ∨
          (s.stepD2 cfg input).1.pc = .c ∧ (s.stepD2 cfg input).1.err ≠ 0 ∨
          (s.stepD2 cfg input).1.pc = .i2) := by
  unfold stepD2
  dsimp only
  split
  · rw [goto_pc]
    split
    · exact .inr (.inl rfl)
    · exact .inl rfl
  · rename_i answered
    obtain ⟨noErr, -⟩ := not_or.1 answered
    unfold awaitDcs at noErr ⊢
    split at noErr
    · rename_i sent
      rw [if_pos sent]
      have sent' := sent
      simp only [sendDcs, negotiate, unlessErr_eq_zero, and_assoc] at sent'
      rcases answerDcs_pc ((s.negotiate.sendDcs cfg input).1.getfr input.answer) with
        timeout | ⟨toA, dis, more⟩ | again | failed | toI2
      · exact .inr (.inl timeout)
      · exact .inr (.inr ⟨sent', .inl ⟨toA, dis, more⟩⟩)
      · exact .inl again
      · exact .inr (.inr ⟨sent', .inr (.inl failed)⟩)
      · exact .inr (.inr ⟨sent', .inr (.inr toI2)⟩)
    · rename_i failed
      exact absurd (of_not_not noErr) failed

theorem afterPpm_mem : s.afterPpm ∈ [Label.e, .i, .d, .r, .c, .t] := by
  unfold afterPpm
  split
  case h_6 => split <;> decide
  case h_7 => split <;> decide
  case h_8 => split <;> decide
  all_goals decide

/-- With retries the answer itself decides about the page. -/
theorem answerPpm_cases (s : Call) (retries : cfg.noretry = false) :
    s.frame.Confirms ∧ s.answerPpm cfg = (s.countPage.leavePpm, [.acked s.p s.ppm]) ∨
      s.frame.Rejects ∧ s.answerPpm cfg = (s.repeatPage.leavePpm, []) ∨
      ¬ s.frame.Confirms ∧ ¬ s.frame.Rejects ∧ s.answerPpm cfg = (s.fail 3 .c, []) := by
  unfold answerPpm
  rw [retries, if_neg Bool.false_ne_true]
  cases frame : s.frame with
  | mcf => exact .inl ⟨.inl rfl, rfl⟩
  | rtp => exact .inl ⟨.inr (.inl rfl), rfl⟩
  | pip => exact .inl ⟨.inr (.inr rfl), rfl⟩
  | pin => exact .inr (.inl ⟨.inl rfl, rfl⟩)
  | rtn => exact .inr (.inl ⟨.inr rfl, rfl⟩)
  | _ => exact .inr (.inr ⟨by simp [Frame.Confirms], by simp [Frame.Rejects], rfl⟩)

/-- What a step at `sendppm` can do, with retries. -/
theorem stepSendppm_cases (s : Call) (retries : cfg.noretry = false) (input : Input) :
    input.answer.getfr.Confirms ∧
        s.stepSendppm cfg input = ((s.awaitPpm input).countPage.leavePpm,
          unlessEvent s.err (.sent s.ppm s.disbit []) ++ [.acked s.p s.ppm]) ∨
      ¬ input.answer.getfr.Confirms ∧
        (s.stepSendppm cfg input).2 = unlessEvent s.err (.sent s.ppm s.disbit []) ∧
        (((s.stepSendppm cfg input).1 = (s.awaitPpm input).goto .sendppm ∨
            (s.stepSendppm cfg input).1 = (s.awaitPpm input).goto .cTimeout) ∨
          input.answer.getfr.Rejects ∧
            (s.stepSendppm cfg input).1 = (s.awaitPpm input).repeatPage.leavePpm ∨
          (s.stepSendppm cfg input).1 = (s.awaitPpm input).fail 3 .c) := by
  unfold stepSendppm
  dsimp only
  split
  · rename_i negative
    refine .inr ⟨Frame.not_confirms_of_negative negative, rfl, .inl ?_⟩
    dsimp only
    split
    · exact .inr rfl
    · exact .inl rfl
  · rcases answerPpm_cases (s.awaitPpm input) retries with
      ⟨confirms, eq⟩ | ⟨rejects, eq⟩ | ⟨other, -, eq⟩
    · rw [eq]
      exact .inl ⟨confirms, rfl⟩
    · rw [eq]
      exact .inr ⟨rejects.not_confirms, List.append_nil _, .inr (.inl ⟨rejects, rfl⟩)⟩
    · rw [eq]
      exact .inr ⟨other, List.append_nil _, .inr (.inr rfl)⟩

theorem answerPpm_mem : (s.answerPpm cfg).1.pc ∈ Label.sendppm.targets := by
  have jumps : ∀ l ∈ [Label.e, .i, .d, .r, .c, .t], l ∈ Label.sendppm.targets := by decide
  unfold answerPpm
  split
  case h_6 => exact jumps .c (by decide)
  all_goals exact jumps _ afterPpm_mem

theorem takeCommand_mem : s.takeCommand.pc ∈ Label.f.targets := by
  unfold takeCommand
  split
  · simp [Label.targets]
  · split
    · simp [Label.targets]
    · split <;> simp [Label.targets]

theorem stepDcs_mem (input : Input) : (s.stepDcs input).1.pc ∈ Label.f2.targets := by
  unfold stepDcs
  dsimp only
  split <;> decide

theorem stepPostPage_mem : s.stepPostPage.1.pc ∈ Label.f2.targets := by
  unfold stepPostPage
  dsimp only
  split <;> decide

/-- A step jumps as `targets` lists. -/
theorem step_targets (input : Input) : (step cfg input s).1.pc ∈ s.pc.targets := by
  cases label : s.pc with
  | t =>
    simp only [step, label, stepT]
    split
    · simp [Label.targets]
    · split <;> simp [Label.targets]
  | a =>
    simp only [step, label, stepA, goto_pc]
    split <;> decide
  | d =>
    simp only [step, label, stepD]
    split <;> simp [Label.targets]
  | d2 =>
    simp only [step, label, stepD2]
    split
    · rw [goto_pc]
      split <;> decide
    · rcases answerDcs_pc _ with h | ⟨h, -⟩ | h | ⟨h, -⟩ | h <;> rw [h] <;> decide
  | i =>
    simp only [step, label, stepI]
    split <;> simp [Label.targets]
  | sendppm =>
    simp only [step, label, stepSendppm]
    split
    · rw [goto_pc]
      split <;> decide
    · exact answerPpm_mem
  | rLoop =>
    simp only [step, label, stepRLoop]
    split
    · dsimp only
      split <;> simp [Label.targets, sendDis, getfr, label]
    · rw [goto_pc]
      split <;> decide
  | f =>
    simp only [step, label, stepF]
    split
    · split
      · simp [Label.targets]
      · exact takeCommand_mem
    · exact takeCommand_mem
  | f2 =>
    simp only [step, label, stepF2]
    split
    case h_3 => exact stepDcs_mem input
    all_goals first | exact stepPostPage_mem | simp [Label.targets]
  | reGetdata =>
    simp only [step, label, stepReGetdata]
    split
    · simp [Label.targets]
    · split <;> simp [Label.targets]
  | _ =>
    simp only [step, label]
    exact List.mem_of_elem_eq_true rfl

end Call

/-! ## What a step leaves alone -/

namespace Call

/-- A command at `F` changes the label and the error only. -/
theorem takeCommand_form (s : Call) : ∃ pc err, s.takeCommand = { s with pc := pc, err := err } := by
  unfold takeCommand
  split
  · exact ⟨.f2, s.err, rfl⟩
  · split
    · exact ⟨.getdata, s.err, rfl⟩
    · split
      · exact ⟨.r, s.err, rfl⟩
      · exact ⟨.b, 3, rfl⟩

theorem stepF_form (s : Call) (input : Input) :
    ∃ pc err last frame fif writepending, (s.stepF input).1 =
    { s with
      pc := pc, err := err, last := last, frame := frame, fif := fif, writepending :=
        writepending } := by
  have taken (s' : Call) := takeCommand_form s'
  unfold stepF
  dsimp only
  split
  · split
    · exact ⟨_, _, _, _, _, _, rfl⟩
    · obtain ⟨pc, err, eq⟩ := taken ((s.awaitCommand input).closePage input)
      rw [eq]
      exact ⟨pc, err, _, _, _, _, rfl⟩
  · obtain ⟨pc, err, eq⟩ := taken (s.awaitCommand input)
    rw [eq]
    exact ⟨pc, err, _, _, _, _, rfl⟩

/-- An answer at `D_2` changes the label, the error and the remote capabilities only. -/
theorem answerDcs_form (s : Call) :
    ∃ pc err remote, s.answerDcs = { s with pc := pc, err := err, remote := remote } := by
  unfold answerDcs
  split
  case h_1 | h_2 => split <;> exact ⟨_, s.err, s.remote, rfl⟩
  case h_3 =>
    dsimp only
    split
    · exact ⟨.d2, s.err, _, rfl⟩
    · exact ⟨.c, 2, _, rfl⟩
  case h_4 => exact ⟨.i2, s.err, s.remote, rfl⟩
  case h_5 => exact ⟨.c, 3, s.remote, rfl⟩

/-- After the negotiation `D_2` leaves the page and the session alone. -/
theorem stepD2_form (cfg : Config) (s : Call) (input : Input) :
    ∃ pc err tries frame fif remote, (s.stepD2 cfg input).1 =
      { s.negotiate with
        pc := pc, err := err, tries := tries, frame := frame, fif := fif, remote := remote } := by
  have awaited : ∃ frame fif, (s.negotiate.sendDcs cfg input).1.awaitDcs input =
      { (s.negotiate.sendDcs cfg input).1 with frame := frame, fif := fif } := by
    unfold awaitDcs
    split
    · exact ⟨_, _, rfl⟩
    · exact ⟨_, _, rfl⟩
  obtain ⟨frame, fif, eq⟩ := awaited
  unfold stepD2
  dsimp only
  rw [eq]
  split
  · exact ⟨_, _, _, _, _, _, rfl⟩
  · obtain ⟨pc, err, remote, answered⟩ :=
      answerDcs_form { (s.negotiate.sendDcs cfg input).1 with frame := frame, fif := fif }
    rw [answered]
    exact ⟨pc, err, _, _, _, remote, rfl⟩

end Call

/-- The page at hand, the flag and the session are unchanged. -/
structure Same (s s' : Call) : Prop where
  p : s'.p = s.p
  dp : s'.dp = s.dp
  ppm : s'.ppm = s.ppm
  good : s'.good = s.good
  session : s'.session = s.session

namespace Call

variable {cfg : Config} {s : Call}

/-- After the negotiation nothing changes at `D_2`. -/
theorem same_stepD2 (cfg : Config) (s : Call) (input : Input) :
    Same s.negotiate (s.stepD2 cfg input).1 := by
  obtain ⟨pc, err, tries, frame, fif, remote, eq⟩ := stepD2_form cfg s input
  rw [eq]
  exact ⟨rfl, rfl, rfl, rfl, rfl⟩

theorem same_stepF (input : Input) : Same s (s.stepF input).1 := by
  obtain ⟨pc, err, last, frame, fif, writepending, eq⟩ := stepF_form s input
  rw [eq]
  exact ⟨rfl, rfl, rfl, rfl, rfl⟩

/-- The steps that change none of these. -/
theorem same_step (cfg : Config) (input : Input)
    (away : s.pc ∉ [Label.d, .d2, .i, .i2, .sendppm, .f2, .reGetdata]) :
    Same s (step cfg input s).1 := by
  cases label : s.pc with
  | d | d2 | i | i2 | sendppm | f2 | reGetdata => simp [label] at away
  | t =>
    simp only [step, label, stepT]
    split
    · exact ⟨rfl, rfl, rfl, rfl, rfl⟩
    · split <;> exact ⟨rfl, rfl, rfl, rfl, rfl⟩
  | a =>
    simp only [step, label, stepA]
    split <;> exact ⟨rfl, rfl, rfl, rfl, rfl⟩
  | f =>
    simp only [step, label]
    exact same_stepF input
  | rLoop =>
    simp only [step, label, stepRLoop]
    split
    · dsimp only
      split <;> exact ⟨rfl, rfl, rfl, rfl, rfl⟩
    · exact ⟨rfl, rfl, rfl, rfl, rfl⟩
  | _ =>
    simp only [step, label]
    exact ⟨rfl, rfl, rfl, rfl, rfl⟩

theorem same_reading {opened : Bool} {ok failed : Label} :
    (if (readInput cfg opened s).1 ≠ 0 then (readInput cfg opened s).2.fail 2 failed
        else (readInput cfg opened s).2.goto ok).good = s.good ∧
      (if (readInput cfg opened s).1 ≠ 0 then (readInput cfg opened s).2.fail 2 failed
        else (readInput cfg opened s).2.goto ok).session = s.session := by
  split <;> exact ⟨rfl, rfl⟩

theorem same_stepSendppm (input : Input) :
    (s.stepSendppm cfg input).1.good = s.good ∧ (s.stepSendppm cfg input).1.session = s.session := by
  unfold stepSendppm answerPpm
  dsimp only
  split
  · exact ⟨rfl, rfl⟩
  · split <;> exact ⟨rfl, rfl⟩

/-- Only a command or a page received sets the flag. -/
theorem good_step (cfg : Config) (s : Call) (input : Input) (away : s.pc ≠ .f2 ∧ s.pc ≠ .reGetdata) :
    (step cfg input s).1.good = s.good := by
  cases label : s.pc with
  | f2 => exact absurd label away.1
  | reGetdata => exact absurd label away.2
  | d | i =>
    simp only [step, label]
    exact same_reading.1
  | d2 =>
    simp only [step, label]
    exact (same_stepD2 cfg s input).good
  | i2 => simp only [step, label, stepI2]
  | sendppm =>
    simp only [step, label]
    exact (same_stepSendppm input).1
  | _ => exact (same_step cfg input (by rw [label]; decide)).good

/-- Only `mincap` and a received DCS change the session. -/
theorem session_step (cfg : Config) (s : Call) (input : Input) (away : s.pc ≠ .d2 ∧ s.pc ≠ .f2) :
    (step cfg input s).1.session = s.session := by
  cases label : s.pc with
  | d2 => exact absurd label away.1
  | f2 => exact absurd label away.2
  | d | i =>
    simp only [step, label]
    exact same_reading.2
  | i2 => simp only [step, label, stepI2]
  | sendppm =>
    simp only [step, label]
    exact (same_stepSendppm input).2
  | reGetdata =>
    simp only [step, label, stepReGetdata]
    split
    · rfl
    · split <;> rfl
  | _ => exact (same_step cfg input (by rw [label]; decide)).session

end Call

/-! ## The events -/

/-- The labels at which an event can happen. -/
def Event.origins : Event → List Label
  | .sent _ _ _ => [.d2, .sendppm, .rLoop, .c]
  | .answered _ _ => [.f2]
  | .sendData _ => [.i2]
  | .acked _ _ => [.sendppm]
  | .trained _ | .command _ => [.f2]
  | .received _ _ => [.reGetdata]
  | .wrpage _ => [.r, .f, .b]
  | .returned _ => [.b]

namespace Call

variable {cfg : Config} {s : Call} {e : Event}

theorem answerPpm_events (mem : e ∈ (s.answerPpm cfg).2) : e = .acked s.p s.ppm := by
  unfold answerPpm at mem
  split at mem
  case h_1 | h_2 | h_3 => exact List.mem_singleton.1 mem
  all_goals cases mem

theorem stepF2_events {input : Input} (mem : e ∈ (s.stepF2 input).2) : .f2 ∈ e.origins := by
  unfold stepF2 at mem
  split at mem
  all_goals simp only [stepDcs, stepPostPage, List.mem_cons, List.not_mem_nil, or_false] at mem
  all_goals rcases mem with rfl | rfl <;> simp [Event.origins]

/-- Every event of a step happens at one of its labels. -/
theorem step_events (input : Input) (mem : e ∈ (step cfg input s).2) : s.pc ∈ e.origins := by
  cases label : s.pc with
  | d2 =>
    simp only [step, label, stepD2, sendDcs, List.mem_append, mem_unlessEvent] at mem
    rcases mem with ⟨-, rfl⟩ | ⟨-, rfl⟩ <;> simp [Event.origins]
  | i2 =>
    simp only [step, label, stepI2, mem_unlessEvent] at mem
    simp [mem.2, Event.origins]
  | sendppm =>
    simp only [step, label, stepSendppm] at mem
    split at mem
    · simp [(mem_unlessEvent.1 mem).2, Event.origins]
    · rcases List.mem_append.1 mem with ppm | ack
      · simp [(mem_unlessEvent.1 ppm).2, Event.origins]
      · simp [answerPpm_events ack, Event.origins]
  | r =>
    simp only [step, label, stepR, mem_unlessEvent] at mem
    simp [mem.2, Event.origins]
  | rLoop =>
    simp only [step, label, stepRLoop] at mem
    split at mem
    · simp only [sendDis, List.mem_append, mem_unlessEvent] at mem
      rcases mem with ⟨-, rfl⟩ | ⟨-, rfl⟩ <;> simp [Event.origins]
    · cases mem
  | f =>
    simp only [step, label, stepF] at mem
    split at mem
    · simp [List.mem_singleton.1 mem, Event.origins]
    · cases mem
  | f2 =>
    simp only [step, label] at mem
    exact stepF2_events mem
  | reGetdata =>
    simp only [step, label, stepReGetdata] at mem
    split at mem
    · cases mem
    · split at mem <;> simp [List.mem_singleton.1 mem, Event.origins]
  | c =>
    simp only [step, label, stepC] at mem
    simp [List.mem_singleton.1 mem, Event.origins]
  | b =>
    simp only [step, label, stepB, List.mem_append, List.mem_singleton] at mem
    rcases mem with mem | rfl
    · split at mem
      · simp [List.mem_singleton.1 mem, Event.origins]
      · cases mem
    · simp [Event.origins]
  | _ =>
    simp only [step, label] at mem
    exact absurd mem List.not_mem_nil

end Call

end QFax.Efax

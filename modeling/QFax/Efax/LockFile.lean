import QFax.Lib.Machine
import Mathlib.Logic.Function.Basic

/-!
# Lock files

UUCP-style device locking by any number of processes that call `ttlock`, `ttunlock` and `ttlocked`
for one lock file.  Every file-system call is a step of its own.  What is written to the pre-lock
file stays in the buffer of its stream until `fclose`, after the rename.
-/

namespace QFax.Efax

open Machine

abbrev Pid := Nat

/-- A file, by the process that created it. -/
structure LockInode where
  owner : Pid
  serial : Nat
  deriving DecidableEq

/-- What a lock file holds: nothing yet, a binary pid, or a pid as ten characters and a newline. -/
inductive LockContent
  | unwritten
  | binary (pid : Pid)
  | text (pid : Pid)

/-- The pid `ttlocked` finds: the buffer is zero where nothing was read. -/
def LockContent.readPid : LockContent → Pid
  | .unwritten => 0
  | .binary pid => pid
  | .text pid => pid

/-- Where `ttlocked` was called from. -/
inductive LockCaller
  | ttlock (bin : Bool)
  /-- `ttlock` again, when its rename failed. -/
  | renameFailed (bin : Bool) (buf : LockInode)
  | ttunlock
  | outside

/-- What a process does next. -/
inductive LockPc
  | idle
  /-- `fopen (fname, "r")` -/
  | opening (caller : LockCaller)
  /-- `fread` -/
  | reading (caller : LockCaller) (f : LockInode)
  /-- `kill (pid, 0)` -/
  | testing (caller : LockCaller) (pid : Pid)
  /-- `remove (fname)` of a stale lock -/
  | removing (caller : LockCaller)
  /-- `fopen (buf, "w")` and the write -/
  | prelock (bin : Bool)
  /-- `rename (buf, fname)` -/
  | renameBuf (bin : Bool) (buf : LockInode)
  /-- `fclose`, and `remove (buf)` on an error -/
  | closing (bin : Bool) (buf : LockInode) (err : Nat)
  /-- `remove (fname)` in `ttunlock` -/
  | unlinking

structure LockProc where
  pc : LockPc
  /-- The last `ttlock` returned 0 or 3 and `ttunlock` was not called since. -/
  holding : Bool

structure LockSystem where
  alive : Pid → Bool
  proc : Pid → LockProc
  /-- The file under the lock's name. -/
  lock : Option LockInode
  content : LockInode → LockContent
  serial : Nat

inductive LockInput
  | spawn (p : Pid)
  | exit (p : Pid)
  | ttlock (p : Pid) (bin : Bool)
  | ttunlock (p : Pid)
  | ttlocked (p : Pid)
  /-- The next step of a process; `ok` tells whether a file can be created, written or renamed. -/
  | next (p : Pid) (ok : Bool)

inductive LockEvent
  /-- What `ttlock` returned. -/
  | returned (p : Pid) (err : Nat)
  /-- A lock was removed as stale; `held` tells whether the process that created it held it. -/
  | staleRemoved (held : Bool)
  deriving DecidableEq

namespace LockSystem

/-- Before any process runs; a lock file may be left over. -/
def start (leftover : Option Pid) : LockSystem where
  alive _ := false
  proc _ := ⟨.idle, false⟩
  lock := leftover.map fun pid => ⟨pid, 0⟩
  content f := .text f.owner
  serial := 1

def setProc (s : LockSystem) (p : Pid) (proc : LockProc) : LockSystem :=
  { s with proc := Function.update s.proc p proc }

def goto (s : LockSystem) (p : Pid) (pc : LockPc) : LockSystem :=
  s.setProc p { s.proc p with pc := pc }

/-- `ttlock` returns. -/
def returnLock (s : LockSystem) (p : Pid) (err : Nat) : LockSystem × List LockEvent :=
  (s.setProc p ⟨.idle, err = 0 ∨ err = 3⟩, [.returned p err])

/-- `ttlocked` returns to its caller. -/
def returnLocked (s : LockSystem) (p : Pid) (err : Nat) :
    LockCaller → LockSystem × List LockEvent
  | .ttlock bin => if err = 0 then (s.goto p (.prelock bin), []) else s.returnLock p err
  | .renameFailed bin buf => (s.goto p (.closing bin buf (if err = 0 then 2 else err)), [])
  | .ttunlock => (s.goto p (if err = 3 then .unlinking else .idle), [])
  | .outside => (s.goto p .idle, [])

/-- Whether the process that created the lock file holds the lock. -/
def held (s : LockSystem) : Bool :=
  match s.lock with
  | some f => (s.proc f.owner).holding
  | none => false

def next (s : LockSystem) (p : Pid) (ok : Bool) : LockSystem × List LockEvent :=
  match (s.proc p).pc with
  | .idle => (s, [])
  | .opening caller =>
    match s.lock with
    | none => s.returnLocked p 0 caller
    | some f => (s.goto p (.reading caller f), [])
  | .reading caller f => (s.goto p (.testing caller (s.content f).readPid), [])
  | .testing caller pid =>
    -- pid 0 is the process group of the caller
    if pid ≠ 0 ∧ s.alive pid = false then (s.goto p (.removing caller), [])
    else s.returnLocked p (if pid ≠ p then 1 else 3) caller
  | .removing caller =>
    if s.lock = none then s.returnLocked p 2 caller
    else
      let (s', events) := { s with lock := none }.returnLocked p 0 caller
      (s', .staleRemoved s.held :: events)
  | .prelock bin =>
    if ok then
      (({ s with
          content := Function.update s.content ⟨p, s.serial⟩ .unwritten
          serial := s.serial + 1 }).goto p (.renameBuf bin ⟨p, s.serial⟩), [])
    else s.returnLock p 2
  | .renameBuf bin buf =>
    if ok then ({ s with lock := some buf }.goto p (.closing bin buf 0), [])
    else (s.goto p (.opening (.renameFailed bin buf)), [])
  | .closing bin buf err =>
    { s with
      content := Function.update s.content buf (if bin then .binary p else .text p)
    }.returnLock p err
  | .unlinking => ({ s with lock := none }.goto p .idle, [])

/-- A call by a process that runs and does nothing else. -/
def call (s : LockSystem) (p : Pid) (proc : LockProc) : LockSystem × List LockEvent :=
  match s.alive p, (s.proc p).pc with
  | true, .idle => (s.setProc p proc, [])
  | _, _ => (s, [])

def step : Step LockSystem LockInput LockEvent
  | .spawn p, s =>
    if p = 0 ∨ s.alive p then (s, [])
    else ({ s with alive := Function.update s.alive p true }, [])
  | .exit p, s =>
    ({ s with alive := Function.update s.alive p false }.setProc p ⟨.idle, false⟩, [])
  | .ttlock p bin, s => s.call p ⟨.opening (.ttlock bin), (s.proc p).holding⟩
  | .ttunlock p, s => s.call p ⟨.opening .ttunlock, false⟩
  | .ttlocked p, s => s.call p ⟨.opening .outside, (s.proc p).holding⟩
  | .next p ok, s => s.next p ok

end LockSystem

/-! ## Mutual exclusion -/

/-- At most one process holds the lock. -/
def Exclusive (s : LockSystem) : Prop :=
  ∀ p q, (s.proc p).holding = true → (s.proc q).holding = true → p = q

/-- No lock was removed as stale while the process that created it held it. -/
def NeverStolen (h : List LockEvent) : Prop := LockEvent.staleRemoved true ∉ h

/-- The process that created the lock file, if there is one, no longer runs. -/
def Abandoned (s : LockSystem) : Prop :=
  ∀ f, s.lock = some f → s.alive f.owner = false

/-- A rename onto the lock's name and the removal of a stale lock meet no lock of a running
process. -/
def Spares (_ : List LockEvent) (s : LockSystem) : LockInput → Prop
  | .next p ok =>
    match (s.proc p).pc with
    | .renameBuf .. => ok = true → Abandoned s
    | .removing _ => Abandoned s
    | _ => True
  | _ => True

/-- The lock file is the process's. -/
def Owns (s : LockSystem) (p : Pid) : Prop := ∃ f, s.lock = some f ∧ f.owner = p

/-- A pre-lock file kept for later is the process's own. -/
def LockCaller.OwnBuf (p : Pid) : LockCaller → Prop
  | .renameFailed _ buf => buf.owner = p
  | _ => True

/-- What the step a process is at says about the files. -/
def LockPc.Knows (s : LockSystem) (p : Pid) : LockPc → Prop
  | .idle | .prelock _ => True
  | .opening caller | .removing caller => caller.OwnBuf p
  | .reading caller f => caller.OwnBuf p ∧ (f.owner = p → Owns s p)
  | .testing caller pid => caller.OwnBuf p ∧ (pid = p → Owns s p)
  | .renameBuf _ buf => buf.owner = p
  | .closing _ buf err => buf.owner = p ∧ (err = 0 ∨ err = 3 → Owns s p)
  | .unlinking => Owns s p

/-- The steps of `ttunlock`. -/
def LockPc.Unlocks : LockPc → Prop
  | .opening caller | .reading caller _ | .testing caller _ | .removing caller => caller = .ttunlock
  | .unlinking => True
  | _ => False

/-- Invariant of a process: it owns the lock file if it holds the lock or has read its own pid from
it, and `ttunlock` gave up the lock first. -/
structure ProcOK (s : LockSystem) (p : Pid) : Prop where
  runs : s.alive p = true ∨ s.proc p = ⟨.idle, false⟩
  positive : s.alive p = true → p ≠ 0
  holds : (s.proc p).holding = true → Owns s p
  knows : (s.proc p).pc.Knows s p
  unlocks : (s.proc p).pc.Unlocks → (s.proc p).holding = false

/-- Invariant of the system: every process keeps its own, and a file holds its creator's pid once
it is written. -/
structure LockOK (s : LockSystem) : Prop where
  procs : ∀ p, ProcOK s p
  written : ∀ f, (s.content f).readPid = f.owner ∨ (s.content f).readPid = 0

section Invariant

variable {s s' : LockSystem} {p q : Pid}

theorem Owns.unique (first : Owns s p) (second : Owns s q) : p = q := by
  obtain ⟨f, here, rfl⟩ := first
  obtain ⟨g, there, rfl⟩ := second
  rw [here, Option.some.injEq] at there
  rw [there]

theorem LockPc.Knows.mono {pc : LockPc} (keeps : Owns s p → Owns s' p) (knows : pc.Knows s p) :
    pc.Knows s' p := by
  cases pc with
  | idle | prelock | opening | removing | renameBuf => exact knows
  | reading caller f => exact ⟨knows.1, fun own => keeps (knows.2 own)⟩
  | testing caller pid => exact ⟨knows.1, fun own => keeps (knows.2 own)⟩
  | closing bin buf err => exact ⟨knows.1, fun good => keeps (knows.2 good)⟩
  | unlinking => exact keeps knows

/-- A process that does not run satisfies the invariant. -/
theorem ProcOK.dead (dead : s.alive p = false) (stopped : s.proc p = ⟨.idle, false⟩) :
    ProcOK s p := by
  refine ⟨Or.inr stopped, fun running => ?_, ?_, ?_, fun _ => by rw [stopped]⟩
  · rw [dead] at running
    cases running
  · rw [stopped]
    exact nofun
  · rw [stopped]
    trivial

/-- The steps of another process keep the invariant while they leave the lock of a running process
alone. -/
theorem ProcOK.other (ok : ProcOK s q) (same : s'.proc q = s.proc q)
    (alive : s'.alive q = s.alive q) (keeps : s.alive q = true → Owns s q → Owns s' q) :
    ProcOK s' q := by
  rcases ok.runs with runs | stopped
  · refine ⟨Or.inl (alive.trans runs), ?_, ?_, ?_, ?_⟩
    · rw [alive]
      exact ok.positive
    · rw [same]
      exact fun holding => keeps runs (ok.holds holding)
    · rw [same]
      exact ok.knows.mono (keeps runs)
    · rw [same]
      exact ok.unlocks
  · cases running : s.alive q with
    | false => exact .dead (alive.trans running) (same.trans stopped)
    | true =>
      have pc : s'.proc q = ⟨.idle, false⟩ := same.trans stopped
      refine ⟨Or.inr pc, fun _ => ok.positive running, ?_, ?_, ?_⟩ <;> rw [pc]
      · exact nofun
      · trivial
      · exact fun _ => rfl

/-- A step of process `p` keeps the invariant if it keeps that of `p`, and the lock of the others. -/
theorem LockOK.step_of (ok : LockOK s) (others : ∀ q, q ≠ p → s'.proc q = s.proc q)
    (alive : s'.alive = s.alive)
    (keeps : ∀ q, q ≠ p → s.alive q = true → Owns s q → Owns s' q) (actor : ProcOK s' p)
    (written : ∀ f, (s'.content f).readPid = f.owner ∨ (s'.content f).readPid = 0) :
    LockOK s' := by
  refine ⟨fun q => ?_, written⟩
  by_cases same : q = p
  · rw [same]
    exact actor
  · exact (ok.procs q).other (others q same) (by rw [alive]) (keeps q same)

theorem setProc_self (proc : LockProc) : (s.setProc p proc).proc p = proc := by
  simp [LockSystem.setProc]

theorem setProc_other (proc : LockProc) (other : q ≠ p) : (s.setProc p proc).proc q = s.proc q := by
  simp [LockSystem.setProc, other]

/-- Changing only process `p`. -/
theorem LockOK.setProc (ok : LockOK s) {proc : LockProc}
    (actor : ProcOK (s.setProc p proc) p) : LockOK (s.setProc p proc) :=
  ok.step_of (fun _ other => setProc_other proc other) rfl (fun _ _ _ owns => owns) actor ok.written

/-- What a running process needs to go on at another step. -/
theorem ProcOK.goto (ok : ProcOK s p) (runs : s.alive p = true) {pc : LockPc}
    (knows : pc.Knows s p) (unlocks : pc.Unlocks → (s.proc p).holding = false) :
    ProcOK (s.goto p pc) p := by
  have now : (s.goto p pc).proc p = { s.proc p with pc := pc } := setProc_self _
  refine ⟨Or.inl runs, ok.positive, ?_, ?_, ?_⟩ <;> rw [now]
  · exact ok.holds
  · exact knows
  · exact unlocks

theorem ProcOK.returnLock (ok : ProcOK s p) (runs : s.alive p = true) {err : Nat}
    (owns : err = 0 ∨ err = 3 → Owns s p) : ProcOK (s.returnLock p err).1 p := by
  have now : (s.returnLock p err).1.proc p = ⟨.idle, decide (err = 0 ∨ err = 3)⟩ := setProc_self _
  refine ⟨Or.inl runs, ok.positive, ?_, ?_, ?_⟩ <;> rw [now]
  · exact fun holding => owns (of_decide_eq_true holding)
  · trivial
  · exact nofun

/-- `ttlocked` returns. -/
theorem ProcOK.returnLocked (ok : ProcOK s p) (runs : s.alive p = true) {caller : LockCaller}
    {err : Nat} (own : caller.OwnBuf p) (found : err = 3 → Owns s p)
    (unlocks : caller = .ttunlock → (s.proc p).holding = false) :
    ProcOK (s.returnLocked p err caller).1 p := by
  cases caller with
  | ttlock bin =>
    simp only [LockSystem.returnLocked]
    split
    · exact ok.goto runs trivial nofun
    · rename_i failed
      exact ok.returnLock runs fun good => found (good.resolve_left failed)
  | renameFailed bin buf =>
    refine ok.goto runs ⟨own, fun good => found ?_⟩ nofun
    split at good <;> omega
  | ttunlock =>
    refine ok.goto runs ?_ fun _ => unlocks rfl
    split
    · exact found ‹_›
    · trivial
  | outside => exact ok.goto runs trivial nofun

theorem returnLocked_frame (caller : LockCaller) (err : Nat) :
    (s.returnLocked p err caller).1.alive = s.alive ∧
      (s.returnLocked p err caller).1.lock = s.lock ∧
      (s.returnLocked p err caller).1.content = s.content ∧
      (∀ q, q ≠ p → (s.returnLocked p err caller).1.proc q = s.proc q) ∧
      LockEvent.staleRemoved true ∉ (s.returnLocked p err caller).2 := by
  cases caller with
  | ttlock bin =>
    simp only [LockSystem.returnLocked]
    split
    · exact ⟨rfl, rfl, rfl, fun q other => setProc_other _ other, nofun⟩
    · exact ⟨rfl, rfl, rfl, fun q other => setProc_other _ other, by simp [LockSystem.returnLock]⟩
  | renameFailed | ttunlock | outside =>
    exact ⟨rfl, rfl, rfl, fun q other => setProc_other _ other, nofun⟩

/-- A step that returns from `ttlocked` and changes at most the lock. -/
theorem LockOK.returnLocked (ok : LockOK s) {t : LockSystem} (alive : t.alive = s.alive)
    (proc : t.proc = s.proc) (content : t.content = s.content)
    (keeps : ∀ q, q ≠ p → s.alive q = true → Owns s q → Owns t q) (caller : LockCaller) (err : Nat)
    (actor : ProcOK (t.returnLocked p err caller).1 p) :
    LockOK (t.returnLocked p err caller).1 := by
  obtain ⟨alive', lock', content', others, -⟩ := returnLocked_frame (s := t) (p := p) caller err
  refine ok.step_of (fun q other => ?_) (alive'.trans alive) (fun q other running owns => ?_) actor
    fun f => ?_
  · rw [others q other, proc]
  · obtain ⟨f, here, owner⟩ := keeps q other running owns
    exact ⟨f, lock'.trans here, owner⟩
  · rw [content', content]
    exact ok.written f

/-- No running process owns an abandoned lock. -/
theorem Abandoned.not_owns (abandoned : Abandoned s) (running : s.alive q = true) : ¬ Owns s q := by
  rintro ⟨f, here, rfl⟩
  rw [abandoned f here] at running
  cases running

/-- Changing files that no running process owns or has not written. -/
theorem LockOK.files (ok : LockOK s) {t : LockSystem} (alive : t.alive = s.alive)
    (proc : t.proc = s.proc) (keeps : ∀ q, s.alive q = true → Owns s q → Owns t q)
    (written : ∀ f, (t.content f).readPid = f.owner ∨ (t.content f).readPid = 0) : LockOK t :=
  ⟨fun q => (ok.procs q).other (by rw [proc]) (by rw [alive]) (keeps q), written⟩

theorem LockOK.abandon (ok : LockOK s) (abandoned : Abandoned s) (lock : Option LockInode) :
    LockOK { s with lock := lock } :=
  ok.files rfl rfl (fun _ running owns => absurd owns (abandoned.not_owns running)) ok.written

theorem LockOK.write (ok : LockOK s) (buf : LockInode) (content : LockContent) (serial : Nat)
    (right : content.readPid = buf.owner ∨ content.readPid = 0) :
    LockOK { s with content := Function.update s.content buf content, serial := serial } := by
  refine ok.files rfl rfl (fun _ _ owns => owns) fun f => ?_
  by_cases same : f = buf
  · rw [same]
    simpa using right
  · simp only [Function.update_of_ne same]
    exact ok.written f

/-- The creator of an abandoned lock does not hold it. -/
theorem LockOK.not_held (ok : LockOK s) (abandoned : Abandoned s) : s.held = false := by
  unfold LockSystem.held
  cases lock : s.lock with
  | none => rfl
  | some f =>
    rcases (ok.procs f.owner).runs with runs | stopped
    · rw [abandoned f lock] at runs
      cases runs
    · simp only [stopped]

/-- Every step of a process that spares the locks of running processes keeps the invariant. -/
theorem LockOK.next (ok : LockOK s) (p : Pid) (good : Bool) (spares : Spares [] s (.next p good)) :
    LockOK (s.next p good).1 ∧ LockEvent.staleRemoved true ∉ (s.next p good).2 := by
  have own := ok.procs p
  rcases own.runs with runs | stopped
  swap
  · have still : s.next p good = (s, []) := by rw [LockSystem.next, stopped]
    rw [still]
    exact ⟨ok, nofun⟩
  have knows := own.knows
  have unlocks := own.unlocks
  simp only [Spares] at spares
  unfold LockSystem.next
  cases pc : (s.proc p).pc with
  | idle => exact ⟨ok, nofun⟩
  | opening caller =>
    rw [pc] at knows unlocks
    cases lock : s.lock with
    | none =>
      exact ⟨ok.returnLocked rfl rfl rfl (fun _ _ _ owns => owns) caller 0
        (own.returnLocked runs knows nofun unlocks), (returnLocked_frame caller 0).2.2.2.2⟩
    | some f =>
      exact ⟨ok.setProc (own.goto runs ⟨knows, fun mine => ⟨f, lock, mine⟩⟩ unlocks), nofun⟩
  | reading caller f =>
    rw [pc] at knows unlocks
    refine ⟨ok.setProc (own.goto runs ⟨knows.1, fun mine => ?_⟩ unlocks), nofun⟩
    -- the file holds the pid of its creator, or none yet
    rcases ok.written f with owner | empty
    · exact knows.2 (owner.symm.trans mine)
    · exact absurd (mine.symm.trans empty) (own.positive runs)
  | testing caller pid =>
    rw [pc] at knows unlocks
    simp only
    split
    · exact ⟨ok.setProc (own.goto runs knows.1 unlocks), nofun⟩
    · refine ⟨ok.returnLocked rfl rfl rfl (fun _ _ _ owns => owns) caller _
        (own.returnLocked runs knows.1 (fun three => knows.2 ?_) unlocks),
        (returnLocked_frame caller _).2.2.2.2⟩
      by_contra other
      rw [if_pos other] at three
      cases three
  | removing caller =>
    rw [pc] at knows unlocks spares
    have abandoned : Abandoned s := spares
    simp only
    split
    · exact ⟨ok.returnLocked rfl rfl rfl (fun _ _ _ owns => owns) caller 2
        (own.returnLocked runs knows nofun unlocks), (returnLocked_frame caller 2).2.2.2.2⟩
    · have ok' := ok.abandon abandoned none
      refine ⟨ok'.returnLocked rfl rfl rfl (fun _ _ _ owns => owns) caller 0
        ((ok'.procs p).returnLocked runs knows nofun unlocks), ?_⟩
      rw [ok.not_held abandoned, List.mem_cons, not_or]
      exact ⟨nofun, (returnLocked_frame caller 0).2.2.2.2⟩
  | prelock bin =>
    simp only
    split
    · have ok' := ok.write ⟨p, s.serial⟩ .unwritten (s.serial + 1) (Or.inr rfl)
      exact ⟨ok'.setProc ((ok'.procs p).goto runs rfl nofun), nofun⟩
    · exact ⟨ok.setProc (own.returnLock runs nofun), by simp [LockSystem.returnLock]⟩
  | renameBuf bin buf =>
    rw [pc] at knows spares
    simp only
    split
    · rename_i renamed
      have ok' := ok.abandon (spares renamed) (some buf)
      exact ⟨ok'.setProc ((ok'.procs p).goto runs ⟨knows, fun _ => ⟨buf, rfl, knows⟩⟩ nofun), nofun⟩
    · exact ⟨ok.setProc (own.goto runs knows nofun), nofun⟩
  | closing bin buf err =>
    rw [pc] at knows
    have right : LockContent.readPid (if bin then .binary p else .text p) = buf.owner := by
      rw [knows.1]
      cases bin <;> rfl
    have ok' := ok.write buf _ s.serial (Or.inl right)
    exact ⟨ok'.setProc ((ok'.procs p).returnLock runs knows.2), by simp [LockSystem.returnLock]⟩
  | unlinking =>
    rw [pc] at knows unlocks
    have free : (s.proc p).holding = false := unlocks trivial
    have now : ({ s with lock := none }.goto p .idle).proc p = { s.proc p with pc := .idle } :=
      setProc_self _
    refine ⟨ok.step_of (fun q other => setProc_other _ other) rfl (fun q other _ owns => ?_)
      ⟨Or.inl runs, own.positive, ?_, ?_, ?_⟩ ok.written, nofun⟩
    · exact absurd (owns.unique knows) other
    · rw [now]
      intro holding
      rw [free] at holding
      cases holding
    · rw [now]
      trivial
    · rw [now]
      exact nofun

/-- A call starts when its process runs and does nothing else. -/
theorem LockOK.call (ok : LockOK s) (p : Pid) {proc : LockProc}
    (holds : proc.holding = true → (s.proc p).holding = true) (knows : proc.pc.Knows s p)
    (unlocks : proc.pc.Unlocks → proc.holding = false) :
    LockOK (s.call p proc).1 ∧ LockEvent.staleRemoved true ∉ (s.call p proc).2 := by
  have own := ok.procs p
  unfold LockSystem.call
  split
  · rename_i runs idle
    have now : (s.setProc p proc).proc p = proc := setProc_self proc
    refine ⟨ok.setProc ⟨Or.inl runs, own.positive, ?_, ?_, ?_⟩, nofun⟩ <;> rw [now]
    · exact fun holding => own.holds (holds holding)
    · exact knows
    · exact unlocks
  · exact ⟨ok, nofun⟩

/-- Every step that spares the locks of running processes keeps the invariant. -/
theorem LockOK.step (ok : LockOK s) {h : List LockEvent} {input : LockInput}
    (spares : Spares h s input) : LockOK (LockSystem.step input s).1 ∧
      LockEvent.staleRemoved true ∉ (LockSystem.step input s).2 := by
  cases input with
  | spawn p =>
    simp only [LockSystem.step]
    split
    · exact ⟨ok, nofun⟩
    · rename_i fresh
      obtain ⟨positive, dead⟩ := not_or.mp fresh
      refine ⟨⟨fun q => ?_, ok.written⟩, nofun⟩
      by_cases same : q = p
      · subst same
        have stopped := (ok.procs q).runs.resolve_left dead
        refine ⟨Or.inr stopped, fun _ => positive, ?_, ?_, ?_⟩ <;> simp only [stopped]
        · exact nofun
        · trivial
        · exact nofun
      · exact (ok.procs q).other rfl (Function.update_of_ne same _ _) fun _ owns => owns
  | exit p =>
    refine ⟨⟨fun q => ?_, ok.written⟩, nofun⟩
    by_cases same : q = p
    · rw [same]
      exact .dead (Function.update_self ..) (setProc_self _)
    · exact (ok.procs q).other (setProc_other _ same) (Function.update_of_ne same _ _)
        fun _ owns => owns
  | ttlock p bin => exact ok.call p id trivial nofun
  | ttunlock p => exact ok.call p nofun trivial fun _ => rfl
  | ttlocked p => exact ok.call p id trivial nofun
  | next p good => exact ok.next p good spares

end Invariant

theorem lockOK_start (leftover : Option Pid) : LockOK (LockSystem.start leftover) :=
  ⟨fun _ => .dead rfl rfl, fun _ => Or.inl rfl⟩

/-- In every run in which renames and removals of stale locks spare the locks of running processes,
at most one process holds the lock, and no lock was stolen from its holder. -/
theorem lock_exclusive (leftover : Option Pid) {h : List LockEvent} {s : LockSystem}
    (run : Runs LockSystem.step Spares (LockSystem.start leftover) h s) :
    Exclusive s ∧ NeverStolen h := by
  have inv := run.invariant (P := fun h s => LockOK s ∧ NeverStolen h)
    ⟨lockOK_start leftover, nofun⟩ fun input inv spares => by
      obtain ⟨ok, unstolen⟩ := inv.1.step spares
      refine ⟨ok, fun stolen => ?_⟩
      rcases List.mem_append.mp stolen with before | now
      · exact inv.2 before
      · exact unstolen now
  exact ⟨fun p q first second =>
    ((inv.1.procs p).holds first).unique ((inv.1.procs q).holds second), inv.2⟩

instance (h : List LockEvent) (s : LockSystem) (input : LockInput) :
    Decidable (Spares h s input) := by
  unfold Spares Abandoned
  split
  · split <;> infer_instance
  · infer_instance

/-- Process 1 takes over a stale lock while process 2 is refused. -/
theorem lock_exclusive_takeover :
    let run := feed LockSystem.step
      ([.spawn 1, .spawn 2, .ttlock 1 false] ++ List.replicate 7 (.next 1 true) ++
        [.ttlock 2 true] ++ List.replicate 3 (.next 2 true)) [] (LockSystem.start (some 9))
    Exclusive run.2 ∧ NeverStolen run.1 :=
  lock_exclusive (some 9) (Runs.refl.feed (by decide +kernel))

/-- Two processes find no lock and both rename onto its name; and one removes as stale the lock the
other has just taken over. -/
theorem lock_races :
    ¬ Exclusive (feed LockSystem.step
        ([.spawn 1, .spawn 2, .ttlock 1 false, .ttlock 2 false, .next 1 true, .next 2 true] ++
          List.replicate 3 (.next 1 true) ++ List.replicate 3 (.next 2 true))
        [] (LockSystem.start none)).2 ∧
      ¬ NeverStolen (feed LockSystem.step
        ([.spawn 1, .spawn 2, .ttlock 1 false, .ttlock 2 false] ++
          List.replicate 3 (.next 2 true) ++ List.replicate 7 (.next 1 true) ++ [.next 2 true])
        [] (LockSystem.start (some 9))).1 := by
  refine ⟨fun exclusive => absurd (exclusive 1 2 (by decide +kernel) (by decide +kernel)) (by decide), ?_⟩
  rw [NeverStolen, not_not]
  decide +kernel

end QFax.Efax

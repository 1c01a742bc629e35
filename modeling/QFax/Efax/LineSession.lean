import QFax.Efax.LineAnswers
import QFax.Efax.ReceiveData

/-!
# The session of both stations

A DCS frame tells the receiver which session the transmitter is going to use.  Here the two sessions are
followed side by side, through lost answers and repeated frames, up to the data of a page: whenever a page
is received, both stations use the same format for it.
-/

namespace QFax.Efax

open Machine Call

/-- Two sessions that a DCS frame does not tell apart. -/
def SameFormat (a b : Cap) : Prop := ∀ i ∈ dcsFields, a i = b i

variable {cfg snd rcv : Config} {h : List LineEvent} {l : FaxLine} {s : Call} {input : Input}
  {turn : Turn} {maxpgerr : Nat}

/-! ## What the frame says -/

/-- The session that is negotiated again is the same. -/
theorem minSession_again (loc remote session : Cap) :
    minSession loc remote (minSession loc remote session) = minSession loc remote session := rfl

theorem negotiate_again {s' : Call} (ok : SessionOk s) (loc : s'.loc = s.negotiate.loc)
    (remote : s'.remote = s.negotiate.remote) (session : s'.session = s.negotiate.session) :
    s'.negotiate.session = s.negotiate.session := by
  have ok' : SessionOk s' := ok.negotiate.of_same session
  rw [negotiate_session ok', loc, remote, session, negotiate_session ok]
  have locs : checkCap s.negotiate.loc = checkCap s.loc := (checkCap_inRange s.loc).checkCap_eq
  have remotes : checkCap s.negotiate.remote = checkCap s.remote := (checkCap_inRange s.remote).checkCap_eq
  rw [locs, remotes]
  exact minSession_again _ _ _

/-- What the receiver reads from a DCS frame with a code for every field. -/
theorem sameFormat_dcs (ok : SessionOk s) (code : HasDcsCode (checkCap s.loc) (checkCap s.remote)) :
    SameFormat s.negotiate.session (checkCap (mkcap (s.negotiate.dcsFif cfg) false)) := by
  have range := ok.negotiate.range
  have recovers : Recovers (s.negotiate.dcsFif cfg) s.negotiate.session := by
    refine (recovers_iff range ok.negotiate.df _).2 ?_
    rw [negotiate_session ok]
    exact (minSession_code (checkCap_inRange _) (checkCap_inRange _)).2 code
  intro i carried
  obtain ⟨lower, upper⟩ := range i
  unfold checkCap
  rw [recovers i carried, if_neg (by omega)]

/-! ## The transmitter at `D_2` -/

/-- CFR alone leads to the page. -/
theorem hears_of_i2 (label : s.pc = .d2) (next : (Call.step cfg input s).1.pc = .i2) :
    input.answer.getfr = .cfr := by
  simp only [Call.step, label, stepD2] at next
  split at next
  · rw [goto_pc] at next
    split at next <;> cases next
  · rename_i answered
    have noErr : ((s.negotiate.sendDcs cfg input).1.awaitDcs input).err = 0 := of_not_not (not_or.1 answered).1
    unfold awaitDcs at next noErr
    split at noErr
    · rename_i sent
      rw [if_pos sent] at next
      unfold answerDcs at next
      split at next
      case h_4 frame => exact frame
      case h_3 =>
        dsimp only at next
        split at next <;> cases next
      case h_5 => cases next
      all_goals split at next <;> cases next
    · rename_i failed
      exact absurd noErr failed

/-- While no frame comes the negotiation stays as it is. -/
theorem stepD2_again (cfg : Config) (label : s.pc = .d2) (quiet : s.hears input = none) :
    (Call.step cfg input s).1.loc = s.negotiate.loc ∧
      (Call.step cfg input s).1.remote = s.negotiate.remote ∧
      (Call.step cfg input s).1.session = s.negotiate.session := by
  have negative := negative_of_quiet quiet (by rw [label]; decide)
  simp only [Call.step, label, stepD2]
  unfold awaitDcs
  split
  · rw [if_pos (.inr negative)]
    exact ⟨rfl, rfl, rfl⟩
  · rename_i failed
    rw [if_pos (.inl failed)]
    exact ⟨rfl, rfl, rfl⟩

/-! ## Two sessions side by side -/

/-- What the receiver knows of the session, from the DCS frame to the page. -/
structure Agreed (snd : Config) (l : FaxLine) : Prop where
  ok : SessionOk l.tx
  said : l.rx.pc = .f2 → l.rx.frame = .dcs → l.tx.pc = .d2 → l.rx.fif = l.tx.negotiate.dcsFif snd
  trained : l.reply = some .cfr → l.tx.pc = .d2 → SameFormat l.tx.negotiate.session l.rx.session
  format : l.data.isSome ∨ l.tx.pc.SendsPage → SameFormat l.tx.session l.rx.session

/-- The session that the transmitter is about to send has a code in every field. -/
def Coded (l : FaxLine) : Prop :=
  l.tx.pc = .d2 → HasDcsCode (checkCap l.tx.loc) (checkCap l.tx.remote)

instance (l : FaxLine) : Decidable (Coded l) := inferInstanceAs (Decidable (_ → _))

/-- A page on its way keeps the transmitter away from `D_2`. -/
theorem Linked.away_d2 (linked : Linked maxpgerr h l) (sent : l.data.isSome) : l.tx.pc ≠ .d2 := by
  obtain ⟨page, data⟩ := Option.isSome_iff_exists.1 sent
  intro label
  rcases linked.data page data with ends | ⟨sendppm, -⟩
  · rw [label] at ends
    exact ends
  · rw [label] at sendppm
    cases sendppm

/-- `D_2` is left for the page only with the session that the receiver has. -/
theorem Agreed.leaves_d2 (parties : Parties snd rcv) (linked : Linked maxpgerr h l)
    (hears : l.Hears snd rcv (.tx input)) (label : l.tx.pc = .d2) (inv : Agreed snd l)
    (next : (Call.step snd input l.tx).1.pc = .i2) :
    SameFormat (Call.step snd input l.tx).1.session l.rx.session := by
  have used : (Call.step snd input l.tx).1.session = l.tx.negotiate.session := by
    simp only [Call.step, label]
    exact (same_stepD2 snd l.tx input).session
  rw [used]
  refine inv.trained ?_ label
  have cfr := hears_of_i2 label next
  cases answer : input.answer with
  | timeout | carrier => rw [answer] at cfr; cases cfr
  | frame fcf fif =>
    rw [answer] at cfr
    have cfr : Frame.ofCode (fcf % 0x80) = .cfr := cfr
    rcases hears _ (hears_eq answer (by rw [label]; decide)) with reply | said
    · rw [reply, cfr]
    · obtain ⟨-, frame, -⟩ := receiver_speaks parties linked.rx said
      rcases frame with frame | frame <;> dsimp only at frame <;> rw [cfr] at frame <;> cases frame

theorem Agreed.format_tx (parties : Parties snd rcv) (linked : Linked maxpgerr h l)
    (hears : l.Hears snd rcv (.tx input)) (inv : Agreed snd l)
    (sends : (FaxLine.step snd rcv (.tx input) l).1.data.isSome ∨
      (Call.step snd input l.tx).1.pc.SendsPage) :
    SameFormat (Call.step snd input l.tx).1.session l.rx.session := by
  have carries (sent : (FaxLine.step snd rcv (.tx input) l).1.data.isSome) :
      l.tx.pc = .i2 ∨ l.data.isSome := by
    obtain ⟨page, data⟩ := Option.isSome_iff_exists.1 sent
    have data : ((Call.step snd input l.tx).2.findSome? Event.page?).or l.data = some page := data
    rcases Option.or_eq_some_iff.1 data with now | ⟨-, before⟩
    · exact .inl (sendData_origin (findSome_page _ now)).1
    · exact .inr (Option.isSome_iff_exists.2 ⟨page, before⟩)
  by_cases d2 : l.tx.pc = .d2
  · rcases sends with sent | next
    · rcases carries sent with i2 | before
      · rw [d2] at i2
        cases i2
      · exact absurd d2 (linked.away_d2 before)
    · have jump : (Call.step snd input l.tx).1.pc ∈ l.tx.pc.targets := step_targets input
      rw [d2] at jump
      refine inv.leaves_d2 parties linked hears d2 ?_
      rcases next with next | next | next <;> rw [next] at jump ⊢ <;> simp [Label.targets] at jump
  · have transmits := linked.tx.label
    have away : l.tx.pc ≠ .d2 ∧ l.tx.pc ≠ .f2 := by
      refine ⟨d2, fun f2 => ?_⟩
      rw [f2] at transmits
      simp [Label.Transmits, Label.Sends, Label.Ends] at transmits
    rw [session_step snd l.tx input away]
    refine inv.format ?_
    rcases sends with sent | next
    · rcases carries sent with i2 | before
      · exact .inr (.inr (.inl i2))
      · exact .inl before
    · exact .inr (sendsPage_from d2 next)

theorem Agreed.step_tx (parties : Parties snd rcv) (linked : Linked maxpgerr h l)
    (hears : l.Hears snd rcv (.tx input)) (inv : Agreed snd l) :
    Agreed snd (FaxLine.step snd rcv (.tx input) l).1 := by
  have from_d2 (next : (Call.step snd input l.tx).1.pc = .d2) (awaits : l.tx.Awaits .dcs) : l.tx.pc = .d2 := by
    rcases awaits with ends | place
    · have ends' : (Call.step snd input l.tx).1.pc.Ends := ends_step ends
      rw [next] at ends'
      exact ends'.elim
    · exact (Option.some.inj place).symm
  have again (label : l.tx.pc = .d2) (quiet : l.tx.hears input = none) :
      (Call.step snd input l.tx).1.negotiate.session = l.tx.negotiate.session := by
    obtain ⟨loc, remote, session⟩ := stepD2_again snd label quiet
    exact negotiate_again inv.ok loc remote session
  refine ⟨inv.ok.step, fun f2 dcs next => ?_, fun cfr next => ?_, fun sends => ?_⟩
  · have quiet := linked.quiet parties hears f2
    obtain ⟨-, -, awaits, -⟩ := linked.command f2
    have dcs : l.rx.frame = .dcs := dcs
    have label := from_d2 next (dcs ▸ awaits)
    have said : l.rx.fif = l.tx.negotiate.dcsFif snd := inv.said f2 dcs label
    show l.rx.fif = mkdis (Call.step snd input l.tx).1.negotiate.session dcsLen false (snd.pages ≠ 0)
    rw [again label quiet]
    exact said
  · have cfr : (if (l.tx.hears input).isSome then none else l.reply) = some .cfr := cfr
    split at cfr
    · cases cfr
    · rename_i deaf
      obtain ⟨-, -, awaits, -⟩ := linked.reply _ cfr
      have label := from_d2 next (awaits.same rfl)
      show SameFormat (Call.step snd input l.tx).1.negotiate.session l.rx.session
      rw [again label (Option.not_isSome_iff_eq_none.1 deaf)]
      exact inv.trained cfr label
  · exact inv.format_tx parties linked hears sends

/-- Only a DCS frame changes the session of the receiver. -/
theorem Receiver.session (rx : Receiver s) (other : s.pc = .f2 → s.frame ≠ .dcs) :
    (Call.step cfg input s).1.session = s.session := by
  by_cases f2 : s.pc = .f2
  · have command := rx.command f2
    simp only [commands, List.mem_cons, List.not_mem_nil, or_false] at command
    simp only [Call.step, f2, stepF2]
    rcases command with frame | frame | frame | frame | frame <;> rw [frame]
    · exact absurd frame (other f2)
    all_goals rfl
  · refine session_step cfg s input ⟨fun d2 => ?_, f2⟩
    have answers := rx.label
    rw [d2] at answers
    simp [Label.Answers, Label.Receives, Label.Ends] at answers

/-- The command heard while the transmitter stands at `D_2` is DCS. -/
theorem Linked.dcs_of_d2 (linked : Linked maxpgerr h l) (f2 : l.rx.pc = .f2) (label : l.tx.pc = .d2) :
    l.rx.frame = .dcs := by
  obtain ⟨-, -, awaits, -⟩ := linked.command f2
  rw [Call.Awaits, label] at awaits
  have place := awaits.resolve_left id
  have command := linked.rx.command f2
  simp only [commands, List.mem_cons, List.not_mem_nil, or_false] at command
  rcases command with frame | frame | frame | frame | frame <;> rw [frame] at place ⊢ <;> cases place

theorem Agreed.step_rx (linked : Linked rcv.maxpgerr h l)
    (hears : l.Hears snd rcv (.rx input)) (coded : Coded l)
    (inv : Agreed snd l) : Agreed snd (FaxLine.step snd rcv (.rx input) l).1 := by
  refine ⟨inv.ok, fun f2 dcs label => ?_, fun cfr label => ?_, fun sends => ?_⟩
  · have said := hears.1 _ (hears_of_f2 f2)
    have label : l.tx.pc = .d2 := label
    simp only [Call.speaks, label] at said
    split at said
    · exact (congrArg Prod.snd (Option.some.inj said)).symm
    · cases said
  · have label : l.tx.pc = .d2 := label
    by_cases dcs : l.rx.pc = .f2 ∧ l.rx.frame = .dcs
    · have heard : (FaxLine.step snd rcv (.rx input) l).1.rx.session =
          checkCap (mkcap (l.tx.negotiate.dcsFif snd) false) := by
        show (Call.step rcv input l.rx).1.session = _
        simp only [Call.step, dcs.1, stepF2, dcs.2]
        show checkCap (mkcap l.rx.fif false) = _
        rw [inv.said dcs.1 dcs.2 label]
      rw [heard]
      exact sameFormat_dcs inv.ok (coded label)
    · have same : (Call.step rcv input l.rx).1.session = l.rx.session :=
        linked.rx.session fun f2 frame => dcs ⟨f2, frame⟩
      show SameFormat l.tx.negotiate.session (Call.step rcv input l.rx).1.session
      rw [same]
      exact inv.trained (reply_rx (fun f2 => dcs ⟨f2, linked.dcs_of_d2 f2 label⟩) cfr) label
  · have before : l.data.isSome ∨ l.tx.pc.SendsPage := by
      refine sends.imp_left fun sent => ?_
      obtain ⟨page, data⟩ := Option.isSome_iff_exists.1 sent
      exact Option.isSome_iff_exists.2 ⟨page, data_rx data⟩
    have other : l.rx.pc = .f2 → l.rx.frame ≠ .dcs := by
      intro f2 dcs
      obtain ⟨-, data, awaits, -⟩ := linked.command f2
      rw [dcs] at awaits
      rcases before with sent | sends
      · rw [data] at sent
        cases sent
      · rcases awaits with ends | place
        · rcases sends with label | label | label <;> rw [label] at ends <;> exact ends
        · rw [← Option.some.inj place] at sends
          simp [Label.SendsPage] at sends
    show SameFormat l.tx.session (Call.step rcv input l.rx).1.session
    rw [linked.rx.session other]
    exact inv.format before

/-! ## Runs -/

variable {loc loc' : Cap} {good good' : Bool}

theorem agreed_start (parties : Parties snd rcv) :
    Agreed snd (FaxLine.start snd rcv loc loc' good good') where
  ok := sessionOk_start
  said f2 := by
    have rx : (FaxLine.start snd rcv loc loc' good good').rx.pc = .r := by
      simp [FaxLine.start, Call.start, parties.answering]
    rw [rx] at f2
    cases f2
  trained cfr := by cases cfr
  format sends := by
    have tx : (FaxLine.start snd rcv loc loc' good good').tx.pc = .t := by
      simp [FaxLine.start, Call.start, parties.calling]
    rcases sends with sent | sends
    · cases sent
    · rw [tx] at sends
      simp [Label.SendsPage] at sends

/-- `receive_data` needs the width of the session only. -/
theorem receiveData_congr {σ : Type} {get : σ → Int × σ} {a b : Cap} (same : SameFormat a b)
    (ferror : Nat → Bool) (fuel : Nat) (nerr : Int) (src : σ) :
    receiveData get b ferror fuel nerr src = receiveData get a ferror fuel nerr src := by
  unfold receiveData
  rw [same .wd (by decide)]

/-- What `send_data` makes of a page in one session is read back in the other: exactly the lines that were
encoded are written, and no error is counted. -/
def ReadBack (sent received : Cap) : Prop :=
  ∀ (j : SendJob) (page lines : List (List Int)), j.session = sent → j.Valid →
    (∀ runs ∈ page, InputLine runs) → j.encoded page = some lines →
      (∀ runs ∈ lines, (lineCodes .white runs).length < maxRuns) → ∀ (order : BitOrder) (nerr : Int),
        ∃ bufs n src', j.sendData page = some bufs ∧ ∀ fuel ≥ n,
          receiveData (tgetd order) received (fun _ => false) fuel nerr (modemStream order bufs) =
            some (if codeBits lines % 8 = 0 then 0 else 1, ⟨lines, nerr⟩, src')

theorem SameFormat.readBack {a b : Cap} (same : SameFormat a b) : ReadBack a b := by
  rintro j page lines rfl valid input encoded words order nerr
  obtain ⟨bufs, n, src', sent, read⟩ := valid.receiveData input encoded words order nerr
  refine ⟨bufs, n, src', sent, fun fuel enough => ?_⟩
  rw [receiveData_congr same]
  exact read fuel enough

end QFax.Efax

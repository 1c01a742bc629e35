import QFax.Efax.FaxLine

/-!
# What an answer on the line means

The transmitter counts a page as sent when it hears MCF, and knows nothing else of the receiver.  An
invariant of the two stations and the line says what each frame on its way stands for, step by step of
either side, and from it every page that counts as sent is one that the receiver got.
-/

namespace QFax.Efax

open Machine Call

/-! ## What the stations know of each other -/

/-- How the two stations, the line and the history belong together. -/
structure Linked (maxpgerr : Nat) (h : List LineEvent) (l : FaxLine) : Prop where
  tx : Transmitter l.tx
  rx : Receiver l.rx
  command : l.rx.pc = .f2 → l.reply = none ∧ l.data = none ∧ l.tx.Awaits l.rx.frame ∧
    (l.tx.pc = .sendppm → l.rx.good = true → TakenSince maxpgerr l.tx.p h)
  reply : ∀ f, l.reply = some f → l.data = none ∧ f ∈ [Frame.cfr, .ftt, .mcf, .rtn] ∧ l.tx.Awaits f ∧
    (f = .mcf → l.tx.pc = .sendppm → TakenSince maxpgerr l.tx.p h)
  data : ∀ page, l.data = some page → l.tx.pc.Ends ∨ l.tx.pc = .sendppm ∧ page = l.tx.p
  ended : l.tx.pc = .sendppm → l.tx.err = 0 → h.foldl pageEnded false = true → l.rx.good = true →
    TakenSince maxpgerr l.tx.p h

/-- The one station calls with pages to send, and the other answers without any. -/
structure Parties (snd rcv : Config) : Prop where
  calling : snd.calling = true
  pages : 0 < snd.pages
  retries : snd.noretry = false
  answering : rcv.calling = false
  none : rcv.pages = 0

variable {snd rcv : Config} {h : List LineEvent} {l : FaxLine} {input : Input} {maxpgerr : Nat}

/-- A receiver without pages says DIS or DCN. -/
theorem receiver_speaks (parties : Parties snd rcv) (rx : Receiver l.rx) {m : Frame × List Nat}
    (said : l.rx.speaks rcv = some m) :
    l.rx.pc ≠ .f2 ∧ (m.1 = .dis ∨ m.1 = .dcn) ∧ Undocumented m := by
  obtain ⟨label, -⟩ := rx
  unfold Call.speaks at said
  split at said
  case h_3 pc =>
    split at said
    · cases said
      refine ⟨by rw [pc]; decide, .inl rfl, ?_⟩
      rw [parties.none]
      exact undocumented_dis _
    · cases said
  case h_4 pc =>
    cases said
    exact ⟨by rw [pc]; decide, .inr rfl, fun dis => by simp at dis⟩
  case h_5 => cases said
  all_goals
    rename_i pc
    simp [pc, Label.Answers, Label.Receives, Label.Ends] at label

/-- A transmitter says a command where it awaits the answer. -/
theorem transmitter_speaks (tx : Transmitter l.tx) {m : Frame × List Nat}
    (said : l.tx.speaks snd = some m) : m.1 ∈ commands ∧ l.tx.Awaits m.1 ∧
      (l.tx.pc = .sendppm → l.tx.err = 0 ∧ m.1.IsPostPage) := by
  obtain ⟨label, ppm, -, -⟩ := tx
  unfold Call.speaks at said
  split at said
  case h_1 pc =>
    split at said
    · cases said
      exact ⟨List.mem_cons_self, .inr (by rw [pc]; rfl), fun other => by rw [pc] at other; cases other⟩
    · cases said
  case h_2 pc =>
    split at said
    · rename_i noErr
      cases said
      unfold Call.Awaits Frame.IsPostPage
      simp only [List.mem_cons, List.not_mem_nil, or_false] at ppm
      rw [pc]
      rcases ppm with ppm | ppm | ppm <;> rw [ppm] <;>
        simp [commands, Frame.place, Frame.ignoreInterrupt, noErr]
    · cases said
  case h_4 pc =>
    cases said
    refine ⟨by decide, .inl (by rw [pc]; trivial), fun other => ?_⟩
    rw [pc] at other
    cases other
  case h_5 => cases said
  case h_3 pc => simp [pc, Label.Transmits, Label.Sends, Label.Ends] at label

/-! ## A step of the transmitter -/

/-- Away from `I_2` no page is sent. -/
theorem TakenSince.unsent {page : Nat} (taken : TakenSince maxpgerr page h) (away : l.tx.pc ≠ .i2) :
    TakenSince maxpgerr page (h ++ (Call.step snd input l.tx).2.map .tx) := by
  refine taken.append fun q mem => ?_
  obtain ⟨e, sent, eq⟩ := List.mem_map.1 mem
  cases eq
  exact away (sendData_origin sent).1

theorem foldl_pageEnded_tx (es : List Event) (unsent : ∀ page, .sendData page ∉ es) (ended : Bool) :
    (es.map LineEvent.tx).foldl pageEnded ended = ended := by
  induction es with
  | nil => rfl
  | cons e es ih =>
    have unsent' := ih fun page later => unsent page (List.mem_cons_of_mem e later)
    cases e with
    | sendData page => exact absurd List.mem_cons_self (unsent page)
    | _ => exact unsent'

/-- The transmitter hears an answer only while none is being given. -/
theorem Linked.quiet (parties : Parties snd rcv) (inv : Linked maxpgerr h l)
    (hears : l.Hears snd rcv (.tx input)) (f2 : l.rx.pc = .f2) : l.tx.hears input = none := by
  rw [Option.eq_none_iff_forall_ne_some]
  intro m heard
  rcases hears m heard with reply | said
  · rw [(inv.command f2).1] at reply
    cases reply
  · exact (receiver_speaks parties inv.rx said).1 f2

/-- What was taken stays taken while the transmitter awaits the answer for the page. -/
theorem TakenSince.awaiting (parties : Parties snd rcv) {frame : Frame} (awaits : l.tx.Awaits frame)
    (taken : l.tx.pc = .sendppm → TakenSince maxpgerr l.tx.p h)
    (next : (Call.step snd input l.tx).1.pc = .sendppm) :
    TakenSince maxpgerr (Call.step snd input l.tx).1.p
      (h ++ (Call.step snd input l.tx).2.map .tx) := by
  have away : l.tx.pc ≠ .i2 := by
    rcases awaits with ends | place
    · intro label
      rw [label] at ends
      exact ends
    · rcases frame.place_cases place with label | label <;> rw [label] <;> decide
  have label := (sendppm_from next).resolve_left away
  rw [(sendppm_again parties.retries label next).1]
  exact (taken label).unsent away

/-- A page on its way stays there until it is over. -/
theorem Linked.data_tx (parties : Parties snd rcv) (inv : Linked maxpgerr h l)
    (hears : l.Hears snd rcv (.tx input)) {page : Nat}
    (sent : ((Call.step snd input l.tx).2.findSome? Event.page?).or l.data = some page) :
    (Call.step snd input l.tx).1.pc.Ends ∨
      (Call.step snd input l.tx).1.pc = .sendppm ∧ page = (Call.step snd input l.tx).1.p := by
  rcases Option.or_eq_some_iff.1 sent with now | ⟨-, before⟩
  · obtain ⟨label, rfl⟩ := sendData_origin (findSome_page _ now)
    obtain ⟨next, same, -⟩ := stepI2_sent snd input label
    exact .inr ⟨next, same.symm⟩
  · rcases inv.data page before with ends | ⟨label, rfl⟩
    · exact .inl (ends_step ends)
    · have other : ¬ input.answer.getfr.Confirms ∧ ¬ input.answer.getfr.Rejects := by
        cases answer : input.answer with
        | timeout | carrier => simp [Answer.getfr, Frame.Confirms, Frame.Rejects]
        | frame fcf fif =>
          -- while the page is on its way, the receiver can only say DIS or DCN
          rcases hears _ (hears_eq answer (by rw [label]; decide)) with reply | said
          · have none := (inv.reply _ reply).1
            rw [before] at none
            cases none
          · obtain ⟨-, frame, -⟩ := receiver_speaks parties inv.rx said
            show ¬ (Frame.ofCode (fcf % 0x80)).Confirms ∧ ¬ (Frame.ofCode (fcf % 0x80)).Rejects
            rcases frame with frame | frame <;> dsimp only at frame <;> rw [frame] <;>
              simp [Frame.Confirms, Frame.Rejects]
      rcases stepSendppm_stays parties.retries label other with eq | ends
      · rw [eq]
        exact .inr ⟨rfl, rfl⟩
      · exact .inl ends

theorem Linked.step_tx (parties : Parties snd rcv) (inv : Linked maxpgerr h l)
    (hears : l.Hears snd rcv (.tx input)) :
    Linked maxpgerr (h ++ (FaxLine.step snd rcv (.tx input) l).2)
      (FaxLine.step snd rcv (.tx input) l).1 where
  tx := by
    refine inv.tx.step parties.pages fun m heard => ?_
    rcases hears m heard with reply | said
    · have answer := (inv.reply _ reply).2.1
      intro dis
      rcases dis with dis | dis <;> rw [dis] at answer <;> simp at answer
    · exact (receiver_speaks parties inv.rx said).2.2
  rx := inv.rx
  command f2 := by
    have f2 : l.rx.pc = .f2 := f2
    obtain ⟨reply, data, awaits, taken⟩ := inv.command f2
    have quiet := inv.quiet parties hears f2
    obtain ⟨stays, unsent⟩ := awaits.quiet parties.retries quiet
    refine ⟨?_, ?_, stays, fun next good => ?_⟩
    · show (if (l.tx.hears input).isSome then none else l.reply) = none
      rw [quiet]
      exact reply
    · show (_ : Option Nat).or l.data = none
      rw [unsent, data]
      rfl
    · exact TakenSince.awaiting parties awaits (fun label => taken label good) next
  reply f answer := by
    have answer : (if (l.tx.hears input).isSome then none else l.reply) = some f := answer
    split at answer
    · cases answer
    · rename_i deaf
      have quiet : l.tx.hears input = none := Option.not_isSome_iff_eq_none.1 deaf
      obtain ⟨data, mem, awaits, taken⟩ := inv.reply f answer
      obtain ⟨stays, unsent⟩ := awaits.quiet parties.retries quiet
      refine ⟨?_, mem, stays, fun mcf next => ?_⟩
      · show (_ : Option Nat).or l.data = none
        rw [unsent, data]
        rfl
      · exact TakenSince.awaiting parties awaits (taken mcf) next
  data page sent := inv.data_tx parties hears sent
  ended next noErr ended good := by
    have next : (Call.step snd input l.tx).1.pc = .sendppm := next
    have noErr : (Call.step snd input l.tx).1.err = 0 := noErr
    have ended : (h ++ (Call.step snd input l.tx).2.map LineEvent.tx).foldl pageEnded false = true :=
      ended
    rw [List.foldl_append] at ended
    rcases sendppm_from next with label | label
    · rw [(stepI2_sent snd input label).2.2 noErr] at ended
      cases ended
    · obtain ⟨same, before⟩ := sendppm_again parties.retries label next
      have away : l.tx.pc ≠ .i2 := by rw [label]; decide
      rw [foldl_pageEnded_tx _ fun page sent => away (sendData_origin sent).1] at ended
      show TakenSince maxpgerr (Call.step snd input l.tx).1.p _
      rw [same]
      exact (inv.ended label (before noErr) ended good).unsent away

/-! ## A step of the receiver -/

theorem heardBy_tx {data : Option Nat} {es : List Event} {e : Event} :
    .tx e ∉ es.flatMap (heardBy data) := by
  intro mem
  obtain ⟨e', -, mem⟩ := List.mem_flatMap.1 mem
  unfold heardBy at mem
  rcases List.mem_cons.1 mem with eq | taken
  · cases eq
  · rw [Option.mem_toList] at taken
    cases data <;> cases error : e'.errors? <;> rw [error] at taken <;> cases taken

/-- The receiver gets only the page on its way. -/
theorem taken_heardBy {data : Option Nat} {es : List Event} {page nerr : Nat}
    (taken : .taken page nerr ∈ es.flatMap (heardBy data)) : data = some page := by
  obtain ⟨e, -, mem⟩ := List.mem_flatMap.1 taken
  unfold heardBy at mem
  rcases List.mem_cons.1 mem with eq | mem
  · cases eq
  · rw [Option.mem_toList] at mem
    cases data <;> cases errors : e.errors? <;> rw [errors] at mem <;> cases mem
    rfl

/-- What was taken stays taken at a step of the receiver. -/
theorem TakenSince.received {page : Nat} {data : Option Nat} {es : List Event}
    (taken : TakenSince maxpgerr page h) : TakenSince maxpgerr page (h ++ es.flatMap (heardBy data)) :=
  taken.append fun _ => heardBy_tx

/-- Events other than those of a page received. -/
theorem foldl_pageEnded_rx {data : Option Nat} (es : List Event) (ended : Bool)
    (other : ∀ ret nerr, .received ret nerr ∉ es) :
    (es.flatMap (heardBy data)).foldl pageEnded ended = ended := by
  induction es with
  | nil => rfl
  | cons e es ih =>
    have rest := ih fun ret nerr later => other ret nerr (List.mem_cons_of_mem e later)
    rw [List.flatMap_cons, List.foldl_append]
    have same : (heardBy data e).foldl pageEnded ended = ended := by
      cases e with
      | received ret nerr => exact absurd List.mem_cons_self (other ret nerr)
      | _ => cases data <;> rfl
    rw [same]
    exact rest

namespace Call

variable {cfg : Config} {s : Call} {input : Input}

theorem findSome_answer (away : s.pc ≠ .f2) : (step cfg input s).2.findSome? Event.answer? = none := by
  rw [List.findSome?_eq_none_iff]
  intro e mem
  have origin := step_events input mem
  cases e with
  | answered => exact absurd (List.mem_singleton.1 origin) away
  | _ => rfl

theorem not_received (away : s.pc ≠ .reGetdata) (ret nerr : Nat) :
    .received ret nerr ∉ (step cfg input s).2 := fun mem =>
  away (List.mem_singleton.1 (step_events input mem))

/-- The receiver answers a command with a frame that belongs to the same place. -/
theorem stepF2_answer (input : Input) (command : s.frame ∈ commands) :
    (s.stepF2 input).2.findSome? Event.answer? = none ∧ s.frame = .dcn ∨
    (∃ frame, (s.stepF2 input).2.findSome? Event.answer? = some frame ∧
        (frame = .cfr ∨ frame = .ftt)) ∧ s.frame.place = some .d2 ∨
      (s.stepF2 input).2.findSome? Event.answer? = some (if s.good then .mcf else .rtn) ∧
        s.frame.place = some .sendppm ∧ (s.stepF2 input).1.good = s.good := by
  simp only [commands, List.mem_cons, List.not_mem_nil, or_false] at command
  unfold stepF2
  rcases command with frame | frame | frame | frame | frame <;> rw [frame]
  · refine .inr (.inl ⟨⟨if input.gettrain then .cfr else .ftt, rfl, ?_⟩, rfl⟩)
    cases input.gettrain
    · exact .inr rfl
    · exact .inl rfl
  case inr.inr.inr.inr => exact .inl ⟨rfl, rfl⟩
  all_goals exact .inr (.inr ⟨rfl, rfl, rfl⟩)

theorem waits_of_hears {m : Frame × List Nat} (heard : s.hears input = some m) :
    s.pc ∈ [Label.t, .d2, .sendppm, .rLoop, .f] := by
  unfold hears at heard
  split at heard
  case h_6 => cases heard
  all_goals
    rename_i label _
    rw [label]
    decide

end Call

/-- Only a receiver's command changes what it has answered. -/
theorem reply_rx {f : Frame} (away : l.rx.pc ≠ .f2)
    (answer : (FaxLine.step snd rcv (.rx input) l).1.reply = some f) : l.reply = some f := by
  have answer : ((Call.step rcv input l.rx).2.findSome? Event.answer?).or
      (if (l.rx.hears input).isNone then l.reply else none) = some f := answer
  rw [findSome_answer away, Option.none_or] at answer
  split at answer
  · exact answer
  · cases answer

theorem data_rx {page : Nat} (sent : (FaxLine.step snd rcv (.rx input) l).1.data = some page) :
    l.data = some page := by
  have sent : (if (l.rx.hears input).isNone ∧ (Call.step rcv input l.rx).2.findSome? Event.errors? = none
      then l.data else none) = some page := sent
  split at sent
  · exact sent
  · cases sent

/-- At a command that was heard the receiver has what the transmitter stands at. -/
theorem Linked.command_rx (inv : Linked rcv.maxpgerr h l) (hears : l.Hears snd rcv (.rx input))
    (ends : EndsBefore h l (.rx input)) (f2 : (Call.step rcv input l.rx).1.pc = .f2) :
    (FaxLine.step snd rcv (.rx input) l).1.reply = none ∧
      (FaxLine.step snd rcv (.rx input) l).1.data = none ∧
      l.tx.Awaits (Call.step rcv input l.rx).1.frame ∧
      (l.tx.pc = .sendppm → (Call.step rcv input l.rx).1.good = true →
        TakenSince rcv.maxpgerr l.tx.p h) := by
  have heard := hears_of_f2 f2
  have away : l.rx.pc ≠ .f2 ∧ l.rx.pc ≠ .reGetdata := by
    have waits := waits_of_hears heard
    constructor <;> intro label <;> rw [label] at waits <;> simp at waits
  obtain ⟨-, awaits, page⟩ := transmitter_speaks inv.tx (hears.1 _ heard)
  refine ⟨?_, ?_, awaits, fun label good => ?_⟩
  · show ((Call.step rcv input l.rx).2.findSome? Event.answer?).or
      (if (l.rx.hears input).isNone then l.reply else none) = none
    rw [findSome_answer away.1, heard]
    rfl
  · show (if (l.rx.hears input).isNone ∧ _ then l.data else none) = none
    rw [heard]
    exact if_neg (fun quiet => by cases quiet.1)
  · obtain ⟨noErr, postPage⟩ := page label
    rw [good_step rcv l.rx input away] at good
    exact inv.ended label noErr (ends _ heard postPage) good

/-- A page that is received while the post-page message stands is the one at hand. -/
theorem Linked.ended_reGetdata (inv : Linked rcv.maxpgerr h l) (hears : l.Hears snd rcv (.rx input))
    (label : l.rx.pc = .reGetdata) (at' : l.tx.pc = .sendppm) (noErr : l.tx.err = 0)
    (ended : (h ++ (Call.step rcv input l.rx).2.flatMap (heardBy l.data)).foldl pageEnded false = true)
    (good : (Call.step rcv input l.rx).1.good = true) :
    TakenSince rcv.maxpgerr l.tx.p
      (h ++ (Call.step rcv input l.rx).2.flatMap (heardBy l.data)) := by
  simp only [Call.step, label, stepReGetdata] at ended good ⊢
  split at ended
  · rename_i refused
    rw [if_pos refused] at good ⊢
    rw [List.flatMap_nil, List.append_nil] at ended ⊢
    exact inv.ended at' noErr ended good
  · rename_i taken
    rw [if_neg taken] at good ⊢
    have command : input.command = true := of_not_not taken
    split at ended
    case h_1 ret =>
      simp only [ret] at good ⊢
      obtain ⟨page, sent⟩ := Option.isSome_iff_exists.1 (hears.2 ⟨label, command, ret⟩)
      have same : page = l.tx.p := by
        rcases inv.data page sent with ends | ⟨-, same⟩
        · rw [at'] at ends
          exact ends.elim
        · exact same
      refine ⟨h ++ [.rx (.received 0 (l.rx.nerr + input.errors))], l.rx.nerr + input.errors, [], ?_, ?_,
        fun _ => List.not_mem_nil⟩
      · rw [sent, same, List.append_assoc]
        rfl
      · exact of_decide_eq_true good
    case h_2 ret =>
      simp only [ret] at good ended ⊢
      have before : h.foldl pageEnded false = true := by
        rw [List.foldl_append] at ended
        have same : ([Event.received 1 (l.rx.nerr + input.errors)].flatMap (heardBy l.data)).foldl
            pageEnded (h.foldl pageEnded false) = h.foldl pageEnded false := by
          cases l.data <;> simp [heardBy, Event.errors?, pageEnded]
        rwa [same] at ended
      exact (inv.ended at' noErr before good).received
    case h_3 ret0 ret1 =>
      split at good
      · contradiction
      · contradiction
      · cases good

theorem Call.Awaits.same {s : Call} {frame frame' : Frame} (awaits : s.Awaits frame)
    (same : frame'.place = frame.place) : s.Awaits frame' :=
  awaits.imp_right same.trans

/-- The answer to a command belongs where the command was heard, and confirms a page that was taken. -/
theorem Linked.answer_rx (inv : Linked maxpgerr h l) (f2 : l.rx.pc = .f2) {f : Frame}
    (answer : (FaxLine.step snd rcv (.rx input) l).1.reply = some f) :
    l.data = none ∧ f ∈ [Frame.cfr, .ftt, .mcf, .rtn] ∧ l.tx.Awaits f ∧
      (f = .mcf → l.tx.pc = .sendppm → TakenSince maxpgerr l.tx.p h) := by
  obtain ⟨reply, data, awaits, taken⟩ := inv.command f2
  have answer : ((Call.step rcv input l.rx).2.findSome? Event.answer?).or
      (if (l.rx.hears input).isNone then l.reply else none) = some f := answer
  simp only [Call.step, f2] at answer
  rcases stepF2_answer input (inv.rx.command f2) with
    ⟨silent, -⟩ | ⟨⟨frame, said, trained⟩, place⟩ | ⟨said, place, -⟩
  · rw [silent, Option.none_or, reply] at answer
    split at answer <;> cases answer
  · rw [said, Option.some_or] at answer
    cases answer
    refine ⟨data, ?_, awaits.same ?_, fun mcf => ?_⟩ <;> rcases trained with rfl | rfl <;>
      first | exact place.symm | simp_all
  · rw [said, Option.some_or] at answer
    cases good : l.rx.good <;> rw [good] at answer <;> cases answer
    · exact ⟨data, by simp, awaits.same place.symm, fun mcf => by cases mcf⟩
    · exact ⟨data, by simp, awaits.same place.symm, fun _ label => taken label good⟩

/-- A post-page command leaves the flag. -/
theorem Linked.good_f2 (inv : Linked maxpgerr h l) (f2 : l.rx.pc = .f2) (label : l.tx.pc = .sendppm) :
    (Call.step rcv input l.rx).1.good = l.rx.good := by
  obtain ⟨-, -, awaits, -⟩ := inv.command f2
  rw [Call.Awaits, label] at awaits
  have place := awaits.resolve_left id
  simp only [Call.step, f2]
  rcases stepF2_answer input (inv.rx.command f2) with
    ⟨-, dcn⟩ | ⟨-, trained⟩ | ⟨-, -, same⟩
  · rw [dcn] at place
    cases place
  · rw [trained] at place
    cases place
  · exact same

theorem Linked.step_rx (inv : Linked rcv.maxpgerr h l) (hears : l.Hears snd rcv (.rx input))
    (ends : EndsBefore h l (.rx input)) :
    Linked rcv.maxpgerr (h ++ (FaxLine.step snd rcv (.rx input) l).2)
      (FaxLine.step snd rcv (.rx input) l).1 where
  tx := inv.tx
  rx := inv.rx.step fun m heard => (transmitter_speaks inv.tx (hears.1 m heard)).1
  command f2 := by
    obtain ⟨reply, data, awaits, taken⟩ := inv.command_rx hears ends f2
    exact ⟨reply, data, awaits, fun label good => (taken label good).received⟩
  reply f answer := by
    have meant : l.data = none ∧ f ∈ [Frame.cfr, .ftt, .mcf, .rtn] ∧ l.tx.Awaits f ∧
        (f = .mcf → l.tx.pc = .sendppm → TakenSince rcv.maxpgerr l.tx.p h) := by
      by_cases f2 : l.rx.pc = .f2
      · exact inv.answer_rx f2 answer
      · exact inv.reply f (reply_rx f2 answer)
    obtain ⟨data, mem, awaits, taken⟩ := meant
    refine ⟨?_, mem, awaits, fun mcf label => (taken mcf label).received⟩
    rw [Option.eq_none_iff_forall_ne_some]
    intro page sent
    rw [data_rx sent] at data
    cases data
  data page sent := inv.data page (data_rx sent)
  ended label noErr ended good := by
    have ended : (h ++ (Call.step rcv input l.rx).2.flatMap (heardBy l.data)).foldl pageEnded false =
      true := ended
    have good : (Call.step rcv input l.rx).1.good = true := good
    by_cases reGetdata : l.rx.pc = .reGetdata
    · exact inv.ended_reGetdata hears reGetdata label noErr ended good
    · rw [List.foldl_append, foldl_pageEnded_rx _ _ (not_received reGetdata)] at ended
      refine (inv.ended label noErr ended ?_).received
      by_cases f2 : l.rx.pc = .f2
      · rwa [inv.good_f2 f2 label] at good
      · rwa [good_step rcv l.rx input ⟨f2, reGetdata⟩] at good

/-! ## Runs -/

variable {loc loc' : Cap} {good good' : Bool} {turn : Turn}

theorem linked_start (parties : Parties snd rcv) :
    Linked maxpgerr [] (FaxLine.start snd rcv loc loc' good good') := by
  have tx : (FaxLine.start snd rcv loc loc' good good').tx.pc = .t := by
    simp [FaxLine.start, Call.start, parties.calling]
  have rx : (FaxLine.start snd rcv loc loc' good good').rx.pc = .r := by
    simp [FaxLine.start, Call.start, parties.answering]
  refine ⟨⟨?_, ?_, rfl, ?_⟩, ⟨?_, fun f2 => ?_⟩, fun f2 => ?_, fun f answer => ?_, fun page sent => ?_,
    fun label => ?_⟩
  · rw [tx]
    exact .inl trivial
  · simp [FaxLine.start, Call.start]
  · rintro (dis | dis) <;> cases dis
  · rw [rx]
    exact .inr (.inl rfl)
  · rw [rx] at f2
    cases f2
  · rw [rx] at f2
    cases f2
  · cases answer
  · cases sent
  · rw [tx] at label
    cases label

theorem Linked.step (parties : Parties snd rcv) (inv : Linked rcv.maxpgerr h l)
    (met : l.Hears snd rcv turn ∧ EndsBefore h l turn) :
    Linked rcv.maxpgerr (h ++ (FaxLine.step snd rcv turn l).2) (FaxLine.step snd rcv turn l).1 := by
  cases turn with
  | tx input => exact inv.step_tx parties met.1
  | rx input => exact inv.step_rx met.1 met.2

/-- A page counts as sent only when the receiver got it, after it was sent for the last time. -/
def Acknowledged (maxpgerr : Nat) (before : List LineEvent) : LineEvent → Prop
  | .tx (.acked page _) => TakenSince maxpgerr page before
  | _ => True

/-- The answer that confirms a page is MCF, and about the page at hand. -/
theorem Linked.confirmed (parties : Parties snd rcv) (inv : Linked maxpgerr h l)
    (hears : l.Hears snd rcv (.tx input)) (label : l.tx.pc = .sendppm)
    (confirms : input.answer.getfr.Confirms) :
    TakenSince maxpgerr l.tx.p h ∧ l.reply = some .mcf ∧ input.answer.getfr = .mcf := by
  cases answer : input.answer with
  | timeout | carrier =>
    rw [answer] at confirms
    simp [Answer.getfr, Frame.Confirms] at confirms
  | frame fcf fif =>
    have confirms : (Frame.ofCode (fcf % 0x80)).Confirms := by rwa [answer] at confirms
    rcases hears _ (hears_eq answer (by rw [label]; decide)) with reply | said
    · obtain ⟨-, mem, -, taken⟩ := inv.reply _ reply
      dsimp only at mem taken reply
      have mcf : Frame.ofCode (fcf % 0x80) = .mcf := by
        rcases confirms with frame | frame | frame <;> rw [frame] at mem ⊢ <;> simp at mem
      exact ⟨taken mcf label, mcf ▸ reply, mcf⟩
    · obtain ⟨-, frame, -⟩ := receiver_speaks parties inv.rx said
      rcases frame with frame | frame <;> dsimp only at frame <;> rw [frame] at confirms <;>
        simp [Frame.Confirms] at confirms

theorem acknowledged_step (parties : Parties snd rcv) (inv : Linked rcv.maxpgerr h l)
    (hears : l.Hears snd rcv turn) (all : Always (Acknowledged rcv.maxpgerr) h) :
    Always (Acknowledged rcv.maxpgerr) (h ++ (FaxLine.step snd rcv turn l).2) := by
  cases turn with
  | rx input =>
    refine all.append fun e mem before => ?_
    cases e with
    | tx e => exact absurd mem heardBy_tx
    | _ => trivial
  | tx input =>
    show Always _ (h ++ (Call.step snd input l.tx).2.map .tx)
    by_cases label : l.tx.pc = .sendppm
    · simp only [Call.step, label]
      have sent (es : List Event) (ppm : es = unlessEvent l.tx.err (.sent l.tx.ppm l.tx.disbit [])) :
          Always (Acknowledged rcv.maxpgerr) (h ++ es.map .tx) := by
        refine all.append fun e mem before => ?_
        obtain ⟨e', shown, rfl⟩ := List.mem_map.1 mem
        rw [ppm] at shown
        rw [(mem_unlessEvent.1 shown).2]
        trivial
      rcases stepSendppm_cases l.tx parties.retries input with ⟨confirms, eq⟩ | ⟨-, events, -⟩
      · obtain ⟨taken, -, -⟩ := inv.confirmed parties hears label confirms
        rw [eq, List.map_append, ← List.append_assoc]
        refine always_snoc.2 ⟨sent _ rfl, ?_⟩
        refine taken.append fun q mem => ?_
        obtain ⟨e, mem, same⟩ := List.mem_map.1 mem
        rw [(mem_unlessEvent.1 mem).2] at same
        cases same
      · exact sent _ events
    · refine all.append fun e mem before => ?_
      obtain ⟨e', shown, rfl⟩ := List.mem_map.1 mem
      cases e' with
      | acked page ppm => exact absurd (List.mem_singleton.1 (step_events input shown)) label
      | _ => trivial

/-- A frame comes in, and all else goes well. -/
def framed (fcf : Nat) (fif : List Nat) : Input := { answered 0 with answer := .frame fcf fif }

/-- Two pages.  The first MCF comes too late, and MPS is sent again while the receiver waits for the next
page. -/
def lateMcf : List Turn :=
  [.rx (answered 0), .tx (framed 0x01 [0x00, 0x72, 0x1e]), .tx (answered 0), .tx (answered 0),
    .rx (framed 0x41 [0x00, 0x62, 0x1e]), .rx (answered 0), .tx (answered 0x21), .rx (answered 0),
    .tx (answered 0), .rx (answered 0), .rx (framed 0x72 []), .rx (answered 0),
    .tx { answered 0 with answer := .timeout }, .rx (answered 0),
    .rx { answered 0 with command := false }, .rx (framed 0x72 []), .rx (answered 0),
    .tx (answered 0x31), .tx (answered 0), .tx (answered 0), .rx (answered 0), .rx (answered 0),
    .rx (framed 0x74 []), .rx (answered 0), .tx (answered 0x31), .rx (framed 0x5f []),
    .tx (answered 0), .tx (answered 0)]

theorem parties_two : Parties (sending 2) receiving := ⟨rfl, Nat.succ_pos 1, rfl, rfl, rfl⟩

end QFax.Efax

import QFax.Linmodem.AtLine

/-!
# Command mode

`lm_at_parser` looks at `at_state` once in each call, and the loop of the command mode goes on until
`tx_fifo` is empty.  The bytes leave the queue in the order in which they came, and the parser is
in command mode only while the modem is idle.  But bytes that are in the queue behind a line that
dials or answers are taken for commands, instead of being left to the connection
(`command_mode_iff`).
-/

namespace QFax.Linmodem

open Machine

/-- The bytes that found room in `tx_fifo`. -/
def arrivals (h : List AtEvent) : List (BitVec 8) :=
  h.filterMap fun e => match e with
    | .queued c => some c
    | _ => none

/-- The bytes that left it, to the parser or to a connection. -/
def departures (h : List AtEvent) : List (BitVec 8) :=
  h.filterMap fun e => match e with
    | .taken _ c | .data c => some c
    | _ => none

/-- The parser takes bytes in command mode only. -/
def InCommandMode : AtEvent → Prop
  | .taken mode _ => mode = .command
  | _ => True

/-- The bytes behind the end of the first line that dials or answers. -/
def afterCall : List (BitVec 8) → List (BitVec 8) → List (BitVec 8)
  | _, [] => []
  | line, c :: items =>
    if isTerminator c && isCall line then items else afterCall (typeChar line c) items

/-- The line in the buffer of the parser. -/
def Terminal.line (t : Terminal) : List (BitVec 8) :=
  (List.range t.at_line_ptr.toNat).map fun i : Nat => t.at_line i

/-- When the parser is called in command mode, the queue has nothing behind a line that dials or
answers. -/
def NothingBehind (_ : List AtEvent) (t : Terminal) : AtInput → Prop
  | .parser => t.at_state = .command → afterCall t.line t.tx_fifo.items = []
  | _ => True

theorem LineIs.line_eq {t : Terminal} {line : List (BitVec 8)} (is : LineIs t line) :
    t.line = line := by
  rw [Terminal.line, is.ptr, Int.toNat_natCast, is.cells_eq]

/-! ## The order of the bytes -/

/-- What is in the queue and what arrives, leaves or stays in the same order. -/
def Transfers (t : Terminal) (es : List AtEvent) (t' : Terminal) : Prop :=
  t.tx_fifo.items ++ arrivals es = departures es ++ t'.tx_fifo.items

section Order

variable {t t' t'' : Terminal} {es es' : List AtEvent}

theorem arrivals_append (h es : List AtEvent) : arrivals (h ++ es) = arrivals h ++ arrivals es :=
  List.filterMap_append

theorem departures_append (h es : List AtEvent) :
    departures (h ++ es) = departures h ++ departures es :=
  List.filterMap_append

theorem Transfers.aside (arrived : arrivals es = []) (left : departures es = [])
    (fifo : t'.tx_fifo = t.tx_fifo) : Transfers t es t' := by
  rw [Transfers, arrived, left, fifo, List.append_nil, List.nil_append]

theorem Transfers.trans (first : Transfers t es t') (second : Transfers t' es' t'') :
    Transfers t (es ++ es') t'' := by
  unfold Transfers at *
  rw [arrivals_append, departures_append, ← List.append_assoc, first, List.append_assoc, second,
    List.append_assoc]

theorem sm_get_bit_none {f f' : SmFifo (BitVec 8)} (got : sm_get_bit f = (none, f')) :
    f.items = [] := by
  obtain ⟨items, size, bounded⟩ := f
  cases items with
  | nil => rfl
  | cons c rest => cases got

theorem sm_get_bit_some {f f' : SmFifo (BitVec 8)} {c : BitVec 8} (got : sm_get_bit f = (some c, f')) :
    f.items = c :: f'.items := by
  obtain ⟨items, size, bounded⟩ := f
  cases items with
  | nil => cases got
  | cons c' rest =>
    obtain ⟨same, rfl⟩ := Prod.mk.inj got
    rw [Option.some.inj same]

/-- One byte leaves. -/
theorem Transfers.get {c : BitVec 8} {f : SmFifo (BitVec 8)} (got : sm_get_bit t.tx_fifo = (some c, f))
    {e : AtEvent} (arrived : arrivals [e] = []) (left : departures [e] = [c]) :
    Transfers t [e] { t with tx_fifo := f } := by
  rw [Transfers, arrived, left, sm_get_bit_some got, List.append_nil, List.singleton_append]

theorem readTty_transfers (buf : List (BitVec 8)) (t : Terminal) :
    Transfers t (t.readTty buf).2 (t.readTty buf).1 := by
  induction buf generalizing t with
  | nil => exact .aside rfl rfl rfl
  | cons c buf ih =>
    have later := ih { t with tx_fifo := sm_put_bit t.tx_fifo c }
    rw [Terminal.readTty]
    dsimp only
    by_cases room : t.tx_fifo.items.length < t.tx_fifo.max_size
    · rw [if_pos room]
      have first : Transfers t [.queued c] { t with tx_fifo := sm_put_bit t.tx_fifo c } := by
        show t.tx_fifo.items ++ [c] = (sm_put_bit t.tx_fifo c).items
        rw [sm_put_bit, dif_pos room]
      exact first.trans later
    · rw [if_neg room]
      have first : Transfers t [] { t with tx_fifo := sm_put_bit t.tx_fifo c } := by
        refine .aside rfl rfl ?_
        show sm_put_bit t.tx_fifo c = t.tx_fifo
        rw [sm_put_bit, dif_neg room]
      exact first.trans later

theorem sendData_transfers (n : Nat) (t : Terminal) :
    Transfers t (t.sendData n).2 (t.sendData n).1 := by
  induction n generalizing t with
  | zero => exact .aside rfl rfl rfl
  | succ n ih =>
    rw [Terminal.sendData]
    rcases got : sm_get_bit t.tx_fifo with ⟨_ | c, tx_fifo⟩
    · exact .aside rfl rfl rfl
    · have first : Transfers t [.data c] { t with tx_fifo := tx_fifo } := .get got rfl rfl
      exact first.trans (ih { t with tx_fifo := tx_fifo })

end Order

/-! ## The loop of the command mode -/

section Loop

variable {t : Terminal} {line : List (BitVec 8)}

/-- In command mode the modem is idle. -/
def IdleInCommand (t : Terminal) : Prop := t.at_state = .command → t.sm.state = .idle

/-- What the loop does: it keeps the order, and it takes bytes out of command mode exactly if there
are any behind a call. -/
structure LoopDone (t : Terminal) (line : List (BitVec 8)) (t' : Terminal) (es : List AtEvent) :
    Prop where
  order : Transfers t es t'
  idle : IdleInCommand t → IdleInCommand t'
  taken : (∀ e ∈ es, InCommandMode e) ↔
    if t.at_state = .command then afterCall line t.tx_fifo.items = [] else t.tx_fifo.items = []

theorem LoopDone.empty (line : List (BitVec 8)) (none : t.tx_fifo.items = []) :
    LoopDone t line t [] := by
  refine ⟨.aside rfl rfl rfl, id, iff_of_true (fun e member => by cases member) ?_⟩
  rw [none]
  split <;> rfl

/-- A character, and what the loop does behind it. -/
theorem LoopDone.char {c : BitVec 8} {f : SmFifo (BitVec 8)} {t' t'' : Terminal}
    {es later : List AtEvent}
    (got : sm_get_bit t.tx_fifo = (some c, f))
    (done : CharDone { t with tx_fifo := f } line c t' es)
    (rest : LoopDone t' (typeChar line c) t'' later) :
    LoopDone t line t'' (.taken t.at_state c :: es ++ later) := by
  have fifo : t'.tx_fifo.items = f.items := congrArg SmFifo.items done.fifo
  have mode : t'.at_state = if isTerminator c && isCall line then .dialing else t.at_state := done.mode
  refine ⟨?_, ?_, ?_⟩
  · have first : Transfers t [.taken t.at_state c] { t with tx_fifo := f } := .get got rfl rfl
    have inner : Transfers { t with tx_fifo := f } es t' :=
      .aside (done.filterMap_eq _ (fun _ => rfl)
        fun _ => rfl) (done.filterMap_eq _ (fun _ => rfl) fun _ => rfl)
        done.fifo
    exact (first.trans inner).trans rest.order
  · intro idle
    apply rest.idle
    intro command
    rw [mode] at command
    cases call : isTerminator c && isCall line with
    | true =>
      rw [call, if_pos rfl] at command
      cases command
    | false =>
      rw [call, if_neg Bool.false_ne_true] at command
      exact (done.modem call).trans (idle command)
  · have inner : ∀ e ∈ es, InCommandMode e := by
      intro e member
      rcases done.kinds e member with rfl | ⟨number, rfl⟩ <;> exact trivial
    rw [List.forall_mem_append, List.forall_mem_cons, and_iff_left inner, rest.taken, fifo, mode,
      sm_get_bit_some got, afterCall]
    by_cases command : t.at_state = .command
    · rw [if_pos command, command]
      cases isTerminator c && isCall line with
      | true => exact and_iff_right rfl
      | false => exact and_iff_right rfl
    · rw [if_neg command]
      exact iff_of_false (fun both => command both.1) (List.cons_ne_nil _ _)

theorem commandLoop_done (cfg : AtConfig) {size : Nat} (is : LineIs t line)
    (whole : t.tx_fifo.items.length ≤ size) :
    LoopDone t line (t.commandLoop cfg size).1 (t.commandLoop cfg size).2 := by
  induction size generalizing t line with
  | zero => exact .empty line (List.eq_nil_of_length_eq_zero (Nat.le_zero.mp whole))
  | succ size ih =>
    rw [Terminal.commandLoop]
    rcases got : sm_get_bit t.tx_fifo with ⟨_ | c, f⟩
    · exact .empty line (sm_get_bit_none got)
    · have is' : LineIs { t with tx_fifo := f } line := is.congr rfl rfl
      have done := atChar_done cfg is' c
      have fewer : (Terminal.atChar cfg c { t with tx_fifo := f }).1.tx_fifo.items.length ≤ size := by
        rw [done.fifo]
        rw [sm_get_bit_some got] at whole
        exact Nat.le_of_succ_le_succ whole
      exact .char got done (ih done.typed fewer)

end Loop

/-! ## Runs -/

section Runs

variable {cfg : AtConfig} {h : List AtEvent} {t : Terminal}

theorem lm_get_state_idle {s : Modem} : lm_get_state s = .idle ↔ s.state = .idle := by
  unfold lm_get_state
  cases s.state <;> simp

/-- An idle modem stays idle until it is asked to dial or to answer. -/
theorem sm_process_idle {s : Modem} (idle : s.state = .idle) (config : LinModemConfig)
    (nb_samples ret : Nat) :
    (s.sm_process config nb_samples ret).1.state = .idle := by
  have same : (s.modulate config nb_samples).state = .idle :=
    (modulate_frame config nb_samples s).1.trans idle
  have step : (s.modulate config nb_samples).transition config ret =
    (s.modulate config nb_samples, []) := by
    unfold Modem.transition
    rw [same]
  show ((s.modulate config nb_samples).transition config ret).1.state = .idle
  rw [step]
  exact same

/-- A call of the parser outside the command mode. -/
theorem parser_answers (buf : List (BitVec 8)) (mode : AtMode)
    (idle : mode = .command → t.sm.state = .idle) :
    Transfers t [] { t.at_printf buf with at_state := mode } ∧
      IdleInCommand { t.at_printf buf with at_state := mode } := by
  rw [at_printf_eq]
  exact ⟨.aside rfl rfl rfl, idle⟩

/-- What a step does. -/
structure StepDone (h : List AtEvent) (t : Terminal) (input : AtInput) (t' : Terminal)
    (es : List AtEvent) : Prop where
  order : Transfers t es t'
  idle : IdleInCommand t'
  taken : (∀ e ∈ es, InCommandMode e) ↔ NothingBehind h t input

theorem parser_done {line : List (BitVec 8)} (is : LineIs t line) (idle : IdleInCommand t) :
    StepDone h t .parser (t.lmAtParser cfg).1 (t.lmAtParser cfg).2 := by
  have silent : ∀ t', t.at_state ≠ .command → Transfers t [] t' ∧ IdleInCommand t' →
      StepDone h t .parser t' [] := by
    intro t' other ⟨order, idle'⟩
    exact ⟨order, idle', iff_of_true (fun e member => by cases member)
      fun command => absurd command other⟩
  unfold Terminal.lmAtParser
  cases mode : t.at_state with
  | command =>
    obtain ⟨order, idle', taken⟩ := commandLoop_done cfg is (le_refl (sm_size t.tx_fifo))
    refine ⟨order, idle' idle, ?_⟩
    rw [if_pos mode] at taken
    rw [taken, NothingBehind, is.line_eq]
    exact ⟨fun nothing _ => nothing, fun nothing => nothing mode⟩
  | dialing =>
    have other : t.at_state ≠ .command := by
      rw [mode]
      exact AtMode.noConfusion
    dsimp only
    cases state : lm_get_state t.sm with
    | idle => exact silent _ other (parser_answers _ _ fun _ => lm_get_state_idle.mp state)
    | connected => exact silent _ other (parser_answers _ _ AtMode.noConfusion)
    | connecting => exact silent _ other ⟨.aside rfl rfl rfl, fun command => absurd command other⟩
  | connected =>
    have other : t.at_state ≠ .command := by
      rw [mode]
      exact AtMode.noConfusion
    dsimp only
    split
    case isTrue state => exact silent _ other (parser_answers _ _ fun _ => lm_get_state_idle.mp state)
    case isFalse => exact silent _ other ⟨.aside rfl rfl rfl, fun command => absurd command other⟩

theorem step_done {line : List (BitVec 8)} (is : LineIs t line) (idle : IdleInCommand t)
    (input : AtInput) :
    StepDone h t input (t.step cfg input).1 (t.step cfg input).2 := by
  cases input with
  | tty buf =>
    obtain ⟨same, events⟩ := readTty_frame buf t
    refine ⟨readTty_transfers buf t, ?_, iff_of_true (fun e member => ?_) trivial⟩
    · show IdleInCommand (t.readTty buf).1
      rw [same]
      exact idle
    · obtain ⟨c, rfl⟩ := events e member
      exact trivial
  | parser => exact parser_done is idle
  | process nb_samples ret sent received =>
    have modem : ∀ s : Modem, s = t.sm → t.at_state = .command →
        (s.sm_process cfg.modem nb_samples ret).1.state = .idle := by
      intro s same command
      rw [same]
      exact sm_process_idle (idle command) cfg.modem nb_samples ret
    unfold Terminal.step
    dsimp only
    split
    · obtain ⟨same, events⟩ := sendData_frame sent t
      refine ⟨sendData_transfers sent t, ?_, iff_of_true (fun e member => ?_) trivial⟩
      · intro command
        apply modem
        · rw [same]
        · rw [← command]
          show t.at_state = (t.sendData sent).1.at_state
          rw [same]
      · obtain ⟨c, rfl⟩ := events e member
        exact trivial
    · exact ⟨.aside rfl rfl rfl, modem t.sm rfl, iff_of_true (fun e member => by cases member) trivial⟩
  | written n =>
    exact ⟨.aside rfl rfl rfl, idle, iff_of_true (fun e member => by cases member) trivial⟩

/-- What holds in every run. -/
structure Orderly (start : Terminal) (h : List AtEvent) (t : Terminal) : Prop where
  typing : Typing h t
  order : Transfers start h t
  idle : IdleInCommand t

theorem Orderly.step {start : Terminal} (orderly : Orderly start h t) (input : AtInput) :
    Orderly start (h ++ (t.step cfg input).2) (t.step cfg input).1 := by
  have done : StepDone h t input (t.step cfg input).1 (t.step cfg input).2 :=
    step_done orderly.typing.line orderly.idle input
  exact ⟨orderly.typing.step input, orderly.order.trans done.order, done.idle⟩

theorem Orderly.init (at_line : Int → BitVec 8) :
    Orderly (terminal_init at_line) [] (terminal_init at_line) :=
  ⟨.init at_line, .aside rfl rfl rfl, fun _ => rfl⟩

theorem orderly_run (cfg : AtConfig) (at_line : Int → BitVec 8) (inputs : List AtInput) :
    Orderly (terminal_init at_line) (feed (Terminal.step cfg) inputs [] (terminal_init at_line)).1
      (feed (Terminal.step cfg) inputs [] (terminal_init at_line)).2 :=
  (runs_feed (Terminal.step cfg) inputs (terminal_init at_line)).invariant (.init at_line)
    fun input orderly _ => orderly.step input

end Runs

/-- The parser takes bytes in command mode only, all bytes leave the queue in the order in which
they came, and the modem is idle in command mode. -/
structure Disciplined (h : List AtEvent) (t : Terminal) : Prop where
  taken : ∀ e ∈ h, InCommandMode e
  order : arrivals h = departures h ++ t.tx_fifo.items
  idle : t.at_state = .command → t.sm.state = .idle

/-- However bytes come, and the calls of the parser and of the modem follow each other, command mode
is kept exactly if the parser never finds bytes behind a line that dials or answers. -/
theorem command_mode_iff (cfg : AtConfig) (at_line : Int → BitVec 8) (inputs : List AtInput) :
    Disciplined (feed (Terminal.step cfg) inputs [] (terminal_init at_line)).1
        (feed (Terminal.step cfg) inputs [] (terminal_init at_line)).2 ↔
      Allowed (Terminal.step cfg) NothingBehind inputs [] (terminal_init at_line) := by
  have taken : (∀ e ∈ (feed (Terminal.step cfg) inputs [] (terminal_init at_line)).1, InCommandMode e) ↔
      (∀ e ∈ [], InCommandMode e) ∧
        Allowed (Terminal.step cfg) NothingBehind inputs [] (terminal_init at_line) :=
    forall_feed_iff (I := Orderly (terminal_init at_line)) (fun input orderly => orderly.step input)
      (fun input orderly => (step_done orderly.typing.line orderly.idle input).taken) (.init at_line)
  obtain ⟨-, order, idle⟩ := orderly_run cfg at_line inputs
  constructor
  · intro disciplined
    exact (taken.mp disciplined.taken).2
  · intro allowed
    exact ⟨taken.mpr ⟨List.forall_mem_nil _, allowed⟩, order, idle⟩

/-- A character typed behind `ATD1` before the parser is called. -/
theorem typed_ahead : ¬ Disciplined
    (feed (Terminal.step ⟨default_lm_config, false⟩) [.tty (ascii "ATD1\rX"),
      .parser] [] (terminal_init 0)).1
    (feed (Terminal.step ⟨default_lm_config, false⟩) [.tty (ascii "ATD1\rX"),
      .parser] [] (terminal_init 0)).2 := by
  intro disciplined
  have member : AtEvent.taken .dialing 0x58 ∈
      (feed (Terminal.step ⟨default_lm_config, false⟩) [.tty (ascii "ATD1\rX"), .parser] []
        (terminal_init 0)).1 := by
    decide +kernel
  cases disciplined.taken _ member

end QFax.Linmodem

import Mathlib.Data.List.Basic

/-!
# Machines with inputs and a history

A machine takes a state and an input to the next state and to the events it shows on the way.  `Runs`
collects the events of all steps so far; every step may be restricted by a condition on the history,
the state before the step and its input.  `Runs.invariant` is the one induction over runs, and
`Always` lifts a requirement on single events, each judged by the events before it, to histories.
-/

namespace Machine

variable {σ ι ε : Type}

/-- A machine: one step for every state and input. -/
abbrev Step (σ ι ε : Type) : Type := ι → σ → σ × List ε

/-- The histories and states that steps meeting a condition can reach. -/
inductive Runs (step : Step σ ι ε) (ok : List ε → σ → ι → Prop) (start : σ) : List ε → σ → Prop
  | refl : Runs step ok start [] start
  | next {h : List ε} {s : σ} (i : ι) :
    Runs step ok start h s → ok h s i → Runs step ok start (h ++ (step i s).2) (step i s).1

variable {step : Step σ ι ε} {ok : List ε → σ → ι → Prop} {start : σ}

/-- What holds at the start and is preserved by every step that meets the condition holds of every
run. -/
theorem Runs.invariant {P : List ε → σ → Prop} (initial : P [] start)
    (preserved : ∀ {h s} (i : ι), P h s → ok h s i → P (h ++ (step i s).2) (step i s).1)
    {h : List ε} {s : σ} (run : Runs step ok start h s) : P h s := by
  induction run with
  | refl => exact initial
  | next i _ met ih => exact preserved i ih met

/-- Feed a list of inputs to the machine. -/
def feed (step : Step σ ι ε) : List ι → List ε → σ → List ε × σ
  | [], h, s => (h, s)
  | i :: is, h, s => feed step is (h ++ (step i s).2) (step i s).1

theorem feed_append (step : Step σ ι ε) (is js : List ι) (h : List ε) (s : σ) :
    feed step (is ++ js) h s = feed step js (feed step is h s).1 (feed step is h s).2 := by
  induction is generalizing h s with
  | nil => rfl
  | cons i is ih => exact ih _ _

/-- What was shown before is kept. -/
theorem feed_history (step : Step σ ι ε) (is : List ι) (h : List ε) (s : σ) :
    feed step is h s = (h ++ (feed step is [] s).1, (feed step is [] s).2) := by
  induction is generalizing h s with
  | nil => exact congrArg (·, s) (List.append_nil h).symm
  | cons i is ih =>
    rw [feed, feed, ih, ih ([] ++ _), List.nil_append, List.append_assoc]

/-- The condition is met at every step of a list of inputs. -/
def Allowed (step : Step σ ι ε) (ok : List ε → σ → ι → Prop) : List ι → List ε → σ → Prop
  | [], _, _ => True
  | i :: is, h, s => ok h s i ∧ Allowed step ok is (h ++ (step i s).2) (step i s).1

instance Allowed.instDecidable (ok : List ε → σ → ι → Prop) [∀ h s i, Decidable (ok h s i)] :
    ∀ is h s, Decidable (Allowed step ok is h s)
  | [], _, _ => .isTrue trivial
  | i :: is, h, s =>
    have := instDecidable ok is (h ++ (step i s).2) (step i s).1
    inferInstanceAs (Decidable (ok h s i ∧ Allowed step ok is (h ++ (step i s).2) (step i s).1))

/-- Feeding allowed inputs is a run. -/
theorem Runs.feed {is : List ι} {h : List ε} {s : σ} (run : Runs step ok start h s)
    (allowed : Allowed step ok is h s) :
    Runs step ok start (Machine.feed step is h s).1 (Machine.feed step is h s).2 := by
  induction is generalizing h s with
  | nil => exact run
  | cons i is ih => exact ih (.next i run allowed.1) allowed.2

/-- If, in the states that an invariant leaves, a step's events meet a requirement exactly when its
input meets a condition, then the events of a run do exactly when all its inputs are allowed. -/
theorem forall_feed_iff {Q : ε → Prop} {I : List ε → σ → Prop}
    (kept : ∀ {h s} i, I h s → I (h ++ (step i s).2) (step i s).1)
    (judged : ∀ {h s} i, I h s → ((∀ e ∈ (step i s).2, Q e) ↔ ok h s i))
    {is : List ι} {h : List ε} {s : σ} (inv : I h s) :
    (∀ e ∈ (Machine.feed step is h s).1, Q e) ↔ (∀ e ∈ h, Q e) ∧ Allowed step ok is h s := by
  induction is generalizing h s with
  | nil => exact (and_iff_left trivial).symm
  | cons i is ih =>
    rw [Machine.feed, ih (kept i inv), Allowed, List.forall_mem_append, judged i inv, and_assoc]

/-- Any inputs are a run when nothing is forbidden. -/
theorem runs_feed (step : Step σ ι ε) (is : List ι) (start : σ) :
    Runs step (fun _ _ _ => True) start (feed step is [] start).1 (feed step is [] start).2 := by
  have allowed : ∀ is h s, Allowed step (fun _ _ _ => True) is h s := by
    intro is
    induction is with
    | nil => exact fun _ _ => trivial
    | cons i is ih => exact fun h s => ⟨trivial, ih _ _⟩
  exact Runs.refl.feed (allowed is [] start)

/-! ## Refinement -/

/-- Every step of a machine is matched by one of a second machine that shows the same events. -/
def Refines {τ : Type} (step : Step σ ι ε) (step' : Step τ ι ε) (rel : σ → τ → Prop) : Prop :=
  ∀ i {s t}, rel s t → (step i s).2 = (step' i t).2 ∧ rel (step i s).1 (step' i t).1

/-- The same inputs give the same history. -/
theorem Refines.feed {τ : Type} {step' : Step τ ι ε} {rel : σ → τ → Prop}
    (refines : Refines step step' rel) (is : List ι) {s : σ} {t : τ} (start : rel s t) (h : List ε) :
    (Machine.feed step is h s).1 = (Machine.feed step' is h t).1 ∧
      rel (Machine.feed step is h s).2 (Machine.feed step' is h t).2 := by
  induction is generalizing h s t with
  | nil => exact ⟨rfl, start⟩
  | cons i is ih =>
    obtain ⟨events, related⟩ := refines i start
    rw [Machine.feed, Machine.feed, events]
    exact ih related _

/-! ## Histories -/

/-- Every event of the history meets the requirement, given the events before it. -/
def Always (P : List ε → ε → Prop) (h : List ε) : Prop :=
  ∀ before e after, h = before ++ e :: after → P before e

variable {P : List ε → ε → Prop}

theorem always_nil : Always P [] := by
  intro before e after split
  cases before <;> cases split

/-- One more event. -/
theorem always_snoc {h : List ε} {e : ε} : Always P (h ++ [e]) ↔ Always P h ∧ P h e := by
  constructor
  · intro all
    refine ⟨fun before f after split => all before f (after ++ [e]) ?_, all h e [] rfl⟩
    rw [split, List.append_assoc, List.cons_append]
  · rintro ⟨all, last⟩ before f after split
    rcases List.eq_nil_or_concat' after with rfl | ⟨after', g, rfl⟩
    · obtain ⟨rfl, tail⟩ := List.append_inj' split rfl
      cases tail
      exact last
    · have split' : h ++ [e] = (before ++ f :: after') ++ [g] := by
        rw [split, List.append_assoc, List.cons_append]
      exact all before f after' (List.append_inj' split' rfl).1

/-- The requirement, event by event. -/
def AlwaysFrom (P : List ε → ε → Prop) : List ε → List ε → Prop
  | _, [] => True
  | before, e :: es => P before e ∧ AlwaysFrom P (before ++ [e]) es

theorem always_iff_alwaysFrom {h es : List ε} (all : Always P h) :
    Always P (h ++ es) ↔ AlwaysFrom P h es := by
  induction es generalizing h with
  | nil => rw [List.append_nil, AlwaysFrom, iff_true_intro all]
  | cons e es ih =>
    rw [AlwaysFrom]
    constructor
    · intro all'
      have now : P h e := all' h e es rfl
      exact ⟨now, (ih (always_snoc.2 ⟨all, now⟩)).1 (List.append_cons h e es ▸ all')⟩
    · rintro ⟨now, later⟩
      rw [List.append_cons]
      exact (ih (always_snoc.2 ⟨all, now⟩)).2 later

instance AlwaysFrom.instDecidable [∀ before e, Decidable (P before e)] :
    ∀ before es, Decidable (AlwaysFrom P before es)
  | _, [] => .isTrue trivial
  | before, e :: es =>
    have := instDecidable (before ++ [e]) es
    inferInstanceAs (Decidable (P before e ∧ AlwaysFrom P (before ++ [e]) es))

instance [∀ before e, Decidable (P before e)] (h : List ε) : Decidable (Always P h) :=
  decidable_of_iff (AlwaysFrom P [] h) (always_iff_alwaysFrom always_nil).symm

/-- Further events that meet the requirement whatever came before them. -/
theorem Always.append {h es : List ε} (all : Always P h) (free : ∀ e ∈ es, ∀ before, P before e) :
    Always P (h ++ es) := by
  induction es generalizing h with
  | nil => rwa [List.append_nil]
  | cons e es ih =>
    have first : Always P (h ++ [e]) := always_snoc.2 ⟨all, free e List.mem_cons_self h⟩
    rw [List.append_cons]
    exact ih first fun e' later => free e' (List.mem_cons_of_mem e later)

/-- Further events of which each meets the requirement for those before it. -/
theorem Always.extend {h es : List ε} (all : Always P h)
    (each : ∀ part e rest, es = part ++ e :: rest → P (h ++ part) e) : Always P (h ++ es) := by
  induction es generalizing h with
  | nil => rwa [List.append_nil]
  | cons e es ih =>
    have first : Always P (h ++ [e]) :=
      always_snoc.2 ⟨all, List.append_nil h ▸ each [] e es rfl⟩
    rw [List.append_cons]
    refine ih first fun part e' rest split => ?_
    rw [List.append_assoc, List.singleton_append]
    exact each (e :: part) e' rest (congrArg (e :: ·) split)

/-- An event of a history meets the requirement for the events before it. -/
theorem Always.of_mem {h : List ε} {e : ε} (all : Always P h) (mem : e ∈ h) :
    ∃ before after, h = before ++ e :: after ∧ P before e := by
  obtain ⟨before, after, split⟩ := List.append_of_mem mem
  exact ⟨before, after, split, all before e after split⟩

end Machine

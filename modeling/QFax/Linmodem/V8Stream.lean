import QFax.Linmodem.V8Decode

/-!
# V.8: the bits between two modems

`EarOk` relates what a modem has heard to the bits that it may still hear: those on the line and those
that the other side has queued.  Sending a block, idling, losing bits before the first one is heard
and hearing bits all keep it.
-/

namespace QFax.Linmodem

/-! ## The rest of a stream -/

/-- What is left of a stream of blocks after any number of bits. -/
def Rest (f : V8Flags) (bits : List Bool) : Prop :=
  ∃ b n bs, f.IsBlock b ∧ (∀ c ∈ bs, f.IsBlock c) ∧ bits = b.drop n ++ List.flatten bs

/-- What is left of a stream, for a modem that has heard what came before. -/
def Continues (f : V8Flags) (e : V8Ear) (bits : List Bool) : Prop :=
  ∃ here bs, Whole f e here ∧ (∀ c ∈ bs, f.IsBlock c) ∧ bits = here ++ List.flatten bs

section Streams

variable {f : V8Flags} {e : V8Ear} {bits : List Bool}

theorem V8Flags.IsBlock.ne_nil {b : List Bool} (block : f.IsBlock b) : b ≠ [] := by
  obtain rfl | ⟨kind, rfl⟩ := block
  · exact List.cons_ne_nil _ _
  · exact List.cons_ne_nil _ _

theorem Rest.nil : Rest f [] :=
  ⟨[true], 1, [], .inl rfl, fun _ none => absurd none List.not_mem_nil, rfl⟩

theorem forall_mem_snoc {P : List Bool → Prop} {bs : List (List Bool)} {c : List Bool}
    (all : ∀ b ∈ bs, P b) (last : P c) : ∀ b ∈ bs ++ [c], P b := by
  intro b mem
  obtain early | late := List.mem_append.1 mem
  · exact all b early
  · exact List.mem_singleton.1 late ▸ last

theorem Rest.append (rest : Rest f bits) {c : List Bool} (block : f.IsBlock c) :
    Rest f (bits ++ c) := by
  obtain ⟨b, n, bs, first, blocks, rfl⟩ := rest
  exact ⟨b, n, bs ++ [c], first, forall_mem_snoc blocks block, by simp⟩

theorem Rest.tail (rest : Rest f bits) : Rest f bits.tail := by
  obtain ⟨b, n, bs, first, blocks, rfl⟩ := rest
  cases within : b.drop n with
  | cons bit later =>
    refine ⟨b, n + 1, bs, first, blocks, ?_⟩
    have next : b.drop (n + 1) = later := by rw [← List.tail_drop, within, List.tail_cons]
    rw [next, List.cons_append, List.tail_cons]
  | nil =>
    cases bs with
    | nil => exact Rest.nil
    | cons c cs =>
      have block := blocks c List.mem_cons_self
      refine ⟨c, 1, cs, block, fun d mem => blocks d (List.mem_cons_of_mem c mem), ?_⟩
      rw [List.nil_append, List.flatten_cons, List.tail_append_of_ne_nil block.ne_nil,
        List.drop_one]

/-- A prefix may be missed. -/
theorem Rest.drop (rest : Rest f bits) (n : Nat) : Rest f (bits.drop n) := by
  induction n with
  | zero => exact rest
  | succ n ih =>
    rw [← List.tail_drop]
    exact ih.tail

theorem Rest.heard (rest : Rest f bits) (fresh : e.Fresh) : Continues f e bits := by
  obtain ⟨b, n, bs, first, blocks, rfl⟩ := rest
  exact ⟨b.drop n, bs, whole_drop fresh first n, blocks, rfl⟩

theorem Continues.good (heard : Continues f e bits) : e.2.Good f := by
  obtain ⟨here, bs, whole, -⟩ := heard
  exact whole.1.start

theorem Continues.append (heard : Continues f e bits) {c : List Bool} (block : f.IsBlock c) :
    Continues f e (bits ++ c) := by
  obtain ⟨here, bs, whole, blocks, rfl⟩ := heard
  exact ⟨here, bs ++ [c], whole, forall_mem_snoc blocks block, by simp⟩

/-- One more bit is heard. -/
theorem Continues.hear {bit : Bool} (heard : Continues f e (bit :: bits)) :
    Continues f (e.hear bit) bits := by
  obtain ⟨here, bs, whole, blocks, split⟩ := heard
  cases here with
  | cons bit' here =>
    obtain ⟨rfl, rfl⟩ := List.cons.inj split
    exact ⟨here, bs, ⟨whole.1.2, whole.2⟩, blocks, rfl⟩
  | nil =>
    -- the last block is over and the next one begins
    cases bs with
    | nil => cases split
    | cons c cs =>
      have block := blocks c List.mem_cons_self
      have whole' : Whole f e c := whole_block whole.2 whole.1 block
      cases c with
      | nil => exact absurd rfl block.ne_nil
      | cons bit' c =>
        obtain ⟨rfl, rfl⟩ := List.cons.inj split
        exact ⟨c, cs, ⟨whole'.1.2, whole'.2⟩,
          fun d mem => blocks d (List.mem_cons_of_mem _ mem), rfl⟩

theorem Continues.foldl_hear {now : List Bool} (heard : Continues f e (now ++ bits)) :
    Continues f (now.foldl V8Ear.hear e) bits := by
  induction now generalizing e with
  | nil => exact heard
  | cons bit now ih => exact ih heard.hear

end Streams

/-- A menu that was decoded stays. -/
theorem V8Ear.hear_got {e : V8Ear} (got : e.2.got_cm = true) (bit : Bool) :
    (e.hear bit).2 = e.2 := by
  rw [hear]
  split
  · rw [cm_decode, if_pos got]
  · rfl

theorem V8Ear.foldl_hear_got {e : V8Ear} (got : e.2.got_cm = true) (bits : List Bool) :
    (bits.foldl hear e).2 = e.2 := by
  induction bits generalizing e with
  | nil => rfl
  | cons bit bits ih =>
    have same := hear_got got bit
    rw [List.foldl_cons, ih (by rw [same]; exact got), same]

/-! ## Lines -/

/-- The way to a modem: the bits that have been sent and not been heard, and whether any was heard. -/
structure V8Line where
  bits : List Bool
  heard : Bool

/-- What a modem has heard fits the bits that it may still hear. -/
structure EarOk (f : V8Flags) (s : V8State) (l : V8Line) (pending : List Bool) : Prop where
  heard : l.heard = true → Continues f s.ear pending
  unheard : l.heard = false → Rest f pending
  fresh : l.heard = false → V8State.listens s.state = true → s.ear.Fresh

theorem EarOk.append {f : V8Flags} {s : V8State} {l : V8Line} {pending c : List Bool}
    (ok : EarOk f s l pending) (block : f.IsBlock c) : EarOk f s l (pending ++ c) :=
  ⟨fun heard => (ok.heard heard).append block, fun unheard => (ok.unheard unheard).append block,
    ok.fresh⟩

theorem EarOk.idle {f : V8Flags} {s : V8State} {l : V8Line} {pending : List Bool}
    (ok : EarOk f s l pending) (n : Nat) :
    EarOk f s l (pending ++ List.replicate n true) := by
  induction n generalizing pending with
  | zero => rwa [List.replicate_zero, List.append_nil]
  | succ n ih =>
    rw [List.replicate_succ, ← List.singleton_append, ← List.append_assoc]
    exact ih (ok.append (.inl rfl))

theorem EarOk.blocks {f : V8Flags} {s : V8State} {l : V8Line} {pending : List Bool}
    (ok : EarOk f s l pending) {bs : List (List Bool)} (blocks : ∀ b ∈ bs, f.IsBlock b) :
    EarOk f s l (pending ++ bs.flatten) := by
  induction bs generalizing pending with
  | nil => rwa [List.flatten_nil, List.append_nil]
  | cons b bs ih =>
    rw [List.flatten_cons, ← List.append_assoc]
    exact ih (ok.append (blocks b List.mem_cons_self))
      fun c mem => blocks c (List.mem_cons_of_mem b mem)

/-- Only the ear and the state of the listener matter. -/
theorem EarOk.congr {f : V8Flags} {s s' : V8State} {l l' : V8Line} {pending : List Bool}
    (ok : EarOk f s l pending) (ear : s'.ear = s.ear) (line : l'.heard = l.heard)
    (state : V8State.listens s'.state = true → V8State.listens s.state = true) :
    EarOk f s' l' pending := by
  refine ⟨?_, ?_, ?_⟩
  · rw [line, ear]
    exact ok.heard
  · rw [line]
    exact ok.unheard
  · rw [line, ear]
    exact fun unheard listening => ok.fresh unheard (state listening)

theorem EarOk.good {f : V8Flags} {s : V8State} {l : V8Line} {pending : List Bool}
    (ok : EarOk f s l pending) (listening : V8State.listens s.state = true) : s.menu.Good f := by
  cases heard : l.heard with
  | true => exact (ok.heard heard).good
  | false =>
    obtain ⟨-, -, empty, waiting⟩ := ok.fresh heard listening
    exact ⟨.inl empty, fun got => by rw [show s.menu.got_cm = false from waiting] at got; cases got⟩

theorem EarOk.heard_of_got {f : V8Flags} {s : V8State} {l : V8Line} {pending : List Bool}
    (ok : EarOk f s l pending) (listening : V8State.listens s.state = true)
    (got : s.menu.got_cm = true) : l.heard = true := by
  cases heard : l.heard with
  | true => rfl
  | false =>
    obtain ⟨-, -, -, waiting⟩ := ok.fresh heard listening
    exact (Bool.false_ne_true (waiting.symm.trans got)).elim

namespace V8State

/-- Some bits of the line, after some were missed if none was heard before. -/
def deliver (l : V8Line) (missed n : Nat) : List Bool × V8Line :=
  let bits := if l.heard then l.bits else l.bits.drop missed
  (bits.take n, ⟨bits.drop n, l.heard || !(bits.take n).isEmpty⟩)

theorem put_bit_frame (s : V8State) (bits : List Bool) :
    ∃ data menu zeros, bits.foldl put_bit s =
      { s with data := data, menu := menu, zeros := zeros } := by
  induction bits generalizing s with
  | nil => exact ⟨s.data, s.menu, s.zeros, rfl⟩
  | cons bit bits ih =>
    obtain ⟨data, menu, zeros, eq⟩ := ih (s.put_bit bit)
    exact ⟨data, menu, zeros, eq⟩

end V8State

theorem EarOk.deliver {f : V8Flags} {s : V8State} {l : V8Line} {queued : List Bool}
    (ok : EarOk f s l (l.bits ++ queued)) (listening : V8State.listens s.state = true)
    (missed n : Nat) :
    EarOk f ((V8State.deliver l missed n).1.foldl V8State.put_bit s) (V8State.deliver l missed n).2
      ((V8State.deliver l missed n).2.bits ++ queued) := by
  have ear := V8State.ear_foldl_put_bit s (V8State.deliver l missed n).1
  cases heard : l.heard with
  | true =>
    simp only [V8State.deliver, heard, if_true] at ear ⊢
    have later := ok.heard heard
    rw [← List.take_append_drop n l.bits, List.append_assoc] at later
    have all : Continues f (((l.bits.take n).foldl V8State.put_bit s).ear) (l.bits.drop n ++ queued) :=
      ear ▸ later.foldl_hear
    exact ⟨fun _ => all, (fun none => nomatch none), (fun none => nomatch none)⟩
  | false =>
    simp only [V8State.deliver, heard, Bool.false_eq_true, if_false, Bool.false_or] at ear ⊢
    have rest : Rest f (l.bits.drop missed ++ queued) := by
      have lost := (ok.unheard heard).drop (min missed l.bits.length)
      rw [List.drop_append_of_le_length (min_le_right _ _)] at lost
      obtain within | past := le_total missed l.bits.length
      · rwa [min_eq_left within] at lost
      · rw [min_eq_right past] at lost
        rwa [List.drop_of_length_le past, ← List.drop_of_length_le (le_refl l.bits.length)]
    have fresh := ok.fresh heard listening
    have split := List.take_append_drop n (l.bits.drop missed)
    cases now : (l.bits.drop missed).take n with
    | nil =>
      rw [now, List.nil_append] at split
      rw [split]
      exact ⟨(fun none => nomatch none), fun _ => rest, fun _ _ => fresh⟩
    | cons bit bits =>
      rw [now] at ear
      rw [← split, now, List.append_assoc] at rest
      have all := (rest.heard fresh).foldl_hear
      rw [← ear] at all
      exact ⟨fun _ => all, (fun none => nomatch none), (fun none => nomatch none)⟩

/-! ## Queues -/

theorem foldl_sm_put_bit (f : SmFifo Bool) {bits : List Bool}
    (room : f.items.length + bits.length ≤ f.max_size) :
    (bits.foldl sm_put_bit f).items = f.items ++ bits ∧
      (bits.foldl sm_put_bit f).max_size = f.max_size := by
  induction bits generalizing f with
  | nil => exact ⟨(List.append_nil _).symm, rfl⟩
  | cons bit bits ih =>
    rw [List.length_cons] at room
    have one : f.items.length < f.max_size := by omega
    have room' : (f.items ++ [bit]).length + bits.length ≤ f.max_size := by
      rw [List.length_append, List.length_singleton]
      omega
    have put : sm_put_bit f bit = ⟨f.items ++ [bit], f.max_size, le_of_add_le_left room'⟩ :=
      dif_pos one
    obtain ⟨items, size⟩ := ih ⟨f.items ++ [bit], f.max_size, le_of_add_le_left room'⟩ room'
    rw [List.foldl_cons, put]
    exact ⟨by rw [items, List.append_assoc, List.singleton_append], size⟩

theorem v8_put_bytes_max_size (f : SmFifo Bool) (datas : List Nat) :
    (datas.foldl V8State.v8_put_byte f).max_size = f.max_size := by
  have bit : ∀ (f : SmFifo Bool) (bits : List Bool),
      (bits.foldl sm_put_bit f).max_size = f.max_size := by
    intro f bits
    induction bits generalizing f with
    | nil => rfl
    | cons bit bits ih =>
      refine (ih _).trans ?_
      unfold sm_put_bit
      split <;> rfl
  induction datas generalizing f with
  | nil => rfl
  | cons data datas ih =>
    rw [List.foldl_cons, ih, V8State.v8_put_byte, V8State.sm_put_bits, bit]

/-- Up to four packets fit into the empty queue. -/
theorem queue_packets {q : SmFifo Bool} (empty : q.items = []) (size : q.max_size = 256)
    (f : V8Flags) (kinds : List V8Sync) (few : kinds.length ≤ 4) :
    (((kinds.map f.packet).flatten).foldl sm_put_bit q).items = (kinds.map f.packet).flatten ∧
      (((kinds.map f.packet).flatten).foldl sm_put_bit q).max_size = 256 := by
  have short : ∀ kinds : List V8Sync,
      (kinds.map f.packet).flatten.length ≤ 60 * kinds.length := by
    intro kinds
    induction kinds with
    | nil => exact le_rfl
    | cons kind kinds ih =>
      have first := packet_length f kind
      rw [List.map_cons, List.flatten_cons, List.length_append, List.length_cons]
      omega
  have room : q.items.length + (kinds.map f.packet).flatten.length ≤ q.max_size := by
    have all := short kinds
    rw [empty, size, List.length_nil]
    omega
  obtain ⟨items, size'⟩ := foldl_sm_put_bit q room
  exact ⟨by rw [items, empty, List.nil_append], size'.trans size⟩

namespace V8State

theorem or_ite (p : Prop) [Decidable p] (a b : Nat) :
    (if p then a ||| b else a) = a ||| if p then b else 0 := by
  split
  · rfl
  · exact (Nat.or_zero a).symm

/-- CM and JM are the packet of their mask. -/
theorem cm_send_eq (f : SmFifo Bool) (mod_mask : Nat) :
    cm_send f mod_mask = ((V8Flags.ofMask mod_mask).packet .cm).foldl sm_put_bit f := by
  simp only [cm_send, v8_put_byte, sm_put_bits, V8Flags.packet, V8Flags.body, V8Flags.bytes,
    V8Flags.ofMask, List.foldl_append, List.flatMap_cons, List.flatMap_nil, List.append_nil, or_ite]
  rfl

theorem ci_send_eq (f : SmFifo Bool) (flags : V8Flags) :
    ci_send f = (flags.packet .ci).foldl sm_put_bit f := by
  simp only [ci_send, v8_put_byte, sm_put_bits, V8Flags.packet, V8Flags.body, List.foldl_append]
  rfl

theorem get_bit_eq (s : V8State) :
    ∃ f k, s.get_bit.2 = { s with tx_fifo := f } ∧ f.max_size = s.tx_fifo.max_size ∧
      s.get_bit.1 :: f.items = s.tx_fifo.items ++ List.replicate k true := by
  rw [get_bit]
  obtain ⟨items, max_size, bounded⟩ := s.tx_fifo
  cases items with
  | nil => exact ⟨⟨[], max_size, bounded⟩, 1, rfl, rfl, rfl⟩
  | cons v rest =>
    exact ⟨⟨rest, max_size, Nat.le_of_succ_le bounded⟩, 0, rfl, rfl, (List.append_nil _).symm⟩

/-- What the modulator takes is what was queued, with ones when nothing is left. -/
theorem get_bits_eq (n : Nat) (s : V8State) :
    ∃ f k, (s.get_bits n).2 = { s with tx_fifo := f } ∧ f.max_size = s.tx_fifo.max_size ∧
      (s.get_bits n).1 ++ f.items = s.tx_fifo.items ++ List.replicate k true := by
  induction n generalizing s with
  | zero => exact ⟨s.tx_fifo, 0, rfl, rfl, (List.append_nil _).symm⟩
  | succ n ih =>
    obtain ⟨f, k, eq, size, first⟩ := s.get_bit_eq
    obtain ⟨f', k', eq', size', later⟩ := ih s.get_bit.2
    rw [eq] at eq' size' later
    refine ⟨f', k + k', ?_, size'.trans size, ?_⟩
    · exact (congrArg (fun s => (get_bits n s).2) eq).trans eq'
    · have all : (s.get_bits (n + 1)).1 = s.get_bit.1 :: (get_bits n s.get_bit.2).1 := rfl
      rw [all, eq, List.cons_append, later, ← List.cons_append, first, List.append_assoc,
        List.replicate_append_replicate]

end V8State

end QFax.Linmodem

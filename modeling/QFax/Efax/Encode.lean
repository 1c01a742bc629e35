import QFax.Efax.T4Tables

/-!
# The bits an encoder writes

The encoder keeps fewer than eight bits back between two calls.  Its invariant is that the bytes
handed out, followed by the bits kept back (`Encoder.pend`), are the code words written so far, one
after the other; `putcode` and `runtocode` preserve it at every alignment.
-/

namespace QFax.Efax

open Bits

/-- The bits an encoder keeps back. -/
def Encoder.pend (e : Encoder) : List Bool := toBits (e.shift + 8).toNat e.x

/-- Between two calls an encoder keeps back at most seven bits. -/
def Encoder.Ready (e : Encoder) : Prop := -8 ≤ e.shift ∧ e.shift < 0

theorem newEncoder_ready : newEncoder.Ready := ⟨le_rfl, by decide⟩

theorem newEncoder_pend : newEncoder.pend = [] := rfl

theorem Encoder.length_pend (e : Encoder) : e.pend.length = (e.shift + 8).toNat :=
  length_toBits _ _

theorem Encoder.Ready.length_pend_lt {e : Encoder} (ready : e.Ready) : e.pend.length < 8 := by
  have := ready.1
  have := ready.2
  rw [e.length_pend]
  omega

/-! ## Code words -/

/-- The bits of a code word. -/
def T4Tab.word (p : T4Tab) : List Bool := toBits p.bits p.code

/-- The bits of an EOL. -/
def eol : List Bool := toBits eolBits eolCode

theorem eol_eq : eol = List.replicate 11 false ++ [true] := rfl

@[simp] theorem length_eol : eol.length = 12 := rfl

/-- A register of at most 64 bits takes a code word on the right. -/
theorem toBits_shiftIn {code bits : Nat} (x k : Nat) (lt : code < 2 ^ bits) (fits : k + bits ≤ 64) :
    toBits (k + bits) (shiftIn x code bits) = toBits k x ++ toBits bits code := by
  rw [shiftIn, toBits_mod _ fits, toBits_shiftLeft_or x k lt]

/-- Shifting in a word and handing out the complete bytes. -/
theorem drain_shiftIn {e : Encoder} (ready : e.Ready) {code : Nat} (bits : Nat) (lt : code < 2 ^ bits)
    (fits : bits ≤ 24) :
    let out := drain (shiftIn e.x code bits) (e.shift + bits + 1).toNat (e.shift + bits)
    e.pend ++ toBits bits code =
        bytesBits out.1 ++ (⟨shiftIn e.x code bits, out.2⟩ : Encoder).pend ∧
      (⟨shiftIn e.x code bits, out.2⟩ : Encoder).Ready := by
  obtain ⟨lower, upper⟩ := ready
  have drained := toBits_drain (shiftIn e.x code bits) (e.shift + bits + 1).toNat (e.shift + bits)
    (by omega) (by omega)
  have width : (e.shift + bits + 8).toNat = (e.shift + 8).toNat + bits := by omega
  rw [width, toBits_shiftIn _ _ lt (by omega)] at drained
  exact drained

/-- `putcode` appends a code word. -/
theorem putcode_bits {e : Encoder} (ready : e.Ready) (code bits : Nat) (pos : 0 < bits)
    (lt : code < 2 ^ bits) (fits : bits ≤ 24) :
    e.pend ++ toBits bits code = bytesBits (putcode e code bits).2 ++ (putcode e code bits).1.pend ∧
      (putcode e code bits).1.Ready := by
  have nonzero : bits ≠ 0 := by omega
  have written := drain_shiftIn ready bits lt fits
  unfold putcode
  simp only [nonzero, ne_eq, not_false_eq_true, if_true]
  exact written

/-- The low byte of the register is the end of the code word just written. -/
theorem putcode_low {e : Encoder} {code bits w : Nat} (lt : code < 2 ^ bits) (le : w ≤ bits)
    (fits : bits ≤ 24) : toBits w (putcode e code bits).1.x = toBits w code := by
  have wide : toBits (0 + bits) (shiftIn e.x code bits) = toBits 0 e.x ++ toBits bits code :=
    toBits_shiftIn e.x 0 lt (by omega)
  obtain ⟨v, rfl⟩ : ∃ v, bits = v + w := ⟨bits - w, by omega⟩
  rw [Nat.zero_add, toBits_zero_width, List.nil_append, toBits_add, toBits_add] at wide
  exact (List.append_inj wide (by simp)).2

/-- The flush hands out the low byte of the register and keeps nothing back. -/
theorem putcode_flush {e : Encoder} (ready : e.Ready) (small : e.x < 2 ^ 64) :
    putcode e 0 0 = (⟨e.x, -8⟩, [UInt8.ofNat e.x]) := by
  have kept : shiftIn e.x 0 0 = e.x := by
    rw [shiftIn, Nat.shiftLeft_zero, Nat.or_zero, Nat.mod_eq_of_lt small]
  have zero : e.shift + -e.shift = 0 := by omega
  have := ready.1
  simp only [putcode, kept, ne_eq, not_true, if_false, zero]
  rfl

/-! ## The return to control -/

theorem eolCode_lt : eolCode < 2 ^ eolBits := by decide

/-- The EOL that `putcode` appends. -/
theorem putcode_eol {e : Encoder} (ready : e.Ready) :
    e.pend ++ eol =
        bytesBits (putcode e eolCode eolBits).2 ++ (putcode e eolCode eolBits).1.pend ∧
      (putcode e eolCode eolBits).1.Ready :=
  putcode_bits ready eolCode eolBits (by decide) eolCode_lt (by decide)

/-- `putEols` appends EOLs, the last of which stays at the end of the register. -/
theorem putEols_bits (n : Nat) {e : Encoder} (ready : e.Ready) :
    e.pend ++ (List.replicate n eol).flatten =
        bytesBits (putEols n e).2 ++ (putEols n e).1.pend ∧
      (putEols n e).1.Ready ∧
      (0 < n → (putEols n e).1.x < 2 ^ 64 ∧
        ∀ w ≤ eolBits, toBits w (putEols n e).1.x = toBits w eolCode) := by
  induction n generalizing e with
  | zero => exact ⟨by simp [putEols], ready, fun pos => absurd pos (by omega)⟩
  | succ n ih =>
    obtain ⟨bits, ready'⟩ := putcode_eol ready
    obtain ⟨rest, final, last⟩ := ih ready'
    have step : putEols (n + 1) e = ((putEols n (putcode e eolCode eolBits).1).1,
        (putcode e eolCode eolBits).2 ++ (putEols n (putcode e eolCode eolBits).1).2) := rfl
    rw [step]
    refine ⟨?_, final, fun _ => ?_⟩
    · rw [List.replicate_succ, List.flatten_cons, ← List.append_assoc, bits, bytesBits_append,
        List.append_assoc, rest, List.append_assoc]
    · cases n with
      | zero =>
        exact ⟨Nat.mod_lt _ (by decide), fun w le => putcode_low eolCode_lt le (by decide)⟩
      | succ n => exact last (by omega)

theorem toBits_one (m : Nat) : toBits (m + 1) 1 = List.replicate m false ++ [true] :=
  toBits_of_lt (v := 1) m (by decide)

/-- The bits of a return to control that is written after `k` bits that do not fill a byte.  When
its last EOL ends inside a byte, the flush repeats zeros before the one; when it ends a byte, the
flush adds a byte of its own. -/
theorem putRtc_bits {e : Encoder} (ready : e.Ready) :
    ∃ z tail, bytesBits (putRtc e).2 =
        e.pend ++ (List.replicate 4 eol).flatten ++ (List.replicate z false ++ true :: tail) ∧
      (12 ≤ z ∧ z ≤ 18 ∧ tail = [] ∧ (e.pend.length + 4) % 8 ≠ 0 ∨
        z = 11 ∧ tail = toBits 8 1 ∧ (e.pend.length + 4) % 8 = 0) ∧
      (putRtc e).1.Ready ∧ (putRtc e).1.pend = [] := by
  obtain ⟨bits, ready', last⟩ := putEols_bits rtcEol ready
  obtain ⟨small, low⟩ := last (by decide)
  have flushed := putcode_flush ready' small
  have step : putRtc e = ((putcode (putEols rtcEol e).1 0 0).1,
      (putEols rtcEol e).2 ++ (putcode (putEols rtcEol e).1 0 0).2) := rfl
  rw [step, flushed]
  generalize (putEols rtcEol e).2 = codes at bits
  generalize (putEols rtcEol e).1 = e' at bits ready' small low
  have fifth : (List.replicate rtcEol eol).flatten =
      (List.replicate 4 eol).flatten ++ (List.replicate 11 false ++ [true]) := rfl
  have flush : bytesBits (codes ++ [UInt8.ofNat e'.x]) = bytesBits codes ++ toBits 8 1 := by
    rw [bytesBits_append, bytesBits_cons, bytesBits_nil, List.append_nil, byteBits_ofNat,
      low 8 (by decide)]
    rfl
  have total := congrArg List.length bits
  have kept := ready'.length_pend_lt
  simp only [List.length_append, length_bytesBits, fifth] at total
  have eols : (List.replicate 4 eol).flatten.length = 48 := rfl
  rw [eols] at total
  simp only [List.length_replicate, List.length_cons, List.length_nil] at total
  rw [flush]
  have idle : (⟨e'.x, -8⟩ : Encoder).Ready := ⟨le_rfl, by show (-8 : Int) < 0; decide⟩
  rcases Nat.eq_zero_or_pos e'.pend.length with none | some
  · have pend : e'.pend = [] := List.eq_nil_of_length_eq_zero none
    refine ⟨11, toBits 8 1, ?_, Or.inr ⟨rfl, rfl, by omega⟩, idle, rfl⟩
    rw [pend, List.append_nil, fifth] at bits
    rw [← bits]
    simp only [List.append_assoc, List.cons_append, List.nil_append]
  · obtain ⟨k, width⟩ : ∃ k, e'.pend.length = k + 1 := ⟨e'.pend.length - 1, by omega⟩
    have pend : e'.pend = List.replicate k false ++ [true] := by
      have negative := ready'.2
      rw [e'.length_pend] at width
      have le : k + 1 ≤ eolBits := by unfold eolBits; omega
      rw [Encoder.pend, width, low _ le]
      exact toBits_one k
    refine ⟨18 - k, [], ?_, Or.inl ⟨by omega, by omega, rfl, by omega⟩, idle, rfl⟩
    have zeros : List.replicate 11 false = List.replicate (11 - k) false ++ List.replicate k false := by
      rw [← List.replicate_add, Nat.sub_add_cancel (by omega)]
    rw [pend, fifth, zeros] at bits
    simp only [← List.append_assoc] at bits
    have rest := List.append_cancel_right (List.append_cancel_right bits)
    have longer : List.replicate (18 - k) false =
        List.replicate (11 - k) false ++ List.replicate 7 false := by
      rw [← List.replicate_add]
      congr 1
      omega
    have seven : toBits 8 1 = List.replicate 7 false ++ [true] := rfl
    rw [← rest, longer, seven]
    simp only [List.append_assoc]

/-! ## Runs -/

/-- The code words `runtocode` writes for a run: a make-up code for a run above 63 and the
terminating code of what is left. -/
def runCodes (c : Colour) (run : Int) : List T4Tab :=
  if run > 63 then
    let rlen := if run > maxRunLen then maxRunLen else run
    [c.code (63 + rlen / 64).toNat, c.code (rlen % 64).toNat]
  else [c.code (run % 64).toNat]

/-- The code words of a scan line whose first run has colour `c`. -/
def lineCodes : Colour → List Int → List T4Tab
  | _, [] => []
  | c, run :: runs => runCodes c run ++ lineCodes c.other runs

/-- The bits of a list of code words. -/
def wordsBits (ps : List T4Tab) : List Bool := ps.flatMap T4Tab.word

/-- The bits of a scan line. -/
def lineBits (runs : List Int) : List Bool := wordsBits (lineCodes .white runs)

@[simp] theorem wordsBits_nil : wordsBits [] = [] := rfl

@[simp] theorem wordsBits_cons (p : T4Tab) (ps : List T4Tab) :
    wordsBits (p :: ps) = p.word ++ wordsBits ps := rfl

@[simp] theorem wordsBits_append (ps qs : List T4Tab) :
    wordsBits (ps ++ qs) = wordsBits ps ++ wordsBits qs :=
  List.flatMap_append

/-- A code word of one of the two tables. -/
def T4Tab.Known (p : T4Tab) : Prop := ∃ c : Colour, p ∈ c.codes

theorem T4Tab.Known.bounds {p : T4Tab} (known : p.Known) :
    2 ≤ p.bits ∧ p.bits ≤ 13 ∧ p.code < 2 ^ p.bits := by
  obtain ⟨c, member⟩ := known
  obtain ⟨lower, upper, lt, -⟩ := code_bounds c member
  exact ⟨lower, upper, lt⟩

theorem code_known (c : Colour) {i : Nat} (lt : i < 104) : (c.code i).Known := ⟨c, code_mem c lt⟩

/-- The indices `runtocode` computes stay inside the tables, whatever the run. -/
theorem runCodes_known (c : Colour) (run : Int) : ∀ p ∈ runCodes c run, p.Known := by
  intro p member
  unfold runCodes at member
  split at member
  · have rlen : (if run > maxRunLen then maxRunLen else run) ≤ 2623 ∧
        63 < (if run > maxRunLen then maxRunLen else run) := by
      unfold maxRunLen
      split <;> omega
    generalize (if run > maxRunLen then maxRunLen else run) = rlen' at member rlen
    simp only [List.mem_cons, List.not_mem_nil, or_false] at member
    rcases member with rfl | rfl
    · exact code_known c (by omega)
    · exact code_known c (by omega)
  · rw [List.mem_singleton] at member
    subst member
    exact code_known c (by omega)

theorem lineCodes_known (c : Colour) (runs : List Int) : ∀ p ∈ lineCodes c runs, p.Known := by
  induction runs generalizing c with
  | nil => simp [lineCodes]
  | cons run runs ih =>
    intro p member
    rw [lineCodes, List.mem_append] at member
    rcases member with here | later
    · exact runCodes_known c run p here
    · exact ih c.other p later

/-- Write code words one after the other. -/
def putRunCodes (s : Encoder × List UInt8) (ps : List T4Tab) : Encoder × List UInt8 :=
  ps.foldl (fun s p => putRunCode s.1 s.2 p) s

theorem putRun_eq (c : Colour) (e : Encoder) (codes : List UInt8) (run : Int) :
    putRun c e codes run = putRunCodes (e, codes) (runCodes c run) := by
  unfold putRun runCodes
  split <;> rfl

theorem runtocodeFrom_eq (c : Colour) (e : Encoder) (codes : List UInt8) (runs : List Int) :
    runtocodeFrom c e codes runs = putRunCodes (e, codes) (lineCodes c runs) := by
  induction runs generalizing c e codes with
  | nil => rfl
  | cons run runs ih =>
    have step : runtocodeFrom c e codes (run :: runs) =
        runtocodeFrom c.other (putRun c e codes run).1 (putRun c e codes run).2 runs := rfl
    rw [step, ih, lineCodes, putRun_eq]
    exact List.foldl_append.symm

/-- Code words that fit the buffer are all stored. -/
theorem putRunCodes_bits {ps : List T4Tab} (known : ∀ p ∈ ps, p.Known) {e : Encoder}
    (codes : List UInt8) (ready : e.Ready)
    (room : 8 * codes.length + e.pend.length + (wordsBits ps).length ≤ 8 * maxCodes) :
    bytesBits codes ++ e.pend ++ wordsBits ps =
        bytesBits (putRunCodes (e, codes) ps).2 ++ (putRunCodes (e, codes) ps).1.pend ∧
      (putRunCodes (e, codes) ps).1.Ready := by
  induction ps generalizing e codes with
  | nil => exact ⟨by simp [putRunCodes], ready⟩
  | cons p ps ih =>
    obtain ⟨lower, upper, lt⟩ := (known p List.mem_cons_self).bounds
    have width : p.word.length = p.bits := length_toBits _ _
    rw [wordsBits_cons, List.length_append, width] at room
    have guard : codes.length < maxCodes := by omega
    obtain ⟨bits, ready'⟩ := drain_shiftIn ready p.bits lt (by omega)
    have step : putRunCode e codes p =
        (⟨shiftIn e.x p.code p.bits,
          (drain (shiftIn e.x p.code p.bits) (e.shift + p.bits + 1).toNat (e.shift + p.bits)).2⟩,
          codes ++
            (drain (shiftIn e.x p.code p.bits) (e.shift + p.bits + 1).toNat
              (e.shift + p.bits)).1) := by
      rw [putRunCode, if_pos guard]
    have sizes := congrArg List.length bits
    rw [List.length_append, List.length_append, length_toBits, length_bytesBits] at sizes
    obtain ⟨rest, final⟩ := ih (fun q hq => known q (List.mem_cons_of_mem p hq))
      (codes ++
        (drain (shiftIn e.x p.code p.bits) (e.shift + p.bits + 1).toNat (e.shift + p.bits)).1)
      ready' (by rw [List.length_append]; omega)
    have unfolded : putRunCodes (e, codes) (p :: ps) = putRunCodes (putRunCode e codes p) ps := rfl
    rw [unfolded, step]
    refine ⟨?_, final⟩
    rw [← rest, bytesBits_append, wordsBits_cons, T4Tab.word]
    simp only [List.append_assoc]
    rw [← List.append_assoc e.pend, bits, List.append_assoc]

/-- `runtocode` appends the code words of a scan line that fits its buffer. -/
theorem runtocode_bits {e : Encoder} (ready : e.Ready) (runs : List Int)
    (room : (lineBits runs).length + 7 ≤ 8 * maxCodes) :
    e.pend ++ lineBits runs =
        bytesBits (runtocode e runs).2 ++ (runtocode e runs).1.pend ∧
      (runtocode e runs).1.Ready := by
  have kept := ready.length_pend_lt
  have written := putRunCodes_bits (lineCodes_known .white runs) [] ready
    (by unfold lineBits at room; simp only [List.length_nil]; omega)
  rw [runtocode, runtocodeFrom_eq]
  exact written

/-! ## The size of a scan line -/

/-- A code word of more than ten bits stands for a run of at least thirteen pixels a bit. -/
theorem code_size (c : Colour) {i : Nat} (lt : i < 104) :
    13 * (c.code i).bits ≤ 130 + (c.code i).rlen := by
  have all : ∀ i < 104, 13 * (c.code i).bits ≤ 130 + (c.code i).rlen := by
    cases c <;> decide +kernel
  exact all i lt

theorem runCodes_size (c : Colour) {run : Int} (nonneg : 0 ≤ run) :
    13 * ((wordsBits (runCodes c run)).length : Int) ≤ 130 * (runCodes c run).length + run := by
  unfold runCodes
  split
  · have rlen : (if run > maxRunLen then maxRunLen else run) ≤ 2623 ∧
        63 < (if run > maxRunLen then maxRunLen else run) ∧
        (if run > maxRunLen then maxRunLen else run) ≤ run := by
      unfold maxRunLen
      split <;> omega
    generalize (if run > maxRunLen then maxRunLen else run) = r at rlen
    have makeup := code_size c (i := (63 + r / 64).toNat) (by omega)
    have rest := code_size c (i := (r % 64).toNat) (by omega)
    rw [code_rlen c (by omega), if_neg (by omega)] at makeup
    rw [code_rlen c (by omega), if_pos (by omega)] at rest
    simp only [wordsBits_cons, wordsBits_nil, List.length_append, T4Tab.word, length_toBits,
      List.length_nil, List.length_cons]
    push_cast
    omega
  · have size := code_size c (i := (run % 64).toNat) (by omega)
    rw [code_rlen c (by omega), if_pos (by omega)] at size
    simp only [wordsBits_cons, wordsBits_nil, List.length_append, T4Tab.word, length_toBits,
      List.length_nil, List.length_cons]
    push_cast
    omega

/-- Ten bits a code word and a thirteenth of a bit a pixel bound the size of a scan line. -/
theorem lineCodes_size (c : Colour) {runs : List Int} (nonneg : ∀ r ∈ runs, 0 ≤ r) :
    13 * ((wordsBits (lineCodes c runs)).length : Int) ≤
      130 * (lineCodes c runs).length + runs.sum := by
  induction runs generalizing c with
  | nil => simp [lineCodes]
  | cons run runs ih =>
    have here := runCodes_size c (nonneg run List.mem_cons_self)
    have later := ih c.other fun r hr => nonneg r (List.mem_cons_of_mem run hr)
    rw [lineCodes, wordsBits_append, List.length_append, List.length_append, List.sum_cons]
    push_cast
    omega

/-- A scan line of fewer than `maxRuns` code words and of a width that fits a `short` leaves room
in the code buffer, also for an EOL and at every alignment. -/
theorem lineBits_room {runs : List Int} (nonneg : ∀ r ∈ runs, 0 ≤ r) (width : runs.sum ≤ 32767)
    (words : (lineCodes .white runs).length < maxRuns) :
    (lineBits runs).length + 19 ≤ 8 * maxCodes := by
  have size := lineCodes_size .white nonneg
  unfold lineBits maxCodes
  unfold maxRuns at words ⊢
  omega

end QFax.Efax

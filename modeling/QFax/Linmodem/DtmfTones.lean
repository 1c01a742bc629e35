import QFax.Lib.Blocks
import QFax.Linmodem.Lm
import QFax.Linmodem.Modem
import Mathlib.Data.List.GetD

/-!
# DTMF dialling: the tones

The modulator fetches a character of the number when it has nothing left to play, plays its two
tones and a pause, and is called for blocks of any size.  `dialSignal` is what a number sounds like;
every call plays the next samples of it (`DTMF_mod_plays`).
-/

namespace QFax.Linmodem

open Blocks

/-- What is dialled and how.  The lengths are in ms and positive, as in `default_lm_config`. -/
structure DialJob where
  cos_tab : CosTab
  /-- The amplitude that the level of the tones comes to. -/
  level : BitVec 32
  digit_length_ms : Nat
  digit_pause_ms : Nat
  call_num : List Char
  digit_pos : 0 < digit_length_ms
  pause_pos : 0 < digit_pause_ms

/-- `DTMF_mod_state`, with the pointer of `dtmf_get_digit` in `call_num`. -/
structure Dialer where
  omega1 : BitVec 32
  omega2 : BitVec 32
  t1 : BitVec 32
  t2 : BitVec 32
  samples_left : Nat
  amp : BitVec 32
  dtmf_ptr : Nat

def SAMPLE_RATE : Nat := 8000

def dtmf_freq : List Nat := [1209, 1336, 1477, 1633, 697, 770, 852, 941]

/-- The phase increment of a frequency. -/
def phaseStep (f : Nat) : BitVec 32 := BitVec.ofNat 32 (PHASE_BASE * f / SAMPLE_RATE)

/-- Start again with the first character. -/
def DTMF_mod_init (s : Dialer) : Dialer :=
  { s with t1 := 0, t2 := 0, omega1 := 0, samples_left := 0, dtmf_ptr := 0 }

/-- A sample of two tones. -/
def toneSample (cos_tab : CosTab) (amp t1 t2 : BitVec 32) : BitVec 16 :=
  ((BitVec.ofInt 32 (dsp_cos cos_tab t1 + dsp_cos cos_tab t2) * amp).sshiftRight COS_BITS).setWidth 16

namespace DialJob

variable (j : DialJob)

def digitSamples : Nat := j.digit_length_ms * SAMPLE_RATE / 1000

def pauseSamples : Nat := j.digit_pause_ms * SAMPLE_RATE / 1000

def nodigit (s : Dialer) : Dialer := { s with omega1 := 0, samples_left := j.pauseSamples }

/-- Compute parameters for a new digit. -/
def compute_params (s : Dialer) : Dialer :=
  -- if we were playing a digit, we make a pause
  if s.omega1 ≠ 0 then j.nodigit s
  else
    match j.call_num[s.dtmf_ptr]? with
    | none => j.nodigit s
    | some digit =>
      let s := { s with dtmf_ptr := s.dtmf_ptr + 1 }
      let v := dtmf_transl.idxOf digit
      if v < dtmf_transl.length then
        { s with
          omega1 := phaseStep (dtmf_freq.getD (v &&& 3) 0)
          omega2 := phaseStep (dtmf_freq.getD (4 + v >>> 2) 0)
          amp := j.level
          samples_left := j.digitSamples }
      else j.nodigit s

def refill (s : Dialer) : Dialer := if s.samples_left = 0 then j.compute_params s else s

/-- One sample of a digit. -/
def toneNext (s : Dialer) : BitVec 16 × Dialer :=
  (toneSample j.cos_tab s.amp s.t1 s.t2, { s with t1 := s.t1 + s.omega1, t2 := s.t2 + s.omega2 })

/-- Samples of a digit or of the silence between digits. -/
def play (len : Nat) (s : Dialer) : List (BitVec 16) × Dialer :=
  let (xs, s) := if s.omega1 ≠ 0 then generate j.toneNext len s else (List.replicate len 0, s)
  (xs, { s with samples_left := s.samples_left - len })

theorem digitSamples_pos : 0 < j.digitSamples := by
  have positive := j.digit_pos
  unfold digitSamples SAMPLE_RATE
  omega

theorem pauseSamples_pos : 0 < j.pauseSamples := by
  have positive := j.pause_pos
  unfold pauseSamples SAMPLE_RATE
  omega

theorem refill_pos (s : Dialer) : 0 < (j.refill s).samples_left := by
  have digit := j.digitSamples_pos
  have pause := j.pauseSamples_pos
  unfold refill compute_params nodigit
  split
  · split
    · exact pause
    · split
      · exact pause
      · dsimp only
        split
        · exact digit
        · exact pause
  · omega

/-- The zeros that a pause writes as far as the end of the block are written over by the next turns. -/
def DTMF_mod (nb : Nat) (s : Dialer) : List (BitVec 16) × Dialer :=
  if nb = 0 then ([], s)
  else
    let len := min nb (j.refill s).samples_left
    let turn := j.play len (j.refill s)
    let rest := DTMF_mod (nb - len) turn.2
    (turn.1 ++ rest.1, rest.2)
termination_by nb
decreasing_by
  have positive := j.refill_pos s
  omega

/-! ## What a number sounds like -/

end DialJob

/-- The frequencies of the column and the row of a key. -/
def keyTones : Char → Option (Nat × Nat)
  | '1' => some (1209, 697)
  | '2' => some (1336, 697)
  | '3' => some (1477, 697)
  | 'A' => some (1633, 697)
  | '4' => some (1209, 770)
  | '5' => some (1336, 770)
  | '6' => some (1477, 770)
  | 'B' => some (1633, 770)
  | '7' => some (1209, 852)
  | '8' => some (1336, 852)
  | '9' => some (1477, 852)
  | 'C' => some (1633, 852)
  | '*' => some (1209, 941)
  | '0' => some (1336, 941)
  | '#' => some (1477, 941)
  | 'D' => some (1633, 941)
  | _ => none

/-- The table of the source has the keys row by row. -/
theorem keyTones_eq (c : Char) : keyTones c =
    if dtmf_transl.idxOf c < dtmf_transl.length then
      some (dtmf_freq.getD (dtmf_transl.idxOf c &&& 3) 0,
        dtmf_freq.getD (4 + dtmf_transl.idxOf c >>> 2) 0)
    else none := by
  by_cases key : c ∈ dtmf_transl
  · have keys : dtmf_transl.all (fun c => decide (keyTones c =
        if dtmf_transl.idxOf c < dtmf_transl.length then
          some (dtmf_freq.getD (dtmf_transl.idxOf c &&& 3) 0,
            dtmf_freq.getD (4 + dtmf_transl.idxOf c >>> 2) 0)
        else none)) = true := by decide
    exact of_decide_eq_true (List.all_eq_true.mp keys c key)
  · rw [List.idxOf_eq_length key, if_neg (Nat.lt_irrefl _)]
    unfold keyTones
    split <;> first | rfl | exact absurd (by decide) key

namespace DialJob

variable (j : DialJob)

/-- Two tones from given phases on. -/
def tones (amp : BitVec 32) (n : Nat) (omega1 omega2 t1 t2 : BitVec 32) : List (BitVec 16) :=
  (List.range n).map fun i =>
    toneSample j.cos_tab amp (t1 + BitVec.ofNat 32 i * omega1) (t2 + BitVec.ofNat 32 i * omega2)

/-- For every key its two tones and a pause, for every other character a pause; the phases go on from
digit to digit. -/
def dialSignal (t1 t2 : BitVec 32) : List Char → List (BitVec 16)
  | [] => []
  | c :: cs =>
    match keyTones c with
    | some (f1, f2) =>
      j.tones j.level j.digitSamples (phaseStep f1) (phaseStep f2) t1 t2 ++
        (List.replicate j.pauseSamples 0 ++
          dialSignal (t1 + BitVec.ofNat 32 j.digitSamples * phaseStep f1)
            (t2 + BitVec.ofNat 32 j.digitSamples * phaseStep f2) cs)
    | none => List.replicate j.pauseSamples 0 ++ dialSignal t1 t2 cs

/-- The samples from a character to the next. -/
def segment (c : Char) : Nat :=
  if (keyTones c).isSome then j.digitSamples + j.pauseSamples else j.pauseSamples

/-! ## What is left to be played -/

/-- The characters that are not fetched. -/
def unfetched (s : Dialer) : List Char := j.call_num.drop s.dtmf_ptr

/-- The rest of a tone or of a pause. -/
def current (s : Dialer) : List (BitVec 16) :=
  if s.omega1 ≠ 0 then j.tones s.amp s.samples_left s.omega1 s.omega2 s.t1 s.t2
  else List.replicate s.samples_left 0

def remaining (s : Dialer) : List (BitVec 16) :=
  j.current s ++
    if s.omega1 ≠ 0 then
      List.replicate j.pauseSamples 0 ++
        j.dialSignal (s.t1 + BitVec.ofNat 32 s.samples_left * s.omega1)
          (s.t2 + BitVec.ofNat 32 s.samples_left * s.omega2) (j.unfetched s)
    else j.dialSignal s.t1 s.t2 (j.unfetched s)

/-- The signal from now on, which is silent behind the number. -/
def signal (s : Dialer) (i : Nat) : BitVec 16 := (j.remaining s).getD i 0

/-- The samples up to the next character. -/
def untilNext (s : Dialer) : Nat := s.samples_left + if s.omega1 ≠ 0 then j.pauseSamples else 0

/-- The samples up to the last character. -/
def untilLast (s : Dialer) : Nat :=
  j.untilNext s + ((j.unfetched s).dropLast.map j.segment).sum

/-- Some samples are the next ones of the signal, and the last character is fetched with the first
sample behind it. -/
structure Plays (s : Dialer) (nb : Nat) (r : List (BitVec 16) × Dialer) : Prop where
  samples : r.1 = (List.range nb).map (j.signal s)
  later : ∀ i, j.signal r.2 i = j.signal s (nb + i)
  fetched : j.unfetched r.2 = [] ↔ j.unfetched s = [] ∨ j.untilLast s < nb
  left : j.unfetched r.2 ≠ [] → j.untilLast r.2 + nb = j.untilLast s

theorem Plays.append {s : Dialer} {m n : Nat} {r r' : List (BitVec 16) × Dialer}
    (first : Plays j s m r) (second : Plays j r.2 n r') : Plays j s (m + n) (r.1 ++ r'.1, r'.2) where
  samples := by
    rw [first.samples, second.samples, List.range_add, List.map_append, List.map_map]
    exact congrArg (_ ++ ·) (List.map_congr_left fun i _ => first.later i)
  later i := by
    rw [second.later, first.later, Nat.add_assoc]
  fetched := by
    rw [second.fetched, first.fetched]
    by_cases none : j.unfetched r.2 = []
    · have early := first.fetched.mp none
      constructor
      · rintro -
        exact early.imp_right fun lt => lt.trans_le (Nat.le_add_right m n)
      · rintro -
        exact Or.inl early
    · have left := first.left none
      have late : ¬ (j.unfetched s = [] ∨ j.untilLast s < m) :=
        fun early => none (first.fetched.mpr early)
      rw [not_or] at late
      constructor
      · rintro (early | lt)
        · exact absurd early (not_or.mpr late)
        · exact Or.inr (by omega)
      · rintro (gone | lt)
        · exact absurd gone late.1
        · exact Or.inr (by omega)
  left none := by
    have before : j.unfetched r.2 ≠ [] := fun gone => none (second.fetched.mpr (Or.inl gone))
    have one := first.left before
    have two := second.left none
    show j.untilLast r'.2 + (m + n) = j.untilLast s
    omega

/-! ## A turn -/

/-- What a turn of the loop starts with. -/
inductive Refill (s : Dialer) : Dialer → Prop
  | going : 0 < s.samples_left → Refill s s
  | pause : s.samples_left = 0 → s.omega1 ≠ 0 → Refill s (j.nodigit s)
  | silence : s.samples_left = 0 → s.omega1 = 0 → j.unfetched s = [] → Refill s (j.nodigit s)
  | other {c : Char} {cs : List Char} : s.samples_left = 0 → s.omega1 = 0 → j.unfetched s = c :: cs →
    keyTones c = none → Refill s (j.nodigit { s with dtmf_ptr := s.dtmf_ptr + 1 })
  | digit {c : Char} {cs : List Char} {f1 f2 : Nat} : s.samples_left = 0 → s.omega1 = 0 →
    j.unfetched s = c :: cs → keyTones c = some (f1, f2) →
    Refill s { s with
      dtmf_ptr := s.dtmf_ptr + 1
      omega1 := phaseStep f1
      omega2 := phaseStep f2
      amp := j.level
      samples_left := j.digitSamples }

variable {j}

theorem refill_spec (s : Dialer) : Refill j s (j.refill s) := by
  unfold refill
  split
  case isFalse left => exact .going (Nat.pos_of_ne_zero left)
  case isTrue empty =>
    unfold compute_params
    split
    case isTrue playing => exact .pause empty playing
    case isFalse quiet =>
      have idle : s.omega1 = 0 := not_not.mp quiet
      have next : j.call_num[s.dtmf_ptr]? = (j.unfetched s).head? := by
        rw [unfetched, List.head?_drop]
      rw [next]
      cases rest : j.unfetched s with
      | nil => exact .silence empty idle rest
      | cons c cs =>
        have key := keyTones_eq c
        dsimp only [List.head?_cons]
        split
        case isTrue inside =>
          rw [if_pos inside] at key
          exact .digit empty idle rest key
        case isFalse outside =>
          rw [if_neg outside] at key
          exact .other empty idle rest key

theorem unfetched_next {s : Dialer} {c : Char} {cs : List Char} (rest : j.unfetched s = c :: cs) :
    j.call_num.drop (s.dtmf_ptr + 1) = cs := by
  rw [unfetched] at rest
  rw [← List.drop_drop, rest]
  rfl

/-- No key has the frequency zero. -/
theorem phaseStep_ne {c : Char} {f1 f2 : Nat} (key : keyTones c = some (f1, f2)) :
    phaseStep f1 ≠ 0 := by
  unfold keyTones at key
  split at key <;> cases key <;> decide

variable {s r : Dialer}

theorem remaining_tone (playing : s.omega1 ≠ 0) : j.remaining s =
    j.tones s.amp s.samples_left s.omega1 s.omega2 s.t1 s.t2 ++ (List.replicate j.pauseSamples 0 ++
      j.dialSignal (s.t1 + BitVec.ofNat 32 s.samples_left * s.omega1)
        (s.t2 + BitVec.ofNat 32 s.samples_left * s.omega2) (j.unfetched s)) := by
  rw [remaining, current, if_pos playing, if_pos playing]

theorem remaining_quiet (idle : s.omega1 = 0) : j.remaining s =
    List.replicate s.samples_left 0 ++ j.dialSignal s.t1 s.t2 (j.unfetched s) := by
  rw [remaining, current, if_neg (not_not.mpr idle), if_neg (not_not.mpr idle)]

theorem remaining_nodigit (s : Dialer) : j.remaining (j.nodigit s) =
    List.replicate j.pauseSamples 0 ++ j.dialSignal s.t1 s.t2 (j.unfetched s) :=
  remaining_quiet rfl

/-- A turn starts with what is to be played anyway; behind the number that is silence. -/
theorem Refill.signal (turn : Refill j s r) : j.signal r = j.signal s := by
  have none_played (x omega : BitVec 32) : x + BitVec.ofNat 32 0 * omega = x := by
    rw [BitVec.zero_mul, BitVec.add_zero]
  funext i
  unfold DialJob.signal
  cases turn with
  | going left => rfl
  | pause empty playing =>
    rw [remaining_nodigit, remaining_tone playing, empty, none_played, none_played]
    rfl
  | silence empty idle rest =>
    rw [remaining_nodigit, remaining_quiet idle, empty, rest, dialSignal, List.append_nil,
      List.getD_eq_getElem?_getD, List.getElem?_getD_replicate_default_eq]
    rfl
  | other empty idle rest key =>
    have fetched : j.unfetched { s with dtmf_ptr := s.dtmf_ptr + 1 } = _ := unfetched_next rest
    rw [remaining_nodigit, fetched, remaining_quiet idle, rest, empty, dialSignal, key]
    rfl
  | digit empty idle rest key =>
    rw [remaining_tone (phaseStep_ne key), remaining_quiet idle, rest, empty, dialSignal, key]
    unfold unfetched
    rw [unfetched_next rest]
    rfl

theorem untilLast_quiet (idle : s.omega1 = 0) :
    j.untilLast s = s.samples_left + ((j.unfetched s).dropLast.map j.segment).sum := by
  rw [untilLast, untilNext, if_neg (not_not.mpr idle), Nat.add_zero]

theorem untilLast_tone (playing : s.omega1 ≠ 0) : j.untilLast s =
    s.samples_left + j.pauseSamples + ((j.unfetched s).dropLast.map j.segment).sum := by
  rw [untilLast, untilNext, if_pos playing]

/-- The characters in front of the last one, once the first of them is fetched. -/
theorem segments_cons (c : Char) {cs : List Char} (more : cs ≠ []) :
    ((c :: cs).dropLast.map j.segment).sum = j.segment c + (cs.dropLast.map j.segment).sum := by
  rw [List.dropLast_cons_of_ne_nil more, List.map_cons, List.sum_cons]

/-- A turn does not change how far away the last character is; it fetches it when it is there. -/
theorem Refill.fetched (turn : Refill j s r) :
    (j.unfetched s = [] → j.unfetched r = []) ∧
      (j.unfetched s ≠ [] → j.unfetched r = [] → j.untilLast s = 0) ∧
      (j.unfetched r ≠ [] → j.untilLast r = j.untilLast s) := by
  cases turn with
  | going left => exact ⟨id, fun some none => absurd none some, fun _ => rfl⟩
  | pause empty playing =>
    refine ⟨id, fun some none => absurd none some, fun _ => ?_⟩
    rw [untilLast_quiet rfl, untilLast_tone playing, empty, Nat.zero_add]
    rfl
  | silence empty idle rest =>
    exact ⟨id, fun some _ => absurd rest some, fun some => absurd rest some⟩
  | @other c cs empty idle rest key =>
    have fetched : j.unfetched (j.nodigit { s with dtmf_ptr := s.dtmf_ptr + 1 }) = cs :=
      unfetched_next rest
    rw [untilLast_quiet idle, untilLast_quiet rfl, rest, fetched, empty, Nat.zero_add]
    refine ⟨fun none => absurd none (List.cons_ne_nil c cs), fun _ none => ?_, fun more => ?_⟩
    · rw [none]
      rfl
    · rw [segments_cons c more, segment, key]
      rfl
  | @digit c cs f1 f2 empty idle rest key =>
    have fetched : j.unfetched { s with
        dtmf_ptr := s.dtmf_ptr + 1
        omega1 := phaseStep f1
        omega2 := phaseStep f2
        amp := j.level
        samples_left := j.digitSamples } = cs := unfetched_next rest
    rw [untilLast_quiet idle, untilLast_tone (phaseStep_ne key), rest, fetched, empty, Nat.zero_add]
    refine ⟨fun none => absurd none (List.cons_ne_nil c cs), fun _ none => ?_, fun more => ?_⟩
    · rw [none]
      rfl
    · rw [segments_cons c more, segment, key]
      rfl

theorem tones_add (amp : BitVec 32) (m n : Nat) (omega1 omega2 t1 t2 : BitVec 32) :
    j.tones amp (m + n) omega1 omega2 t1 t2 = j.tones amp m omega1 omega2 t1 t2 ++
      j.tones amp n omega1 omega2 (t1 + BitVec.ofNat 32 m * omega1)
        (t2 + BitVec.ofNat 32 m * omega2) := by
  have moved (t omega : BitVec 32) (i : Nat) : t + BitVec.ofNat 32 (m + i) * omega =
      t + BitVec.ofNat 32 m * omega + BitVec.ofNat 32 i * omega := by
    rw [BitVec.ofNat_add, BitVec.add_mul, BitVec.add_assoc]
  rw [tones, List.range_add, List.map_append, List.map_map]
  refine congrArg (_ ++ ·) (List.map_congr_left fun i _ => ?_)
  rw [Function.comp, moved, moved]

/-- Samples that are played one by one. -/
theorem generate_tone (len : Nat) (s : Dialer) : generate j.toneNext len s =
    (j.tones s.amp len s.omega1 s.omega2 s.t1 s.t2,
      { s with
        t1 := s.t1 + BitVec.ofNat 32 len * s.omega1
        t2 := s.t2 + BitVec.ofNat 32 len * s.omega2 }) := by
  have none_played (x omega : BitVec 32) : x + BitVec.ofNat 32 0 * omega = x := by
    rw [BitVec.zero_mul, BitVec.add_zero]
  have one : generate j.toneNext 1 = fun s => ([toneSample j.cos_tab s.amp s.t1 s.t2],
      { s with t1 := s.t1 + s.omega1, t2 := s.t2 + s.omega2 }) := rfl
  induction len generalizing s with
  | zero => simp only [none_played]; rfl
  | succ len ih =>
    rw [Nat.add_comm, (generate_additive _).add, one, ih]
    have first : j.tones s.amp 1 s.omega1 s.omega2 s.t1 s.t2 =
      [toneSample j.cos_tab s.amp s.t1 s.t2] := by
      show [toneSample j.cos_tab s.amp (s.t1 + BitVec.ofNat 32 0 * s.omega1)
        (s.t2 + BitVec.ofNat 32 0 * s.omega2)] = _
      rw [none_played, none_played]
    simp only [tones_add, first, BitVec.one_mul, BitVec.ofNat_add, BitVec.add_mul, BitVec.add_assoc]

/-- What comes before the rest are the next samples. -/
theorem signal_append {s' : Dialer} {xs : List (BitVec 16)} {len : Nat}
    (split : j.remaining s = xs ++ j.remaining s') (size : xs.length = len) :
    xs = (List.range len).map (j.signal s) ∧ ∀ i, j.signal s' i = j.signal s (len + i) := by
  subst size
  constructor
  · refine List.ext_getElem (by simp) fun i inside _ => ?_
    rw [List.getElem_map, List.getElem_range, DialJob.signal, split, List.getD_append _ _ _ _ inside,
      List.getD_eq_getElem _ _ inside]
  · intro i
    rw [DialJob.signal, DialJob.signal, split, List.getD_append_right _ _ _ _ (Nat.le_add_right _ _),
      Nat.add_sub_cancel_left]

theorem play_tone (len : Nat) (playing : s.omega1 ≠ 0) : j.play len s =
    (j.tones s.amp len s.omega1 s.omega2 s.t1 s.t2,
      { s with
        t1 := s.t1 + BitVec.ofNat 32 len * s.omega1
        t2 := s.t2 + BitVec.ofNat 32 len * s.omega2
        samples_left := s.samples_left - len }) := by
  rw [play, if_pos playing, generate_tone]

theorem play_quiet (len : Nat) (idle : s.omega1 = 0) : j.play len s =
    (List.replicate len 0, { s with samples_left := s.samples_left - len }) := by
  rw [play, if_neg (not_not.mpr idle)]

/-- Inside of a tone or a pause. -/
theorem play_plays {len : Nat} (le : len ≤ s.samples_left) : Plays j s len (j.play len s) := by
  obtain ⟨more, left⟩ := Nat.exists_eq_add_of_le le
  have rest : s.samples_left - len = more := by omega
  have near : s.samples_left ≤ j.untilLast s := by
    rw [untilLast, untilNext]
    omega
  have spec : j.unfetched (j.play len s).2 = j.unfetched s ∧
      j.remaining s = (j.play len s).1 ++ j.remaining (j.play len s).2 ∧
      (j.play len s).1.length = len ∧ j.untilLast (j.play len s).2 + len = j.untilLast s := by
    by_cases playing : s.omega1 ≠ 0
    · have moved (t omega : BitVec 32) : t + BitVec.ofNat 32 len * omega + BitVec.ofNat 32 more * omega =
          t + BitVec.ofNat 32 (len + more) * omega := by
        rw [BitVec.ofNat_add, BitVec.add_mul, BitVec.add_assoc]
      rw [play_tone len playing, rest]
      dsimp only
      refine ⟨rfl, ?_, by simp [tones], ?_⟩
      · have parts := @remaining_tone j s playing
        rw [left, tones_add, List.append_assoc] at parts
        rw [parts, remaining_tone (by exact playing)]
        simp only [moved]
        rfl
      · rw [@untilLast_tone j s playing, untilLast_tone (by exact playing)]
        show more + j.pauseSamples + ((j.unfetched s).dropLast.map j.segment).sum + len = _
        omega
    · have idle := not_not.mp playing
      rw [play_quiet len idle, rest]
      dsimp only
      refine ⟨rfl, ?_, List.length_replicate, ?_⟩
      · have parts := @remaining_quiet j s idle
        rw [left, List.replicate_add, List.append_assoc] at parts
        rw [parts, remaining_quiet (by exact idle)]
        rfl
      · rw [@untilLast_quiet j s idle, untilLast_quiet (by exact idle)]
        show more + ((j.unfetched s).dropLast.map j.segment).sum + len = _
        omega
  obtain ⟨same, parts, size, last⟩ := spec
  obtain ⟨samples, later⟩ := signal_append parts size
  refine ⟨samples, later, ?_, fun _ => last⟩
  rw [same]
  exact ⟨Or.inl, fun either => either.resolve_right (by omega)⟩

theorem turn_plays {len : Nat} (turn : Refill j s r) (positive : 0 < len) (le : len ≤ r.samples_left) :
    Plays j s len (j.play len r) := by
  obtain ⟨samples, later, fetched, left⟩ := play_plays (j := j) le
  obtain ⟨gone, last, same⟩ := turn.fetched
  have near : r.samples_left ≤ j.untilLast r := by
    rw [untilLast, untilNext]
    omega
  refine ⟨turn.signal ▸ samples, turn.signal ▸ later, ?_, fun some => ?_⟩
  · rw [fetched]
    by_cases none : j.unfetched r = []
    · refine iff_of_true (Or.inl none) ?_
      by_cases before : j.unfetched s = []
      · exact Or.inl before
      · have here := last before none
        exact Or.inr (by omega)
    · have far := same none
      refine iff_of_false ?_ ?_
      · rintro (none' | lt)
        · exact none none'
        · omega
      · rintro (none' | lt)
        · exact none (gone none')
        · omega
  · have more : j.unfetched r ≠ [] := fun none => some (fetched.mpr (Or.inl none))
    rw [← same more]
    exact left some

/-- Every call plays the next samples of the number. -/
theorem DTMF_mod_plays (nb : Nat) (s : Dialer) : Plays j s nb (j.DTMF_mod nb s) := by
  induction nb using Nat.strong_induction_on generalizing s with
  | _ nb ih =>
    rw [DTMF_mod]
    split
    case isTrue none =>
      subst none
      exact ⟨rfl, fun i => by rw [Nat.zero_add], by simp, fun _ => rfl⟩
    case isFalse some =>
      have left := j.refill_pos s
      have first := @turn_plays j s _ (min nb (j.refill s).samples_left) (refill_spec s) (by omega)
        (Nat.min_le_right _ _)
      have rest := ih (nb - min nb (j.refill s).samples_left) (by omega)
        (j.play (min nb (j.refill s).samples_left) (j.refill s)).2
      have total : min nb (j.refill s).samples_left + (nb - min nb (j.refill s).samples_left) = nb := by
        omega
      have both := first.append j rest
      rw [total] at both
      exact both

end DialJob

end QFax.Linmodem

import QFax.Linmodem.DtmfTones
import QFax.Linmodem.Timers
import Mathlib.Data.List.Induction

/-!
# DTMF dialling: the state machine

`sm_process` sets the timer for the wait after dialling when the last character is fetched, at the clock
at which the block began.  Whatever the blocks, the samples are those of the number
(`dialling_iff`); V.8 is started in time if and only if no block in which the timer has expired ends
in front of the end of the last tone.
-/

namespace QFax.Linmodem

open Blocks

/-- The part of `sm_state` that dialling uses. -/
structure DialState where
  state : SmState
  dtmf_tx : Dialer
  dtmf_timer : Int
  time : BitVec 32

namespace DialJob

variable (j : DialJob)

/-- `sm_process` in the states that play digits; the others end the dialling. -/
def dialProcess (nb_samples : Nat) (s : DialState) : List (BitVec 16) × DialState :=
  let time := s.time + BitVec.ofNat 32 nb_samples
  match s.state with
  | .dtmfDialWait =>
    let (output, dtmf_tx) := j.DTMF_mod nb_samples s.dtmf_tx
    if j.call_num.length ≤ dtmf_tx.dtmf_ptr then
      -- wait some time after dialing
      (output, ⟨.dtmfDialWait1, dtmf_tx, sm_set_timer s.time 1000, time⟩)
    else (output, ⟨.dtmfDialWait, dtmf_tx, s.dtmf_timer, time⟩)
  | .dtmfDialWait1 =>
    let (output, dtmf_tx) := j.DTMF_mod nb_samples s.dtmf_tx
    -- start of V8
    (output, ⟨if sm_check_timer s.time s.dtmf_timer then .v8 else .dtmfDialWait1, dtmf_tx,
      s.dtmf_timer, time⟩)
  | _ => ([], { s with time := time })

/-- The state in which `SM_DTMF_DIAL` leaves the modem. -/
def dialStart (s : Dialer) (timer : Int) (time : BitVec 32) : DialState :=
  ⟨.dtmfDialWait, DTMF_mod_init s, timer, time⟩

/-- The sample at which the last character is fetched. -/
def lastStart : Nat := (j.call_num.dropLast.map j.segment).sum

/-- The sample behind the last tone. -/
def lastToneEnd : List Char → Nat
  | [] => 0
  | c :: cs =>
    if cs.any fun c => (keyTones c).isSome then j.segment c + lastToneEnd cs
    else if (keyTones c).isSome then j.digitSamples else 0

/-- Whether all characters are fetched when `n` samples were asked for. -/
def FetchedBy (n : Nat) : Prop := j.call_num = [] ∨ j.lastStart < n

variable (blocks : List Nat)

/-- The samples in front of a block. -/
def before (k : Nat) : Nat := (blocks.take k).sum

/-- The last character is fetched in block `k`. -/
def LastFetched (k : Nat) : Prop :=
  j.FetchedBy (before blocks (k + 1)) ∧ (k = 0 ∨ ¬ j.FetchedBy (before blocks k))

/-- The timer that is set in block `k` has expired in block `m`. -/
def ExpiredIn (time : BitVec 32) (k m : Nat) : Prop :=
  sm_check_timer (time + BitVec.ofNat 32 (before blocks m))
    (sm_set_timer (time + BitVec.ofNat 32 (before blocks k)) 1000) = true

/-- No block in which the timer has expired ends in front of the end of the last tone. -/
def LateEnough (time : BitVec 32) : Prop :=
  ∀ k m, k < m → m < blocks.length → j.LastFetched blocks k → ExpiredIn blocks time k m →
    j.lastToneEnd j.call_num ≤ before blocks (m + 1)

/-! ## The course of dialling -/

/-- How far dialling is after some blocks. -/
inductive Dialled (s : Dialer) (time : BitVec 32) : List (BitVec 16) × DialState → Prop
  | fetching {out : List (BitVec 16)} {tx : Dialer} {timer : Int} :
    Plays j s blocks.sum (out, tx) → (blocks = [] ∨ ¬ j.FetchedBy blocks.sum) →
    Dialled s time (out, ⟨.dtmfDialWait, tx, timer, time + BitVec.ofNat 32 blocks.sum⟩)
  | waiting {out : List (BitVec 16)} {tx : Dialer} (k : Nat) :
    Plays j s blocks.sum (out, tx) → k < blocks.length → j.LastFetched blocks k →
    (∀ m, k < m → m < blocks.length → ¬ ExpiredIn blocks time k m) →
    Dialled s time (out, ⟨.dtmfDialWait1, tx,
      sm_set_timer (time + BitVec.ofNat 32 (before blocks k)) 1000,
      time + BitVec.ofNat 32 blocks.sum⟩)
  | ended {out : List (BitVec 16)} {tx : Dialer} {timer : Int} {clock : BitVec 32} (k m : Nat) :
    out = (List.range (before blocks (m + 1))).map (j.signal s) → k < m → m < blocks.length →
    j.LastFetched blocks k → ExpiredIn blocks time k m →
    (∀ m', k < m' → m' < m → ¬ ExpiredIn blocks time k m') →
    Dialled s time (out, ⟨.v8, tx, timer, clock⟩)

variable {j blocks}

theorem FetchedBy.mono {m n : Nat} (fetched : j.FetchedBy m) (le : m ≤ n) : j.FetchedBy n :=
  fetched.imp_right fun lt => lt.trans_le le

theorem before_mono {k m : Nat} (le : k ≤ m) : before blocks k ≤ before blocks m := by
  obtain ⟨d, rfl⟩ := Nat.exists_eq_add_of_le le
  rw [before, before, List.take_add, List.sum_append]
  exact Nat.le_add_right _ _

theorem before_all {k : Nat} (le : blocks.length ≤ k) : before blocks k = blocks.sum := by
  rw [before, List.take_of_length_le le]

theorem before_snoc {k : Nat} (le : k ≤ blocks.length) (n : Nat) :
    before (blocks ++ [n]) k = before blocks k := by
  rw [before, before, List.take_append_of_le_length le]

/-- There is one such block. -/
theorem LastFetched.unique {k k' : Nat} (last : j.LastFetched blocks k)
    (last' : j.LastFetched blocks k') :
    k = k' := by
  rcases lt_trichotomy k k' with lt | rfl | gt
  · exact absurd (last.1.mono (before_mono lt)) (last'.2.resolve_left (by omega))
  · rfl
  · exact absurd (last'.1.mono (before_mono gt)) (last.2.resolve_left (by omega))

theorem lastFetched_snoc {k n : Nat} (lt : k < blocks.length) :
    j.LastFetched (blocks ++ [n]) k ↔ j.LastFetched blocks k := by
  rw [LastFetched, LastFetched, before_snoc lt, before_snoc lt.le]

theorem expiredIn_snoc {time : BitVec 32} {k m n : Nat} (lt : k < m) (le : m ≤ blocks.length) :
    ExpiredIn (blocks ++ [n]) time k m ↔ ExpiredIn blocks time k m := by
  rw [ExpiredIn, ExpiredIn, before_snoc le, before_snoc (by omega)]

theorem fetched_iff {s : Dialer} {n : Nat} {r : List (BitVec 16) × Dialer}
    (plays : Plays j (DTMF_mod_init s) n r) : j.call_num.length ≤ r.2.dtmf_ptr ↔ j.FetchedBy n := by
  have start : j.untilLast (DTMF_mod_init s) = j.lastStart := by
    rw [untilLast_quiet rfl]
    exact Nat.zero_add _
  have fetched := plays.fetched
  rw [start, unfetched, List.drop_eq_nil_iff] at fetched
  exact fetched

/-- One more block. -/
theorem Dialled.step {s : Dialer} {time : BitVec 32} {r : List (BitVec 16) × DialState}
    (dialled : Dialled j blocks (DTMF_mod_init s) time r) (n : Nat) :
    Dialled j (blocks ++ [n]) (DTMF_mod_init s) time
      (r.1 ++ (j.dialProcess n r.2).1, (j.dialProcess n r.2).2) := by
  have total : (blocks ++ [n]).sum = blocks.sum + n := by simp
  have size : (blocks ++ [n]).length = blocks.length + 1 := List.length_append
  have clock : time + BitVec.ofNat 32 blocks.sum + BitVec.ofNat 32 n =
      time + BitVec.ofNat 32 (blocks ++ [n]).sum := by
    rw [total, BitVec.ofNat_add, BitVec.add_assoc]
  have here : before (blocks ++ [n]) blocks.length = blocks.sum := by
    rw [before_snoc le_rfl, before_all le_rfl]
  have behind : before (blocks ++ [n]) (blocks.length + 1) = (blocks ++ [n]).sum :=
    before_all size.le
  cases dialled with
  | @fetching out tx timer plays early =>
    have both := plays.append j (j.DTMF_mod_plays n tx)
    rw [← total] at both
    unfold dialProcess
    dsimp only
    rw [clock]
    split
    case isTrue fetched =>
      rw [← here]
      refine .waiting blocks.length both (by omega) ⟨?_, ?_⟩ fun m lt lt' => by omega
      · rw [behind]
        exact (fetched_iff both).mp fetched
      · rw [here]
        exact early.imp_left fun none => congrArg List.length none
    case isFalse more =>
      exact .fetching both (Or.inr fun fetched => more ((fetched_iff both).mpr fetched))
  | @waiting out tx k plays inside last unexpired =>
    have both := plays.append j (j.DTMF_mod_plays n tx)
    rw [← total] at both
    have last' := (lastFetched_snoc (n := n) inside).mpr last
    have quiet : ∀ m, k < m → m < blocks.length → ¬ ExpiredIn (blocks ++ [n]) time k m :=
      fun m lt lt' expired => unexpired m lt lt' ((expiredIn_snoc lt lt'.le).mp expired)
    have check : ExpiredIn (blocks ++ [n]) time k blocks.length ↔
        sm_check_timer (time + BitVec.ofNat 32 blocks.sum)
          (sm_set_timer (time + BitVec.ofNat 32 (before blocks k)) 1000) = true := by
      rw [ExpiredIn, here, before_snoc inside.le]
    unfold dialProcess
    dsimp only
    rw [clock]
    split
    case isTrue expired =>
      refine .ended k blocks.length ?_ inside (by omega) last' (check.mpr expired) quiet
      rw [behind]
      exact both.samples
    case isFalse running =>
      rw [← before_snoc (n := n) inside.le]
      refine .waiting k both (by omega) last' fun m lt lt' expired => ?_
      rcases Nat.lt_or_ge m blocks.length with inner | here
      · exact quiet m lt inner expired
      · obtain rfl : m = blocks.length := by omega
        exact running (check.mp expired)
  | @ended out tx timer clock k m played lt inside last expired first =>
    show Dialled j _ _ _ (out ++ [], _)
    rw [List.append_nil]
    refine .ended k m ?_ lt (by omega) ((lastFetched_snoc (by omega)).mpr last)
      ((expiredIn_snoc lt inside.le).mpr expired) fun m' lt' before' expired' => ?_
    · rw [before_snoc inside]
      exact played
    · exact first m' lt' before' ((expiredIn_snoc lt' (by omega)).mp expired')

/-- The course of dialling over all blocks; the induction adds them at the end. -/
theorem dialled_calls (s : Dialer) (timer : Int) (time : BitVec 32) (blocks : List Nat) :
    Dialled j blocks (DTMF_mod_init s) time (calls j.dialProcess blocks (dialStart s timer time)) := by
  induction blocks using List.reverseRecOn with
  | nil =>
    have start : time = time + BitVec.ofNat 32 (List.sum []) := (BitVec.add_zero time).symm
    have none : Plays j (DTMF_mod_init s) (List.sum []) ([], DTMF_mod_init s) :=
      ⟨rfl, fun i => congrArg _ (Nat.zero_add i).symm, by simp, fun _ => rfl⟩
    rw [calls, dialStart]
    nth_rewrite 2 [start]
    exact .fetching none (Or.inl rfl)
  | append_singleton blocks n ih =>
    rw [calls_snoc]
    exact ih.step n

/-- What the course of dialling says about its samples and about the start of V.8. -/
theorem Dialled.result {s : Dialer} {time : BitVec 32} {r : List (BitVec 16) × DialState}
    (dialled : Dialled j blocks s time r) :
    r.1 = (List.range r.1.length).map (j.signal s) ∧
      (r.2.state ≠ .v8 → r.1.length = blocks.sum) ∧
      ((r.2.state = .v8 → j.lastToneEnd j.call_num ≤ r.1.length) ↔ j.LateEnough blocks time) := by
  cases dialled with
  | @fetching out tx timer plays early =>
    have samples : out = (List.range blocks.sum).map (j.signal s) := plays.samples
    have size : out.length = blocks.sum := by rw [samples, List.length_map, List.length_range]
    refine ⟨by rw [size]; exact samples, fun _ => size, iff_of_true (fun v8 => by cases v8) ?_⟩
    intro k m lt inside last
    have through : before blocks (k + 1) ≤ before blocks blocks.length := before_mono (by omega)
    have fetched := last.1.mono through
    rw [before_all le_rfl] at fetched
    rcases early with rfl | more
    · cases inside
    · exact absurd fetched more
  | @waiting out tx k plays inside last unexpired =>
    have samples : out = (List.range blocks.sum).map (j.signal s) := plays.samples
    have size : out.length = blocks.sum := by rw [samples, List.length_map, List.length_range]
    refine ⟨by rw [size]; exact samples, fun _ => size, iff_of_true (fun v8 => by cases v8) ?_⟩
    intro k' m lt inside' last' expired
    obtain rfl := last.unique last'
    exact absurd expired (unexpired m lt inside')
  | @ended out tx timer clock k m played lt inside last expired first =>
    have size : out.length = before blocks (m + 1) := by rw [played, List.length_map, List.length_range]
    refine ⟨by rw [size]; exact played, fun other => absurd rfl other, ?_⟩
    rw [size]
    constructor
    · intro late k' m' lt' inside' last' expired'
      obtain rfl := last.unique last'
      have order : m ≤ m' := by
        by_contra earlier
        exact first m' lt' (Nat.lt_of_not_le earlier) expired'
      exact (late rfl).trans (before_mono (Nat.succ_le_succ order))
    · intro late _
      exact late k m lt inside last expired

/-- For every number and every split into blocks, the samples are the next ones of the number, as many
as were asked for before V.8 is started.  V.8 is not started before the end of the last tone if and only
if no block in which the timer has expired ends in front of it. -/
theorem dialling_iff (j : DialJob) (s : Dialer) (timer : Int) (time : BitVec 32) (blocks : List Nat) :
    let (samples, state) := calls j.dialProcess blocks (dialStart s timer time)
    samples = (List.range samples.length).map (fun i => (j.dialSignal 0 0 j.call_num).getD i 0) ∧
      (state.state ≠ .v8 → samples.length = blocks.sum) ∧
      ((state.state = .v8 → j.lastToneEnd j.call_num ≤ samples.length) ↔ j.LateEnough blocks time) := by
  have heard : j.signal (DTMF_mod_init s) = fun i => (j.dialSignal 0 0 j.call_num).getD i 0 := by
    funext i
    rw [DialJob.signal, remaining_quiet rfl]
    rfl
  have result := (dialled_calls (j := j) s timer time blocks).result
  rw [heard] at result
  exact result

/-- A number dialled as in `default_lm_config`. -/
def defaultJob (cos_tab : CosTab) (level : BitVec 32) (call_num : List Char) : DialJob where
  cos_tab := cos_tab
  level := level
  digit_length_ms := default_lm_config.dtmf_digit_length
  digit_pause_ms := default_lm_config.dtmf_pause_length
  call_num := call_num
  digit_pos := by decide
  pause_pos := by decide

/-- The fifth digit is fetched with the last sample of the first block, and its timer has expired with
the second one. -/
theorem v8_cuts_digit : ¬ ∀ (j : DialJob) (s : Dialer) (timer : Int) (time : BitVec 32)
    (blocks : List Nat),
    j.digit_length_ms ≤ 1000 → (calls j.dialProcess blocks (dialStart s timer time)).2.state = .v8 →
      j.lastToneEnd j.call_num ≤ (calls j.dialProcess blocks (dialStart s timer time)).1.length := by
  intro all
  let j := defaultJob (fun _ => 0) 0 ['1', '2', '3', '4', '5']
  have late := (dialled_calls (j := j) ⟨0, 0, 0, 0, 0, 0, 0⟩ 0 0 [8001, 160]).result.2.2.mp
    (all j _ _ _ _ (by decide))
  have toneEnd := late 0 1 Nat.zero_lt_one (by decide) ⟨Or.inr (by decide), Or.inl rfl⟩ (by
    rw [ExpiredIn]
    decide)
  exact absurd toneEnd (by decide)

/-! ## Blocks of one size -/

/-- The last tone begins with the last character at the latest. -/
theorem lastToneEnd_le (cs : List Char) :
    j.lastToneEnd cs ≤ (cs.dropLast.map j.segment).sum + j.digitSamples := by
  induction cs with
  | nil => exact Nat.zero_le _
  | cons c cs ih =>
    rw [lastToneEnd]
    split
    case isTrue more =>
      have some : cs ≠ [] := by
        rintro rfl
        cases more
      rw [segments_cons c some, Nat.add_assoc]
      exact Nat.add_le_add_left ih _
    case isFalse =>
      split
      · exact Nat.le_add_left _ _
      · exact Nat.zero_le _

/-- With blocks of one size and digits of at most a second, V.8 waits for the last tone for as long as
the clock does not pass `2 ^ 31`. -/
theorem lateEnough_equal {time : BitVec 32} (count n : Nat) (short : j.digit_length_ms ≤ 1000)
    (clock : sm_time time + (count * n : Nat) + 8000 < 2 ^ 31) :
    j.LateEnough (List.replicate count n) time := by
  have lower : -2 ^ 31 ≤ sm_time time := BitVec.le_toInt time
  have place {k : Nat} (le : k ≤ count) : before (List.replicate count n) k = k * n := by
    rw [before, List.take_replicate, Nat.min_eq_left le, List.sum_replicate_nat]
  intro k m lt inside last expired
  rw [List.length_replicate] at inside
  have bound (i : Nat) (le : i ≤ count) : i * n ≤ count * n := Nat.mul_le_mul_right n le
  have later := bound m (by omega)
  have earlier := bound k (by omega)
  have clockAt (i : Nat) (le : i * n ≤ count * n) :
      sm_time (time + BitVec.ofNat 32 (i * n)) = sm_time time + (i * n : Nat) := by
    rw [sm_time_later, Int.bmod_eq_of_le (by omega) (by omega)]
  rw [ExpiredIn, sm_check_timer, decide_eq_true_eq, sm_set_timer, place (by omega), place (by omega),
    clockAt k earlier, clockAt m later, Int.bmod_eq_of_le (by omega) (by omega)] at expired
  have digit : j.digitSamples ≤ 8000 := by
    unfold digitSamples SAMPLE_RATE
    omega
  have toneEnd := j.lastToneEnd_le j.call_num
  have block : before (List.replicate count n) (m + 1) = m * n + n := by
    rw [place (by omega), Nat.succ_mul]
  have fetched := last.1
  rw [FetchedBy, place (by omega), Nat.succ_mul, lastStart] at fetched
  rw [block]
  rcases fetched with none | lt'
  · rw [none, lastToneEnd]
    exact Nat.zero_le _
  · omega

/-! ## Dialling in the modem -/

/-- What the state machine of the modem keeps of the modulator. -/
def shown (s : Dialer) : DtmfMod × Nat := (⟨decide (s.omega1 ≠ 0), s.samples_left⟩, s.dtmf_ptr)

section Shown

variable {cfg : LinModemConfig} (digit : cfg.dtmf_digit_length = j.digit_length_ms)
  (pause : cfg.dtmf_pause_length = j.digit_pause_ms)

include digit pause

theorem shown_refill {s r : Dialer} (turn : Refill j s r) (empty : s.samples_left = 0) :
    Linmodem.compute_params cfg j.call_num j.call_num.length (shown s).1 (shown s).2 = shown r := by
  have fetch {c : Char} {cs : List Char} (rest : j.unfetched s = c :: cs) :
      s.dtmf_ptr < j.call_num.length ∧ j.call_num.getD s.dtmf_ptr ' ' = c := by
    have first : j.call_num[s.dtmf_ptr]? = some c := by
      rw [← List.head?_drop, ← unfetched, rest, List.head?_cons]
    exact ⟨(List.getElem?_eq_some_iff.mp first).1, by rw [List.getD_eq_getElem?_getD, first]; rfl⟩
  unfold Linmodem.compute_params shown
  rw [pause, digit]
  cases turn with
  | going left => omega
  | pause empty playing =>
    rw [decide_eq_true playing, if_pos rfl]
    rfl
  | silence empty idle rest =>
    have gone : ¬ s.dtmf_ptr < j.call_num.length := Nat.not_lt.mpr (List.drop_eq_nil_iff.mp rest)
    dsimp only
    rw [idle, if_neg (by decide), if_neg gone]
    rfl
  | @other c cs empty idle rest key =>
    obtain ⟨inside, here⟩ := fetch rest
    have outside : c ∉ dtmf_transl := by
      intro member
      rw [keyTones_eq, if_pos (List.idxOf_lt_length_iff.mpr member)] at key
      cases key
    dsimp only
    rw [idle, if_neg (by decide), if_pos inside, here, if_neg outside]
    rfl
  | @digit c cs f1 f2 empty idle rest key =>
    obtain ⟨inside, here⟩ := fetch rest
    have member : c ∈ dtmf_transl := by
      by_contra outside
      rw [keyTones_eq, List.idxOf_eq_length outside, if_neg (Nat.lt_irrefl _)] at key
      cases key
    dsimp only
    rw [idle, if_neg (by decide), if_pos inside, here, if_pos member,
      decide_eq_true (phaseStep_ne key)]
    rfl

end Shown

/-- While samples are left, the modulator only counts them. -/
theorem shown_count (cfg : LinModemConfig) (number : List Char) (len : Nat) {m : Nat} {d : DtmfMod}
    (le : m ≤ d.samples_left) (n ptr : Nat) : Linmodem.DTMF_mod cfg number len (m + n) d ptr =
      Linmodem.DTMF_mod cfg number len n { d with samples_left := d.samples_left - m } ptr := by
  induction m generalizing d with
  | zero => rw [Nat.zero_add]; rfl
  | succ m ih =>
    rw [Nat.succ_add, Linmodem.DTMF_mod, if_neg (by omega)]
    dsimp only
    rw [ih (by dsimp only; omega)]
    dsimp only
    rw [Nat.sub_sub, Nat.add_comm 1]

theorem shown_play (len : Nat) (s : Dialer) : shown (j.play len s).2 =
    ({ (shown s).1 with samples_left := s.samples_left - len }, (shown s).2) := by
  by_cases playing : s.omega1 ≠ 0
  · rw [play_tone len playing]
    rfl
  · rw [play_quiet len (not_not.mp playing)]
    rfl

theorem shown_DTMF_mod {cfg : LinModemConfig} (digit : cfg.dtmf_digit_length = j.digit_length_ms)
    (pause : cfg.dtmf_pause_length = j.digit_pause_ms) (nb : Nat) (s : Dialer) :
    Linmodem.DTMF_mod cfg j.call_num j.call_num.length nb (shown s).1 (shown s).2 =
      shown (j.DTMF_mod nb s).2 := by
  induction nb using Nat.strong_induction_on generalizing s with
  | _ nb ih =>
    rw [DTMF_mod]
    split
    case isTrue none =>
      subst none
      rfl
    case isFalse some =>
      have left := j.refill_pos s
      have filled : Linmodem.DTMF_mod cfg j.call_num j.call_num.length nb (shown s).1 (shown s).2 =
          Linmodem.DTMF_mod cfg j.call_num j.call_num.length nb (shown (j.refill s)).1
            (shown (j.refill s)).2 := by
        by_cases empty : s.samples_left = 0
        · obtain ⟨n, rfl⟩ := Nat.exists_eq_succ_of_ne_zero some
          have params := shown_refill digit pause (refill_spec s) empty
          have done : (shown s).1.samples_left = 0 := empty
          have more : (shown (j.refill s)).1.samples_left ≠ 0 := left.ne'
          rw [Linmodem.DTMF_mod, Linmodem.DTMF_mod, if_pos done, params, if_neg more]
        · rw [refill, if_neg empty]
      obtain ⟨n, total⟩ := Nat.exists_eq_add_of_le (Nat.min_le_left nb (j.refill s).samples_left)
      have rest := ih (nb - min nb (j.refill s).samples_left) (by omega)
        (j.play (min nb (j.refill s).samples_left) (j.refill s)).2
      have after : nb - min nb (j.refill s).samples_left = n := by omega
      rw [after] at rest
      rw [filled]
      dsimp only
      rw [after, ← rest, shown_play]
      nth_rewrite 1 [total]
      exact @shown_count cfg _ _ _ (shown (j.refill s)).1 (Nat.min_le_right _ _) n _

variable (j) in
/-- The modem in a state of dialling. -/
structure Shows (cfg : LinModemConfig) (s : DialState) (m : Modem) : Prop where
  digit : cfg.dtmf_digit_length = j.digit_length_ms
  pause : cfg.dtmf_pause_length = j.digit_pause_ms
  state : m.state = s.state
  number : m.call_num = j.call_num
  len : m.dtmf_len = j.call_num.length
  tx : (m.dtmf_tx, m.dtmf_ptr) = shown s.dtmf_tx
  timer : m.dtmf_timer = s.dtmf_timer
  time : m.time = s.time

/-- Where digits are played, the state machine of the modem does what `dialProcess` does. -/
theorem Shows.step {cfg : LinModemConfig} {s : DialState} {m : Modem} (shows : Shows j cfg s m)
    (dialling : s.state = .dtmfDialWait ∨ s.state = .dtmfDialWait1) (nb_samples ret : Nat) :
    Shows j cfg (j.dialProcess nb_samples s).2 (m.sm_process cfg nb_samples ret).1 := by
  obtain ⟨digit, pause, state, number, len, tx, timer, time⟩ := shows
  have played := shown_DTMF_mod digit pause nb_samples s.dtmf_tx
  rw [← tx] at played
  have modulated : Modem.modulate cfg nb_samples m =
      { m with
        dtmf_tx := (shown (j.DTMF_mod nb_samples s.dtmf_tx).2).1
        dtmf_ptr := (shown (j.DTMF_mod nb_samples s.dtmf_tx).2).2 } := by
    unfold Modem.modulate
    rcases dialling with wait | wait
    · rw [state, wait]
      dsimp only
      rw [number, len, played]
    · rw [state, wait]
      dsimp only
      rw [number, len, played]
  unfold Modem.sm_process dialProcess
  rw [modulated]
  rcases dialling with wait | wait
  · rw [wait]
    unfold Modem.transition
    rw [state, wait]
    dsimp only
    rw [len]
    by_cases fetched : j.call_num.length ≤ (j.DTMF_mod nb_samples s.dtmf_tx).2.dtmf_ptr
    · rw [if_pos fetched, if_pos (by exact fetched), timerAfter_eq, time]
      exact ⟨digit, pause, rfl, number, rfl, rfl, rfl, rfl⟩
    · rw [if_neg fetched, if_neg (by exact fetched), time]
      exact ⟨digit, pause, rfl, number, rfl, rfl, timer, rfl⟩
  · rw [wait]
    unfold Modem.transition
    rw [state, wait]
    dsimp only
    rw [expired_eq, time, timer]
    by_cases expired : sm_check_timer s.time s.dtmf_timer = true
    · rw [if_pos expired, if_pos expired]
      exact ⟨digit, pause, rfl, number, len, rfl, rfl, rfl⟩
    · rw [if_neg expired, if_neg expired]
      exact ⟨digit, pause, rfl, number, len, rfl, rfl, rfl⟩

end DialJob

end QFax.Linmodem

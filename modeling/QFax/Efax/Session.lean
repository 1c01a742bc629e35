import QFax.Efax.Class1

/-!
# The session in a DCS frame

At `D_2` the transmitter sends the session it is going to use in a DCS frame.  The two bytes that
`mkdis` writes are followed here through `mkcap`, field by field, and the values for which the two
tables of a field are inverse to each other are found by going through them.
-/

namespace QFax.Efax

open Machine Call

/-- The fields that a DCS frame carries. -/
def dcsFields : List CapType := [.vr, .br, .wd, .ln, .df, .st]

/-- What a DCS frame says is the session. -/
def Recovers (fif : List Nat) (session : Cap) : Prop := ∀ i ∈ dcsFields, mkcap fif false i = session i

/-- The bits of a field value in a DCS frame. -/
def dcsBits (i : CapType) (value : Nat) : Nat :=
  let k := (t30tab i).captodcs.getD value 0
  (if k = invalidX then 0 else k) <<< (t30tab i).shift

/-- The byte with the fields `VR`, `BR` and `DF`. -/
def rateByte (vr br df : Nat) : Nat :=
  (((0x40 ||| dcsBits .vr vr) % 256 ||| dcsBits .br br) % 256 ||| dcsBits .df df) % 256

/-- The byte with the fields `WD`, `LN` and `ST`. -/
def pageByte (wd ln st : Nat) : Nat :=
  (((0 ||| dcsBits .wd wd) % 256 ||| dcsBits .ln ln) % 256 ||| dcsBits .st st) % 256

theorem mkdis_dcs {c : Cap} (range : c.InRange) (t4tx : Bool) :
    mkdis c dcsLen false t4tx = [0, rateByte (c .vr).toNat (c .br).toNat (c .df).toNat,
      pageByte (c .wd).toNat (c .ln).toNat (c .st).toNat] := by
  have bits (i : CapType) : fieldBits c false i = dcsBits i (c i).toNat := rfl
  unfold mkdis
  rw [range.checkCap_eq]
  simp [capTypes, blankFif, dcsLen, rateByte, pageByte, bits, t30tab]

/-- What is read back from the byte of a field. -/
def dcsValue (i : CapType) (byte : Nat) : Nat :=
  let k := (t30tab i).dcstocap.getD (byte >>> (t30tab i).shift &&& (t30tab i).mask) 0
  if k = invalidX then (t30tab i).safeval else k

/-- A field of a frame without extension bytes. -/
theorem mkcap_dcs {b1 b2 : Nat} (even : b2 &&& 1 = 0) {i : CapType} (carried : (t30tab i).byte < 3) :
    mkcap [0, b1, b2] false i = dcsValue i ([0, b1, b2].getD (t30tab i).byte 0) := by
  have three : dislen [0, b1, b2] = 3 := by
    simp [dislen, maxFifLen, disLenFrom, even]
  unfold mkcap dcsValue
  rw [three, if_neg (by omega), if_neg Bool.false_ne_true]
  dsimp only
  split <;> rfl

theorem rateByte_recovers : ∀ vr < 2, ∀ br < 8, ∀ df < 2,
    dcsValue .vr (rateByte vr br df) = vr ∧ dcsValue .df (rateByte vr br df) = df ∧
      (dcsValue .br (rateByte vr br df) = br ↔ br ≤ 5) := by
  decide

theorem pageByte_recovers : ∀ wd < 3, ∀ ln < 3, ∀ st < 8,
    dcsValue .wd (pageByte wd ln st) = wd ∧ dcsValue .ln (pageByte wd ln st) = ln := by
  decide

/-- The scan times with a code in a DCS frame that is read back as the same. -/
def dcsScanTimes : List Nat := [0, 3, 5, 7]

theorem pageByte_st : ∀ wd < 3, ∀ ln < 3, ∀ st < 8,
    (dcsValue .st (pageByte wd ln st) = st ↔ dcsScanTimes.contains st) := by
  decide

theorem pageByte_even : ∀ wd < 3, ∀ ln < 3, ∀ st < 8, pageByte wd ln st &&& 1 = 0 := by
  decide

/-- A field in range as a natural number. -/
theorem Cap.InRange.exists_nat {c : Cap} (range : c.InRange) (i : CapType) :
    ∃ n : Nat, c i = n ∧ (n : Int) ≤ capMax i := by
  obtain ⟨lower, upper⟩ := range i
  obtain ⟨n, eq⟩ := Int.eq_ofNat_of_zero_le lower
  exact ⟨n, eq, eq ▸ upper⟩

/-- A session is recovered exactly when its rate and its scan time have a code. -/
theorem recovers_iff {c : Cap} (range : c.InRange) (df : c .df ≤ 1) (t4tx : Bool) :
    Recovers (mkdis c dcsLen false t4tx) c ↔
      c .br ≤ 5 ∧ dcsScanTimes.contains (c .st).toNat := by
  obtain ⟨vr, vrEq, vrMax⟩ := range.exists_nat .vr
  obtain ⟨br, brEq, brMax⟩ := range.exists_nat .br
  obtain ⟨wd, wdEq, wdMax⟩ := range.exists_nat .wd
  obtain ⟨ln, lnEq, lnMax⟩ := range.exists_nat .ln
  obtain ⟨dfn, dfEq, -⟩ := range.exists_nat .df
  obtain ⟨st, stEq, stMax⟩ := range.exists_nat .st
  simp only [capMax, Cap.of] at vrMax brMax wdMax lnMax stMax
  have even := pageByte_even wd (by omega) ln (by omega) st (by omega)
  obtain ⟨rvr, rdf, rbr⟩ := rateByte_recovers vr (by omega) br (by omega) dfn (by omega)
  obtain ⟨rwd, rln⟩ := pageByte_recovers wd (by omega) ln (by omega) st (by omega)
  have rst := pageByte_st wd (by omega) ln (by omega) st (by omega)
  rw [mkdis_dcs range, vrEq, brEq, wdEq, lnEq, dfEq, stEq]
  simp only [Int.toNat_natCast]
  unfold Recovers dcsFields
  simp only [List.forall_mem_cons]
  rw [mkcap_dcs even (by decide), mkcap_dcs even (by decide), mkcap_dcs even (by decide),
    mkcap_dcs even (by decide), mkcap_dcs even (by decide), mkcap_dcs even (by decide),
    vrEq, brEq, wdEq, lnEq, dfEq, stEq]
  have rate : [0, rateByte vr br dfn, pageByte wd ln st].getD 1 0 = rateByte vr br dfn := rfl
  have page : [0, rateByte vr br dfn, pageByte wd ln st].getD 2 0 = pageByte wd ln st := rfl
  simp only [t30tab, rate, page, rvr, rwd, rln, rdf, Int.natCast_inj, rbr, rst,
    List.not_mem_nil, false_imp_iff, implies_true, true_and, and_true]
  exact and_congr_left fun _ => by omega

/-! ## The session that is negotiated -/

/-- The lower of two resolutions. -/
def minRes (loc remote : Int) : Int := if remote < loc then remote else loc

theorem minRate_mem (loc remote : Int) : minRate loc remote = loc ∨ minRate loc remote = remote := by
  unfold minRate
  split
  · exact .inr rfl
  · exact .inl rfl

/-- Every scan time is one of eight, and has a code when the remote scan time is neither 5 ms nor halved
for the resolution. -/
theorem mstTab_cases (vr : Int) : ∀ st < 8, 0 ≤ mstTab vr (st : Nat) ∧ mstTab vr (st : Nat) ≤ 7 ∧
    (dcsScanTimes.contains (mstTab vr (st : Nat)).toNat ↔ ¬ (st = 1 ∨ st = 2 ∧ vr ≠ 0)) := by
  unfold mstTab
  by_cases low : vr = 0
  · simp only [low, if_true, ne_eq, not_true_eq_false, and_false, or_false]
    decide
  · simp only [low, if_false, ne_eq, not_false_eq_true, and_true]
    decide

/-- The session that `mincap` chooses. -/
def minSession (loc remote session : Cap) : Cap :=
  let vr := minRes (loc .vr) (remote .vr)
  Cap.of vr (minRate (loc .br) (remote .br)) (session .wd) (session .ln) (session .df) (session .ec)
    (session .bf) (mstTab vr (remote .st))

theorem minSession_inRange {loc remote session : Cap} (locRange : loc.InRange)
    (remoteRange : remote.InRange) (range : session.InRange) :
    (minSession loc remote session).InRange := by
  intro i
  cases i with
  | vr =>
    have lower := locRange .vr
    have upper := remoteRange .vr
    simp only [minSession, Cap.of, minRes]
    split <;> assumption
  | br =>
    simp only [minSession, Cap.of]
    rcases minRate_mem (loc .br) (remote .br) with same | same <;> rw [same]
    · exact locRange .br
    · exact remoteRange .br
  | st =>
    obtain ⟨st, eq, max⟩ := remoteRange.exists_nat .st
    simp only [capMax, Cap.of] at max
    simp only [minSession, Cap.of, eq]
    obtain ⟨lower, upper, -⟩ := mstTab_cases (minRes (loc .vr) (remote .vr)) st (by omega)
    exact ⟨lower, upper⟩
  | wd => exact range .wd
  | ln => exact range .ln
  | df => exact range .df
  | ec => exact range .ec
  | bf => exact range .bf

theorem mincap_session (loc remote : Cap) {session : Cap} (range : session.InRange) :
    (mincap loc remote session).1.2.2 = minSession (checkCap loc) (checkCap remote) session := by
  rw [← (minSession_inRange (checkCap_inRange loc) (checkCap_inRange remote) range).checkCap_eq]
  have same (i : CapType) : (Function.update (Function.update (Function.update session .vr
      (minRes (checkCap loc .vr) (checkCap remote .vr))) .br
      (minRate (checkCap loc .br) (checkCap remote .br))) .st
      (mstTab (minRes (checkCap loc .vr) (checkCap remote .vr)) (checkCap remote .st))) i =
      minSession (checkCap loc) (checkCap remote) session i := by
    cases i <;> rfl
  exact congrArg checkCap (funext same)

/-! ## The session of a run -/

/-- The session stays within what DCS frames can hold, except for its rate and scan time. -/
structure SessionOk (s : Call) : Prop where
  range : s.session.InRange
  df : s.session .df ≤ 1

theorem mkcap_df (fif : List Nat) : mkcap fif false .df ≤ 1 := by
  have table : ∀ j : Nat, [0, 1].getD j 0 ≤ 1 := by
    intro j
    match j with
    | 0 | 1 => decide
    | _ + 2 => exact Nat.zero_le 1
  unfold mkcap
  dsimp only
  split
  · decide
  · split
    · contradiction
    · split
      · exact Int.zero_le_ofNat 1
      · exact Int.ofNat_le.2 (table _)

theorem checkCap_df {c : Cap} (df : c .df ≤ 1) : checkCap c .df ≤ 1 := by
  unfold checkCap
  split
  · decide
  · exact df

variable {cfg : Config} {h : List Event} {s : Call} {input : Input}

theorem negotiate_session (inv : SessionOk s) :
    s.negotiate.session = minSession (checkCap s.loc) (checkCap s.remote) s.session :=
  mincap_session s.loc s.remote inv.range

theorem SessionOk.negotiate (inv : SessionOk s) : SessionOk s.negotiate := by
  refine ⟨?_, ?_⟩ <;> rw [negotiate_session inv]
  · exact minSession_inRange (checkCap_inRange _) (checkCap_inRange _) inv.range
  · exact inv.df

theorem SessionOk.of_same {s' : Call} (inv : SessionOk s) (same : s'.session = s.session) :
    SessionOk s' := by
  refine ⟨?_, ?_⟩ <;> rw [same]
  · exact inv.range
  · exact inv.df

theorem SessionOk.step (inv : SessionOk s) : SessionOk (step cfg input s).1 := by
  by_cases d2 : s.pc = .d2
  · simp only [Call.step, d2]
    exact inv.negotiate.of_same (same_stepD2 cfg s input).session
  · by_cases f2 : s.pc = .f2
    · simp only [Call.step, f2, stepF2]
      split
      case h_3 => exact ⟨checkCap_inRange _, checkCap_df (mkcap_df _)⟩
      all_goals exact inv.of_same rfl
    · exact inv.of_same (session_step cfg s input ⟨d2, f2⟩)

theorem defCap_inRange : defCap.InRange := by
  intro i
  cases i <;> decide

theorem sessionOk_start {loc : Cap} {good : Bool} : SessionOk (start cfg loc good) where
  range := defCap_inRange
  df := (by decide : defCap .df ≤ 1)

/-- The chosen rate is not a V.17 rate below 12000 bps, and the remote fax does not ask for 5 ms, nor
for 10 ms halved at the high resolution. -/
def HasDcsCode (loc remote : Cap) : Prop :=
  minRate (loc .br) (remote .br) ≤ 5 ∧
    ¬ (remote .st = 1 ∨ remote .st = 2 ∧ loc .vr = 1 ∧ remote .vr = 1)

instance (loc remote : Cap) : Decidable (HasDcsCode loc remote) :=
  inferInstanceAs (Decidable (_ ∧ _))

theorem minSession_code {loc remote session : Cap} (locRange : loc.InRange)
    (remoteRange : remote.InRange) :
    (minSession loc remote session .br ≤ 5 ∧
      dcsScanTimes.contains (minSession loc remote session .st).toNat) ↔ HasDcsCode loc remote := by
  obtain ⟨st, eq, max⟩ := remoteRange.exists_nat .st
  simp only [capMax, Cap.of] at max
  obtain ⟨-, -, code⟩ := mstTab_cases (minRes (loc .vr) (remote .vr)) st (by omega)
  have high : minRes (loc .vr) (remote .vr) ≠ 0 ↔ loc .vr = 1 ∧ remote .vr = 1 := by
    have locVr := locRange .vr
    have remoteVr := remoteRange .vr
    simp only [capMax, Cap.of] at locVr remoteVr
    unfold minRes
    split <;> omega
  unfold HasDcsCode
  simp only [minSession, Cap.of, eq]
  have one : (st : Int) = 1 ↔ st = 1 := by omega
  have two : (st : Int) = 2 ↔ st = 2 := by omega
  rw [code, high, one, two]

/-- In every run, the session that is sent in a DCS frame and then used is the one the frame is read
back as, if and only if rate and scan time have a code. -/
theorem dcs_recovers_iff {loc : Cap} {good disbit : Bool} {fif : List Nat}
    (run : Runs (step cfg) (fun _ _ _ => True) (start cfg loc good) h s) (atD2 : s.pc = .d2)
    (sent : .sent .dcs disbit fif ∈ (step cfg input s).2) :
    Recovers fif (step cfg input s).1.session ↔ HasDcsCode (checkCap s.loc) (checkCap s.remote) := by
  have inv : SessionOk s := run.invariant (P := fun _ s => SessionOk s) sessionOk_start
    fun _ inv _ => inv.step
  have used : (step cfg input s).1.session = s.negotiate.session := by
    simp only [Call.step, atD2]
    exact (same_stepD2 cfg s input).session
  have frame : fif = s.negotiate.dcsFif cfg := by
    simp only [Call.step, atD2, stepD2, sendDcs, List.mem_append, mem_unlessEvent] at sent
    rcases sent with ⟨-, tsi⟩ | ⟨-, dcs⟩
    · cases tsi
    · exact (Event.sent.inj dcs).2.2
  have code := recovers_iff inv.negotiate.range inv.negotiate.df (cfg.pages ≠ 0)
  rw [used, frame]
  refine code.trans ?_
  rw [negotiate_session inv]
  exact minSession_code (checkCap_inRange _) (checkCap_inRange _)

/-- A remote fax with a page, then its DIS frame. -/
def offering (fif : List Nat) : List Event × Call :=
  feed (step (sending 1)) [{ answered 0 with answer := .frame 0x01 fif }, answered 0, answered 0] []
    (start (sending 1) defCap false)

theorem dcs_recovers_default :
    Recovers [0x00, 0x40, 0x10]
      (step (sending 1) (answered 0x21) (offering [0x00, 0x40, 0x00]).2).1.session := by
  have sent : Event.sent .dcs true [0x00, 0x40, 0x10] ∈
      (step (sending 1) (answered 0x21) (offering [0x00, 0x40, 0x00]).2).2 := by decide
  exact (dcs_recovers_iff (runs_feed _ _ _) rfl sent).2 (by decide)

/-- A scan time of 5 ms is read back as 40 ms. -/
theorem dcs_misread : ¬ ∀ (cfg : Config) (loc : Cap) (good disbit : Bool) (h : List Event) (s : Call)
    (input : Input) (fif : List Nat), loc.InRange →
      Runs (step cfg) (fun _ _ _ => True) (start cfg loc good) h s → s.pc = .d2 →
        .sent .dcs disbit fif ∈ (step cfg input s).2 → Recovers fif (step cfg input s).1.session := by
  intro claim
  have recovered := claim (sending 1) defCap false true _ (offering [0x00, 0x40,
    0x08]).2 (answered 0x21)
    [0x00, 0x40, 0x18] defCap_inRange (runs_feed _ _ _) rfl (by decide) .st (by decide)
  exact absurd recovered (by decide)

end QFax.Efax

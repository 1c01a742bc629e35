import Mathlib.Data.Int.ModEq
import QFax.Linmodem.V90SignStream

/-!
# V.90: the state the spectral shaping chooses

The shaping trellis is meant to be left by the first step of the path that gives the filter the
least energy over the current frame and `ld` frames of look-ahead.  The trace-back reads the
predecessors one column too early: the last one it reads is that of the first level, which is always
the current state.  With look-ahead the state therefore never changes; without, the energies of the
two choices are compared in 16 bits.
-/

namespace QFax.Linmodem

/-! ## Kept paths -/

section Kept

variable (energy : List Bool → Int)

/-- At every node of the trellis one path is kept, through the predecessor of less energy. -/
structure Survivors (kept : Nat → Bool → List Bool) : Prop where
  start : ∀ state, kept 0 state = [state]
  better : ∀ n state, ∃ lstate, kept (n + 1) state = kept n lstate ++ [state] ∧
    ∀ other, energy (kept n lstate ++ [state]) ≤ energy (kept n other ++ [state])

/-- Some path of least energy among those kept at depth `ld` starts with `first`. -/
def LeastStart (ld : Nat) (first : Bool) : Prop :=
  ∃ kept, Survivors energy kept ∧ ∃ last, (∀ other, energy (kept ld last) ≤ energy (kept ld other)) ∧
    ∃ rest, kept ld last = first :: rest

/-- The search of the encoder, over all depths: on a tie state 0 comes first. -/
def keptPath : Nat → Bool → List Bool
  | 0, state => [state]
  | n + 1, state =>
    let path0 := keptPath n false ++ [state]
    let path1 := keptPath n true ++ [state]
    if energy path1 < energy path0 then path1 else path0

theorem survivors_keptPath : Survivors energy (keptPath energy) where
  start _ := rfl
  better n state := by
    rcases lt_or_ge (energy (keptPath energy n true ++ [state]))
      (energy (keptPath energy n false ++ [state])) with less | most
    · refine ⟨true, if_pos less, fun other => ?_⟩
      cases other
      · exact less.le
      · exact le_refl _
    · refine ⟨false, if_neg most.not_gt, fun other => ?_⟩
      cases other
      · exact le_refl _
      · exact most

variable {energy}

theorem leastStart_zero {first : Bool} :
    LeastStart energy 0 first ↔ ∀ other, energy [first] ≤ energy [other] := by
  constructor
  · rintro ⟨kept, survivors, last, least, rest, starts⟩ other
    have found := least other
    rw [survivors.start] at starts found
    rw [survivors.start] at found
    obtain ⟨rfl, -⟩ := List.cons.inj starts
    exact found
  · intro least
    exact ⟨keptPath energy, survivors_keptPath energy, first, least, [], rfl⟩

variable (energy) in
/-- In 16 bits the energies of the two choices compare as they do in full. -/
def SameOrder : Prop :=
  (wrap16 (energy [true]) < wrap16 (energy [false]) → energy [true] ≤ energy [false]) ∧
    (wrap16 (energy [false]) ≤ wrap16 (energy [true]) → energy [false] ≤ energy [true])

instance : Decidable (SameOrder energy) := inferInstanceAs (Decidable (_ ∧ _))

/-- The lighter of two choices has less energy when the weights compare as the energies do. -/
theorem leastStart_lighter :
    LeastStart energy 0 (decide (wrap16 (energy [true]) < wrap16 (energy [false]))) ↔
      SameOrder energy := by
  rw [leastStart_zero]
  rcases lt_or_ge (wrap16 (energy [true])) (wrap16 (energy [false])) with less | most
  · rw [decide_eq_true less]
    refine ⟨fun least => ⟨fun _ => least false, fun le => absurd less le.not_gt⟩,
      fun same other => ?_⟩
    cases other
    · exact same.1 less
    · exact le_refl _
  · rw [decide_eq_false most.not_gt]
    refine ⟨fun least => ⟨fun lt => absurd lt most.not_gt, fun _ => least true⟩,
      fun same other => ?_⟩
    cases other
    · exact le_refl _
    · exact same.2 most

/-- With one frame of look-ahead every path is compared. -/
theorem LeastStart.one {first : Bool} (least : LeastStart energy 1 first) :
    ∃ last, ∀ state other, energy [first, last] ≤ energy [state, other] := by
  obtain ⟨kept, survivors, last, least, rest, starts⟩ := least
  obtain ⟨lstate, path, -⟩ := survivors.better 0 last
  rw [survivors.start, List.singleton_append] at path
  rw [path] at starts
  obtain ⟨rfl, -⟩ := List.cons.inj starts
  refine ⟨last, fun state other => ?_⟩
  obtain ⟨before, path', better⟩ := survivors.better 0 other
  calc energy [lstate, last] = energy (kept 1 last) := by rw [path]
    _ ≤ energy (kept 1 other) := least other
    _ = energy (kept 0 before ++ [other]) := by rw [path']
    _ ≤ energy (kept 0 state ++ [other]) := better state
    _ = energy [state, other] := by rw [survivors.start, List.singleton_append]

end Kept

/-! ## The energy of a path -/

/-- `sum of (v * v) >> 4` over the samples of a frame, without a bound. -/
def frameEnergy (p : V90Params) (s : V90EncodeState) (ptr : Nat) (sg : BitVec 8)
    (last : ShapeNode) (fs : Nat) : Int :=
  ((List.range fs).map fun i =>
    let v := ((List.range (i + 1)).foldl (shapeSample p s ptr sg) last).v
    (v * v) >>> (4 : Nat)).sum

/-- One more frame of a path: its signs, the filter memory in 16 bits, and all its energy. -/
def shapingStep (p : V90Params) (s : V90EncodeState) (fs ptr : Nat) (state lstate : Bool)
    (last : ShapeNode) : ShapeNode :=
  let next := remember (transition p s fs ptr state lstate last)
  { next with w := last.w + frameEnergy p s ptr next.t last fs }

/-- The frames of a path from state `lstate`. -/
def pathFrom (p : V90Params) (s : V90EncodeState) (fs : Nat) :
    Nat → Bool → ShapeNode → List Bool → ShapeNode
  | _, _, node, [] => node
  | ptr, lstate, node, state :: rest =>
    pathFrom p s fs ((ptr + fs) % UCODE_BUF_SIZE) state
      (shapingStep p s fs ptr state lstate node) rest

/-- A path from the current state, beginning with the frame `ld` frames ago. -/
def shapingPath (p : V90Params) (fs : Nat) (s : V90EncodeState) : List Bool → ShapeNode :=
  pathFrom p s fs (ringIndex s.ucode_ptr (fs * p.ld)) s.Q ⟨s.t, s.x, s.y, s.v, 0⟩

def pathEnergy (p : V90Params) (fs : Nat) (s : V90EncodeState) (path : List Bool) : Int :=
  (shapingPath p fs s path).w

/-- The state `s'` is reached by the first step of a path of least energy. -/
structure FirstOfBest (p : V90Params) (fs : Nat) (s s' : V90EncodeState) : Prop where
  best : LeastStart (pathEnergy p fs s) p.ld s'.Q
  signs : s'.t = (shapingPath p fs s [s'.Q]).t
  memory : s'.x = (shapingPath p fs s [s'.Q]).x ∧ s'.y = (shapingPath p fs s [s'.Q]).y ∧
    s'.v = (shapingPath p fs s [s'.Q]).v

/-! ## What the encoder compares -/

section Weight

variable (p : V90Params) (s : V90EncodeState) (ptr : Nat) (sg : BitVec 8) (last : ShapeNode)

/-- What is left of a sample's energy in 16 bits. -/
theorem wrap32_shift_emod (x : Int) :
    (wrap32 x >>> (4 : Nat)) % 2 ^ 16 = (x >>> (4 : Nat)) % 2 ^ 16 := by
  have low : wrap32 x % 2 ^ 32 = x % 2 ^ 32 := Int.bmod_emod
  rw [Int.shiftRight_eq_div_pow, Int.shiftRight_eq_div_pow]
  norm_num at low ⊢
  omega

/-- Wrapped to 16 bits, the weight is the energy. -/
theorem foldl_shapeSample_emod (fs : Nat) :
    ((List.range fs).foldl (shapeSample p s ptr sg) last).w % 2 ^ 16 =
      (last.w + frameEnergy p s ptr sg last fs) % 2 ^ 16 := by
  induction fs with
  | zero => simp [frameEnergy]
  | succ n ih =>
    have energy : frameEnergy p s ptr sg last (n + 1) = frameEnergy p s ptr sg last n +
        (((List.range (n + 1)).foldl (shapeSample p s ptr sg) last).v *
          ((List.range (n + 1)).foldl (shapeSample p s ptr sg) last).v) >>> (4 : Nat) := by
      simp only [frameEnergy]
      rw [List.range_succ (n := n), List.map_append, List.sum_append, List.map_singleton,
        List.sum_singleton, ← List.range_succ]
    rw [energy, List.range_succ, List.foldl_append, List.foldl_cons, List.foldl_nil]
    generalize (List.range n).foldl (shapeSample p s ptr sg) last = before at ih ⊢
    simp only [shapeSample]
    generalize wrap32 (_ - _) = v
    have part := wrap32_shift_emod (v * v)
    have whole : ∀ z, wrap32 z % 2 ^ 16 = z % 2 ^ 16 := by
      intro z
      have low : wrap32 z % 2 ^ 32 = z % 2 ^ 32 := Int.bmod_emod
      norm_num at low ⊢
      omega
    rw [whole]
    omega

/-- The weight kept for the first frame. -/
theorem remember_transition_w (fs : Nat) (state : Bool) :
    (remember (transition p s fs ptr state s.Q last)).w =
      wrap16 (shapingStep p s fs ptr state s.Q last).w := by
  have same := foldl_shapeSample_emod p s ptr (last.t ^^^ s.pp ptr ^^^ sign_op state s.Q) last fs
  exact (Int.emod_bmod _ _).symm.trans ((congrArg (·.bmod (2 ^ 16)) same).trans
    (Int.emod_bmod _ _))

end Weight

/-! ## The choice -/

section Select

variable {p : V90Params} {fs : Nat} (pp : BitVec 8) (s : V90EncodeState)

/-- The encoder's state once the new sign word is in the ring buffer. -/
def storeSigns (pp : BitVec 8) (s : V90EncodeState) : V90EncodeState :=
  { s with pp := store s.pp s.ucode_ptr pp }

/-- The nodes after the frame `ld` frames ago. -/
def firstLevel (p : V90Params) (fs : Nat) (s : V90EncodeState) : TrellisLevel :=
  trellisLevel p s fs (ringIndex s.ucode_ptr (fs * p.ld)) [(s.Q, ⟨s.t, s.x, s.y, s.v, 0⟩)]

/-- `for (depth = ld; depth > 0; depth--) state = mem_l[state][depth]` from the lighter end. -/
def traceBack (first : TrellisLevel) (later : List TrellisLevel) : Bool :=
  let last := (first :: later).getLastD first
  (first :: later).dropLast.reverse.foldl (fun state level => (level state).2)
    (decide ((last true).1.w < (last false).1.w))

/-- One level too few: the first level's predecessor is read whatever the search has found. -/
theorem traceBack_first {first : TrellisLevel} {later : List TrellisLevel} {Q : Bool}
    (ahead : later ≠ []) (from_current : ∀ state, (first state).2 = Q) :
    traceBack first later = Q := by
  rw [traceBack, List.dropLast_cons_of_ne_nil ahead, List.reverse_cons, List.foldl_append,
    List.foldl_cons, List.foldl_nil]
  exact from_current _

theorem select_best_signs_Q :
    (select_best_signs p fs pp s).Q = traceBack (firstLevel p fs (storeSigns pp s))
      (trellisLevels p (storeSigns pp s) fs p.ld (ringIndex s.ucode_ptr (fs * p.ld))
        (firstLevel p fs (storeSigns pp s))) := rfl

/-- A node of the first level is the first step of a path, its weight in 16 bits. -/
theorem firstLevel_node (few : fs ≤ 6) (s : V90EncodeState) (state : Bool) :
    firstLevel p fs s state = ({ shapingPath p fs s [state] with
      w := wrap16 (pathEnergy p fs s [state]) }, s.Q) := by
  have weight := remember_transition_w p s (ringIndex s.ucode_ptr (fs * p.ld))
    ⟨s.t, s.x, s.y, s.v, 0⟩ fs state
  rw [firstLevel, firstLevel_eq few, pathEnergy, shapingPath, pathFrom, pathFrom, ← weight]
  rfl

/-- Without look-ahead the lighter choice is taken, by the weights in 16 bits. -/
theorem select_best_signs_Q_zero (few : fs ≤ 6) (none_ahead : p.ld = 0) :
    (select_best_signs p fs pp s).Q =
      decide (wrap16 (pathEnergy p fs (storeSigns pp s) [true]) <
        wrap16 (pathEnergy p fs (storeSigns pp s) [false])) := by
  have weight : ∀ state, (firstLevel p fs (storeSigns pp s) state).1.w =
      wrap16 (pathEnergy p fs (storeSigns pp s) [state]) := fun state => by
    rw [firstLevel_node few]
  rw [select_best_signs_Q, none_ahead, ← weight, ← weight]
  rfl

/-- With look-ahead the state stays. -/
theorem select_best_signs_Q_succ (few : fs ≤ 6) (ahead : p.ld ≠ 0) :
    (select_best_signs p fs pp s).Q = s.Q := by
  rw [select_best_signs_Q]
  apply traceBack_first
  · obtain ⟨n, depth⟩ := Nat.exists_eq_succ_of_ne_zero ahead
    rw [depth]
    exact List.cons_ne_nil _ _
  · intro state
    rw [firstLevel_node few]
    rfl

/-- The signs and the filter memory are those of the first step to the chosen state. -/
theorem select_best_signs_node (few : fs ≤ 6) :
    let s' := select_best_signs p fs pp s
    let node := shapingPath p fs (storeSigns pp s) [s'.Q]
    s'.t = node.t ∧ s'.x = node.x ∧ s'.y = node.y ∧ s'.v = node.v := by
  intro s' node
  have kept : s'.t = (firstLevel p fs (storeSigns pp s) s'.Q).1.t ∧
      s'.x = (firstLevel p fs (storeSigns pp s) s'.Q).1.x ∧
      s'.y = (firstLevel p fs (storeSigns pp s) s'.Q).1.y ∧
      s'.v = (firstLevel p fs (storeSigns pp s) s'.Q).1.v := ⟨rfl, rfl, rfl, rfl⟩
  rw [firstLevel_node few] at kept
  exact kept

/-- Without look-ahead the best path is followed when its energy and the other compare in 16 bits as
they do in full; with look-ahead, when a best path begins by staying. -/
theorem select_best_signs_best_iff (few : fs ≤ 6) :
    FirstOfBest p fs (storeSigns pp s) (select_best_signs p fs pp s) ↔
      if p.ld = 0 then SameOrder (pathEnergy p fs (storeSigns pp s))
      else LeastStart (pathEnergy p fs (storeSigns pp s)) p.ld s.Q := by
  have node := select_best_signs_node (p := p) pp s few
  have reduced : FirstOfBest p fs (storeSigns pp s) (select_best_signs p fs pp s) ↔
      LeastStart (pathEnergy p fs (storeSigns pp s)) p.ld (select_best_signs p fs pp s).Q :=
    ⟨FirstOfBest.best, fun best => ⟨best, node.1, node.2⟩⟩
  rw [reduced]
  split
  · rename_i none_ahead
    rw [select_best_signs_Q_zero pp s few none_ahead, none_ahead]
    exact leastStart_lighter
  · rename_i ahead
    rw [select_best_signs_Q_succ pp s few ahead]

end Select

/-- A filter that passes the change from one sample to the next. -/
def differenceParams (ld : Nat) : V90Params := { uniformParams 5 ld with b1 := 64 }

/-- The first frame after the start, of six equal levels. -/
def firstFrame : V90EncodeState := { startEncode with ucode := fun i => if i < 6 then 5 else 0 }

/-- A frame of louder levels after one that ended with a positive sample. -/
def louderFrame : V90EncodeState :=
  { startEncode with ucode := fun _ => 24, t := 0x20, x := 260, y := 520, v := 520 }

/-- Without look-ahead the first frame follows a best path. -/
theorem select_best_signs_best_first :
    FirstOfBest (differenceParams 0) 6 (storeSigns 0x14 firstFrame)
      (select_best_signs (differenceParams 0) 6 0x14 firstFrame) :=
  (select_best_signs_best_iff 0x14 firstFrame (by decide)).mpr (by
    rw [if_pos (by rfl)]
    decide +kernel)

/-- With look-ahead the best path leaves state 0, which the encoder keeps; and an energy over
`0x7fff` passes for the least. -/
theorem select_best_signs_misses :
    ¬ FirstOfBest (differenceParams 1) 6 (storeSigns 0x14 firstFrame)
      (select_best_signs (differenceParams 1) 6 0x14 firstFrame) ∧
    ¬ FirstOfBest (differenceParams 0) 6 (storeSigns 0 louderFrame)
      (select_best_signs (differenceParams 0) 6 0 louderFrame) := by
  constructor
  · rintro ⟨best, -, -⟩
    exact absurd best.one (by decide +kernel)
  · rintro ⟨best, -, -⟩
    exact absurd (leastStart_zero.mp best) (by decide +kernel)

end QFax.Linmodem

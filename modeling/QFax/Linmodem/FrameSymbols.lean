import QFax.Linmodem.MappingFrame

/-!
# V.34: one 4D symbol, sent and received

Without precoding a transmitted point is the rotated point of the constellation, and the decision
of the receiver finds its quarter turns and the low eight bits of its index.  Differential
decoding then gives the three coded bits back.
-/

namespace QFax.Linmodem

open Bits

/-! ## The fields of a long frame -/

section Fields

variable {q : Nat}

/-- The bits of one 4D symbol are written as they were read. -/
theorem writeSymbol_readSymbol {ptr : List Bool} (enough : 3 + 2 * q ≤ ptr.length) :
    writeSymbol q (readSymbol q ptr).1 ++ (readSymbol q ptr).2 = ptr := by
  obtain ⟨a, b, c, rest, rfl⟩ : ∃ a b c rest, ptr = a :: b :: c :: rest := by
    match ptr, enough with
    | a :: b :: c :: rest, _ => exact ⟨a, b, c, rest, rfl⟩
    | [], enough | [_], enough | [_, _], enough => simp only [List.length] at enough; omega
  have room : 2 * q ≤ rest.length := by simp at enough; omega
  have first := lowBits_word (rest.take q)
  have second := lowBits_word ((rest.drop q).take q)
  rw [List.length_take, Nat.min_eq_left (by omega)] at first
  rw [List.length_take, List.length_drop, Nat.min_eq_left (by omega)] at second
  have flag : ∀ x : Bool, (x.toNat == 1) = x := by decide
  simp only [writeSymbol, readSymbol, List.drop_succ_cons, List.drop_zero, first, second,
    List.getD_cons_zero, List.getD_cons_succ, flag]
  simp

theorem length_readSymbol (ptr : List Bool) :
    (readSymbol q ptr).2.length = ptr.length - (3 + 2 * q) := by
  simp only [readSymbol, List.length_drop]
  omega

/-- The bits behind the shell-mapped ones are written as they were read. -/
theorem writeSymbols_readSymbols {k : Nat} {ptr : List Bool}
    (length : ptr.length = k * (3 + 2 * q)) :
    (readSymbols q k ptr).flatMap (writeSymbol q) = ptr := by
  induction k generalizing ptr with
  | zero => simpa [readSymbols, eq_comm] using length
  | succ k ih =>
    rw [Nat.succ_mul] at length
    rw [readSymbols, List.flatMap_cons, ih (by rw [length_readSymbol]; omega)]
    exact writeSymbol_readSymbol (by omega)

/-- What a field of a long frame can hold. -/
def Symbol4D.Fits (q : Nat) (symbol : Symbol4D) : Prop :=
  symbol.I0 < 2 ∧ symbol.I1 < 2 ∧ symbol.I2 < 2 ∧ symbol.Q.1 < 2 ^ q ∧ symbol.Q.2 < 2 ^ q

theorem readSymbol_fits (q : Nat) (ptr : List Bool) : (readSymbol q ptr).1.Fits q := by
  have flag : ∀ x : Bool, x.toNat < 2 := by decide
  have field : ∀ bits : List Bool, word (bits.take q) < 2 ^ q := fun bits =>
    (word_lt _).trans_le (Nat.pow_le_pow_right (by decide) (List.length_take_le _ _))
  exact ⟨flag _, flag _, flag _, field _, field _⟩

theorem readSymbols_fits {k : Nat} {ptr : List Bool} {symbol : Symbol4D}
    (member : symbol ∈ readSymbols q k ptr) : symbol.Fits q := by
  induction k generalizing ptr with
  | zero => cases member
  | succ k ih =>
    rcases List.mem_cons.mp member with rfl | later
    · exact readSymbol_fits q ptr
    · exact ih later

end Fields

/-! ## One point -/

/-- The signal of a point: seven bits of fraction, in 16 bits. -/
def transmit (y : Point) : Point := (int16 (y.1 <<< (7 : Nat)), int16 (y.2 <<< (7 : Nat)))

theorem shr_round0_zero (n : Nat) : shr_round0 0 n = 0 := by
  have low : (0 : Int) ≤ 2 ^ (n - 1) - 1 := by
    have positive : (0 : Int) < 2 ^ (n - 1) := by positivity
    omega
  have high : (2 : Int) ^ (n - 1) - 1 < 2 ^ n := by
    have grows : (2 : Int) ^ (n - 1) ≤ 2 ^ n := pow_le_pow_right₀ (by decide) (Nat.sub_le n 1)
    omega
  rw [shr_round0, if_pos le_rfl, Int.zero_add, Int.shiftRight_eq_div_pow]
  push_cast
  exact Int.ediv_eq_zero_of_lt low high

theorem clamp_eq {a v : Int} (low : -v ≤ a) (high : a ≤ v) : clamp a v = a := by
  rw [clamp, if_neg (by omega), if_neg (by omega)]

/-- Without precoding coefficients the precoder changes nothing. -/
theorem encodePoint_eq {p : V34Params} (uncoded : ∀ k, p.h k = (0, 0)) {t : Nat}
    (known : t < L_MAX / 4) (Z : Int) (x : Fin 3 → Point) :
    ∃ x' sent, encodePoint p t Z x =
      some (⟨rotate_clockwise (constellation.getD t (0, 0)) Z.toNat, sent⟩, 0, x') := by
  have size : L_MAX / 4 = 416 := rfl
  obtain ⟨-, -, left, right, down, up⟩ :=
    rotate_bounds Z.toNat (constellation_point (show t < 529 by omega))
  have quiet : ((List.finRange 3).map fun _ => (0 : Int)).sum = 0 := by decide
  rw [encodePoint, if_neg (by omega)]
  simp only [uncoded, mul_zero, sub_zero, add_zero, quiet, shr_round0_zero, Int.zero_shiftLeft,
    Int.toNat_natCast, Option.some.injEq, Prod.mk.injEq, Emitted.mk.injEq]
  rw [clamp_eq (by omega) (by omega), clamp_eq (by omega) (by omega)]
  exact ⟨_, _, ⟨rfl, rfl⟩, trivial, rfl⟩

/-- A coordinate survives the modulation and the decision. -/
theorem decision_eq {v : Int} (odd : v % 2 = 1) (low : -45 ≤ v) (high : v ≤ 45) :
    clamp ((int16 (v <<< (7 : Nat)) >>> (8 : Nat)) * 2 + 1) C_RADIUS = v := by
  have scaled : v <<< (7 : Nat) = v * 128 := Int.shiftLeft_eq v 7
  have fits : int16 (v * 128) = v * 128 := Int.bmod_eq_of_le (by omega) (by omega)
  have half : (v * 128) >>> (8 : Nat) * 2 + 1 = v := by
    rw [Int.shiftRight_eq_div_pow]
    omega
  rw [scaled, fits, half]
  exact clamp_eq low high

/-- The decision finds the quarter turns and the low eight bits of the index. -/
theorem decodePoint_eq {t z : Nat} (known : t < L_MAX / 4) (turns : z < 4) :
    decodePoint (transmit (rotate_clockwise (constellation.getD t (0, 0)) z)) = (z, t % 256) := by
  have size : L_MAX / 4 = 416 := rfl
  obtain ⟨odd1, odd2, left, right, down, up⟩ :=
    rotate_bounds z (constellation_point (show t < 529 by omega))
  obtain ⟨top, low⟩ := code_parts (j := z) known
  simp only [decodePoint, transmit, decision_eq odd1 left right, decision_eq odd2 down up,
    constellation_to_code_eq known turns, top, low]

/-! ## One 4D symbol -/

/-- The indices of the two points of a 4D symbol. -/
def pointIndex (q : Nat) (symbol : Symbol4D) (m : Nat × Nat) : Nat × Nat :=
  (symbol.Q.1 + m.1 * 2 ^ q, symbol.Q.2 + m.2 * 2 ^ q)

/-- What the receiver makes of a 4D symbol with given point indices. -/
def receivedSymbol (q : Nat) (symbol : Symbol4D) (t : Nat × Nat) : Symbol4D × (Int × Int) :=
  ({ I0 := symbol.I0 % 2
     I1 := symbol.I1 % 2
     I2 := (symbol.I1 + 2 * symbol.I2) % 4 / 2
     Q := (t.1 % 256 % 2 ^ q, t.2 % 256 % 2 ^ q) },
   ((t.1 % 256 / 2 ^ q : Nat), (t.2 % 256 / 2 ^ q : Nat)))

section Symbols

variable {p : V34Params}

/-- A 4D symbol whose points are in the constellation is sent as these points, rotated by the
differential state and the bit of the trellis coder. -/
theorem encodeSymbol_eq (uncoded : ∀ k, p.h k = (0, 0)) (s : MapperState) (symbol : Symbol4D)
    (m : Nat × Nat)
    (known : (pointIndex p.q symbol m).1 < L_MAX / 4 ∧ (pointIndex p.q symbol m).2 < L_MAX / 4) :
    ∃ out, encodeSymbol p s symbol (m.1, m.2) = some out ∧
      out.1.Z_1 = (symbol.I1 + 2 * symbol.I2 + s.Z_1) % 4 ∧
      out.2.1.Y = rotate_clockwise (constellation.getD (pointIndex p.q symbol m).1 (0, 0))
        out.1.Z_1.toNat ∧
      out.2.2.Y = rotate_clockwise (constellation.getD (pointIndex p.q symbol m).2 (0, 0))
        ((out.1.Z_1 + 2 * symbol.I0 + s.U0) % 4).toNat := by
  obtain ⟨x1, sent1, first⟩ :=
    encodePoint_eq uncoded known.1 ((symbol.I1 + 2 * symbol.I2 + s.Z_1) % 4) s.x
  obtain ⟨x2, sent2, second⟩ := encodePoint_eq uncoded known.2
    (((symbol.I1 + 2 * symbol.I2 + s.Z_1) % 4 + 2 * symbol.I0 + s.U0) % 4) x1
  simp only [pointIndex] at first second
  push_cast at first second
  simp only [encodeSymbol, first, second, Option.bind_eq_bind, Option.bind_some]
  exact ⟨_, rfl, rfl, rfl, rfl⟩

/-- The two sides agree on a 4D symbol up to the high bit of its point indices. -/
theorem symbol_received (uncoded : ∀ k, p.h k = (0, 0)) (s : MapperState) (symbol : Symbol4D) (m : Nat × Nat)
    (known : (pointIndex p.q symbol m).1 < L_MAX / 4 ∧ (pointIndex p.q symbol m).2 < L_MAX / 4) :
    ∃ out, encodeSymbol p s symbol (m.1, m.2) = some out ∧
      decodeSymbol p.q s.Z_1 (transmit out.2.1.Y, transmit out.2.2.Y) =
        ((receivedSymbol p.q symbol (pointIndex p.q symbol m)).1,
          (receivedSymbol p.q symbol (pointIndex p.q symbol m)).2, out.1.Z_1) := by
  obtain ⟨out, sent, turns, first, second⟩ := encodeSymbol_eq uncoded s symbol m known
  have bit := s.bit
  refine ⟨out, sent, ?_⟩
  rw [first, second]
  generalize out.1.Z_1 = Z0 at turns
  have received1 := decodePoint_eq (z := Z0.toNat) known.1 (by omega)
  have received2 := decodePoint_eq (z := ((Z0 + 2 * symbol.I0 + s.U0) % 4).toNat) known.2 (by omega)
  have whole : ((Z0.toNat : Nat) : Int) = Z0 := Int.toNat_of_nonneg (by omega)
  -- what the differences of the quarter turns say
  have diff : ((Z0 - s.Z_1) % 4).toNat = (symbol.I1 + 2 * symbol.I2) % 4 := by omega
  have turn : (((((Z0 + 2 * symbol.I0 + s.U0) % 4).toNat : Nat) : Int) - Z0) % 4 =
      (2 * symbol.I0 + s.U0) % 4 := by omega
  simp only [decodeSymbol, received1, received2, receivedSymbol, whole, diff, turn,
    Nat.shiftRight_eq_div_pow]
  have coded0 : ((2 * symbol.I0 + s.U0 : Int) % 4).toNat / 2 ^ 1 = symbol.I0 % 2 := by omega
  have coded1 : (symbol.I1 + 2 * symbol.I2) % 4 % 2 = symbol.I1 % 2 := by omega
  rw [coded0, coded1, Nat.pow_one]

/-- A point outside the constellation ends the frame. -/
theorem encodePoint_none {t : Nat} (beyond : L_MAX / 4 ≤ t) (Z : Int) (x : Fin 3 → Point) :
    encodePoint p t Z x = none := by
  rw [encodePoint, if_pos (by omega)]

theorem encodeSymbol_none (uncoded : ∀ k, p.h k = (0, 0)) (s : MapperState) (symbol : Symbol4D)
    (m : Nat × Nat)
    (beyond : L_MAX / 4 ≤ (pointIndex p.q symbol m).1 ∨ L_MAX / 4 ≤ (pointIndex p.q symbol m).2) :
    encodeSymbol p s symbol (m.1, m.2) = none := by
  simp only [pointIndex] at beyond
  rcases Nat.lt_or_ge (symbol.Q.1 + m.1 * 2 ^ p.q) (L_MAX / 4) with known | outside
  · obtain ⟨x1, sent1, first⟩ :=
      encodePoint_eq uncoded known ((symbol.I1 + 2 * symbol.I2 + s.Z_1) % 4) s.x
    have second := encodePoint_none (p := p) (beyond.resolve_left (by omega))
      (((symbol.I1 + 2 * symbol.I2 + s.Z_1) % 4 + 2 * symbol.I0 + s.U0) % 4) x1
    push_cast at first second
    simp only [encodeSymbol, first, second, Option.bind_eq_bind, Option.bind_some,
      Option.bind_none]
  · have first := encodePoint_none (p := p) outside
      ((symbol.I1 + 2 * symbol.I2 + s.Z_1) % 4) s.x
    push_cast at first
    simp only [encodeSymbol, first, Option.bind_eq_bind, Option.bind_none]

end Symbols

/-! ## The symbols of a frame -/

/-- The points of a frame as the channel carries them. -/
def transmitAll (points : List (Emitted × Emitted)) : List (Point × Point) :=
  points.map fun y => (transmit y.1.Y, transmit y.2.Y)

/-- The rings of a frame, as the code holds them. -/
def ringFields (symbols : List (Symbol4D × (Nat × Nat))) : List (Symbol4D × (Int × Int)) :=
  symbols.map fun s => (s.1, ((s.2.1 : Int), (s.2.2 : Int)))

/-- The symbols as the receiver sees them. -/
def receivedAll (q : Nat) (symbols : List (Symbol4D × (Nat × Nat))) :
    List (Symbol4D × (Int × Int)) :=
  symbols.map fun s => receivedSymbol q s.1 (pointIndex q s.1 s.2)

/-- Every point of the frame is in the constellation. -/
def AllKnown (q : Nat) (symbols : List (Symbol4D × (Nat × Nat))) : Prop :=
  ∀ s ∈ symbols, (pointIndex q s.1 s.2).1 < L_MAX / 4 ∧ (pointIndex q s.1 s.2).2 < L_MAX / 4

section Frame

variable {p : V34Params} (uncoded : ∀ k, p.h k = (0, 0))

include uncoded

theorem symbols_received (s : MapperState) {symbols : List (Symbol4D × (Nat × Nat))}
    (known : AllKnown p.q symbols) :
    ∃ out, encodeSymbols p s (ringFields symbols) = some out ∧
      decodeSymbols p.q s.Z_1 (transmitAll out.2) = (receivedAll p.q symbols, out.1.Z_1) := by
  induction symbols generalizing s with
  | nil => exact ⟨(s, []), rfl, rfl⟩
  | cons symbol rest ih =>
    obtain ⟨out, sent, received⟩ :=
      symbol_received uncoded s symbol.1 symbol.2 (known symbol List.mem_cons_self)
    obtain ⟨tail, sentTail, receivedTail⟩ :=
      ih out.1 fun other inside => known other (List.mem_cons_of_mem _ inside)
    refine ⟨(tail.1, out.2 :: tail.2), ?_, ?_⟩
    · simp only [ringFields, List.map_cons] at sentTail ⊢
      simp only [encodeSymbols, sent, sentTail, Option.bind_eq_bind, Option.bind_some]
    · simp only [transmitAll, List.map_cons] at receivedTail ⊢
      simp only [decodeSymbols, received, receivedTail, receivedAll, List.map_cons]

theorem symbols_none (s : MapperState) {symbols : List (Symbol4D × (Nat × Nat))}
    (beyond : ¬ AllKnown p.q symbols) : encodeSymbols p s (ringFields symbols) = none := by
  induction symbols generalizing s with
  | nil => exact absurd (fun _ inside => by cases inside) beyond
  | cons symbol rest ih =>
    simp only [ringFields, List.map_cons, encodeSymbols]
    by_cases known : (pointIndex p.q symbol.1 symbol.2).1 < L_MAX / 4 ∧
        (pointIndex p.q symbol.1 symbol.2).2 < L_MAX / 4
    · obtain ⟨out, sent, -⟩ := encodeSymbol_eq uncoded s symbol.1 symbol.2 known
      have later : ¬ AllKnown p.q rest := fun all =>
        beyond (List.forall_mem_cons.mpr ⟨known, all⟩)
      have tail := ih out.1 later
      simp only [ringFields] at tail
      simp only [sent, Option.bind_eq_bind, Option.bind_some, tail, Option.bind_none]
    · rw [encodeSymbol_none uncoded s symbol.1 symbol.2 (by omega)]
      rfl

end Frame


end QFax.Linmodem

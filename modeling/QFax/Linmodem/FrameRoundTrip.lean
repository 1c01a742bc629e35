import QFax.Linmodem.FrameSymbols
import QFax.Linmodem.ShellIndex

/-!
# V.34: sequences of mapping frames

A frame comes back when it fits: it is not longer than the array of the code, its shell index is
not the last one `M` rings can number, and every point index is below 256, since the receiver keeps
eight bits of it.  A frame that does not fit is either not sent at all or received with other bits.
-/

namespace QFax.Linmodem

open Bits Ranking

/-! ## What a frame must satisfy -/

/-- The four pairs of rings of a vector. -/
def Octet.pairList (x : Octet) : List Pair := [x.1.1, x.1.2, x.2.1, x.2.2]

/-- The symbols of a shell-mapped frame with the rings that its index stands for. -/
def frameSymbols (p : V34Params) (data : List Bool) : List (Symbol4D × Pair) :=
  let n := shellBits p data.length
  (readSymbols p.q 4 (data.drop n)).zip ((octets p.M).unrank (word (data.take n))).pairList

/-- The bits of a frame can be carried. -/
def FrameFits (p : V34Params) (data : List Bool) : Prop :=
  data.length ≤ MAX_MAPPING_FRAME_SIZE ∧
    (p.b ≤ 12 ∨
      (word (data.take (shellBits p data.length)) + 1 < p.M ^ 8 ∧
        ∀ s ∈ frameSymbols p data,
          (pointIndex p.q s.1 s.2).1 < 256 ∧ (pointIndex p.q s.1 s.2).2 < 256))

instance (p : V34Params) (data : List Bool) : Decidable (FrameFits p data) :=
  inferInstanceAs (Decidable (_ ∧ (_ ∨ (_ ∧ ∀ s ∈ frameSymbols p data, _ ∧ _))))

/-- The parameters come from `V34_init_low`, for a data rate, without precoding. -/
structure Mapped (p : V34Params) : Prop where
  long : 12 < p.b → p.b = p.K + 8 * p.q + 12 ∧ 1 ≤ p.K ∧ p.K < 32
  short : p.b ≤ 12 → p.q = 0
  two : 2 ≤ p.b
  rings : 0 < p.M ∧ p.M ≤ 18
  uncoded : ∀ k, p.h k = (0, 0)

theorem mapped_init {v : V34State} (rate : 2400 ≤ v.R) (uncoded : ∀ k, v.h k = (0, 0)) :
    Mapped (V34_init_low v) where
  long beyond := mappingBits_long beyond
  short within := congrArg Prod.snd (mappingBits_short within)
  two := two_le_b v rate
  rings := by
    have few : (V34_init_low v).K < 32 := by
      rcases Nat.lt_or_ge 12 (V34_init_low v).b with long | short
      · exact (mappingBits_long long).2.2
      · exact (congrArg Prod.fst (mappingBits_short short)).trans_lt (by decide)
    exact ringCount_bounds v.expanded_shape few
  uncoded := uncoded

/-! ## One frame -/

section Fetch

variable {σ : Type} (p : V34Params) (callback : σ → Option Bool × σ)

theorem length_get_bits (n : Nat) (s : BitSource σ) : (get_bits p callback n s).1.length = n := by
  induction n generalizing s with
  | zero => rfl
  | succ n ih => simp [get_bits, ih]

theorem length_fetchFrame {mp_size : Nat} (positive : 0 < mp_size) (aux : Bool) (s : BitSource σ) :
    (fetchFrame p callback mp_size aux s).1.length = mp_size := by
  cases aux <;> simp [fetchFrame, length_get_bits] <;> omega

end Fetch

theorem next_size {p : V34Params} (c : Counters) :
    (c.next p).1 = p.b ∨ (c.next p).1 = p.b - 1 := by
  simp only [Counters.next]
  split <;> simp

/-- The bits put out for a frame, when its array starts with the frame's bits. -/
theorem put_eq (aux : Bool) {data data' : List Bool} (nonempty : 0 < data.length)
    (same : data'.take data.length = data) :
    (if aux then [] else [data'.getD 0 false]) ++ (data'.take data.length).drop 1 =
      if aux then data.tail else data := by
  have head : data'.getD 0 false = data.getD 0 false := by
    rw [← same, List.getD_eq_getElem?_getD, List.getD_eq_getElem?_getD,
      List.getElem?_take_of_lt nonempty]
  rw [head, same]
  obtain ⟨b, rest, rfl⟩ := List.exists_cons_of_length_pos nonempty
  cases aux <;> simp

section Short

variable {p : V34Params} {mp_size : Nat} {data : List Bool} {stale : Nat → Nat}

/-- The rows of `I` as the receiver has them, when `f` numbers the coded bits as sent. -/
def receivedRows (f : Nat → Nat) : List Nat :=
  [f 0 % 2, f 1 % 2, f 2 % 2, f 3 % 2, f 4 % 2, f 5 % 2, f 6 % 2, f 7 % 2,
    (f 4 + 2 * f 8) % 4 / 2, (f 5 + 2 * f 9) % 4 / 2, (f 6 + 2 * f 10) % 4 / 2,
    (f 7 + 2 * f 11) % 4 / 2]

/-- Up to the first coded bit that is not a bit of the frame the rows come back. -/
theorem receivedRows_getD {f : Nat → Nat} {n i : Nat} (few : n ≤ 12) (bits : ∀ k < n, f k < 2)
    (inside : i < n) : (receivedRows f)[i]? = some (f i) := by
  have here := bits i inside
  have above : ∀ k, 4 + k ≤ i → f k < 2 := fun k le => bits k (by omega)
  have i12 : i < 12 := by omega
  interval_cases i <;> simp only [receivedRows, List.getElem?_cons_zero, List.getElem?_cons_succ,
    Option.some.injEq] <;> [skip; skip; skip; skip; skip; skip; skip; skip;
      have low := above 4 (by omega); have low := above 5 (by omega);
      have low := above 6 (by omega); have low := above 7 (by omega)] <;> omega

variable (mp_size stale) in
/-- Without shell mapping every bit of the frame comes back. -/
theorem short_received (within : p.b ≤ 12) (q0 : p.q = 0) (upper : data.length ≤ p.b) :
    ∃ data', writeFrame p mp_size
        (receivedAll p.q ((shortSymbols p.b data stale).map fun s => (s, (0, 0)))) = some data' ∧
      data'.take data.length = data := by
  set f : Nat → Nat := fun i => if i < p.b then (data[i]?.map Bool.toNat).getD (stale i) else 0
    with hf
  have value : ∀ i (inside : i < data.length), f i = data[i].toNat := by
    intro i inside
    simp [hf, show i < p.b by omega, inside]
  have bits : ∀ k < data.length, f k < 2 := by
    intro k inside
    rw [value k inside]
    cases data[k] <;> decide
  refine ⟨((receivedRows f).take p.b).map (· == 1), ?_, ?_⟩
  · rw [writeFrame, if_pos within, q0]
    rfl
  · refine List.ext_getElem? fun i => ?_
    rcases Nat.lt_or_ge i data.length with inside | outside
    · have flag : ∀ x : Bool, (x.toNat == 1) = x := by decide
      rw [List.getElem?_take_of_lt inside, List.getElem?_map, List.getElem?_take_of_lt (by omega),
        receivedRows_getD (by omega) bits inside, value i inside]
      simp [flag, inside]
    · rw [List.getElem?_eq_none (by simp; omega), List.getElem?_eq_none outside]

end Short

/-! ## Shell-mapped frames -/

/-- The rings the receiver finds for two points: their indices lost all but eight bits. -/
def keptRings (q : Nat) (symbol : Symbol4D) (m : Pair) : Pair :=
  ((pointIndex q symbol m).1 % 256 / 2 ^ q, (pointIndex q symbol m).2 % 256 / 2 ^ q)

section Kept

variable {q Q m : Nat}

theorem kept_uncoded (few : q ≤ 8) (fits : Q < 2 ^ q) : (Q + m * 2 ^ q) % 256 % 2 ^ q = Q := by
  have divides : 2 ^ q ∣ 256 := Nat.pow_dvd_pow 2 few
  rw [Nat.mod_mod_of_dvd _ divides, Nat.add_mul_mod_self_right, Nat.mod_eq_of_lt fits]

theorem ring_of_index (fits : Q < 2 ^ q) : (Q + m * 2 ^ q) / 2 ^ q = m := by
  rw [Nat.add_mul_div_right _ _ (Nat.two_pow_pos q), Nat.div_eq_of_lt fits, Nat.zero_add]

theorem kept_ring_le (fits : Q < 2 ^ q) : (Q + m * 2 ^ q) % 256 / 2 ^ q ≤ m :=
  (Nat.div_le_div_right (Nat.mod_le _ _)).trans_eq (ring_of_index fits)

/-- A ring number is kept exactly when the point index has eight bits. -/
theorem kept_ring_eq_iff (few : q ≤ 8) (fits : Q < 2 ^ q) :
    (Q + m * 2 ^ q) % 256 / 2 ^ q = m ↔ Q + m * 2 ^ q < 256 := by
  constructor
  · intro same
    by_contra large
    have width : 2 ^ q ≤ 256 := Nat.pow_le_pow_right (by decide) few
    have lost : (Q + m * 2 ^ q) % 256 + 2 ^ q ≤ Q + m * 2 ^ q := by omega
    have lower : ((Q + m * 2 ^ q) % 256 + 2 ^ q) / 2 ^ q ≤ m :=
      (Nat.div_le_div_right lost).trans_eq (ring_of_index fits)
    rw [Nat.add_div_right _ (Nat.two_pow_pos q), same] at lower
    omega
  · intro small
    rw [Nat.mod_eq_of_lt small, ring_of_index fits]

/-- Except for the rings a 4D symbol is received as it was sent. -/
theorem receivedSymbol_eq {symbol : Symbol4D} (few : q ≤ 8) (fits : symbol.Fits q) (m : Pair) :
    receivedSymbol q symbol (pointIndex q symbol m) =
      (symbol, (((keptRings q symbol m).1 : Int), ((keptRings q symbol m).2 : Int))) := by
  obtain ⟨h0, h1, h2, hQ1, hQ2⟩ := fits
  have low0 : symbol.I0 % 2 = symbol.I0 := Nat.mod_eq_of_lt h0
  have low1 : symbol.I1 % 2 = symbol.I1 := Nat.mod_eq_of_lt h1
  have low2 : (symbol.I1 + 2 * symbol.I2) % 4 / 2 = symbol.I2 := by omega
  simp only [receivedSymbol, keptRings, pointIndex, kept_uncoded few hQ1, kept_uncoded few hQ2,
    low0, low1, low2]

/-- Neither ring of a pair grows, and the pair is kept exactly when both indices have eight
bits. -/
theorem keptRings_spec {symbol : Symbol4D} (few : q ≤ 8) (fits : symbol.Fits q) (m : Pair) :
    (keptRings q symbol m).1 ≤ m.1 ∧ (keptRings q symbol m).2 ≤ m.2 ∧
      (((pointIndex q symbol m).1 < 256 ∧ (pointIndex q symbol m).2 < 256) ↔
        (keptRings q symbol m).1 = m.1 ∧ (keptRings q symbol m).2 = m.2) := by
  obtain ⟨-, -, -, fits1, fits2⟩ := fits
  exact ⟨kept_ring_le fits1, kept_ring_le fits2,
    and_congr (kept_ring_eq_iff few fits1).symm (kept_ring_eq_iff few fits2).symm⟩

end Kept

section Long

variable {p : V34Params} {data : List Bool}

/-- The rings of a received frame, as a vector. -/
def keptOctet (q : Nat) (symbols : List Symbol4D) (x : Octet) : Octet :=
  match symbols with
  | [s0, s1, s2, s3] =>
    ((keptRings q s0 x.1.1, keptRings q s1 x.1.2), (keptRings q s2 x.2.1, keptRings q s3 x.2.2))
  | _ => x

/-- The sum of eight rings. -/
theorem octets_size (m : Nat) (x : Octet) :
    (octets m).size x = x.1.1.1 + x.1.1.2 + (x.1.2.1 + x.1.2.2) +
      (x.2.1.1 + x.2.1.2 + (x.2.2.1 + x.2.2.2)) := rfl

theorem octets_mem (m : Nat) (x : Octet) :
    (octets m).Mem x ↔ ((x.1.1.1 < m ∧ x.1.1.2 < m) ∧ (x.1.2.1 < m ∧ x.1.2.2 < m)) ∧
      ((x.2.1.1 < m ∧ x.2.1.2 < m) ∧ (x.2.2.1 < m ∧ x.2.2.2 < m)) := Iff.rfl

/-- Received rings are rings; their number is smaller unless every index had eight bits. -/
theorem keptOctet_spec {m q : Nat} (few : q ≤ 8) {s0 s1 s2 s3 : Symbol4D} (h0 : s0.Fits q)
    (h1 : s1.Fits q) (h2 : s2.Fits q) (h3 : s3.Fits q) {x : Octet} (member : (octets m).Mem x) :
    (octets m).Mem (keptOctet q [s0, s1, s2, s3] x) ∧
      ((∀ s ∈ [s0, s1, s2, s3].zip x.pairList,
          (pointIndex q s.1 s.2).1 < 256 ∧ (pointIndex q s.1 s.2).2 < 256) →
        keptOctet q [s0, s1, s2, s3] x = x) ∧
      ((¬ ∀ s ∈ [s0, s1, s2, s3].zip x.pairList,
          (pointIndex q s.1 s.2).1 < 256 ∧ (pointIndex q s.1 s.2).2 < 256) →
        (octets m).rank (keptOctet q [s0, s1, s2, s3] x) < (octets m).rank x) := by
  obtain ⟨le01, le02, iff0⟩ := keptRings_spec few h0 x.1.1
  obtain ⟨le11, le12, iff1⟩ := keptRings_spec few h1 x.1.2
  obtain ⟨le21, le22, iff2⟩ := keptRings_spec few h2 x.2.1
  obtain ⟨le31, le32, iff3⟩ := keptRings_spec few h3 x.2.2
  have kept : (octets m).Mem (keptOctet q [s0, s1, s2, s3] x) := by
    rw [octets_mem] at member ⊢
    simp only [keptOctet]
    omega
  simp only [Octet.pairList, List.zip_cons_cons, List.zip_nil_right, List.forall_mem_cons,
    List.not_mem_nil, false_implies, implies_true, and_true, iff0, iff1, iff2, iff3]
  refine ⟨kept, fun ⟨e0, e1, e2, e3⟩ => ?_, fun differs => ?_⟩
  · exact Prod.ext (Prod.ext (Prod.ext e0.1 e0.2) (Prod.ext e1.1 e1.2))
      (Prod.ext (Prod.ext e2.1 e2.2) (Prod.ext e3.1 e3.2))
  · refine Graded.rank_lt_of_size_lt kept ?_
    rw [octets_size, octets_size]
    simp only [keptOctet]
    omega

/-- The shell index of a frame is a 31-bit number. -/
theorem shellIndex_lt (mapped : Mapped p) (long : 12 < p.b) (data : List Bool) (n : Nat) :
    word (data.take (shellBits p n)) < 2 ^ 31 := by
  have few := (mapped.long long).2.2
  refine (word_lt _).trans_le (Nat.pow_le_pow_right (by decide) ?_)
  refine (List.length_take_le _ _).trans ?_
  unfold shellBits
  split <;> omega

/-- A shell-mapped frame reaches the receiver's array with the index of the rings it found; that
is the frame's own index when it fits, else a smaller one. -/
theorem long_received (mapped : Mapped p) (long : 12 < p.b)
    (size : data.length = p.b ∨ data.length = p.b - 1)
    (fits : data.length ≤ MAX_MAPPING_FRAME_SIZE)
    (inside : word (data.take (shellBits p data.length)) + 1 < p.M ^ 8) :
    ∃ r', writeFrame p data.length (receivedAll p.q (frameSymbols p data)) =
        some (lowBits (shellBits p data.length) (r' : Nat) ++ data.drop (shellBits p data.length)) ∧
      ((∀ s ∈ frameSymbols p data,
          (pointIndex p.q s.1 s.2).1 < 256 ∧ (pointIndex p.q s.1 s.2).2 < 256) →
        r' = word (data.take (shellBits p data.length))) ∧
      ((¬ ∀ s ∈ frameSymbols p data,
          (pointIndex p.q s.1 s.2).1 < 256 ∧ (pointIndex p.q s.1 s.2).2 < 256) →
        r' < word (data.take (shellBits p data.length))) := by
  obtain ⟨whole, one, few⟩ := mapped.long long
  obtain ⟨positive, small⟩ := mapped.rings
  have frame : MAX_MAPPING_FRAME_SIZE = 79 := rfl
  have q8 : p.q ≤ 8 := by omega
  set n := shellBits p data.length with hn
  have shell : n = if data.length < p.b then p.K - 1 else p.K := hn
  have rest : (data.drop n).length = 4 * (3 + 2 * p.q) := by
    rw [List.length_drop]
    split at shell <;> omega
  have bound := shellIndex_lt mapped long data data.length
  rw [← hn] at bound
  have member : (octets p.M).Mem ((octets p.M).unrank (word (data.take n))) :=
    Graded.mem_unrank (by rw [total_octets positive]; omega)
  have rank : (octets p.M).rank ((octets p.M).unrank (word (data.take n))) = word (data.take n) :=
    Graded.rank_unrank (by rw [total_octets positive]; omega)
  obtain ⟨s0, s1, s2, s3, read⟩ :
      ∃ s0 s1 s2 s3, readSymbols p.q 4 (data.drop n) = [s0, s1, s2, s3] := ⟨_, _, _, _, rfl⟩
  have fields : ∀ s ∈ [s0, s1, s2, s3], s.Fits p.q := by
    rw [← read]
    exact fun s inList => readSymbols_fits inList
  simp only [List.forall_mem_cons] at fields
  obtain ⟨h0, h1, h2, h3, -⟩ := fields
  set x := (octets p.M).unrank (word (data.take n)) with hx
  obtain ⟨kept, same, smaller⟩ := keptOctet_spec q8 h0 h1 h2 h3 member
  have symbols : frameSymbols p data = [s0, s1, s2, s3].zip x.pairList := by
    simp only [frameSymbols, ← hn, read, ← hx]
  rw [symbols]
  have lower : (octets p.M).rank (keptOctet p.q [s0, s1, s2, s3] x) ≤ word (data.take n) := by
    by_cases all : ∀ s ∈ [s0, s1, s2, s3].zip x.pairList,
        (pointIndex p.q s.1 s.2).1 < 256 ∧ (pointIndex p.q s.1 s.2).2 < 256
    · rw [same all, rank]
    · exact ((smaller all).trans_eq rank).le
  refine ⟨(octets p.M).rank (keptOctet p.q [s0, s1, s2, s3] x), ?_,
    fun all => by rw [same all, rank], fun lost => (smaller lost).trans_eq rank⟩
  have index := rings_to_index_table positive kept
  rw [int32_eq (by omega) (by omega)] at index
  have table : (fun j : Fin 4 => ((receivedAll p.q ([s0, s1, s2, s3].zip x.pairList)).map
      (·.2)).getD j (0, 0)) = (keptOctet p.q [s0, s1, s2, s3] x).table := by
    funext j
    simp only [receivedAll, Octet.pairList, List.zip_cons_cons, List.zip_nil_right, List.map_cons,
      receivedSymbol_eq q8 h0, receivedSymbol_eq q8 h1, receivedSymbol_eq q8 h2,
      receivedSymbol_eq q8 h3]
    fin_cases j <;> rfl
  have fields : (receivedAll p.q ([s0, s1, s2, s3].zip x.pairList)).map (·.1) =
      [s0, s1, s2, s3] := by
    simp only [receivedAll, Octet.pairList, List.zip_cons_cons, List.zip_nil_right, List.map_cons,
      receivedSymbol_eq q8 h0, receivedSymbol_eq q8 h1, receivedSymbol_eq q8 h2,
      receivedSymbol_eq q8 h3, List.map_nil]
  rw [writeFrame, if_neg (by omega), table, index, fields, ← read, writeSymbols_readSymbols rest]
  rfl

end Long

/-! ## A frame sent and received -/

/-- Both sides stand before the same frame. -/
def Matched {σ : Type} (e : Encoder σ) (d : Decoder) : Prop :=
  e.mapper.Z_1 = d.Z_1 ∧ e.counters = d.counters

section Frame

variable {σ : Type} {p : V34Params} {callback : σ → Option Bool × σ}

/-- The bits of the next frame, with the state of the source after it. -/
def Encoder.fetch (p : V34Params) (callback : σ → Option Bool × σ) (e : Encoder σ) :
    List Bool × BitSource σ :=
  fetchFrame p callback (e.counters.next p).1 (e.counters.next p).2.1 e.bits

variable (callback) in
theorem length_fetch (mapped : Mapped p) (e : Encoder σ) :
    (e.fetch p callback).1.length = (e.counters.next p).1 := by
  have two := mapped.two
  have size := next_size (p := p) e.counters
  exact length_fetchFrame p callback (by omega) _ _

variable (callback) in
/-- A frame whose points are in the constellation leaves the transmitter, and the receiver's array
is what it makes of the symbols. -/
theorem frame_sent (mapped : Mapped p) {e : Encoder σ} {d : Decoder}
    (matched : Matched e d) {stale : Nat → Nat} {symbols : List (Symbol4D × Pair)}
    {data' : List Bool} (size : (e.counters.next p).1 ≤ MAX_MAPPING_FRAME_SIZE)
    (read : readFrame p (e.counters.next p).1 (e.fetch p callback).1 stale =
      some (ringFields symbols))
    (known : AllKnown p.q symbols)
    (written : writeFrame p (e.counters.next p).1 (receivedAll p.q symbols) = some data') :
    ∃ f d', encode_mapping_frame p callback stale e = some f ∧
      decode_mapping_frame p d (transmitAll f.points) = some (d',
        (if (e.counters.next p).2.1 then [] else [data'.getD 0 false]) ++
          (data'.take (e.counters.next p).1).drop 1) ∧
      f.fetched = (if (e.counters.next p).2.1 then (e.fetch p callback).1.tail
        else (e.fetch p callback).1) ∧
      Matched f.next d' ∧ f.next.counters = (e.counters.next p).2.2 ∧
      f.next.bits = (e.fetch p callback).2 := by
  obtain ⟨out, sent, received⟩ := symbols_received mapped.uncoded e.mapper known
  rw [matched.1] at received
  refine ⟨⟨⟨(e.counters.next p).2.2, out.1, (e.fetch p callback).2⟩, _, out.2⟩,
    ⟨(e.counters.next p).2.2, out.1.Z_1⟩, ?_, ?_, rfl, ⟨rfl, rfl⟩, rfl, rfl⟩
  · simp only [Encoder.fetch] at read
    simp only [encode_mapping_frame, if_neg (Nat.not_lt.mpr size), read, Option.bind_eq_bind,
      Option.bind_some, sent]
    rfl
  · simp only [decode_mapping_frame, ← matched.2, if_neg (Nat.not_lt.mpr size), received, written,
      Option.bind_eq_bind, Option.bind_some]

/-- The shell-mapped bits are some of the frame's. -/
theorem shellBits_le (mapped : Mapped p) (long : 12 < p.b) {n : Nat} (size : n = p.b ∨ n = p.b - 1) :
    shellBits p n ≤ n := by
  have whole := (mapped.long long).1
  unfold shellBits
  split <;> omega

/-- The symbols of a long frame are read with the rings of its index. -/
theorem readFrame_long (mapped : Mapped p) (long : 12 < p.b) {data : List Bool}
    (stale : Nat → Nat) (inside : word (data.take (shellBits p data.length)) + 1 < p.M ^ 8) :
    readFrame p data.length data stale = some (ringFields (frameSymbols p data)) := by
  obtain ⟨positive, small⟩ := mapped.rings
  obtain ⟨-, forward, -⟩ :=
    index_to_rings_eq positive small (shellIndex_lt mapped long data _) inside
  have pairs : ∀ x : Octet, List.ofFn x.table = x.pairList.map fun r => ((r.1 : Int), (r.2 : Int)) :=
    fun _ => rfl
  rw [readFrame, if_neg (by omega)]
  simp only [forward, Option.bind_eq_bind, Option.bind_some, pairs, List.zip_map_right]
  rfl

/-- A frame that fits comes back. -/
theorem frame_received (mapped : Mapped p) {e : Encoder σ} {d : Decoder}
    (matched : Matched e d) (stale : Nat → Nat) (fits : FrameFits p (e.fetch p callback).1) :
    ∃ f d', encode_mapping_frame p callback stale e = some f ∧
      decode_mapping_frame p d (transmitAll f.points) = some (d', f.fetched) ∧
      Matched f.next d' ∧ f.next.counters = (e.counters.next p).2.2 ∧
      f.next.bits = (e.fetch p callback).2 := by
  have length := length_fetch callback mapped e
  have two := mapped.two
  have size := next_size (p := p) e.counters
  obtain ⟨room, kind⟩ := fits
  -- the symbols of the frame, known to both sides, and the array the receiver fills
  obtain ⟨symbols, data', read, known, written, back⟩ : ∃ symbols data',
      readFrame p (e.counters.next p).1 (e.fetch p callback).1 stale =
        some (ringFields symbols) ∧ AllKnown p.q symbols ∧
      writeFrame p (e.counters.next p).1 (receivedAll p.q symbols) = some data' ∧
      data'.take (e.fetch p callback).1.length = (e.fetch p callback).1 := by
    rcases Nat.lt_or_ge 12 p.b with long | short
    · obtain ⟨inside, small⟩ := kind.resolve_left (by omega)
      obtain ⟨r', written, same, -⟩ := long_received mapped long (by omega) room inside
      rw [same small] at written
      rw [← length]
      refine ⟨_, _, readFrame_long mapped long stale inside, fun s inList => ?_, written, ?_⟩
      · have bound := small s inList
        have points : L_MAX / 4 = 416 := rfl
        omega
      · rw [lowBits_take (shellBits_le mapped long (by omega)), List.take_append_drop,
          List.take_length]
    · obtain ⟨data', written, back⟩ := short_received (e.counters.next p).1
        stale short (mapped.short short)
        (show (e.fetch p callback).1.length ≤ p.b by omega)
      refine ⟨_, data', ?_, fun s inList => ?_, written, back⟩
      · rw [readFrame, if_pos short, ringFields, List.map_map]
        rfl
      · obtain ⟨symbol, inShort, rfl⟩ := List.mem_map.mp inList
        obtain ⟨j, -, rfl⟩ := List.mem_map.mp inShort
        simp [pointIndex, L_MAX]
  obtain ⟨f, d', sent, received, fetched, rest⟩ :=
    frame_sent callback mapped matched (by omega) read known written
  have put := put_eq (e.counters.next p).2.1 (by omega) back
  rw [length] at put
  rw [put, ← fetched] at received
  exact ⟨f, d', sent, received, rest⟩

/-- The first bits of a frame, read as a number and written as bits again, differ from those of a
smaller number even when the first bit is known to be zero and is not looked at. -/
theorem put_ne {n r' : Nat} {data rest : List Bool} (le : n ≤ data.length)
    (smaller : r' < word (data.take n)) {aux : Bool} (zero : aux = true → data.getD 0 false = false)
    (length : rest.length = data.length - n) :
    (if aux then [] else [(lowBits n r' ++ rest).getD 0 false]) ++
        ((lowBits n r' ++ rest).take data.length).drop 1 ≠
      if aux then data.tail else data := by
  have bound := word_lt (data.take n)
  rw [List.length_take, Nat.min_eq_left le] at bound
  have recovered := word_lowBits (smaller.trans bound)
  rw [List.take_of_length_le (by rw [List.length_append, length_lowBits]; omega)]
  obtain ⟨k, rfl⟩ : ∃ k, n = k + 1 := by
    refine ⟨n - 1, ?_⟩
    rcases Nat.eq_zero_or_pos n with rfl | positive
    · simp [word] at smaller
    · omega
  obtain ⟨first, tail, split⟩ :=
    List.exists_cons_of_length_pos (show 0 < (lowBits (k + 1) r').length by simp)
  obtain ⟨b, bs, rfl⟩ := List.exists_cons_of_length_pos (show 0 < data.length by omega)
  have tailLength : tail.length = k := by
    have whole := congrArg List.length split
    simpa using whole.symm
  rw [split] at recovered ⊢
  rw [List.take_succ_cons] at smaller
  simp only [word] at recovered smaller
  intro same
  -- beyond the first bit the two arrays agree, so that the first bits decide
  have later : tail = bs.take k ∧ (aux = false → first = b) := by
    cases aux with
    | true =>
      have equal : tail ++ rest = bs := by simpa using same
      exact ⟨by rw [← equal, ← tailLength, List.take_left], by simp⟩
    | false =>
      have equal : first = b ∧ tail ++ rest = bs := by simpa using same
      exact ⟨by rw [← equal.2, ← tailLength, List.take_left], fun _ => equal.1⟩
  rw [later.1] at recovered
  cases aux with
  | true =>
    have low : b = false := by simpa using zero rfl
    rw [low] at smaller
    simp only [Bool.toNat_false] at smaller
    omega
  | false =>
    rw [later.2 rfl] at recovered
    omega

/-- What a sent frame fetched. -/
theorem fetched_eq {e : Encoder σ} {stale : Nat → Nat} {f : EncodedFrame σ}
    (sent : encode_mapping_frame p callback stale e = some f) :
    (e.counters.next p).1 ≤ MAX_MAPPING_FRAME_SIZE ∧
      ∃ symbols, readFrame p (e.counters.next p).1 (e.fetch p callback).1 stale = some symbols ∧
        (encodeSymbols p e.mapper symbols).isSome := by
  simp only [encode_mapping_frame] at sent
  split at sent
  · cases sent
  · rename_i room
    simp only [Option.bind_eq_bind, Option.bind_eq_some_iff] at sent
    obtain ⟨symbols, read, out, mappedSymbols, -⟩ := sent
    exact ⟨by omega, symbols, read, by simp [mappedSymbols]⟩

/-- A frame that does not fit does not come back. -/
theorem frame_lost (mapped : Mapped p) {e : Encoder σ} {d : Decoder}
    (matched : Matched e d) (stale : Nat → Nat) (lost : ¬ FrameFits p (e.fetch p callback).1)
    {f : EncodedFrame σ} {d' : Decoder} {put : List Bool}
    (sent : encode_mapping_frame p callback stale e = some f)
    (received : decode_mapping_frame p d (transmitAll f.points) = some (d', put)) :
    put.length = f.fetched.length ∧ put ≠ f.fetched := by
  have length := length_fetch callback mapped e
  have two := mapped.two
  have size := next_size (p := p) e.counters
  obtain ⟨room, symbols, read, emitted⟩ := fetched_eq sent
  rw [← length] at room read
  have long : 12 < p.b := by
    by_contra short
    exact lost ⟨room, Or.inl (by omega)⟩
  have inside : word ((e.fetch p callback).1.take (shellBits p (e.fetch p callback).1.length)) + 1 <
      p.M ^ 8 := by
    by_contra last
    have unmapped := index_to_rings_none mapped.rings.1 (shellIndex_lt mapped long _ _)
      (Nat.le_of_not_lt last)
    simp only [readFrame, if_neg (Nat.not_le.mpr long), unmapped, Option.bind_eq_bind,
      Option.bind_none] at read
    cases read
  rw [readFrame_long mapped long stale inside, Option.some.injEq] at read
  have known : AllKnown p.q (frameSymbols p (e.fetch p callback).1) := by
    by_contra beyond
    rw [← read, symbols_none mapped.uncoded e.mapper beyond] at emitted
    cases emitted
  obtain ⟨r', written, -, smaller⟩ := long_received mapped long (by omega) room inside
  obtain ⟨f', d'', sent', received', fetched, -⟩ := frame_sent callback mapped
    matched (by omega) (by rw [← length]; exact readFrame_long mapped long stale inside) known
    (by rw [← length]; exact written)
  rw [sent, Option.some.injEq] at sent'
  subst sent'
  rw [received, Option.some.injEq, Prod.mk.injEq] at received'
  obtain ⟨-, rfl⟩ := received'
  have shell := shellBits_le mapped long (n := (e.fetch p callback).1.length) (by omega)
  rw [fetched, ← length]
  refine ⟨?_, put_ne shell (smaller fun small => lost ⟨room, Or.inr ⟨inside, small⟩⟩) ?_ (by simp)⟩
  · cases (e.counters.next p).2.1 <;> simp <;> omega
  · intro turn
    rw [Encoder.fetch, turn]
    rfl

end Frame

end QFax.Linmodem

import QFax.Efax.ReadRuns

/-!
# The data link to the modem

In data mode the modem takes and delivers bytes with every DLE doubled and the end of the data marked
by DLE ETX (`sendbuf`, `tgetd`).  Both sides may reverse the bits of a byte.  A stream that was sent
this way is delivered as the byte string it stands for.
-/

namespace QFax.Efax

/-- `DLE`. -/
def dle : UInt8 := 0x10

/-- `ETX`. -/
def etx : UInt8 := 0x03

/-- `SUB`. -/
def sub : UInt8 := 0x1a

/-- `MINWRITE`: the number of bytes a write to the modem collects. -/
def minWrite : Nat := 64

/-- `reversebits[i] = i` and `normalbits[i]`, the byte with its bits in reverse order
(`initbittab`). -/
inductive BitOrder
  | reversebits
  | normalbits
  deriving DecidableEq, Repr

/-- A byte in the given bit order. -/
def BitOrder.byte : BitOrder → UInt8 → UInt8
  | .reversebits, i => i
  | .normalbits, i =>
    (if i &&& 1 ≠ 0 then 128 else 0) ||| (if i &&& 2 ≠ 0 then 64 else 0) |||
    (if i &&& 4 ≠ 0 then 32 else 0) ||| (if i &&& 8 ≠ 0 then 16 else 0) |||
    (if i &&& 16 ≠ 0 then 8 else 0) ||| (if i &&& 32 ≠ 0 then 4 else 0) |||
    (if i &&& 64 ≠ 0 then 2 else 0) ||| (if i &&& 128 ≠ 0 then 1 else 0)

/-- Reversing the bits twice gives the byte back. -/
theorem BitOrder.byte_byte (order : BitOrder) (b : UInt8) : order.byte (order.byte b) = b := by
  cases order with
  | reversebits => rfl
  | normalbits =>
    have all : ∀ n : Fin 256,
        BitOrder.normalbits.byte (BitOrder.normalbits.byte (UInt8.ofFin n)) = UInt8.ofFin n := by
      decide +kernel
    exact all b.toFin

/-! ## Sending -/

/-- The loop of `sendbuf`, with the bytes that wait for the next write: the writes to the modem. -/
def sendLoop (order : BitOrder) (buf : List UInt8) : List UInt8 → List (List UInt8)
  | [] => []
  | b :: p =>
    let c := order.byte b
    let buf := if c = dle then buf ++ [dle, c] else buf ++ [c]
    if minWrite ≤ buf.length ∨ p = [] then buf :: sendLoop order [] p else sendLoop order buf p

/-- `sendbuf`: the writes to the modem for a buffer. -/
def sendbuf (order : BitOrder) (p : List UInt8) : List (List UInt8) := sendLoop order [] p

/-- A byte string with every DLE doubled. -/
def stuffed (order : BitOrder) (p : List UInt8) : List UInt8 :=
  p.flatMap fun b => if order.byte b = dle then [dle, dle] else [order.byte b]

@[simp] theorem stuffed_nil (order : BitOrder) : stuffed order [] = [] := rfl

@[simp] theorem stuffed_cons (order : BitOrder) (b : UInt8) (p : List UInt8) :
    stuffed order (b :: p) =
      (if order.byte b = dle then [dle, dle] else [order.byte b]) ++ stuffed order p := rfl

@[simp] theorem stuffed_append (order : BitOrder) (p q : List UInt8) :
    stuffed order (p ++ q) = stuffed order p ++ stuffed order q :=
  List.flatMap_append

/-- What the writes of `sendbuf` add up to. -/
theorem flatten_sendLoop (order : BitOrder) (buf p : List UInt8) (some : p ≠ []) :
    (sendLoop order buf p).flatten = buf ++ stuffed order p := by
  induction p generalizing buf with
  | nil => exact absurd rfl some
  | cons b p ih =>
    have grown : (if order.byte b = dle then buf ++ [dle, order.byte b]
        else buf ++ [order.byte b]) =
        buf ++ (if order.byte b = dle then [dle, dle] else [order.byte b]) := by
      split
      · next escape => rw [escape]
      · rfl
    rw [sendLoop, grown, stuffed_cons, ← List.append_assoc]
    generalize (if order.byte b = dle then [dle, dle] else [order.byte b]) = c
    by_cases last : p = []
    · subst last
      simp [sendLoop]
    · split
      · rw [List.flatten_cons, ih [] last, List.nil_append]
      · rw [ih _ last]

theorem flatten_sendbuf (order : BitOrder) (p : List UInt8) :
    (sendbuf order p).flatten = stuffed order p := by
  by_cases some : p = []
  · subst some
    rfl
  · rw [sendbuf, flatten_sendLoop order [] p some, List.nil_append]

/-! ## Receiving -/

/-- `tgetd` on the characters that the modem still sends: the next data character, `-1` when it sends
no more, `-2` on DLE ETX, and `0` on an invalid escape sequence. -/
def tgetd (order : BitOrder) : List UInt8 → Int × List UInt8
  | [] => (-1, [])
  | c :: s =>
    if c ≠ dle then ((order.byte c).toNat, s)
    else match s with
      | [] => (0, [])
      | c :: s =>
        if c = etx then (-2, s)
        else if c = dle ∨ c = sub then ((order.byte dle).toNat, s)
        else (0, s)

/-- The stream is the byte string with every DLE doubled and DLE ETX at its end, or has ended. -/
def Stream (order : BitOrder) (s data : List UInt8) : Prop :=
  s = stuffed order data ++ [dle, etx] ∨ s = [] ∧ data = []

/-- `tgetd` takes the next byte off a stream. -/
theorem tgetd_stuffed (order : BitOrder) (b : UInt8) (bs rest : List UInt8) :
    tgetd order (stuffed order (b :: bs) ++ rest) =
      ((b.toNat : Int), stuffed order bs ++ rest) := by
  rw [stuffed_cons, List.append_assoc]
  by_cases escape : order.byte b = dle
  · have back : order.byte dle = b := by rw [← escape, order.byte_byte]
    rw [if_pos escape]
    show (((order.byte dle).toNat : Int), stuffed order bs ++ rest) = _
    rw [back]
  · rw [if_neg escape, List.singleton_append]
    have step : tgetd order (order.byte b :: (stuffed order bs ++ rest)) =
        (((order.byte (order.byte b)).toNat : Int), stuffed order bs ++ rest) := if_pos escape
    rw [step, order.byte_byte]

/-- `tgetd` undoes what `sendbuf` did, in the same bit order. -/
theorem tgetd_delivers (order : BitOrder) : Delivers (tgetd order) (Stream order) where
  byte := by
    intro s b bs stream
    rcases stream with rfl | ⟨-, none⟩
    · rw [tgetd_stuffed]
      exact ⟨rfl, Or.inl rfl⟩
    · cases none
  done := by
    intro s stream
    rcases stream with rfl | ⟨rfl, -⟩
    · exact ⟨by show (-2 : Int) < 0; decide, Or.inr ⟨rfl, rfl⟩⟩
    · exact ⟨by show (-1 : Int) < 0; decide, Or.inr ⟨rfl, rfl⟩⟩

/-! ## Transparency -/

/-- The stream of several calls of `sendbuf` and the DLE ETX behind them. -/
def sentStream (order : BitOrder) (calls : List (List UInt8)) : List UInt8 :=
  (calls.flatMap (sendbuf order)).flatten ++ [dle, etx]

/-- The second characters of the DLE sequences of a stream. -/
def dleSequences : List UInt8 → List UInt8
  | [] => []
  | [_] => []
  | c :: d :: s => if c = dle then d :: dleSequences s else dleSequences (d :: s)

/-- A number of calls of `tgetd`: what they return, and the stream behind them. -/
def tgetds (order : BitOrder) : Nat → List UInt8 → List Int × List UInt8
  | 0, s => ([], s)
  | n + 1, s =>
    let (c, s) := tgetd order s
    let (cs, s) := tgetds order n s
    (c :: cs, s)

theorem sentStream_eq (order : BitOrder) (calls : List (List UInt8)) :
    sentStream order calls = stuffed order calls.flatten ++ [dle, etx] := by
  rw [sentStream]
  induction calls with
  | nil => rfl
  | cons p calls ih =>
    rw [List.flatMap_cons, List.flatten_append, List.append_assoc, ih, flatten_sendbuf,
      List.flatten_cons, stuffed_append, List.append_assoc]

/-- The data makes no DLE sequence other than the doubled ones. -/
theorem dleSequences_stuffed (order : BitOrder) (data : List UInt8) (rest : List UInt8)
    (some : rest ≠ []) : dleSequences (stuffed order data ++ rest) =
      List.replicate ((data.map order.byte).count dle) dle ++ dleSequences rest := by
  induction data with
  | nil => rfl
  | cons b data ih =>
    rw [stuffed_cons, List.map_cons, List.count_cons, List.append_assoc]
    by_cases escape : order.byte b = dle
    · rw [if_pos escape, if_pos (beq_iff_eq.mpr escape), List.replicate_succ]
      exact congrArg (dle :: ·) ih
    · obtain ⟨c, s, follows⟩ : ∃ c s, stuffed order data ++ rest = c :: s :=
        List.exists_cons_of_ne_nil fun empty => some (List.append_eq_nil_iff.mp empty).2
      rw [if_neg escape, if_neg (beq_eq_false_iff_ne.mpr escape ▸ Bool.false_ne_true), Nat.add_zero,
        ← ih, follows, List.singleton_append, dleSequences, if_neg escape]

theorem tgetds_succ (order : BitOrder) (n : Nat) (s : List UInt8) :
    tgetds order (n + 1) s =
      ((tgetd order s).1 :: (tgetds order n (tgetd order s).2).1,
        (tgetds order n (tgetd order s).2).2) := rfl

theorem tgetds_stuffed (order : BitOrder) (data rest : List UInt8) :
    tgetds order data.length (stuffed order data ++ rest) =
      (data.map fun b => (b.toNat : Int), rest) := by
  induction data with
  | nil => rfl
  | cons b data ih => rw [List.length_cons, tgetds_succ, tgetd_stuffed, ih, List.map_cons]

theorem tgetds_snoc (order : BitOrder) (n : Nat) (s : List UInt8) :
    tgetds order (n + 1) s =
      ((tgetds order n s).1 ++ [(tgetd order (tgetds order n s).2).1],
        (tgetd order (tgetds order n s).2).2) := by
  induction n generalizing s with
  | zero => rfl
  | succ n ih => rw [tgetds_succ, ih, tgetds_succ, List.cons_append]

/-- A write never holds more than `MINWRITE + 1` characters. -/
theorem sendLoop_length (order : BitOrder) {buf : List UInt8} (p : List UInt8)
    (room : buf.length < minWrite) : ∀ w ∈ sendLoop order buf p, w.length ≤ minWrite + 1 := by
  induction p generalizing buf with
  | nil => exact fun w mem => by cases mem
  | cons b p ih =>
    intro w mem
    rw [sendLoop] at mem
    have grown : (if order.byte b = dle then buf ++ [dle, order.byte b]
        else buf ++ [order.byte b]).length ≤ buf.length + 2 := by
      split <;> simp
    generalize (if order.byte b = dle then buf ++ [dle, order.byte b]
      else buf ++ [order.byte b]) = buf' at mem grown
    by_cases full : minWrite ≤ buf'.length ∨ p = []
    · rw [if_pos full] at mem
      rcases List.mem_cons.mp mem with rfl | later
      · omega
      · exact ih (by decide) w later
    · rw [if_neg full] at mem
      exact ih (Nat.lt_of_not_le fun long => full (Or.inl long)) w mem

/-- The modem is sent the data with every DLE doubled and no DLE sequence but the final DLE ETX
besides; `tgetd` gets the data back and then `-2`, and leaves what follows; no write buffer is
filled beyond position `MINWRITE`. -/
theorem dle_transparent (order : BitOrder) (calls : List (List UInt8)) (rest : List UInt8) :
    sentStream order calls =
      (calls.flatten.flatMap fun b => if order.byte b = dle then [dle, dle] else [order.byte b]) ++
        [dle, etx] ∧
    dleSequences (sentStream order calls) =
      List.replicate ((calls.flatten.map order.byte).count dle) dle ++ [etx] ∧
    tgetds order (calls.flatten.length + 1) (sentStream order calls ++ rest) =
      ((calls.flatten.map fun b => (b.toNat : Int)) ++ [-2], rest) ∧
    ∀ p ∈ calls, ∀ w ∈ sendbuf order p, w.length ≤ minWrite + 1 := by
  refine ⟨sentStream_eq order calls, ?_, ?_, fun p _ => sendLoop_length order p (by decide)⟩
  · rw [sentStream_eq, dleSequences_stuffed order _ _ (by simp)]
    rfl
  · rw [sentStream_eq, List.append_assoc, tgetds_snoc, tgetds_stuffed]
    rfl

end QFax.Efax

import Mathlib.Data.List.Basic
import Mathlib.Algebra.BigOperators.Group.List.Basic
import Mathlib.Algebra.Order.BigOperators.Group.List
import Mathlib.Algebra.GroupWithZero.Nat
import Mathlib.Algebra.Order.Group.Nat

/-!
# Reading text in pieces

A reader with a buffer of `n` elements takes a line in pieces: each ends with the line, or after `n`
elements.  The position after a number of pieces is monotone in the buffer size and in the starting
point (`skip_suffix`), and a line takes `rows n` of them (`skip_lines`).

`Pages` cuts a text after every `p` pieces, until the end is seen.  When a second reader with a larger
buffer reads `p` pieces from the start of each page, it finds every line on exactly one page in exactly
the cases of `Pages.grouped_iff`.

`Narrow` bounds the lines of a text that is written from left to right.
-/

namespace TextLines

variable {α : Type} {nl : α}

/-- Lines, all of which end but for the last one. -/
inductive Lines (nl : α) : List (List α) → Prop
  | nil : Lines nl []
  | last {l : List α} : l ≠ [] → nl ∉ l → Lines nl [l]
  | cons {body : List α} {ls : List (List α)} :
    nl ∉ body → Lines nl ls → Lines nl ((body ++ [nl]) :: ls)

theorem Lines.tail {l : List α} {ls : List (List α)} (whole : Lines nl (l :: ls)) : Lines nl ls := by
  cases whole with
  | last => exact .nil
  | cons _ rest => exact rest

theorem Lines.suffix {as bs : List (List α)} (whole : Lines nl (as ++ bs)) : Lines nl bs := by
  induction as with
  | nil => exact whole
  | cons a as ih => exact ih whole.tail

theorem Lines.longer {x : α} (other : x ≠ nl) {l : List α} {ls : List (List α)}
    (whole : Lines nl (l :: ls)) : Lines nl ((x :: l) :: ls) := by
  cases whole with
  | last some absent => exact .last (List.cons_ne_nil x l) (by simp [absent, other.symm])
  | @cons body _ absent rest =>
    have longer : nl ∉ x :: body := by simp [absent, other.symm]
    exact .cons longer rest

/-- A line in front of the rest of its text. -/
def Heads (nl : α) (l rest : List α) : Prop :=
  (∃ body, l = body ++ [nl] ∧ nl ∉ body) ∨ (l ≠ [] ∧ nl ∉ l ∧ rest = [])

theorem Lines.heads {l : List α} {ls : List (List α)} (whole : Lines nl (l :: ls)) :
    Heads nl l ls.flatten := by
  cases whole with
  | last some absent => exact Or.inr ⟨some, absent, rfl⟩
  | cons absent rest => exact Or.inl ⟨_, rfl, absent⟩

theorem Lines.heads_of_mem {ls : List (List α)} (whole : Lines nl ls) {l : List α} (member : l ∈ ls) :
    ∃ rest, Heads nl l rest := by
  induction ls with
  | nil => cases member
  | cons a ls ih =>
    rcases List.mem_cons.mp member with rfl | member
    · exact ⟨ls.flatten, whole.heads⟩
    · exact ih whole.tail member

theorem Heads.ne_nil {l rest : List α} (heads : Heads nl l rest) : l ≠ [] := by
  rcases heads with ⟨body, rfl, -⟩ | ⟨some, -, -⟩
  · simp
  · exact some

theorem Heads.drop {n : Nat} {l rest : List α} (heads : Heads nl l rest) (long : n < l.length) :
    nl ∉ l.take n ∧ Heads nl (l.drop n) rest := by
  rcases heads with ⟨body, rfl, absent⟩ | ⟨some, absent, rfl⟩
  · have inside : n ≤ body.length := by
      rw [List.length_append, List.length_singleton] at long
      omega
    rw [List.take_append_of_le_length inside, List.drop_append_of_le_length inside]
    exact ⟨fun member => absent (List.mem_of_mem_take member),
      Or.inl ⟨_, rfl, fun member => absent (List.mem_of_mem_drop member)⟩⟩
  · refine ⟨fun member => absent (List.mem_of_mem_take member), Or.inr ⟨?_, ?_, rfl⟩⟩
    · rw [ne_eq, List.drop_eq_nil_iff]
      omega
    · exact fun member => absent (List.mem_of_mem_drop member)

theorem Heads.alone {l rest : List α} (heads : Heads nl l rest) : Heads nl l [] := by
  rcases heads with ended | ⟨some, absent, -⟩
  · exact Or.inl ended
  · exact Or.inr ⟨some, absent, rfl⟩

/-- Lines by the number of their pieces. -/
theorem Heads.induction {n : Nat} (pos : 0 < n) {rest : List α}
    {motive : (l : List α) → Heads nl l rest → Prop}
    (short : ∀ l (heads : Heads nl l rest), l.length ≤ n → motive l heads)
    (long : ∀ l (heads : Heads nl l rest) (long : n < l.length),
      motive (l.drop n) (heads.drop long).2 → motive l heads)
    {l : List α} (heads : Heads nl l rest) : motive l heads := by
  induction size : l.length using Nat.strongRecOn generalizing l with
  | ind _ ih =>
    subst size
    rcases Nat.lt_or_ge n l.length with more | fits
    · refine long l heads more (ih (l.drop n).length ?_ _ rfl)
      rw [List.length_drop]
      omega
    · exact short l heads fits

/-- The number of pieces of a line, with a buffer of `n` elements. -/
def rows (n : Nat) (l : List α) : Nat := (l.length + n - 1) / n

theorem rows_long {n : Nat} (pos : 0 < n) {l : List α} (long : n < l.length) :
    rows n l = rows n (l.drop n) + 1 := by
  unfold rows
  rw [List.length_drop, ← Nat.add_div_right _ pos]
  congr 1
  omega

theorem rows_short {n : Nat} {l : List α} (some : l ≠ []) (fits : l.length ≤ n) : rows n l = 1 := by
  have := List.length_pos_iff.mpr some
  unfold rows
  rw [Nat.div_eq_iff (by omega)]
  omega

theorem rows_le {n : Nat} (pos : 0 < n) {l rest : List α} (heads : Heads nl l rest) :
    rows n l ≤ l.length := by
  induction heads using Heads.induction pos with
  | short l heads fits =>
    rw [rows_short heads.ne_nil fits]
    exact List.length_pos_iff.mpr heads.ne_nil
  | long l heads long ih =>
    rw [List.length_drop] at ih
    rw [rows_long pos long]
    omega

/-- A larger buffer takes fewer pieces. -/
theorem rows_anti {k m : Nat} (pos : 0 < k) (le : k ≤ m) (l : List α) : rows m l ≤ rows k l := by
  have enough : l.length ≤ rows k l * k := by
    have division := Nat.div_add_mod (l.length + k - 1) k
    have small := Nat.mod_lt (l.length + k - 1) pos
    rw [rows, Nat.mul_comm]
    omega
  have wider : rows k l * k ≤ rows k l * m := Nat.mul_le_mul_left _ le
  have bound : l.length + m - 1 < (rows k l + 1) * m := by
    rw [Nat.add_mul, Nat.one_mul]
    omega
  exact Nat.le_of_lt_succ (Nat.div_lt_of_lt_mul (by rwa [Nat.mul_comm] at bound))

theorem sum_rows_le {n : Nat} (pos : 0 < n) {ls : List (List α)} (whole : Lines nl ls) :
    (ls.map (rows n)).sum ≤ ls.flatten.length := by
  induction ls with
  | nil => exact le_rfl
  | cons l ls ih =>
    have here := rows_le pos whole.heads
    have later := ih whole.tail
    rw [List.map_cons, List.sum_cons, List.flatten_cons, List.length_append]
    omega

variable [DecidableEq α]

/-! ## Pieces -/

/-- Take at most `n` elements, up to the first end of line and with it: the piece, and what is left. -/
def piece (nl : α) : Nat → List α → List α × List α
  | 0, xs => ([], xs)
  | _ + 1, [] => ([], [])
  | n + 1, x :: xs => if x = nl then ([x], xs) else (x :: (piece nl n xs).1, (piece nl n xs).2)

/-- What is left behind a number of pieces. -/
def skip (nl : α) (n : Nat) : Nat → List α → List α
  | 0, xs => xs
  | j + 1, xs => skip nl n j (piece nl n xs).2

/-- The pieces of a text, at most `j` of them. -/
def pieces (nl : α) (n : Nat) : Nat → List α → List (List α)
  | 0, _ => []
  | j + 1, xs =>
    if (piece nl n xs).1 = [] then []
    else (piece nl n xs).1 :: pieces nl n j (piece nl n xs).2

/-- One of the first `j` pieces is cut short by the end of the text. -/
def SeesEnd (nl : α) (n : Nat) : Nat → List α → Prop
  | 0, _ => False
  | j + 1, xs =>
    ((piece nl n xs).1.length < n ∧ (piece nl n xs).1.getLast? ≠ some nl) ∨
      SeesEnd nl n j (piece nl n xs).2

theorem piece_append (nl : α) (n : Nat) (xs : List α) :
    (piece nl n xs).1 ++ (piece nl n xs).2 = xs := by
  induction n generalizing xs with
  | zero => rfl
  | succ n ih =>
    cases xs with
    | nil => rfl
    | cons x xs =>
      rw [piece]
      split
      · rfl
      · rw [List.cons_append, ih]

@[simp] theorem piece_nil (n : Nat) : piece nl n ([] : List α) = ([], []) := by
  cases n <;> rfl

/-- A piece is empty only at the end. -/
theorem piece_eq_nil (nl : α) {n : Nat} (pos : 0 < n) {xs : List α} :
    (piece nl n xs).1 = [] ↔ xs = [] := by
  obtain ⟨n, rfl⟩ : ∃ m, n = m + 1 := ⟨n - 1, by omega⟩
  cases xs with
  | nil => simp [piece]
  | cons x xs =>
    rw [piece]
    split <;> simp

/-- Reading from further on with a larger buffer ends further on. -/
theorem piece_suffix {k m : Nat} (le : k ≤ m) {xs ys : List α} (behind : xs <:+ ys) :
    (piece nl m xs).2 <:+ (piece nl k ys).2 := by
  have taken (n : Nat) (zs : List α) : (piece nl n zs).2 <:+ zs := ⟨_, piece_append nl n zs⟩
  induction k generalizing m xs ys with
  | zero => exact (taken m xs).trans behind
  | succ k ih =>
    cases ys with
    | nil =>
      rw [List.suffix_nil.mp behind]
      exact taken m []
    | cons y ys =>
      rw [piece]
      rcases List.suffix_cons_iff.mp behind with rfl | behind
      · obtain ⟨m, rfl⟩ : ∃ l, m = l + 1 := ⟨m - 1, by omega⟩
        rw [piece]
        split
        · exact List.suffix_refl ys
        · exact ih (by omega) (List.suffix_refl ys)
      · split
        · exact (taken m xs).trans behind
        · exact ih (by omega) behind

theorem skip_suffix (nl : α) {k m : Nat} (le : k ≤ m) (j : Nat) {xs ys : List α} (behind : xs <:+ ys) :
    skip nl m j xs <:+ skip nl k j ys := by
  induction j generalizing xs ys with
  | zero => exact behind
  | succ j ih => exact ih (piece_suffix le behind)

theorem skip_add (n i j : Nat) (xs : List α) :
    skip nl n (i + j) xs = skip nl n j (skip nl n i xs) := by
  induction i generalizing xs with
  | zero => rw [Nat.zero_add, skip]
  | succ i ih =>
    rw [Nat.add_right_comm, skip, skip]
    exact ih _

theorem skip_nil (n j : Nat) : skip nl n j [] = [] := by
  induction j with
  | zero => rfl
  | succ j ih => rw [skip, piece_nil, ih]

/-- Every piece takes something from a text that has not ended. -/
theorem length_skip {n : Nat} (pos : 0 < n) (j : Nat) {xs : List α} (some : skip nl n j xs ≠ []) :
    (skip nl n j xs).length + j ≤ xs.length := by
  induction j generalizing xs with
  | zero => exact le_rfl
  | succ j ih =>
    have more : xs ≠ [] := by
      rintro rfl
      exact some (skip_nil n (j + 1))
    have later := ih some
    have taken := congrArg List.length (piece_append nl n xs)
    have first := List.length_pos_iff.mpr fun empty => more ((piece_eq_nil nl pos).mp empty)
    rw [List.length_append] at taken
    rw [skip]
    omega

/-- The number of pieces is determined by where they end, before the end of the text. -/
theorem skip_inj {n : Nat} (pos : 0 < n) {i j : Nat} {xs : List α}
    (same : skip nl n i xs = skip nl n j xs) (some : skip nl n i xs ≠ []) : i = j := by
  have order {i j : Nat} (le : i ≤ j) (same : skip nl n i xs = skip nl n j xs)
      (some : skip nl n i xs ≠ []) : i = j := by
    obtain ⟨k, rfl⟩ := Nat.exists_eq_add_of_le le
    rw [skip_add] at same
    have more : skip nl n k (skip nl n i xs) ≠ [] := by rwa [← same]
    have length := length_skip pos k more
    rw [← same] at length
    omega
  rcases Nat.le_total i j with le | le
  · exact order le same some
  · exact (order le same.symm (by rwa [← same])).symm

theorem pieces_nil (n j : Nat) : pieces nl n j [] = [] := by
  cases j with
  | zero => rfl
  | succ j => rw [pieces, piece_nil, if_pos rfl]

theorem pieces_add {n : Nat} (pos : 0 < n) (i j : Nat) (xs : List α) :
    pieces nl n (i + j) xs = pieces nl n i xs ++ pieces nl n j (skip nl n i xs) := by
  induction i generalizing xs with
  | zero =>
    rw [Nat.zero_add]
    rfl
  | succ i ih =>
    rw [Nat.add_right_comm, pieces, pieces, skip]
    split
    case isTrue empty =>
      rw [(piece_eq_nil nl pos).mp empty, piece_nil, skip_nil, pieces_nil, List.append_nil]
    case isFalse => rw [ih, List.cons_append]

/-- The pieces read and what is left make up the text. -/
theorem pieces_flatten (nl : α) {n : Nat} (pos : 0 < n) (j : Nat) (xs : List α) :
    (pieces nl n j xs).flatten ++ skip nl n j xs = xs := by
  induction j generalizing xs with
  | zero => rfl
  | succ j ih =>
    rw [pieces, skip]
    split
    case isTrue empty =>
      rw [(piece_eq_nil nl pos).mp empty, piece_nil, skip_nil, List.flatten_nil, List.append_nil]
    case isFalse =>
      rw [List.flatten_cons, List.append_assoc, ih, piece_append]

theorem seesEnd_add (n i j : Nat) (xs : List α) :
    SeesEnd nl n (i + j) xs ↔ SeesEnd nl n i xs ∨ SeesEnd nl n j (skip nl n i xs) := by
  induction i generalizing xs with
  | zero => simp [SeesEnd, skip]
  | succ i ih => rw [Nat.add_right_comm, SeesEnd, SeesEnd, skip, ih, or_assoc]

/-- Behind the end there is nothing left. -/
theorem skip_of_seesEnd {n : Nat} {j : Nat} {xs : List α} (ended : SeesEnd nl n j xs) :
    skip nl n j xs = [] := by
  have last (n : Nat) (xs : List α) (short : (piece nl n xs).1.length < n)
      (open' : (piece nl n xs).1.getLast? ≠ some nl) : (piece nl n xs).2 = [] := by
    induction n generalizing xs with
    | zero => exact absurd short (Nat.not_lt_zero _)
    | succ n ih =>
      cases xs with
      | nil => rfl
      | cons x xs =>
        rw [piece] at short open' ⊢
        split at short <;> rename_i equal
        · rw [if_pos equal, equal] at open'
          exact absurd rfl open'
        · rw [if_neg equal] at open' ⊢
          refine ih xs (by simpa using short) fun ends => open' ?_
          rw [List.getLast?_cons, ends]
          rfl
  induction j generalizing xs with
  | zero => exact ended.elim
  | succ j ih =>
    rw [SeesEnd] at ended
    rw [skip]
    rcases ended with ⟨short, open'⟩ | later
    · rw [last n xs short open', skip_nil]
    · exact ih later

/-! ## Lines -/

/-- The lines of a text, each with its end. -/
def lines (nl : α) : List α → List (List α)
  | [] => []
  | x :: xs =>
    if x = nl then [x] :: lines nl xs
    else
      match lines nl xs with
      | [] => [[x]]
      | l :: ls => (x :: l) :: ls

theorem lines_lines (nl : α) (xs : List α) : Lines nl (lines nl xs) := by
  induction xs with
  | nil => exact .nil
  | cons x xs ih =>
    rw [lines]
    split
    case isTrue equal =>
      rw [equal]
      exact @Lines.cons _ nl [] _ List.not_mem_nil ih
    case isFalse other =>
      split
      · exact .last (List.cons_ne_nil x []) (by simp [Ne.symm other])
      · rename_i l ls split
        rw [split] at ih
        exact ih.longer other

theorem lines_flatten (nl : α) (xs : List α) : (lines nl xs).flatten = xs := by
  induction xs with
  | nil => rfl
  | cons x xs ih =>
    rw [lines]
    split
    · rw [List.flatten_cons, ih, List.singleton_append]
    · split <;> rename_i split
      · rw [split, List.flatten_nil] at ih
        rw [← ih]
        rfl
      · rw [split, List.flatten_cons] at ih
        rw [List.flatten_cons, List.cons_append, ih]

/-- Lines are the lines of their text. -/
theorem Lines.flatten {ls : List (List α)} (whole : Lines nl ls) : lines nl ls.flatten = ls := by
  induction whole with
  | nil => rfl
  | @last l some absent =>
    rw [List.flatten_singleton]
    induction l with
    | nil => exact absurd rfl some
    | cons x l ih =>
      obtain ⟨other, absent⟩ := not_or.mp (mt List.mem_cons.mpr absent)
      rw [lines, if_neg (Ne.symm other)]
      rcases List.eq_nil_or_concat' l with rfl | ⟨front, y, rfl⟩
      · rfl
      · rw [ih (by simp) absent]
  | @cons body ls absent rest ih =>
    rw [List.flatten_cons]
    induction body with
    | nil =>
      rw [List.nil_append, List.singleton_append, lines, if_pos rfl, ih]
    | cons x body step =>
      obtain ⟨other, absent⟩ := not_or.mp (mt List.mem_cons.mpr absent)
      rw [List.cons_append, List.cons_append, lines, if_neg (Ne.symm other), step absent]

/-! ## The pieces of a line -/

/-- The pieces of a line. -/
def linePieces (nl : α) (n : Nat) (l : List α) : List (List α) := pieces nl n l.length l

/-- A piece that the end of line does not cut. -/
theorem piece_full {as : List α} (absent : nl ∉ as) (bs : List α) :
    piece nl as.length (as ++ bs) = (as, bs) := by
  induction as with
  | nil => rfl
  | cons a as ih =>
    obtain ⟨other, absent⟩ := not_or.mp (mt List.mem_cons.mpr absent)
    rw [List.length_cons, List.cons_append, piece, if_neg (Ne.symm other), ih absent]

/-- A line that fits the buffer is one piece. -/
theorem piece_line {n : Nat} {l rest : List α} (heads : Heads nl l rest) (fits : l.length ≤ n) :
    piece nl n (l ++ rest) = (l, rest) := by
  have ended {n : Nat} {body : List α} (absent : nl ∉ body) (fits : body.length < n) :
      piece nl n (body ++ nl :: rest) = (body ++ [nl], rest) := by
    induction body generalizing n with
    | nil =>
      obtain ⟨n, rfl⟩ : ∃ m, n = m + 1 := ⟨n - 1, by simp at fits; omega⟩
      rw [List.nil_append, piece, if_pos rfl]
      rfl
    | cons x body ih =>
      rw [List.length_cons] at fits
      obtain ⟨n, rfl⟩ : ∃ m, n = m + 1 := ⟨n - 1, by omega⟩
      obtain ⟨other, absent⟩ := not_or.mp (mt List.mem_cons.mpr absent)
      rw [List.cons_append, piece, if_neg (Ne.symm other), ih absent (by omega)]
      rfl
  have open' {n : Nat} {l : List α} (absent : nl ∉ l) (fits : l.length ≤ n) :
      piece nl n l = (l, []) := by
    induction l generalizing n with
    | nil => exact piece_nil n
    | cons x l ih =>
      rw [List.length_cons] at fits
      obtain ⟨n, rfl⟩ : ∃ m, n = m + 1 := ⟨n - 1, by omega⟩
      obtain ⟨other, absent⟩ := not_or.mp (mt List.mem_cons.mpr absent)
      rw [piece, if_neg (Ne.symm other), ih absent (by omega)]
  rcases heads with ⟨body, rfl, absent⟩ | ⟨-, absent, rfl⟩
  · rw [List.append_assoc, List.singleton_append]
    exact ended absent (by rwa [List.length_append] at fits)
  · rw [List.append_nil]
    exact open' absent fits

/-- The first piece of a line that is longer than the buffer. -/
theorem piece_long {n : Nat} {l rest : List α} (heads : Heads nl l rest) (long : n < l.length) :
    piece nl n (l ++ rest) = (l.take n, l.drop n ++ rest) := by
  have full := piece_full (heads.drop long).1 (l.drop n ++ rest)
  rwa [List.length_take, Nat.min_eq_left long.le, ← List.append_assoc,
    List.take_append_drop] at full

theorem skip_line {n : Nat} (pos : 0 < n) {l rest : List α} (heads : Heads nl l rest) :
    skip nl n (rows n l) (l ++ rest) = rest := by
  induction heads using Heads.induction pos with
  | short l heads fits =>
    rw [rows_short heads.ne_nil fits, skip, piece_line heads fits, skip]
  | long l heads long ih =>
    rw [rows_long pos long, skip, piece_long heads long]
    exact ih

theorem pieces_line {n : Nat} (pos : 0 < n) {l rest : List α} (heads : Heads nl l rest) :
    pieces nl n (rows n l) (l ++ rest) = pieces nl n (rows n l) l := by
  induction heads using Heads.induction pos with
  | short l heads fits =>
    have alone := piece_line heads.alone fits
    rw [List.append_nil] at alone
    have one (xs : List α) : pieces nl n 1 xs =
        if (piece nl n xs).1 = [] then [] else [(piece nl n xs).1] := rfl
    rw [rows_short heads.ne_nil fits, one, one, piece_line heads fits, alone]
  | long l heads long ih =>
    have alone := piece_long heads.alone long
    rw [List.append_nil, List.append_nil] at alone
    rw [rows_long pos long, pieces, pieces, piece_long heads long, alone, ih]

/-- The end of the text cuts the last piece of a line without an end, unless that is full. -/
theorem seesEnd_line {n : Nat} (pos : 0 < n) {l rest : List α} (heads : Heads nl l rest) :
    SeesEnd nl n (rows n l) (l ++ rest) ↔ nl ∉ l ∧ l.length % n ≠ 0 := by
  induction heads using Heads.induction pos with
  | short l heads fits =>
    rw [rows_short heads.ne_nil fits, SeesEnd, piece_line heads fits, SeesEnd, or_false]
    rcases heads with ⟨body, rfl, absent⟩ | ⟨some, absent, rfl⟩
    · simp
    · have open' : l.getLast? ≠ Option.some nl := fun ends => absent (List.mem_of_getLast? ends)
      have length : l.length < n ↔ l.length % n ≠ 0 := by
        have := List.length_pos_iff.mpr some
        rcases Nat.lt_or_ge l.length n with lt | ge
        · rw [Nat.mod_eq_of_lt lt]
          omega
        · rw [Nat.le_antisymm fits ge, Nat.mod_self]
          omega
      rw [length]
      exact ⟨fun all => ⟨absent, all.1⟩, fun all => ⟨all.2, open'⟩⟩
  | long l heads long ih =>
    have taken : ¬ (l.take n).length < n := by
      rw [List.length_take]
      omega
    have whole : nl ∉ l ↔ nl ∉ l.drop n := by
      refine not_congr ⟨fun member => ?_, List.mem_of_mem_drop⟩
      rw [← List.take_append_drop n l, List.mem_append] at member
      exact member.resolve_left (heads.drop long).1
    rw [rows_long pos long, SeesEnd, piece_long heads long, ih, whole, List.length_drop,
      Nat.mod_eq_sub_mod long.le]
    exact or_iff_right fun all => taken all.1

theorem not_seesEnd_line {n : Nat} (pos : 0 < n) {l rest : List α} (heads : Heads nl l rest) {j : Nat}
    (lt : j < rows n l) : ¬ SeesEnd nl n j (l ++ rest) := by
  induction heads using Heads.induction pos generalizing j with
  | short l heads fits =>
    rw [rows_short heads.ne_nil fits] at lt
    obtain rfl : j = 0 := by omega
    exact id
  | long l heads long ih =>
    rw [rows_long pos long] at lt
    intro ended
    cases j with
    | zero => exact ended
    | succ j =>
      rw [SeesEnd, piece_long heads long] at ended
      rcases ended with ⟨short, -⟩ | later
      · have short' : (l.take n).length < n := short
        rw [List.length_take] at short'
        omega
      · exact ih (by omega) later

/-! ## The pieces of lines -/

/-- The number of pieces until the end is seen. -/
def endRows (nl : α) (n : Nat) : List (List α) → Nat
  | [] => 1
  | l :: ls => if ls = [] ∧ nl ∉ l ∧ l.length % n ≠ 0 then rows n l else rows n l + endRows nl n ls

theorem skip_lines {n : Nat} (pos : 0 < n) {ls more : List (List α)} (whole : Lines nl (ls ++ more)) :
    skip nl n (ls.map (rows n)).sum (ls ++ more).flatten = more.flatten := by
  induction ls with
  | nil => rfl
  | cons l ls ih =>
    have heads : Heads nl l (ls ++ more).flatten := Lines.heads whole
    rw [List.map_cons, List.sum_cons, skip_add, List.cons_append, List.flatten_cons,
      skip_line pos heads]
    exact ih whole.tail

theorem linePieces_eq {n : Nat} (pos : 0 < n) {l rest : List α} (heads : Heads nl l rest) :
    linePieces nl n l = pieces nl n (rows n l) l := by
  obtain ⟨k, length⟩ := Nat.exists_eq_add_of_le (rows_le pos heads)
  have none := skip_line pos heads.alone
  rw [List.append_nil] at none
  rw [linePieces, length, pieces_add pos, none, pieces_nil, List.append_nil]

theorem pieces_lines {n : Nat} (pos : 0 < n) {ls more : List (List α)}
    (whole : Lines nl (ls ++ more)) :
    pieces nl n (ls.map (rows n)).sum (ls ++ more).flatten = ls.flatMap (linePieces nl n) := by
  induction ls with
  | nil => rfl
  | cons l ls ih =>
    have heads : Heads nl l (ls ++ more).flatten := Lines.heads whole
    rw [List.map_cons, List.sum_cons, pieces_add pos, List.cons_append, List.flatten_cons,
      skip_line pos heads, pieces_line pos heads, ← linePieces_eq pos heads, ih whole.tail,
      List.flatMap_cons]

/-- Enough pieces for all lines. -/
theorem pieces_all {n : Nat} (pos : 0 < n) {ls : List (List α)} (whole : Lines nl ls) {j : Nat}
    (few : (ls.map (rows n)).sum ≤ j) : pieces nl n j ls.flatten = ls.flatMap (linePieces nl n) := by
  obtain ⟨extra, rfl⟩ := Nat.exists_eq_add_of_le few
  have whole' : Lines nl (ls ++ []) := by rwa [List.append_nil]
  have read := pieces_lines pos whole'
  have left := skip_lines pos whole'
  rw [List.append_nil] at read left
  rw [pieces_add pos, left, read, List.flatten_nil, pieces_nil, List.append_nil]

theorem seesEnd_nil {n : Nat} (pos : 0 < n) (j : Nat) : SeesEnd nl n j [] ↔ 1 ≤ j := by
  cases j with
  | zero => simp [SeesEnd]
  | succ j => simp [SeesEnd, pos]

/-- When the end of lines is seen. -/
theorem seesEnd_lines {n : Nat} (pos : 0 < n) {ls : List (List α)} (whole : Lines nl ls) (j : Nat) :
    SeesEnd nl n j ls.flatten ↔ endRows nl n ls ≤ j := by
  induction ls generalizing j with
  | nil => exact seesEnd_nil pos j
  | cons l ls ih =>
    have heads : Heads nl l ls.flatten := whole.heads
    have before := not_seesEnd_line pos heads (j := j)
    have here := seesEnd_line pos heads
    rw [List.flatten_cons, endRows]
    rcases Nat.lt_or_ge j (rows n l) with lt | ge
    · have some : ¬ (if ls = [] ∧ nl ∉ l ∧ l.length % n ≠ 0 then rows n l
          else rows n l + endRows nl n ls) ≤ j := by
        split <;> omega
      exact ⟨fun ended => absurd ended (before lt), fun le => absurd le some⟩
    · obtain ⟨k, rfl⟩ := Nat.exists_eq_add_of_le ge
      rw [seesEnd_add, skip_line pos heads, ih whole.tail, here]
      split
      case isTrue cut =>
        exact ⟨fun _ => Nat.le_add_right _ _, fun _ => Or.inl cut.2⟩
      case isFalse other =>
        have not : ¬ (nl ∉ l ∧ l.length % n ≠ 0) := by
          rintro ⟨absent, odd⟩
          refine other ⟨?_, absent, odd⟩
          cases whole with
          | last => rfl
          | cons => simp at absent
        rw [or_iff_right not]
        omega

theorem le_endRows (n : Nat) (ls : List (List α)) : (ls.map (rows n)).sum ≤ endRows nl n ls := by
  induction ls with
  | nil => exact Nat.zero_le 1
  | cons l ls ih =>
    rw [endRows, List.map_cons, List.sum_cons]
    split
    case isTrue cut => rw [cut.1, List.map_nil, List.sum_nil, Nat.add_zero]
    case isFalse => omega

theorem endRows_append {n : Nat} (ls : List (List α)) {more : List (List α)} (some : more ≠ []) :
    endRows nl n (ls ++ more) = (ls.map (rows n)).sum + endRows nl n more := by
  induction ls with
  | nil => rw [List.nil_append, List.map_nil, List.sum_nil, Nat.zero_add]
  | cons l ls ih =>
    have later : ¬ (ls ++ more = [] ∧ nl ∉ l ∧ l.length % n ≠ 0) :=
      fun all => some (List.append_eq_nil_iff.mp all.1).2
    rw [List.cons_append, endRows, if_neg later, ih, List.map_cons, List.sum_cons, Nat.add_assoc]

theorem endRows_pos {n : Nat} (pos : 0 < n) {ls : List (List α)} (whole : Lines nl ls) :
    0 < endRows nl n ls := by
  by_contra zero
  exact (seesEnd_lines pos whole 0).mpr (by omega)

/-! ## Pages -/

/-- The starts of the pages of a text that is cut after every `p` pieces, until the end is seen. -/
inductive Pages (nl : α) (k p : Nat) : List α → List (List α) → Prop
  | last {xs : List α} : SeesEnd nl k p xs → Pages nl k p xs [xs]
  | page {xs : List α} {starts : List (List α)} :
    ¬ SeesEnd nl k p xs → Pages nl k p (skip nl k p xs) starts → Pages nl k p xs (xs :: starts)

/-- A reader of `p` pieces from each start finds every line on one page, in order, and a line on every
page. -/
def Grouped (nl : α) (m p : Nat) (xs : List α) (starts : List (List α)) : Prop :=
  ∃ groups : List (List (List α)), groups.flatten = lines nl xs ∧ (∀ g ∈ groups, g ≠ []) ∧
    List.Forall₂ (fun start g => pieces nl m p start = g.flatMap (linePieces nl m)) starts groups

/-- The lines fill pages of `p` pieces, as many for the one buffer as for the other; the end is seen on
the last page. -/
def Filled (nl : α) (k m p : Nat) (ls : List (List α)) : Prop :=
  ∃ (full : List (List (List α))) (last : List (List α)), ls = full.flatten ++ last ∧ last ≠ [] ∧
    (∀ page ∈ full, (page.map (rows k)).sum = p ∧ ∀ l ∈ page, rows m l = rows k l) ∧
    endRows nl k last ≤ p

variable {k m p : Nat}

theorem Pages.grouped (pos : 0 < k) (le : k ≤ m) (some : 0 < p) {xs : List α}
    {starts : List (List α)} (pages : Pages nl k p xs starts) (filled : Filled nl k m p (lines nl xs)) :
    Grouped nl m p xs starts := by
  obtain ⟨full, last, split, more, each, ends⟩ := filled
  induction full generalizing xs starts with
  | nil =>
    have whole := lines_lines nl xs
    have text := lines_flatten nl xs
    rw [List.flatten_nil, List.nil_append] at split
    rw [split] at whole text
    have seen : SeesEnd nl k p xs := by
      rw [← text]
      exact (seesEnd_lines pos whole p).mpr ends
    cases pages with
    | page open' => exact absurd seen open'
    | last =>
      refine ⟨[last], by simp [split], by simpa using more, .cons ?_ .nil⟩
      have few : (last.map (rows m)).sum ≤ p :=
        (List.sum_le_sum fun l _ => rows_anti pos le l).trans ((le_endRows k last).trans ends)
      rw [← text]
      exact pieces_all (pos.trans_le le) whole few
  | cons page full ih =>
    have whole := lines_lines nl xs
    have text := lines_flatten nl xs
    rw [List.flatten_cons, List.append_assoc] at split
    rw [split] at whole text
    have rest : full.flatten ++ last ≠ [] := by simp [more]
    obtain ⟨exact', same⟩ := each page List.mem_cons_self
    have later := endRows_pos pos whole.suffix
    have open' : ¬ SeesEnd nl k p xs := by
      rw [← text, seesEnd_lines pos whole, endRows_append page rest]
      omega
    cases pages with
    | last seen => exact absurd seen open'
    | page _ pages =>
      have left := skip_lines pos whole
      rw [exact', text] at left
      have lines' : lines nl (skip nl k p xs) = full.flatten ++ last := by
        rw [left, whole.suffix.flatten]
      obtain ⟨groups, all, nonempty, read⟩ := ih pages lines'
        fun page member => each page (List.mem_cons_of_mem _ member)
      refine ⟨page :: groups, ?_, ?_, .cons ?_ read⟩
      · rw [List.flatten_cons, all, lines', split]
      · intro g member
        rcases List.mem_cons.mp member with rfl | member
        · rintro rfl
          rw [List.map_nil, List.sum_nil] at exact'
          omega
        · exact nonempty g member
      · have sums : (page.map (rows m)).sum = p := by
          rw [← exact', List.map_congr_left same]
        have here := pieces_lines (pos.trans_le le) whole
        rwa [sums, text] at here

/-- The second reader reads at least the whole text. -/
theorem Pages.length_le (pos : 0 < k) (le : k ≤ m) {xs : List α} {starts : List (List α)}
    (pages : Pages nl k p xs starts) {groups : List (List (List α))}
    (read : List.Forall₂ (fun start g => pieces nl m p start = g.flatMap (linePieces nl m))
      starts groups) :
    xs.length ≤ (groups.map fun g => (g.flatMap (linePieces nl m)).flatten.length).sum := by
  induction pages generalizing groups with
  | last seen =>
    cases read with
    | cons here rest =>
      rename_i xs g groups
      have ended := skip_suffix nl le p (List.suffix_refl xs)
      rw [skip_of_seesEnd seen, List.suffix_nil] at ended
      have all := pieces_flatten nl (pos.trans_le le) p xs
      rw [ended, List.append_nil, here] at all
      rw [List.map_cons, List.sum_cons, all]
      exact Nat.le_add_right _ _
  | page open' pages ih =>
    cases read with
    | cons here rest =>
      rename_i xs starts g groups
      have behind := (skip_suffix nl le p (List.suffix_refl xs)).length_le
      have all := congrArg List.length (pieces_flatten nl (pos.trans_le le) p xs)
      rw [List.length_append, here] at all
      have later := ih rest
      rw [List.map_cons, List.sum_cons]
      omega

theorem linePieces_flatten {n : Nat} (pos : 0 < n) {l rest : List α} (heads : Heads nl l rest) :
    (linePieces nl n l).flatten = l := by
  have all := pieces_flatten nl pos (rows n l) l
  have none := skip_line pos heads.alone
  rw [List.append_nil] at none
  rwa [none, List.append_nil, ← linePieces_eq pos heads] at all

theorem flatMap_linePieces_flatten {n : Nat} (pos : 0 < n) {ls more : List (List α)}
    (whole : Lines nl (ls ++ more)) : (ls.flatMap (linePieces nl n)).flatten = ls.flatten := by
  induction ls with
  | nil => rfl
  | cons l ls ih =>
    have heads : Heads nl l (ls ++ more).flatten := Lines.heads whole
    rw [List.flatMap_cons, List.flatten_append, linePieces_flatten pos heads, ih whole.tail,
      List.flatten_cons]

theorem groups_length {n : Nat} (pos : 0 < n) {groups : List (List (List α))}
    (whole : Lines nl groups.flatten) :
    (groups.map fun g => (g.flatMap (linePieces nl n)).flatten.length).sum =
      groups.flatten.flatten.length := by
  induction groups with
  | nil => rfl
  | cons g groups ih =>
    rw [List.flatten_cons] at whole
    rw [List.map_cons, List.sum_cons, ih whole.suffix, flatMap_linePieces_flatten pos whole,
      List.flatten_cons, List.flatten_append, List.length_append]

/-- Both readers end a page at the same place: the second one is never behind the first one, and
reads no more than the text in total. -/
theorem Pages.filled (pos : 0 < k) (le : k ≤ m) {xs : List α} {starts : List (List α)}
    (pages : Pages nl k p xs starts) (grouped : Grouped nl m p xs starts) :
    Filled nl k m p (lines nl xs) := by
  obtain ⟨groups, all, nonempty, read⟩ := grouped
  have large := pos.trans_le le
  induction pages generalizing groups with
  | @last xs seen =>
    cases read with
    | @cons _ g _ groups here rest =>
      cases rest
      rw [List.flatten_singleton] at all
      refine ⟨[], lines nl xs, rfl, ?_, by simp, ?_⟩
      · rw [← all]
        exact nonempty g List.mem_cons_self
      · rwa [← seesEnd_lines pos (lines_lines nl xs), lines_flatten]
  | @page xs starts open' pages ih =>
    cases read with
    | @cons _ g _ groups here rest =>
      rw [List.flatten_cons] at all
      have whole := lines_lines nl xs
      have text := lines_flatten nl xs
      rw [← all] at whole text
      have second : skip nl m p xs = groups.flatten.flatten := by
        have parts := pieces_flatten nl large p xs
        rw [here, flatMap_linePieces_flatten large whole] at parts
        have parts' := parts.trans (text.symm.trans List.flatten_append)
        exact List.append_cancel_left parts'
      have same : skip nl k p xs = groups.flatten.flatten := by
        have total := Pages.length_le pos le pages rest
        rw [groups_length large whole.suffix, ← second] at total
        rw [← second]
        exact ((skip_suffix nl le p (List.suffix_refl xs)).eq_of_length_le total).symm
      have later : groups.flatten = lines nl (skip nl k p xs) := by
        rw [same, whole.suffix.flatten]
      obtain ⟨full, last, split, more, each, ends⟩ := ih groups later
        (fun g member => nonempty g (List.mem_cons_of_mem _ member)) rest
      have some : groups.flatten.flatten ≠ [] := by
        intro empty
        rw [same, empty] at split
        simp [lines, more] at split
      have count {n : Nat} (pos : 0 < n) (left : skip nl n p xs = groups.flatten.flatten) :
          (g.map (rows n)).sum = p := by
        have lineEnd := skip_lines pos whole
        rw [text] at lineEnd
        exact skip_inj pos (lineEnd.trans left.symm) (by rw [lineEnd]; exact some)
      refine ⟨g :: full, last, ?_, more, ?_, ends⟩
      · rw [← all, later, split, List.flatten_cons, List.append_assoc]
      · intro page member
        rcases List.mem_cons.mp member with rfl | member
        · refine ⟨count pos same, fun l member => ?_⟩
          by_contra differs
          have fewer := List.sum_lt_sum (rows m) (rows k) (fun l _ => rows_anti pos le l)
            ⟨l, member, lt_of_le_of_ne (rows_anti pos le l) differs⟩
          rw [count pos same, count large second] at fewer
          exact lt_irrefl p fewer
        · exact each page member

/-- When the second reader finds every line on one page. -/
theorem Pages.grouped_iff (pos : 0 < k) (le : k ≤ m) (some : 0 < p) {xs : List α}
    {starts : List (List α)} (pages : Pages nl k p xs starts) :
    Grouped nl m p xs starts ↔ Filled nl k m p (lines nl xs) :=
  ⟨pages.filled pos le, pages.grouped pos le some⟩

/-! ## A single page -/

theorem length_pieces_le (n j : Nat) (xs : List α) : (pieces nl n j xs).length ≤ j := by
  induction j generalizing xs with
  | zero => exact le_rfl
  | succ j ih =>
    rw [pieces]
    split
    · exact Nat.zero_le _
    · exact Nat.succ_le_succ (ih _)

theorem length_linePieces {n : Nat} (pos : 0 < n) {l rest : List α} (heads : Heads nl l rest) :
    (linePieces nl n l).length = rows n l := by
  rw [linePieces_eq pos heads]
  induction heads using Heads.induction pos with
  | short l heads fits =>
    have alone := piece_line heads.alone fits
    have one (xs : List α) : pieces nl n 1 xs =
        if (piece nl n xs).1 = [] then [] else [(piece nl n xs).1] := rfl
    rw [List.append_nil] at alone
    rw [rows_short heads.ne_nil fits, one, alone, if_neg heads.ne_nil, List.length_singleton]
  | long l heads long ih =>
    have alone := piece_long heads.alone long
    rw [List.append_nil, List.append_nil] at alone
    have some : l.take n ≠ [] := by
      rw [ne_eq, List.take_eq_nil_iff]
      rintro (zero | empty)
      · omega
      · exact heads.ne_nil empty
    rw [rows_long pos long, pieces, alone, if_neg some, List.length_cons, ih]

theorem length_flatMap_linePieces {n : Nat} (pos : 0 < n) {ls : List (List α)}
    (whole : Lines nl ls) : (ls.flatMap (linePieces nl n)).length = (ls.map (rows n)).sum := by
  induction ls with
  | nil => rfl
  | cons l ls ih =>
    rw [List.flatMap_cons, List.length_append, length_linePieces pos whole.heads, ih whole.tail,
      List.map_cons, List.sum_cons]

/-- A text on a single page. -/
theorem grouped_one_iff (pos : 0 < m) {xs : List α} :
    Grouped nl m p xs [xs] ↔
      lines nl xs ≠ [] ∧ ((lines nl xs).map (rows m)).sum ≤ p := by
  have whole := lines_lines nl xs
  constructor
  · rintro ⟨groups, all, nonempty, read⟩
    cases read with
    | @cons _ g _ groups here rest =>
      cases rest
      rw [List.flatten_singleton] at all
      subst all
      refine ⟨nonempty _ List.mem_cons_self, ?_⟩
      rw [← length_flatMap_linePieces pos whole, ← here]
      exact length_pieces_le m p xs
  · rintro ⟨some, few⟩
    refine ⟨[lines nl xs], List.flatten_singleton, by simpa using some, .cons ?_ .nil⟩
    have all := pieces_all pos whole few
    rwa [lines_flatten] at all

/-! ## The width of lines -/

/-- No line of a text is longer than `w`, when the first one goes on behind `k` elements. -/
def Narrow (nl : α) (w : Nat) : Nat → List α → Prop
  | k, [] => k ≤ w
  | k, x :: xs => if x = nl then k ≤ w ∧ Narrow nl w 0 xs else Narrow nl w (k + 1) xs

variable {w i : Nat} {xs ys : List α}

theorem Narrow.le (narrow : Narrow nl w i xs) : i ≤ w := by
  induction xs generalizing i with
  | nil => exact narrow
  | cons x xs ih =>
    rw [Narrow] at narrow
    split at narrow
    · exact narrow.1
    · exact Nat.le_of_succ_le (ih narrow)

/-- Elements of the first line. -/
theorem narrow_append (absent : nl ∉ xs) :
    Narrow nl w i (xs ++ ys) ↔ Narrow nl w (i + xs.length) ys := by
  induction xs generalizing i with
  | nil => exact Iff.rfl
  | cons x xs ih =>
    obtain ⟨other, later⟩ := not_or.mp (List.mem_cons.not.mp absent)
    have size : i + 1 + xs.length = i + (x :: xs).length := by
      rw [List.length_cons]
      omega
    rw [List.cons_append, Narrow, if_neg (Ne.symm other), ih later, size]

theorem Narrow.suffix (narrow : Narrow nl w i (xs ++ ys)) : ∃ j, Narrow nl w j ys := by
  induction xs generalizing i with
  | nil => exact ⟨i, narrow⟩
  | cons x xs ih =>
    rw [List.cons_append, Narrow] at narrow
    split at narrow
    · exact ih narrow.2
    · exact ih narrow

/-- What is within a line is not longer than `w`. -/
theorem Narrow.length_le (narrow : Narrow nl w i xs) (inside : ys <:+: xs) (absent : nl ∉ ys) :
    ys.length ≤ w := by
  obtain ⟨front, back, rfl⟩ := inside
  rw [List.append_assoc] at narrow
  obtain ⟨j, here⟩ := narrow.suffix
  have behind := ((narrow_append absent).mp here).le
  omega

end TextLines

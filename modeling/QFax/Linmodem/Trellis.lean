import QFax.Linmodem.V34Init

/-!
# V.34: the convolutional coder

The next state of the trellis for 16, 32 and 64 states, and the coder that turns two points and
the current state into the bit `U0` of the next 4D symbol.
-/

namespace QFax.Linmodem

/-- Bit `i` of a number. -/
def bit (n i : Nat) : Nat := (n >>> i) % 2

theorem bit_lt (n i : Nat) : bit n i < 2 := Nat.mod_lt _ (by decide)

/-- Compute the next state in the trellis: `trans` holds `Y3`, `Y4`, `Y2`, `Y1` from bit 3 down. -/
def trellis_next_state (conv_nb_states conv_reg trans : Nat) : Nat :=
  let Y1 := bit trans 0
  let Y2 := bit trans 1
  let Y4 := bit trans 2
  let Y3 := bit trans 3
  let Y0 := bit conv_reg 0
  match conv_nb_states with
  | 16 => (conv_reg ^^^ (Y1 <<< 1 ||| Y2 <<< 2 ||| (Y2 ^^^ Y0) <<< 3 ||| Y0 <<< 4)) >>> 1
  | 32 => (conv_reg ^^^ (Y2 <<< 1 ||| Y4 <<< 2 ||| Y1 <<< 3 ||| Y2 <<< 4 ||| Y0 <<< 5)) >>> 1
  | _ =>
    let r := bit conv_reg
    let s0 := r 1 ^^^ r 3 ^^^ Y2
    let s1 := r 0
    let s2 := r 3
    let tmp2 := Y1 ^^^ r 4
    let s3 := r 3 ^^^ tmp2
    let tmp1 := r 4 ^^^ r 5
    let s4 := r 2 ^^^ Y3 ^^^ (r 3 &&& Y2) ^^^ tmp1
    let s5 := Y4 ^^^ tmp1 ^^^ (r 3 &&& tmp2)
    s0 ||| s1 <<< 1 ||| s2 <<< 2 ||| s3 <<< 3 ||| s4 <<< 4 ||| s5 <<< 5

/-- The bits `ss[i][0]`, `ss[i][1]`, `ss[i][2]` of a point: the table of the recommendation as
binary expressions of its subset. -/
def subsetBits (yy : Int × Int) : Nat × Nat × Nat :=
  let x := (((yy.1 + 3) >>> (1 : Nat)) % 4).toNat
  let y := (((yy.2 + 3) >>> (1 : Nat)) % 4).toNat
  let x0 := bit x 0
  let x1 := bit x 1
  let y0 := bit y 0
  let y1 := bit y 1
  (y0 ^^^ x0, y0, x1 ^^^ y1 ^^^ y0 ^^^ x0)

def SYNC_PATTERN : Nat := 0x77FA

/-- The state of the coder and the counters of the synchronisation pattern. -/
structure TrellisCoder where
  conv_reg : Nat
  sync_count : Nat
  half_data_frame_count : Nat

/-- The transition that two points make, and the new state with the bit `U0`. -/
def trellis_encoder (conv_nb_states : Nat) (s : TrellisCoder) (c0 : Nat)
    (yy : (Int × Int) × (Int × Int)) : Nat × Nat :=
  let (s00, s01, s02) := subsetBits yy.1
  let (s10, s11, s12) := subsetBits yy.2
  let Y4 := s02 ^^^ s12
  let Y3 := s01
  let Y2 := s00
  let Y1 := (s00 &&& (1 - s10)) ^^^ s01 ^^^ s11
  let trans := Y3 <<< 3 ||| Y4 <<< 2 ||| Y2 <<< 1 ||| Y1
  let conv_reg := trellis_next_state conv_nb_states s.conv_reg trans
  let Y0 := bit conv_reg 0
  let v0 := if s.sync_count = 0 then bit SYNC_PATTERN (15 - s.half_data_frame_count) else 0
  (conv_reg, Y0 ^^^ c0 ^^^ v0)

/-- The coder hands out a bit. -/
theorem trellis_encoder_bit (conv_nb_states : Nat) (s : TrellisCoder) {c0 : Nat} (lt : c0 < 2)
    (yy : (Int × Int) × (Int × Int)) : (trellis_encoder conv_nb_states s c0 yy).2 < 2 := by
  have bits : ∀ a < 2, ∀ b < 2, ∀ c < 2, a ^^^ b ^^^ c < 2 := by decide
  refine bits _ (bit_lt _ _) _ lt _ ?_
  split
  · exact bit_lt _ _
  · decide

end QFax.Linmodem

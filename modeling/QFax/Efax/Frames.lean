/-!
# Control frames

The frames of `efax.c` that commands and responses of T.30 come in, and the groups that `c1sndrcv` and
`c2sndrcv` tell apart.
-/

namespace QFax.Efax

/-- `frametype`: the control frames, and what `getfr` returns when it got none. -/
inductive Frame
  | dis
  | csi
  | nsf
  | cfr
  | ftt
  | mcf
  | rtn
  | rtp
  | pin
  | pip
  | dcs
  | tsi
  | nss
  | crp
  | dcn
  | eom
  | mps
  | eop
  | priEom
  | priMps
  | priEop
  | dtc
  | cig
  | nsc
  | other (code : Nat)
  | eof
  | carrier
  deriving DecidableEq, Repr

namespace Frame

/-- The frame of a facsimile control field. -/
def ofCode : Nat → Frame
  | 0x01 => .dis
  | 0x02 => .csi
  | 0x04 => .nsf
  | 0x21 => .cfr
  | 0x22 => .ftt
  | 0x31 => .mcf
  | 0x32 => .rtn
  | 0x33 => .rtp
  | 0x34 => .pin
  | 0x35 => .pip
  | 0x41 => .dcs
  | 0x42 => .tsi
  | 0x44 => .nss
  | 0x58 => .crp
  | 0x5f => .dcn
  | 0x71 => .eom
  | 0x72 => .mps
  | 0x74 => .eop
  | 0x79 => .priEom
  | 0x7a => .priMps
  | 0x7c => .priEop
  | 0x81 => .dtc
  | 0x82 => .cig
  | 0x84 => .nsc
  | code => .other code

/-- `frame < 0`: no frame came, or a data carrier. -/
def negative : Frame → Bool
  | .eof | .carrier => true
  | _ => false

/-- `frame > 0`. -/
def positive : Frame → Bool
  | .eof | .carrier | .other 0 => false
  | _ => true

/-- `frame & 0xf7` for a post-page command: the procedure interrupt bit is ignored. -/
def ignoreInterrupt : Frame → Frame
  | .priEom => .eom
  | .priMps => .mps
  | .priEop => .eop
  | f => f

/-- MPS, EOM and EOP, or a PRI form of them. -/
def IsPostPage (f : Frame) : Prop :=
  f.ignoreInterrupt = .mps ∨ f.ignoreInterrupt = .eom ∨ f.ignoreInterrupt = .eop

/-- MCF, RTP and PIP: the answers that confirm a page. -/
def Confirms (f : Frame) : Prop := f = .mcf ∨ f = .rtp ∨ f = .pip

/-- PIN and RTN: the answers that ask for the page once more. -/
def Rejects (f : Frame) : Prop := f = .pin ∨ f = .rtn

instance (f : Frame) : Decidable f.Confirms := inferInstanceAs (Decidable (_ ∨ _))

theorem Rejects.not_confirms {f : Frame} (rejects : f.Rejects) : ¬ f.Confirms := by
  rcases rejects with rfl | rfl <;> decide

theorem not_confirms_of_negative {f : Frame} (negative : f.negative) : ¬ f.Confirms := by
  rintro (rfl | rfl | rfl) <;> cases negative

end Frame

end QFax.Efax

import Mathlib.Data.BitVec

/-!
# What the protocols share

Bits and bytes go through queues of a fixed size: a value put into a full one is dropped, and reading an
empty one gives `-1`, here `none`.  Tones and carriers come from `cos_tab`, which is filled in floating
point before anything else runs, so that it is a parameter of whatever reads it; a phase is an `int` that
goes round without being reduced.
-/

namespace QFax.Linmodem

/-! ## Queues -/

structure SmFifo (α : Type) where
  items : List α
  max_size : Nat
  bounded : items.length ≤ max_size

section Fifo

variable {α : Type}

def sm_init_fifo (size : Nat) : SmFifo α := ⟨[], size, Nat.zero_le size⟩

def sm_flush (f : SmFifo α) : SmFifo α := ⟨[], f.max_size, Nat.zero_le _⟩

def sm_size (f : SmFifo α) : Nat := f.items.length

def sm_put_bit (f : SmFifo α) (v : α) : SmFifo α :=
  if room : f.items.length < f.max_size then
    ⟨f.items ++ [v], f.max_size, by rw [List.length_append]; exact room⟩
  else f

def sm_get_bit (f : SmFifo α) : Option α × SmFifo α :=
  match f with
  | ⟨[], size, bounded⟩ => (none, ⟨[], size, bounded⟩)
  | ⟨v :: rest, size, bounded⟩ => (some v, ⟨rest, size, Nat.le_of_succ_le bounded⟩)

end Fifo

/-! ## Cosines -/

def PHASE_BITS : Nat := 16
def PHASE_BASE : Nat := 1 <<< PHASE_BITS

def COS_BITS : Nat := 14
def COS_BASE : Nat := 1 <<< COS_BITS

def COS_TABLE_BITS : Nat := 13

/-- One entry for each of `COS_TABLE_SIZE` angles. -/
abbrev CosTab : Type := BitVec COS_TABLE_BITS → BitVec 16

def dsp_cos (cos_tab : CosTab) (phase : BitVec 32) : Int :=
  (cos_tab ((phase.sshiftRight (PHASE_BITS - COS_TABLE_BITS)).setWidth COS_TABLE_BITS)).toInt

end QFax.Linmodem

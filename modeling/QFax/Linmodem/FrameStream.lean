import QFax.Linmodem.FrameRoundTrip

/-!
# V.34 mapping frames come back

A transmitter and a receiver that start with the same differential state and frame counters are
run over any number of frames.  The bits the receiver puts out are the scrambled bits the
transmitter fetched, and the two stay in step, exactly when every frame fits.
-/

namespace QFax.Linmodem

open Bits

section Stream

variable {σ : Type} (p : V34Params) (callback : σ → Option Bool × σ)

/-- Consecutive frames through encoder and decoder, one for each element of the list, which tells
what the encoder's array held before the frame: bits fetched, bits put out, both states. -/
def runFrames : List (Nat → Nat) → Encoder σ → Decoder →
    Option (List Bool × List Bool × Encoder σ × Decoder)
  | [], e, d => some ([], [], e, d)
  | stale :: rest, e, d => do
    let f ← encode_mapping_frame p callback stale e
    let (d, put) ← decode_mapping_frame p d (transmitAll f.points)
    let (fetched, puts, e, d) ← runFrames rest f.next d
    some (f.fetched ++ fetched, put ++ puts, e, d)

/-- The bits put out are those fetched, and both sides end in step. -/
def RoundTrip (frames : List (Nat → Nat)) (e : Encoder σ) (d : Decoder) : Prop :=
  ∃ bits e' d', runFrames p callback frames e d = some (bits, bits, e', d') ∧ Matched e' d'

/-- The bits of the next `n` frames, as the source and the counters determine them. -/
def streamFrames : Nat → Counters → BitSource σ → List (List Bool)
  | 0, _, _ => []
  | n + 1, c, s =>
    let (mp_size, aux, c') := c.next p
    let (data, s') := fetchFrame p callback mp_size aux s
    data :: streamFrames n c' s'

variable {p callback}

/-- With the parameters of `V34_init_low` a stream comes back exactly when its frames fit. -/
theorem runFrames_iff (mapped : Mapped p) (frames : List (Nat → Nat)) {e : Encoder σ} {d : Decoder}
    (matched : Matched e d) :
    RoundTrip p callback frames e d ↔
      ∀ data ∈ streamFrames p callback frames.length e.counters e.bits, FrameFits p data := by
  induction frames generalizing e d with
  | nil => exact ⟨fun _ data inNil => absurd inNil (List.not_mem_nil), fun _ => ⟨[], e, d, rfl, matched⟩⟩
  | cons stale rest ih =>
    have frames : streamFrames p callback (rest.length + 1) e.counters e.bits =
        (e.fetch p callback).1 ::
          streamFrames p callback rest.length (e.counters.next p).2.2 (e.fetch p callback).2 := rfl
    rw [List.length_cons, frames, List.forall_mem_cons]
    by_cases fits : FrameFits p (e.fetch p callback).1
    · obtain ⟨f, d', sent, received, inStep, counters, bits⟩ :=
        frame_received mapped matched stale fits
      have later := ih inStep
      rw [counters, bits] at later
      rw [← later]
      constructor
      · rintro ⟨whole, e'', d'', run, final⟩
        refine ⟨fits, ?_⟩
        simp only [runFrames, sent, received, Option.bind_eq_bind, Option.bind_some,
          Option.bind_eq_some_iff] at run
        obtain ⟨⟨fetched, puts, e3, d3⟩, tail, same⟩ := run
        simp only [Option.some.injEq, Prod.mk.injEq] at same
        obtain ⟨left, right, rfl, rfl⟩ := same
        have equal : puts = fetched := List.append_cancel_left (right.trans left.symm)
        exact ⟨fetched, e3, d3, by rw [tail, equal], final⟩
      · rintro ⟨-, bits, e'', d'', run, final⟩
        refine ⟨f.fetched ++ bits, e'', d'', ?_, final⟩
        simp only [runFrames, sent, received, run, Option.bind_eq_bind, Option.bind_some]
    · refine ⟨fun ⟨whole, e'', d'', run, _⟩ => ?_, fun all => absurd all.1 fits⟩
      simp only [runFrames, Option.bind_eq_bind, Option.bind_eq_some_iff] at run
      obtain ⟨f, sent, ⟨d', put⟩, received, ⟨fetched, puts, e3, d3⟩, -, same⟩ := run
      simp only [Option.some.injEq, Prod.mk.injEq] at same
      obtain ⟨length, differs⟩ := frame_lost mapped matched stale fits sent received
      have heads := (List.append_inj (same.2.1.trans same.1.symm) length).1
      exact absurd heads differs

end Stream

/-- For every parameter set of `V34_init_low` with a V.34 data rate and no precoding, every source
of bits and any number of frames, the frames come back exactly when each of them fits. -/
theorem frames_round_trip_iff {σ : Type} (v : V34State) (rate : 2400 ≤ v.R ∧ v.R ≤ 33600)
    (uncoded : ∀ k, v.h k = (0, 0)) (callback : σ → Option Bool × σ) (frames : List (Nat → Nat))
    (e : Encoder σ) (d : Decoder) (matched : Matched e d) :
    RoundTrip (V34_init_low v) callback frames e d ↔
      ∀ data ∈ streamFrames (V34_init_low v) callback frames.length e.counters e.bits,
        FrameFits (V34_init_low v) data :=
  runFrames_iff (mapped_init rate.1 uncoded) frames matched

/-- State of the transmitter after `V34_init_low`. -/
def startEncoder (source : Nat) : Encoder Nat where
  counters := ⟨0, 0, 0⟩
  mapper := ⟨0, 0, by decide, fun _ => (0, 0), ⟨0, 0, 0⟩⟩
  bits := ⟨0, source⟩

def startDecoder : Decoder := ⟨⟨0, 0, 0⟩, 0⟩

/-- Symbol rate and data rate by their numbers, minimum shaping, no auxiliary channel. -/
def minimumShape (S : Fin 6) (R : Nat) : V34State :=
  ⟨false, S, false, R, false, 16, fun _ => (0, 0)⟩

/-- At 3429 symbols and 9600 bits per second two frames come back. -/
theorem frames_round_trip_two :
    RoundTrip (V34_init_low (minimumShape 5 9600)) (fun n : Nat => (some (n % 3 == 0), n + 1))
      (List.replicate 2 fun _ => 7) (startEncoder 0) startDecoder :=
  (frames_round_trip_iff _ ⟨by decide, by decide⟩ (fun _ => rfl) _ _ _ _
    ⟨rfl, rfl⟩).mpr (by decide +kernel)

/-- A bit stream whose first frame at 3429 symbols and 33600 bits per second has the rings
8, 0, 0, 0, 0, 0, 0, 0. -/
def ringEight (n : Nat) : Option Bool × Nat :=
  (some (n ∈ [0, 2, 5, 6, 7, 9, 11, 12, 13, 14, 17, 18, 23, 25, 29, 32, 35, 36]), n + 1)

/-- Index 256 of the largest constellation does not come back: the receiver takes it for 0. -/
theorem ring_eight_lost :
    ¬ RoundTrip (V34_init_low (minimumShape 5 33600)) ringEight [fun _ => 0] (startEncoder 0)
      startDecoder := by
  have mapped : Mapped (V34_init_low (minimumShape 5 33600)) :=
    mapped_init (by decide) fun _ => rfl
  rw [runFrames_iff mapped _ ⟨rfl, rfl⟩]
  have data : streamFrames (V34_init_low (minimumShape 5 33600)) ringEight 1
      (startEncoder 0).counters (startEncoder 0).bits =
        [lowBits 26 (12869 : Nat) ++ List.replicate 52 false] := by decide +kernel
  have rings : (V34_init_low (minimumShape 5 33600)).M = 11 := by decide
  have rank : (octets 11).rank (((8, 0), (0, 0)), ((0, 0), (0, 0))) = 12869 := by decide +kernel
  have member : (octets 11).Mem (((8, 0), (0, 0)), ((0, 0), (0, 0))) := by
    rw [octets_mem]
    decide
  have vector := Ranking.Graded.unrank_rank member
  rw [rank] at vector
  intro all
  rw [List.length_singleton, data] at all
  obtain ⟨-, short | ⟨-, small⟩⟩ := all _ List.mem_cons_self
  · exact absurd short (by decide)
  · have index : word ((lowBits 26 (12869 : Nat) ++ List.replicate 52 false).take
        (shellBits (V34_init_low (minimumShape 5 33600))
          (lowBits 26 (12869 : Nat) ++ List.replicate 52 false).length)) = 12869 := by decide +kernel
    rw [frameSymbols, index, rings, vector] at small
    exact absurd small (by decide +kernel)

end QFax.Linmodem

-- SUMMARY: The offline decoders skip loss markers, so they cut at a loss exactly when no decoder state is alive there.
import Tapioca.Host.DecoderParity

/-!
# Losses in an offline capture

`decodeCapture` and `run_binary` count or skip a lone 0xFD; neither resets the
joiner, the bit stream or the folder there. The records behind a loss are
decoded from whatever the records in front of it left.
-/

namespace Tapioca.Host

open MdioCodec Lib.Bits

/-- A boundary, a lone loss marker, a boundary. -/
def lossSeam : List UInt8 := [0xFF, 0xFD, 0xFF]

/-- The records of a capture with a loss in it are those of its two sides. -/
theorem records_lossSeam (a b : List UInt8) :
    (recordsFromBinary (a ++ lossSeam ++ b)).records =
      (recordsFromBinary a).records ++ (recordsFromBinary b).records := by
  have hsplit : a ++ lossSeam ++ b = a ++ [0xFF] ++ ([0xFD] ++ [0xFF] ++ b) := by
    simp [lossSeam]
  have hloss : flush {} [0xFD] = { losses := 1 } := rfl
  simp only [recordsFromBinary]
  rw [hsplit, Envelope.demuxV2_boundary, Envelope.demuxV2_segment (by decide), hloss]
  simp [Envelope.append_def]

/-! ## Decoding on -/

theorem joinStep_append (j : BurstJoiner) (bursts : List LBurst) (records : List Record) :
    records.foldl joinStep (j, bursts) =
      ((records.foldl joinStep (j, [])).1, bursts ++ (records.foldl joinStep (j, [])).2) := by
  induction records generalizing j bursts with
  | nil => simp
  | cons r records ih =>
    rw [List.foldl_cons, List.foldl_cons, joinStep, joinStep]
    dsimp only
    rw [ih, ih _ ([] ++ _), List.nil_append, List.append_assoc]

/-- What a decoder found before is only carried along. -/
theorem decodeBursts_append (d : Decoded) (bursts : List LBurst) :
    (bursts.foldl decodeBurst d).frames =
        d.frames ++ (bursts.foldl decodeBurst { d with frames := [], events := [] }).frames ∧
      (bursts.foldl decodeBurst d).events =
        d.events ++ (bursts.foldl decodeBurst { d with frames := [], events := [] }).events := by
  induction bursts generalizing d with
  | nil => simp
  | cons lb bursts ih =>
    obtain ⟨hframes, hevents⟩ := ih (decodeBurst d lb)
    obtain ⟨hframes', hevents'⟩ := ih (decodeBurst { d with frames := [], events := [] } lb)
    rw [List.foldl_cons, List.foldl_cons, hframes, hevents, hframes', hevents']
    simp [decodeBurst, List.append_assoc]

/-- The frames and events of records decoded from a joiner, a stream and a
folder. -/
def decodeFrom (j : BurstJoiner) (s : BitStream) (m : MmdFolder) (records : List Record) :
    List Frame × List Event :=
  let d := ((records.foldl joinStep (j, [])).2).foldl decodeBurst ⟨s, m, [], []⟩
  (d.frames, d.events)

/-- What decoding `a` leaves for the records behind it. -/
def joinerAfter (a : List UInt8) : BurstJoiner :=
  ((recordsFromBinary a).records.foldl joinStep ({}, [])).1

theorem decodeCapture_eq (b : List UInt8) :
    ((decodeCapture b).frames, (decodeCapture b).events) =
      decodeFrom {} .new {} (recordsFromBinary b).records := rfl

/-- Behind a loss, the records are decoded from the state in front of it. -/
theorem decodeCapture_lossSeam (a b : List UInt8) :
    ((decodeCapture (a ++ lossSeam ++ b)).frames, (decodeCapture (a ++ lossSeam ++ b)).events) =
      ((decodeCapture a).frames ++
        (decodeFrom (joinerAfter a) (decodeCapture a).stream (decodeCapture a).folder
          (recordsFromBinary b).records).1,
      (decodeCapture a).events ++
        (decodeFrom (joinerAfter a) (decodeCapture a).stream (decodeCapture a).folder
          (recordsFromBinary b).records).2) := by
  have hbursts : logicalBursts (recordsFromBinary (a ++ lossSeam ++ b)).records =
      logicalBursts (recordsFromBinary a).records ++
        ((recordsFromBinary b).records.foldl joinStep (joinerAfter a, [])).2 := by
    rw [logicalBursts, records_lossSeam, List.foldl_append, joinStep_append]
    rfl
  obtain ⟨hframes, hevents⟩ := decodeBursts_append (decodeCapture a)
    ((recordsFromBinary b).records.foldl joinStep (joinerAfter a, [])).2
  rw [decodeCapture, hbursts, List.foldl_append]
  exact Prod.ext hframes hevents

/-! ## Overflow flags -/

/-- The record or burst is flagged as coming behind a loss in the device. -/
def Overflow (flags : UInt8) : Prop := flags &&& (FLAG_OVF_PIOC ||| FLAG_OVF_RAM) ≠ 0

instance (flags : UInt8) : Decidable (Overflow flags) := inferInstanceAs (Decidable (_ ≠ _))

theorem Overflow.or_left {x : UInt8} (h : Overflow x) (y : UInt8) : Overflow (x ||| y) := by
  rw [Overflow, or_and_mask, ne_eq, UInt8.or_eq_zero_iff, not_and_or]
  exact .inl h

theorem Overflow.or_right {y : UInt8} (h : Overflow y) (x : UInt8) : Overflow (x ||| y) := by
  rw [Overflow, or_and_mask, ne_eq, UInt8.or_eq_zero_iff, not_and_or]
  exact .inr h

theorem Overflow.terminal {x : UInt8} (h : Overflow x) : Overflow (x &&& ~~~FLAG_CONTINUED) := by
  rw [Overflow, UInt8.and_assoc]
  exact h

/-- A chain that holds an overflow flag completes, if at all, to a burst that
holds it. -/
theorem overflow_chain {j : BurstJoiner} (h : Overflow j.flags) (records : List Record) :
    ∀ lb ∈ (records.foldl joinStep (j, [])).2.head?, Overflow lb.flags := by
  induction records generalizing j with
  | nil => nofun
  | cons r records ih =>
    rw [List.foldl_cons, joinStep, joinStep_append]
    dsimp only
    have hflags : ∀ j' : BurstJoiner, j' = (if r.flags &&& (FLAG_OVF_PIOC ||| FLAG_OVF_RAM) ≠ 0 then {} else j) →
        Overflow (j'.flags ||| r.flags) := by
      rintro j' rfl
      split
      · rename_i hr
        exact Overflow.or_right hr _
      · exact h.or_left _
    generalize hj : (if r.flags &&& (FLAG_OVF_PIOC ||| FLAG_OVF_RAM) ≠ 0 then {} else j) = j'
    have hchain := hflags j' hj.symm
    rw [BurstJoiner.feed]
    by_cases hcont : r.flags &&& FLAG_CONTINUED ≠ 0
    · rw [if_pos hcont]
      exact ih hchain
    · rw [if_neg hcont]
      intro lb hlb
      obtain rfl := Option.some_inj.mp hlb
      exact hchain.terminal

/-- Behind a loss the device flagged itself, the state in front of it is dropped. -/
theorem decodeFrom_overflow {r : Record} (h : Overflow r.flags) (records : List Record)
    (j : BurstJoiner) (s : BitStream) (m : MmdFolder) :
    decodeFrom j s m (r :: records) = decodeFrom {} .new {} (r :: records) := by
  have hr : r.flags &&& (FLAG_OVF_PIOC ||| FLAG_OVF_RAM) ≠ 0 := h
  have hjoiner : (r :: records).foldl joinStep (j, []) = (r :: records).foldl joinStep ({}, []) := by
    have hreset : joinStep (j, []) r = joinStep ({}, []) r := by
      rw [joinStep, joinStep, if_pos hr, if_pos hr]
    rw [List.foldl_cons, List.foldl_cons, hreset]
  have hchain : ∀ lb ∈ ((r :: records).foldl joinStep ({}, [])).2.head?, Overflow lb.flags := by
    rw [List.foldl_cons, joinStep, joinStep_append, if_pos hr]
    dsimp only
    rw [BurstJoiner.feed]
    by_cases hcont : r.flags &&& FLAG_CONTINUED ≠ 0
    · rw [if_pos hcont]
      exact overflow_chain (h.or_right _) records
    · rw [if_neg hcont]
      intro lb hlb
      obtain rfl := Option.some_inj.mp hlb
      exact (h.or_right _).terminal
  rw [decodeFrom, decodeFrom, hjoiner]
  generalize ((r :: records).foldl joinStep ({}, [])).2 = bursts at hchain
  cases bursts with
  | nil => rfl
  | cons lb bursts =>
    have hlost : lb.flags &&& (FLAG_OVF_PIOC ||| FLAG_OVF_RAM) ≠ 0 := hchain lb rfl
    have hfresh : decodeBurst ⟨s, m, [], []⟩ lb = decodeBurst ⟨.new, {}, [], []⟩ lb := by
      rw [decodeBurst, decodeBurst, if_pos hlost, if_pos hlost, if_pos hlost, if_pos hlost]
      rfl
    rw [List.foldl_cons, List.foldl_cons, hfresh]

/-! ## Cutting at a loss -/

/-- Nothing crosses a loss between `a` and `b`: `a` leaves the joiner, the bit
stream and the folder as new, or the first record of `b` carries an overflow
flag, or there is none. -/
def NothingCrosses (a b : List UInt8) : Prop :=
  (joinerAfter a = {} ∧ (decodeCapture a).stream = .new ∧ (decodeCapture a).folder = {}) ∨
    ∀ r ∈ (recordsFromBinary b).records.head?, Overflow r.flags

theorem decodeFrom_of_nothingCrosses {a b : List UInt8} (h : NothingCrosses a b) :
    decodeFrom (joinerAfter a) (decodeCapture a).stream (decodeCapture a).folder
        (recordsFromBinary b).records =
      ((decodeCapture b).frames, (decodeCapture b).events) := by
  rw [decodeCapture_eq]
  rcases h with ⟨hjoiner, hstream, hfolder⟩ | hflag
  · rw [hjoiner, hstream, hfolder]
  · cases hrecords : (recordsFromBinary b).records with
    | nil => rfl
    | cons r records =>
      rw [hrecords] at hflag
      exact decodeFrom_overflow (hflag r rfl) records _ _ _

/-- Where nothing crosses the loss, the frames and events of the whole capture
are those of its first part and then those of its second part decoded from a
fresh state, in the browser's codec and in the Python pipeline. -/
theorem offline_cuts_at_loss (a b : List UInt8) (h : NothingCrosses a b) :
    ((decodeCapture (a ++ lossSeam ++ b)).frames = (decodeCapture a).frames ++ (decodeCapture b).frames ∧
      (decodeCapture (a ++ lossSeam ++ b)).events = (decodeCapture a).events ++ (decodeCapture b).events) ∧
    ((MdioLib.runBinary (a ++ lossSeam ++ b)).frames =
        (MdioLib.runBinary a).frames ++ (MdioLib.runBinary b).frames ∧
      (MdioLib.runBinary (a ++ lossSeam ++ b)).events =
        (MdioLib.runBinary a).events ++ (MdioLib.runBinary b).events) := by
  have hsame : ∀ data, (MdioLib.runBinary data).frames = (decodeCapture data).frames ∧
      (MdioLib.runBinary data).events = (decodeCapture data).events := by
    intro data
    rw [codecDecoded_runBinary]
    exact ⟨rfl, rfl⟩
  have hseam := decodeCapture_lossSeam a b
  rw [decodeFrom_of_nothingCrosses h] at hseam
  obtain ⟨hframes, hevents⟩ := Prod.mk.inj hseam
  refine ⟨⟨hframes, hevents⟩, ?_⟩
  rw [(hsame _).1, (hsame _).1, (hsame _).1, (hsame _).2, (hsame _).2, (hsame _).2]
  exact ⟨hframes, hevents⟩

/-- A record of 32 ones. -/
def preambleRecord : List UInt8 := [13, 1, 0, 0, 0, 0, 0, 0, 0, 0, 0, 4, 0, 1, 1, 1, 1]

/-- A record of the 32 bits of a read of PHY 1, register 0. -/
def frameRecord : List UInt8 := [17, 1, 0, 0, 0, 0, 0, 0, 0, 0, 0, 4, 0, 0x60, 0x82, 0x12, 0x34]

/-- The same frame in a record flagged as coming behind a FIFO overrun. -/
def flaggedRecord : List UInt8 := [17, 1, 0, 0, 0, 0, 0, 0, 0, 0, 1, 4, 0, 0x60, 0x82, 0x12, 0x34]

theorem flaggedRecord_cut :
    ((decodeCapture (preambleRecord ++ lossSeam ++ flaggedRecord)).frames =
        (decodeCapture preambleRecord).frames ++ (decodeCapture flaggedRecord).frames ∧
      (decodeCapture (preambleRecord ++ lossSeam ++ flaggedRecord)).events =
        (decodeCapture preambleRecord).events ++ (decodeCapture flaggedRecord).events) ∧
    ((MdioLib.runBinary (preambleRecord ++ lossSeam ++ flaggedRecord)).frames =
        (MdioLib.runBinary preambleRecord).frames ++ (MdioLib.runBinary flaggedRecord).frames ∧
      (MdioLib.runBinary (preambleRecord ++ lossSeam ++ flaggedRecord)).events =
        (MdioLib.runBinary preambleRecord).events ++ (MdioLib.runBinary flaggedRecord).events) :=
  offline_cuts_at_loss preambleRecord flaggedRecord (.inr (by decide +kernel))

/-- The preamble in front of a loss and the frame behind it decode to a frame
neither side has. -/
theorem frame_across_loss :
    (decodeCapture (preambleRecord ++ lossSeam ++ frameRecord)).frames ≠
        (decodeCapture preambleRecord).frames ++ (decodeCapture frameRecord).frames ∧
      (MdioLib.runBinary (preambleRecord ++ lossSeam ++ frameRecord)).frames ≠
        (MdioLib.runBinary preambleRecord).frames ++ (MdioLib.runBinary frameRecord).frames := by
  decide +kernel

end Tapioca.Host

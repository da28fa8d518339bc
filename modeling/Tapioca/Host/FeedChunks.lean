-- SUMMARY: The live MDIO view does not depend on how the stream is cut into chunks, as long as no chunk has a loss behind a record.
import Tapioca.Lib.Lts
import Tapioca.Host.Envelope
import Tapioca.Host.WebSniffer

/-!
# Chunk invariance of the live view

`mdioFeed` decodes a chunk in one batch: all its losses first, then all its
records. Decoding the same segments one at a time gives the same state when the
losses of the batch come first anyway. The state after a stream is then a
function of the stream alone (`settled`).
-/

namespace Tapioca.WebSniffer

open Host MdioCodec Lib.Lts

/-! ## Segments -/

/-- The segments a boundary closes, and the bytes behind the last boundary. -/
def splitTail : List UInt8 → List (List UInt8) × List UInt8
  | [] => ([], [])
  | b :: bs =>
    if b = 0xFF then ([] :: (splitTail bs).1, (splitTail bs).2)
    else
      match (splitTail bs).1 with
      | [] => ([], b :: (splitTail bs).2)
      | s :: ss => ((b :: s) :: ss, (splitTail bs).2)

theorem splitTail_boundary (bs : List UInt8) :
    splitTail (0xFF :: bs) = ([] :: (splitTail bs).1, (splitTail bs).2) := by
  rw [splitTail, if_pos rfl]

theorem splitTail_byte {b : UInt8} (h : b ≠ 0xFF) (bs : List UInt8) :
    splitTail (b :: bs) =
      match (splitTail bs).1 with
      | [] => ([], b :: (splitTail bs).2)
      | s :: ss => ((b :: s) :: ss, (splitTail bs).2) := by
  rw [splitTail, if_neg h]

/-- Bytes behind a prefix only extend its open tail. -/
theorem splitTail_append (a b : List UInt8) :
    splitTail (a ++ b) =
      ((splitTail a).1 ++ (splitTail ((splitTail a).2 ++ b)).1, (splitTail ((splitTail a).2 ++ b)).2) := by
  induction a with
  | nil => simp [splitTail]
  | cons x a ih =>
    by_cases hx : x = 0xFF
    · subst hx
      rw [List.cons_append, splitTail_boundary, splitTail_boundary, ih]
      rfl
    · rw [List.cons_append, splitTail_byte hx, splitTail_byte hx, ih]
      cases (splitTail a).1 with
      | nil =>
        dsimp only
        rw [List.nil_append, List.cons_append, splitTail_byte hx, List.nil_append]
      | cons s ss => rfl

/-- Cutting behind the last boundary keeps the closed segments and leaves the tail. -/
theorem lastIndexOf_spec (buf : List UInt8) :
    match lastIndexOf 0xFF buf with
    | none => splitTail buf = ([], buf)
    | some last =>
      splitTail (buf.take (last + 1)) = ((splitTail buf).1, []) ∧
        buf.drop (last + 1) = (splitTail buf).2 ∧ (splitTail buf).1 ≠ [] := by
  induction buf with
  | nil => rfl
  | cons x buf ih =>
    rw [lastIndexOf]
    cases hlast : lastIndexOf 0xFF buf with
    | none =>
      rw [hlast] at ih
      by_cases hx : x = 0xFF
      · subst hx
        simp [splitTail_boundary, ih, splitTail]
      · simp only [if_neg hx]
        rw [splitTail_byte hx, ih]
    | some i =>
      rw [hlast] at ih
      obtain ⟨htake, hdrop, hne⟩ := ih
      dsimp only
      rw [List.take_succ_cons, List.drop_succ_cons, hdrop]
      by_cases hx : x = 0xFF
      · subst hx
        rw [splitTail_boundary, splitTail_boundary, htake]
        exact ⟨rfl, rfl, List.cons_ne_nil _ _⟩
      · rw [splitTail_byte hx, splitTail_byte hx, htake]
        cases hs : (splitTail buf).1 with
        | nil => exact absurd hs hne
        | cons s ss => exact ⟨rfl, rfl, List.cons_ne_nil _ _⟩

theorem splitTail_eq_nil {buf : List UInt8} (h : splitTail buf = ([], [])) : buf = [] := by
  cases buf with
  | nil => rfl
  | cons x buf =>
    by_cases hx : x = 0xFF
    · rw [hx, splitTail_boundary] at h
      cases h
    · rw [splitTail_byte hx] at h
      cases hs : (splitTail buf).1 <;> rw [hs] at h <;> cases h

/-- A stretch that ends in a boundary is its first segment and the rest. -/
theorem splitTail_closed {buf s : List UInt8} {ss : List (List UInt8)}
    (h : splitTail buf = (s :: ss, [])) :
    ∃ rest, buf = s ++ [0xFF] ++ rest ∧ splitTail rest = (ss, []) ∧ 0xFF ∉ s := by
  induction buf generalizing s with
  | nil => cases h
  | cons x buf ih =>
    by_cases hx : x = 0xFF
    · subst hx
      rw [splitTail_boundary] at h
      obtain ⟨hsegs, htail⟩ := Prod.mk.inj h
      obtain ⟨rfl, hss⟩ := List.cons.inj hsegs
      exact ⟨buf, rfl, Prod.ext hss htail, List.not_mem_nil⟩
    · rw [splitTail_byte hx] at h
      cases hs : (splitTail buf).1 with
      | nil =>
        rw [hs] at h
        cases h
      | cons t ts =>
        rw [hs] at h
        obtain ⟨hsegs, htail⟩ := Prod.mk.inj h
        obtain ⟨rfl, rfl⟩ := List.cons.inj hsegs
        obtain ⟨rest, rfl, hrest, hno⟩ := ih (Prod.ext hs htail)
        exact ⟨rest, rfl, hrest, by simp [hno, Ne.symm hx]⟩

/-! ## One batch -/

/-- Some record of the batch has a loss behind it. -/
def RecordBeforeLoss : List (List UInt8) → Prop
  | [] => False
  | s :: ss => (recordsFromBinary s).records ≠ [] ∧ [0xFD] ∈ ss ∨ RecordBeforeLoss ss

instance RecordBeforeLoss.decidable : DecidablePred RecordBeforeLoss
  | [] => .isFalse id
  | _ :: ss =>
    have := RecordBeforeLoss.decidable ss
    inferInstanceAs (Decidable (_ ∧ _ ∨ _))

theorem capture_boundary (s rest : List UInt8) :
    (recordsFromBinary (s ++ [0xFF] ++ rest)).records =
        (recordsFromBinary s).records ++ (recordsFromBinary rest).records ∧
      (recordsFromBinary (s ++ [0xFF] ++ rest)).losses =
        (recordsFromBinary s).losses + (recordsFromBinary rest).losses := by
  simp only [recordsFromBinary]
  rw [Envelope.demuxV2_boundary]
  simp [Envelope.append_def]

theorem losses_segment {s : List UInt8} (h : 0xFF ∉ s) :
    (recordsFromBinary s).losses = if s = [0xFD] then 1 else 0 := by
  rw [recordsFromBinary, demuxV2, Envelope.demuxLoop_segment _ _ _ h, List.nil_append, flush]
  split_ifs with hnil hloss hloss
  · simp [hnil] at hloss
  · rfl
  · rfl
  · cases metaText s with
    | some m => rfl
    | none => cases Cobs.cobsFfDecode s <;> rfl

/-- Without a loss marker among its segments, a stretch counts no loss. -/
theorem losses_eq_zero {buf : List UInt8} {ss : List (List UInt8)} (h : splitTail buf = (ss, []))
    (hno : [0xFD] ∉ ss) : (recordsFromBinary buf).losses = 0 := by
  induction ss generalizing buf with
  | nil =>
    rw [splitTail_eq_nil h]
    rfl
  | cons s ss ih =>
    obtain ⟨rest, rfl, hrest, hs⟩ := splitTail_closed h
    obtain ⟨hne, hno⟩ := not_or.mp (mt List.mem_cons.mpr hno)
    rw [(capture_boundary s rest).2, losses_segment hs, if_neg (Ne.symm hne), ih hrest hno]

namespace Mdio

/-- Decoding a segment and then the rest, when no loss of the rest has a record
in front of it. -/
theorem decode_boundary (m : Mdio) (s rest : List UInt8)
    (h : (recordsFromBinary s).records = [] ∨ (recordsFromBinary rest).losses = 0) :
    m.decode (s ++ [0xFF] ++ rest) = (m.decode s).decode rest := by
  obtain ⟨hrecords, hlosses⟩ := capture_boundary s rest
  simp only [decode, hrecords, hlosses, List.foldl_append]
  rcases h with hnone | hzero
  · rw [hnone, List.foldl_nil]
    by_cases hs : (recordsFromBinary s).losses = 0
    · simp [hs]
    · by_cases hr : (recordsFromBinary rest).losses = 0
      · simp [hs, hr]
      · simp [hs, hr, discontinuity, BitStream.reset, Nat.add_assoc]
  · rw [hzero]
    simp

theorem decode_batch (m : Mdio) {buf : List UInt8} {ss : List (List UInt8)}
    (h : splitTail buf = (ss, [])) (hbatch : ¬ RecordBeforeLoss ss) :
    m.decode buf = ss.foldl decode m := by
  induction ss generalizing m buf with
  | nil =>
    rw [splitTail_eq_nil h]
    rfl
  | cons s ss ih =>
    obtain ⟨rest, rfl, hrest, -⟩ := splitTail_closed h
    obtain ⟨hfirst, hbatch⟩ := not_or.mp hbatch
    rw [decode_boundary, ih _ hrest hbatch, List.foldl_cons]
    by_cases hnone : (recordsFromBinary s).records = []
    · exact .inl hnone
    · exact .inr (losses_eq_zero hrest fun hmem => hfirst ⟨hnone, hmem⟩)

/-! ## What decoding leaves alone -/

/-- The state with other synchronisation data. -/
def withRest (m : Mdio) (rest : List UInt8) (synced : Bool) : Mdio :=
  { m with leftover := rest, synced }

theorem onFrame_withRest (m : Mdio) (rest : List UInt8) (synced : Bool) (fr : Frame) :
    (m.withRest rest synced).onFrame fr = (m.onFrame fr).withRest rest synced := by
  rw [onFrame, onFrame]
  dsimp only [withRest]
  cases (m.folder.feed fr).2 <;> rfl

theorem onFrames_withRest (m : Mdio) (rest : List UInt8) (synced : Bool) (frames : List Frame) :
    frames.foldl onFrame (m.withRest rest synced) = (frames.foldl onFrame m).withRest rest synced := by
  induction frames generalizing m with
  | nil => rfl
  | cons fr frames ih => rw [List.foldl_cons, onFrame_withRest, ih, List.foldl_cons]

theorem onRecord_withRest (m : Mdio) (rest : List UInt8) (synced : Bool) (r : Record) :
    (m.withRest rest synced).onRecord r = (m.onRecord r).withRest rest synced := by
  have hreset : ∀ p : Prop, [Decidable p] →
      (if p then { m.withRest rest synced with loss := m.loss + 1 }.discontinuity
        else m.withRest rest synced) =
      (if p then { m with loss := m.loss + 1 }.discontinuity else m).withRest rest synced := by
    intro p _
    split <;> rfl
  rw [onRecord, onRecord]
  dsimp only
  rw [show (m.withRest rest synced).loss = m.loss from rfl, hreset]
  generalize (if r.flags &&& (FLAG_OVF_PIOC ||| FLAG_OVF_RAM) ≠ 0 then
    { m with loss := m.loss + 1 }.discontinuity else m) = u
  rw [show (u.withRest rest synced).joiner = u.joiner from rfl]
  cases (u.joiner.feed r).2 with
  | none => rfl
  | some lb =>
    dsimp only
    have hframes := onFrames_withRest
      { u with
        joiner := (u.joiner.feed r).1
        stream := (u.stream.feed (burstToBits lb.payload lb.validBits)).2 } rest synced
      (u.stream.feed (burstToBits lb.payload lb.validBits)).1
    split
    · exact congrArg (fun m : Mdio => { m with stream := m.stream.reset }) hframes
    · exact hframes

theorem decode_withRest (m : Mdio) (rest : List UInt8) (synced : Bool) (seg : List UInt8) :
    (m.withRest rest synced).decode seg = (m.decode seg).withRest rest synced := by
  have hrecords : ∀ (u : Mdio) (records : List Record),
      records.foldl onRecord (u.withRest rest synced) = (records.foldl onRecord u).withRest rest synced := by
    intro u records
    induction records generalizing u with
    | nil => rfl
    | cons r records ih => rw [List.foldl_cons, onRecord_withRest, ih, List.foldl_cons]
  rw [decode, decode]
  dsimp only
  rw [← hrecords]
  split <;> rfl

/-! ## Whole streams -/

/-- The state after a stream: nothing is decoded before the first boundary, and
from there every closed segment on its own. -/
def settled (bs : List UInt8) : Mdio :=
  match indexOf 0xFF bs with
  | none => { leftover := bs }
  | some first =>
    let (segs, tail) := splitTail (bs.drop (first + 1))
    (segs.foldl decode {}).withRest tail true

theorem decodeAll_withRest (m : Mdio) (rest : List UInt8) (synced : Bool) (segs : List (List UInt8)) :
    segs.foldl decode (m.withRest rest synced) = (segs.foldl decode m).withRest rest synced := by
  induction segs generalizing m with
  | nil => rfl
  | cons seg segs ih => rw [List.foldl_cons, decode_withRest, ih, List.foldl_cons]

theorem indexOf_append {a : List UInt8} {b : UInt8} {i : Nat} (h : indexOf b a = some i)
    (c : List UInt8) : indexOf b (a ++ c) = some i ∧ i + 1 ≤ a.length := by
  induction a generalizing i with
  | nil => cases h
  | cons x a ih =>
    rw [List.cons_append, indexOf]
    rw [indexOf] at h
    by_cases hx : x = b
    · rw [if_pos hx] at h ⊢
      obtain rfl := Option.some_inj.mp h
      exact ⟨rfl, by simp⟩
    · rw [if_neg hx] at h ⊢
      obtain ⟨j, hj, rfl⟩ := Option.map_eq_some_iff.mp h
      obtain ⟨hidx, hlen⟩ := ih hj
      exact ⟨by rw [hidx]; rfl, by simpa using hlen⟩

theorem cut_spec (m : Mdio) (buf : List UInt8) :
    ∃ seg, m.cut buf = (m.withRest (splitTail buf).2 m.synced, seg) ∧
      splitTail seg = ((splitTail buf).1, []) := by
  have hspec := lastIndexOf_spec buf
  rw [cut]
  cases hlast : lastIndexOf 0xFF buf with
  | none =>
    rw [hlast] at hspec
    exact ⟨[], by rw [hspec]; rfl, by rw [hspec]; rfl⟩
  | some last =>
    rw [hlast] at hspec
    obtain ⟨htake, hdrop, -⟩ := hspec
    exact ⟨_, by rw [← hdrop]; rfl, htake⟩

/-- No record of the batch a chunk makes decodable has a loss behind it. -/
def LossesFirst (m : Mdio) (bytes : List UInt8) : Prop :=
  ¬ RecordBeforeLoss (splitTail (m.intake bytes).2).1

instance (m : Mdio) (bytes : List UInt8) : Decidable (m.LossesFirst bytes) :=
  inferInstanceAs (Decidable (¬ _))

theorem settled_feed (p c : List UInt8) (h : (settled p).LossesFirst c) :
    (settled p).mdioFeed c = settled (p ++ c) := by
  rw [LossesFirst] at h
  rw [mdioFeed]
  -- not synced before: the first delimiter may be in the chunk; synced: only the open tail matters
  cases hp : indexOf 0xFF p with
  | none =>
    have hstate : settled p = { leftover := p } := by rw [settled, hp]
    rw [hstate, intake] at h ⊢
    simp only [Bool.false_eq_true, if_false] at h ⊢
    cases hpc : indexOf 0xFF (p ++ c) with
    | none =>
      rw [settled, hpc]
      rfl
    | some first =>
      rw [hpc] at h
      obtain ⟨seg, hcut, hseg⟩ := cut_spec { leftover := p, synced := true } ((p ++ c).drop (first + 1))
      dsimp only at h ⊢
      rw [hcut, hseg] at h
      rw [hcut, decode_batch _ hseg h, settled, hpc]
      exact decodeAll_withRest {} _ true _
  | some first =>
    obtain ⟨hidx, hlen⟩ := indexOf_append hp c
    have hstate : settled p =
        ((splitTail (p.drop (first + 1))).1.foldl decode {}).withRest (splitTail (p.drop (first + 1))).2 true := by
      rw [settled, hp]
    have hdrop : (p ++ c).drop (first + 1) = p.drop (first + 1) ++ c :=
      List.drop_append_of_le_length hlen
    obtain ⟨seg, hcut, hseg⟩ := cut_spec (settled p) ((splitTail (p.drop (first + 1))).2 ++ c)
    have hsynced : (settled p).synced = true := by rw [hstate]; rfl
    have hrest : (settled p).leftover = (splitTail (p.drop (first + 1))).2 := by rw [hstate]; rfl
    rw [intake, hsynced, hrest] at h ⊢
    simp only [if_true] at h ⊢
    rw [hcut] at h ⊢
    rw [hseg] at h
    have hgoal : settled (p ++ c) =
        ((splitTail ((splitTail (p.drop (first + 1))).2 ++ c)).1.foldl decode
          ((splitTail (p.drop (first + 1))).1.foldl decode {})).withRest
            (splitTail ((splitTail (p.drop (first + 1))).2 ++ c)).2 true := by
      rw [settled, hidx]
      dsimp only
      rw [hdrop, splitTail_append, List.foldl_append]
    rw [decode_batch _ hseg h, hsynced, decodeAll_withRest, hgoal, hstate, decodeAll_withRest]
    rfl

theorem run_settled (p : List UInt8) (chunks : List (List UInt8))
    (h : AllSteps mdioFeed LossesFirst (settled p) chunks) :
    run mdioFeed (settled p) chunks = settled (p ++ chunks.flatten) := by
  induction chunks generalizing p with
  | nil => simp
  | cons c chunks ih =>
    obtain ⟨hc, hchunks⟩ := h
    rw [settled_feed p c hc] at hchunks
    rw [run_cons, settled_feed p c hc, ih _ hchunks, List.append_assoc]
    rfl

/-- Two ways of cutting one stream into chunks leave the same state, frames,
events, rows and losses included, when no chunk of either has a loss behind a
record. -/
theorem mdioFeed_chunk_invariant {cs ds : List (List UInt8)} (hstream : cs.flatten = ds.flatten)
    (hcs : AllSteps mdioFeed LossesFirst {} cs) (hds : AllSteps mdioFeed LossesFirst {} ds) :
    run mdioFeed {} cs = run mdioFeed {} ds := by
  have hc := run_settled [] cs hcs
  have hd := run_settled [] ds hds
  rw [hstream] at hc
  exact hc.trans hd.symm

/-- A record of 32 ones, and one of the 32 bits of a read of PHY 1, register 0. -/
def preamble : List UInt8 := [13, 1, 0, 0, 0, 0, 0, 0, 0, 0, 0, 4, 0, 1, 1, 1, 1]
def readFrame : List UInt8 := [17, 1, 0, 0, 0, 0, 0, 0, 0, 0, 0, 4, 0, 0x60, 0x82, 0x12, 0x34]

/-- A stream cut inside its second record. -/
theorem cut_record_invariant :
    run mdioFeed {} [[0xFF] ++ preamble ++ [0xFF] ++ readFrame.take 5, readFrame.drop 5 ++ [0xFF]] =
      run mdioFeed {} [[0xFF] ++ preamble ++ [0xFF] ++ readFrame ++ [0xFF]] :=
  mdioFeed_chunk_invariant (by decide) (by decide +kernel) (by decide +kernel)

/-- A loss between a preamble and its frame: in one chunk it is counted before
both and the frame is decoded across it, cut in front of it it drops the
preamble. -/
theorem chunks_differ_over_loss :
    [[0xFF] ++ preamble ++ [0xFF], [0xFD, 0xFF] ++ readFrame ++ [0xFF]].flatten =
        [[0xFF] ++ preamble ++ [0xFF, 0xFD, 0xFF] ++ readFrame ++ [0xFF]].flatten ∧
      (run mdioFeed {} [[0xFF] ++ preamble ++ [0xFF], [0xFD, 0xFF] ++ readFrame ++ [0xFF]]).frames = [] ∧
      (run mdioFeed {} [[0xFF] ++ preamble ++ [0xFF, 0xFD, 0xFF] ++ readFrame ++ [0xFF]]).frames ≠ [] := by
  decide +kernel

end Mdio

end Tapioca.WebSniffer

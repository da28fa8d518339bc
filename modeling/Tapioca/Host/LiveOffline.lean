-- SUMMARY: The live view shows what the offline decoder finds in the stream behind its first boundary, as long as the stream holds no loss marker.
import Tapioca.Host.FeedChunks

/-!
# The live view and the offline decoder

`mdioFeed` decodes records as they come and resets its state at a record with an
overflow flag; `decodeCapture` joins all bursts first and resets at a burst with
one. `Follows` says where the live view stands against the offline decoder over
the same records: equal, or already reset while a lossy chain is still open.
-/

namespace Tapioca.WebSniffer

open Host MdioCodec Lib.Lts

-- ---------------------------------------------------------------------------
-- Overflow flags
-- ---------------------------------------------------------------------------

/-- The flags report a loss in front of the record. -/
def Lossy (flags : UInt8) : Prop := flags &&& (FLAG_OVF_PIOC ||| FLAG_OVF_RAM) ≠ 0

instance (flags : UInt8) : Decidable (Lossy flags) := inferInstanceAs (Decidable (_ ≠ _))

theorem lossy_or (a b : UInt8) : Lossy (a ||| b) ↔ Lossy a ∨ Lossy b := by
  have hdistrib : (a ||| b) &&& (FLAG_OVF_PIOC ||| FLAG_OVF_RAM) =
      a &&& (FLAG_OVF_PIOC ||| FLAG_OVF_RAM) ||| b &&& (FLAG_OVF_PIOC ||| FLAG_OVF_RAM) := by
    rw [← UInt8.toBitVec_inj]
    ext i
    simp only [UInt8.toBitVec_and, UInt8.toBitVec_or, BitVec.getElem_and, BitVec.getElem_or,
      Bool.and_or_distrib_right]
  rw [Lossy, Lossy, Lossy, hdistrib, Ne, UInt8.or_eq_zero_iff, not_and_or]

/-- The bit of a continued chain is none of the overflow flags. -/
theorem lossy_terminal (a : UInt8) : Lossy (a &&& ~~~FLAG_CONTINUED) ↔ Lossy a := by
  have hmask : ~~~FLAG_CONTINUED &&& (FLAG_OVF_PIOC ||| FLAG_OVF_RAM) =
      FLAG_OVF_PIOC ||| FLAG_OVF_RAM := by decide
  rw [Lossy, Lossy, UInt8.and_assoc, hmask]

-- ---------------------------------------------------------------------------
-- One record
-- ---------------------------------------------------------------------------

namespace Mdio

/-- The part of the state the events of `onEvent` do not touch. -/
theorem onEvent_frame (m : Mdio) (ev : Event) :
    m.onEvent ev =
      { m with
        regs := (m.onEvent ev).regs, mmdAcc := (m.onEvent ev).mmdAcc
        events := m.events ++ [ev] } := rfl

theorem onFrame_frame (m : Mdio) (fr : Frame) :
    m.onFrame fr =
      { m with
        regs := (m.onFrame fr).regs, mmdAcc := (m.onFrame fr).mmdAcc
        frames := m.frames ++ [fr], folder := (m.folder.feed fr).1
        events := m.events ++ (m.folder.feed fr).2.toList } := by
  rw [onFrame]
  dsimp only
  cases (m.folder.feed fr).2 with
  | none => simp
  | some ev =>
    dsimp only
    rw [onEvent_frame]
    rfl

/-- The frames of a burst go through the folder in order. -/
theorem onFrames_frame (m : Mdio) (found : List Frame) :
    found.foldl onFrame m =
      { m with
        regs := (found.foldl onFrame m).regs, mmdAcc := (found.foldl onFrame m).mmdAcc
        frames := m.frames ++ found, folder := (m.folder.feedAll found).1
        events := m.events ++ (m.folder.feedAll found).2 } := by
  induction found generalizing m with
  | nil => simp [MmdFolder.feedAll]
  | cons fr found ih =>
    rw [List.foldl_cons, ih, onFrame_frame]
    simp only [MmdFolder.feedAll, List.append_assoc, List.singleton_append]

/-- The live view against the offline decoder `d`, which has still to join `j`:
the same frames and events. Where the open chain has a loss the view has reset
its stream and folder, which the decoder does once the chain is complete. -/
structure Stands (m : Mdio) (j : BurstJoiner) (flags : UInt8) (d : Decoded) : Prop where
  joiner : m.joiner = j
  frames : m.frames = d.frames
  events : m.events = d.events
  stream : m.stream = if Lossy flags then .new else d.stream
  folder : m.folder = if Lossy flags then {} else d.folder

/-- The reset that a record's flags ask for. -/
def opened (m : Mdio) (flags : UInt8) : Mdio :=
  if Lossy flags then { m with loss := m.loss + 1 }.discontinuity else m

/-- A completed burst. -/
def onBurst (m : Mdio) (lb : LBurst) : Mdio :=
  let (found, stream) := m.stream.feed (burstToBits lb.payload lb.validBits)
  let m := found.foldl onFrame { m with stream }
  if lb.validBits ≠ 0 then { m with stream := m.stream.reset } else m

theorem onRecord_eq (m : Mdio) (r : Record) :
    m.onRecord r =
      match ((m.opened r.flags).joiner.feed r).2 with
      | none => { m.opened r.flags with joiner := ((m.opened r.flags).joiner.feed r).1 }
      | some lb =>
        { m.opened r.flags with joiner := ((m.opened r.flags).joiner.feed r).1 }.onBurst lb := rfl

/-- A record with a loss starts both from a fresh chain. -/
theorem Stands.opened {m : Mdio} {j : BurstJoiner} {d : Decoded} (h : Stands m j j.flags d)
    (flags : UInt8) :
    Stands (m.opened flags) (if Lossy flags then {} else j)
      ((if Lossy flags then {} else j).flags ||| flags) d := by
  unfold Mdio.opened
  by_cases hlossy : Lossy flags
  · have hor : Lossy (({} : BurstJoiner).flags ||| flags) := (lossy_or _ _).mpr (.inr hlossy)
    rw [if_pos hlossy, if_pos hlossy]
    exact ⟨rfl, h.frames, h.events, (if_pos hor).symm, (if_pos hor).symm⟩
  · have hor : Lossy (j.flags ||| flags) ↔ Lossy j.flags := by rw [lossy_or, or_iff_left hlossy]
    rw [if_neg hlossy, if_neg hlossy]
    refine ⟨h.joiner, h.frames, h.events, ?_, ?_⟩
    · rw [if_congr hor rfl rfl]
      exact h.stream
    · rw [if_congr hor rfl rfl]
      exact h.folder

/-- `decodeBurst`, from the stream and the folder it has after its reset. -/
theorem decodeBurst_eq {d : Decoded} {lb : LBurst} {stream : BitStream} {folder : MmdFolder}
    (hstream : stream = if Lossy lb.flags then d.stream.reset else d.stream)
    (hfolder : folder = if Lossy lb.flags then d.folder.reset else d.folder) :
    let fed := stream.feed (burstToBits lb.payload lb.validBits)
    decodeBurst d lb =
      { stream := if lb.validBits ≠ 0 then fed.2.reset else fed.2
        folder := (folder.feedAll fed.1).1
        frames := d.frames ++ fed.1
        events := d.events ++ (folder.feedAll fed.1).2 } := by
  subst hstream hfolder
  rfl

/-- A completed burst finds both with the same stream and folder. -/
theorem Stands.onBurst {m : Mdio} {flags : UInt8} {d : Decoded} (h : Stands m {} flags d)
    {lb : LBurst} (hflags : Lossy lb.flags ↔ Lossy flags) :
    Stands (m.onBurst lb) {} 0 (decodeBurst d lb) := by
  have hclean : ¬ Lossy 0 := by decide
  have hd := @decodeBurst_eq d lb _ _ (h.stream.trans (if_congr hflags.symm rfl rfl))
    (h.folder.trans (if_congr hflags.symm rfl rfl))
  rw [hd, ← h.frames, ← h.events]
  unfold Mdio.onBurst
  dsimp only
  rw [onFrames_frame]
  by_cases hvalid : lb.validBits ≠ 0
  · rw [if_pos hvalid, if_pos hvalid]
    exact ⟨h.joiner, rfl, rfl, (if_neg hclean).symm, (if_neg hclean).symm⟩
  · rw [if_neg hvalid, if_neg hvalid]
    exact ⟨h.joiner, rfl, rfl, (if_neg hclean).symm, (if_neg hclean).symm⟩

/-- The live view against the offline decoder behind the same records. -/
def Follows (m : Mdio) (acc : BurstJoiner × List LBurst) : Prop :=
  Stands m acc.1 acc.1.flags (acc.2.foldl decodeBurst {})

theorem Follows.onRecord {m : Mdio} {acc : BurstJoiner × List LBurst} (h : Follows m acc) (r : Record) :
    Follows (m.onRecord r) (joinStep acc r) := by
  have hopened := Stands.opened h r.flags
  have hstep : joinStep acc r =
      (((if Lossy r.flags then {} else acc.1).feed r).1,
        acc.2 ++ ((if Lossy r.flags then {} else acc.1).feed r).2.toList) := rfl
  rw [hstep, onRecord_eq, hopened.joiner, Follows]
  generalize (if Lossy r.flags then {} else acc.1 : BurstJoiner) = j at hopened ⊢
  by_cases hcont : r.flags &&& FLAG_CONTINUED ≠ 0
  · simp only [BurstJoiner.feed, if_pos hcont, Option.toList_none, List.append_nil]
    exact ⟨rfl, hopened.frames, hopened.events, hopened.stream, hopened.folder⟩
  · simp only [BurstJoiner.feed, if_neg hcont, Option.toList_some, List.foldl_append]
    have hfresh : Stands { m.opened r.flags with joiner := {} } {} (j.flags ||| r.flags) _ :=
      ⟨rfl, hopened.frames, hopened.events, hopened.stream, hopened.folder⟩
    exact hfresh.onBurst (lossy_terminal _)

theorem Follows.onRecords {m : Mdio} {acc : BurstJoiner × List LBurst} (h : Follows m acc)
    (records : List Record) : Follows (records.foldl Mdio.onRecord m) (records.foldl joinStep acc) := by
  induction records generalizing m acc with
  | nil => exact h
  | cons r records ih => exact ih (h.onRecord r)

-- ---------------------------------------------------------------------------
-- The table
-- ---------------------------------------------------------------------------

/-- What the table is to show for a register: the last event about it and how
many there were. -/
def rowOf (events : List Event) (t : Key) : Option Row :=
  let about := events.filter (mdioTargetOf · = t)
  about.getLast?.map fun ev => ⟨ev.op, ev.data, ev.noResponse, about.length⟩

/-- An access to an MMD register that was answered. -/
def MmdAccess (ev : Event) : Prop := ev.devad ≠ none ∧ ¬ ev.noResponse

instance : DecidablePred MmdAccess := fun _ => inferInstanceAs (Decidable (_ ∧ _))

/-- The table and the counter are those of the events so far. -/
structure Tabled (m : Mdio) : Prop where
  rows : ∀ t, m.regs t = rowOf m.events t
  accesses : m.mmdAcc = m.events.countP (MmdAccess ·)

theorem rowOf_concat (events : List Event) (ev : Event) (t : Key) :
    rowOf (events ++ [ev]) t =
      if mdioTargetOf ev = t then
        some ⟨ev.op, ev.data, ev.noResponse, (events.filter (mdioTargetOf · = t)).length + 1⟩
      else rowOf events t := by
  by_cases ht : mdioTargetOf ev = t
  · simp [rowOf, List.filter_append, ht]
  · simp [rowOf, List.filter_append, ht]

/-- The count of a row is the number of events about its register. -/
theorem count_rowOf (events : List Event) (t : Key) (fresh : Row) (hfresh : fresh.count = 0) :
    ((rowOf events t).getD fresh).count = (events.filter (mdioTargetOf · = t)).length := by
  rw [rowOf]
  cases hlast : (events.filter (mdioTargetOf · = t)).getLast? with
  | none =>
    rw [List.getLast?_eq_none_iff.mp hlast]
    exact hfresh
  | some ev => rfl

theorem Tabled.onEvent {m : Mdio} (h : Tabled m) (ev : Event) : Tabled (m.onEvent ev) where
  rows t := by
    have hregs : (m.onEvent ev).regs = Function.update m.regs (mdioTargetOf ev)
        (some ⟨ev.op, ev.data, ev.noResponse,
          ((m.regs (mdioTargetOf ev)).getD ⟨ev.op, ev.data, ev.noResponse, 0⟩).count + 1⟩) := rfl
    have hevents : (m.onEvent ev).events = m.events ++ [ev] := rfl
    rw [hregs, hevents, rowOf_concat, h.rows, count_rowOf _ _ _ rfl]
    by_cases ht : mdioTargetOf ev = t
    · rw [ht, if_pos rfl, Function.update_self]
    · rw [if_neg ht, Function.update_of_ne (Ne.symm ht), h.rows]
  accesses := by
    have hacc : (m.onEvent ev).mmdAcc = if MmdAccess ev then m.mmdAcc + 1 else m.mmdAcc := rfl
    have hevents : (m.onEvent ev).events = m.events ++ [ev] := rfl
    rw [hacc, hevents, List.countP_append, List.countP_singleton, h.accesses]
    by_cases hmmd : MmdAccess ev <;> simp [hmmd]

theorem Tabled.congr {m u : Mdio} (h : Tabled m) (hregs : u.regs = m.regs) (hacc : u.mmdAcc = m.mmdAcc)
    (hevents : u.events = m.events) : Tabled u where
  rows t := by rw [hregs, hevents, h.rows]
  accesses := by rw [hacc, hevents, h.accesses]

theorem Tabled.onFrame {m : Mdio} (h : Tabled m) (fr : Frame) : Tabled (m.onFrame fr) := by
  have hcounted : Tabled { m with frames := m.frames ++ [fr], folder := (m.folder.feed fr).1 } :=
    h.congr rfl rfl rfl
  rw [Mdio.onFrame]
  dsimp only
  cases (m.folder.feed fr).2 with
  | none => exact hcounted
  | some ev => exact hcounted.onEvent ev

theorem Tabled.onBurst {m : Mdio} (h : Tabled m) (lb : LBurst) : Tabled (m.onBurst lb) := by
  have hframes : ∀ (found : List Frame) {u : Mdio}, Tabled u → Tabled (found.foldl Mdio.onFrame u) := by
    intro found
    induction found with
    | nil => exact fun hu => hu
    | cons fr found ih => exact fun hu => ih (hu.onFrame fr)
  have hfed := hframes (m.stream.feed (burstToBits lb.payload lb.validBits)).1
    (u := { m with stream := (m.stream.feed (burstToBits lb.payload lb.validBits)).2 })
    (h.congr rfl rfl rfl)
  unfold Mdio.onBurst
  dsimp only
  split
  · exact hfed.congr rfl rfl rfl
  · exact hfed

theorem Tabled.onRecord {m : Mdio} (h : Tabled m) (r : Record) : Tabled (m.onRecord r) := by
  have hopened : Tabled (m.opened r.flags) := by
    unfold opened
    split
    · exact h.congr rfl rfl rfl
    · exact h
  have hjoined : ∀ j, Tabled { m.opened r.flags with joiner := j } :=
    fun j => hopened.congr rfl rfl rfl
  rw [onRecord_eq]
  cases ((m.opened r.flags).joiner.feed r).2 with
  | none => exact hjoined _
  | some lb => exact (hjoined _).onBurst lb

theorem Tabled.onRecords {m : Mdio} (h : Tabled m) (records : List Record) :
    Tabled (records.foldl Mdio.onRecord m) := by
  induction records generalizing m with
  | nil => exact h
  | cons r records ih => exact ih (h.onRecord r)

/-- Each record with a loss is counted once. -/
theorem onRecords_loss (m : Mdio) (records : List Record) :
    (records.foldl onRecord m).loss = m.loss + records.countP (Lossy ·.flags) := by
  have hframe : ∀ (m : Mdio) (lb : LBurst), (m.onBurst lb).loss = m.loss := by
    intro m lb
    unfold onBurst
    dsimp only
    rw [onFrames_frame]
    split <;> rfl
  have hstep : ∀ (m : Mdio) (r : Record),
      (m.onRecord r).loss = m.loss + if Lossy r.flags then 1 else 0 := by
    intro m r
    have hopened : (m.opened r.flags).loss = m.loss + if Lossy r.flags then 1 else 0 := by
      unfold opened
      split <;> rfl
    rw [onRecord_eq, ← hopened]
    split
    · rfl
    · exact hframe _ _
  induction records generalizing m with
  | nil => rfl
  | cons r records ih =>
    rw [List.foldl_cons, ih, hstep, List.countP_cons]
    simp only [decide_eq_true_eq]
    omega

-- ---------------------------------------------------------------------------
-- Whole streams
-- ---------------------------------------------------------------------------

/-- The whole segments of a stream behind its first boundary. -/
def heard (bs : List UInt8) : List UInt8 :=
  match indexOf 0xFF bs with
  | none => []
  | some first =>
    match lastIndexOf 0xFF (bs.drop (first + 1)) with
    | none => []
    | some last => (bs.drop (first + 1)).take (last + 1)

theorem splitTail_heard {bs : List UInt8} {first : Nat} (h : indexOf 0xFF bs = some first) :
    splitTail (heard bs) = ((splitTail (bs.drop (first + 1))).1, []) := by
  have hspec := lastIndexOf_spec (bs.drop (first + 1))
  rw [heard, h]
  dsimp only
  cases hlast : lastIndexOf 0xFF (bs.drop (first + 1)) with
  | none =>
    rw [hlast] at hspec
    rw [hspec]
    rfl
  | some last =>
    rw [hlast] at hspec
    exact hspec.1

theorem heard_closed (bs : List UInt8) : splitTail (heard bs) = ((splitTail (heard bs)).1, []) := by
  cases h : indexOf 0xFF bs with
  | none => rw [heard, h]; rfl
  | some first => rw [splitTail_heard h]

/-- More of the stream only adds segments. -/
theorem heard_append (a b : List UInt8) :
    (splitTail (heard a)).1 ⊆ (splitTail (heard (a ++ b))).1 := by
  cases h : indexOf 0xFF a with
  | none =>
    have hnone : heard a = [] := by rw [heard, h]
    rw [hnone]
    exact List.nil_subset _
  | some first =>
    obtain ⟨hidx, hlen⟩ := indexOf_append h b
    rw [splitTail_heard h, splitTail_heard hidx, List.drop_append_of_le_length hlen, splitTail_append]
    exact List.subset_append_left _ _

/-- The losses a host counts are the loss markers among the segments. -/
theorem losses_eq_count {buf : List UInt8} {ss : List (List UInt8)} (h : splitTail buf = (ss, [])) :
    (recordsFromBinary buf).losses = ss.count [0xFD] := by
  induction ss generalizing buf with
  | nil =>
    rw [splitTail_eq_nil h]
    rfl
  | cons s ss ih =>
    obtain ⟨rest, rfl, hrest, hs⟩ := splitTail_closed h
    rw [(capture_boundary s rest).2, losses_segment hs, ih hrest, List.count_cons]
    simp only [beq_iff_eq]
    omega

/-- A batch without a loss marker has none behind a record. -/
theorem not_recordBeforeLoss {ss : List (List UInt8)} (h : [0xFD] ∉ ss) : ¬ RecordBeforeLoss ss := by
  induction ss with
  | nil => exact id
  | cons s ss ih =>
    obtain ⟨-, hno⟩ := not_or.mp (mt List.mem_cons.mpr h)
    exact not_or.mpr ⟨fun hor => hno hor.2, ih hno⟩

/-- What a chunk makes decodable are segments of the stream up to there. -/
theorem intake_heard (p c : List UInt8) :
    (splitTail ((settled p).intake c).2).1 ⊆ (splitTail (heard (p ++ c))).1 := by
  cases hp : indexOf 0xFF p with
  | none =>
    have hstate : settled p = { leftover := p } := by rw [settled, hp]
    rw [hstate, intake]
    simp only [Bool.false_eq_true, if_false]
    cases hpc : indexOf 0xFF (p ++ c) with
    | none => exact List.nil_subset _
    | some first =>
      obtain ⟨seg, hcut, hseg⟩ := cut_spec { leftover := p, synced := true } ((p ++ c).drop (first + 1))
      dsimp only at hcut ⊢
      rw [hcut, hseg, splitTail_heard hpc]
      exact List.Subset.refl _
  | some first =>
    obtain ⟨hidx, hlen⟩ := indexOf_append hp c
    obtain ⟨seg, hcut, hseg⟩ := cut_spec (settled p) ((splitTail (p.drop (first + 1))).2 ++ c)
    have hstate : (settled p).synced = true ∧
        (settled p).leftover = (splitTail (p.drop (first + 1))).2 := by
      rw [settled, hp]
      exact ⟨rfl, rfl⟩
    rw [intake, hstate.1, hstate.2]
    simp only [if_true]
    rw [hcut, hseg, splitTail_heard hidx, List.drop_append_of_le_length hlen,
      splitTail_append (p.drop (first + 1))]
    exact List.subset_append_right _ _

theorem lossesFirst_of_heard (p : List UInt8) (chunks : List (List UInt8))
    (h : [0xFD] ∉ (splitTail (heard (p ++ chunks.flatten))).1) :
    AllSteps mdioFeed LossesFirst (settled p) chunks := by
  induction chunks generalizing p with
  | nil => trivial
  | cons c chunks ih =>
    rw [List.flatten_cons, ← List.append_assoc] at h
    have hno : [0xFD] ∉ (splitTail (heard (p ++ c))).1 := fun hmem => h (heard_append _ _ hmem)
    have hfirst : (settled p).LossesFirst c :=
      not_recordBeforeLoss fun hmem => hno (intake_heard p c hmem)
    exact ⟨hfirst, by rw [settled_feed p c hfirst]; exact ih (p ++ c) h⟩

/-- The state after a stream, from its whole segments in one batch. -/
theorem settled_heard {bs : List UInt8} (h : [0xFD] ∉ (splitTail (heard bs)).1) :
    ∃ rest synced, settled bs = (({} : Mdio).decode (heard bs)).withRest rest synced := by
  rw [decode_batch _ (heard_closed bs) (not_recordBeforeLoss h)]
  cases hidx : indexOf 0xFF bs with
  | none =>
    refine ⟨bs, false, ?_⟩
    rw [settled, heard, hidx]
    rfl
  | some first =>
    refine ⟨(splitTail (bs.drop (first + 1))).2, true, ?_⟩
    rw [settled, hidx, splitTail_heard hidx]

/-- The state after a stream without a loss marker, from the records in it. -/
theorem run_records {chunks : List (List UInt8)} (h : (recordsFromBinary (heard chunks.flatten)).losses = 0) :
    ∃ rest synced, run mdioFeed {} chunks =
      ((recordsFromBinary (heard chunks.flatten)).records.foldl onRecord {}).withRest rest synced := by
  have hno : [0xFD] ∉ (splitTail (heard chunks.flatten)).1 := by
    rw [losses_eq_count (heard_closed _)] at h
    exact List.count_eq_zero.mp h
  obtain ⟨rest, synced, hsettled⟩ := settled_heard hno
  have hrun : run mdioFeed {} chunks = settled chunks.flatten :=
    run_settled [] chunks (lossesFirst_of_heard [] chunks hno)
  have hdecode : ({} : Mdio).decode (heard chunks.flatten) =
      (recordsFromBinary (heard chunks.flatten)).records.foldl onRecord {} := by
    rw [decode]
    simp only [h, ne_eq, not_true_eq_false, if_false]
  exact ⟨rest, synced, by rw [hrun, hsettled, hdecode]⟩

theorem follows_new : Follows {} ({}, []) := ⟨rfl, rfl, rfl, rfl, rfl⟩

theorem tabled_new : Tabled {} := ⟨fun _ => rfl, rfl⟩

/-- However a stream without a loss marker is cut into chunks, the live view has
the frames and the events that the offline decoder finds in it, counts its
records with an overflow flag, and its table shows for every register the last
event about it and how many there were. -/
theorem live_agrees_offline (chunks : List (List UInt8))
    (h : (recordsFromBinary (heard chunks.flatten)).losses = 0) :
    let m := run mdioFeed {} chunks
    let d := decodeCapture (heard chunks.flatten)
    m.frames = d.frames ∧ m.events = d.events ∧
      m.loss = (recordsFromBinary (heard chunks.flatten)).records.countP (Lossy ·.flags) ∧
      (∀ t, m.regs t = rowOf d.events t) ∧ m.mmdAcc = d.events.countP (MmdAccess ·) := by
  intro m d
  obtain ⟨rest, synced, hrun⟩ := run_records h
  have hfollows := follows_new.onRecords (recordsFromBinary (heard chunks.flatten)).records
  have htabled := tabled_new.onRecords (recordsFromBinary (heard chunks.flatten)).records
  have hloss := onRecords_loss {} (recordsFromBinary (heard chunks.flatten)).records
  have hevents : _ = d.events := hfollows.events
  rw [show m = _ from hrun, ← hevents]
  exact ⟨hfollows.frames, rfl, hloss.trans (Nat.zero_add _), htabled.rows, htabled.accesses⟩

/-- A read of PHY 1, cut inside its second record and behind a torn first segment. -/
def tornStart : List (List UInt8) :=
  [[1, 2, 0xFF] ++ preamble ++ [0xFF] ++ readFrame.take 5, readFrame.drop 5 ++ [0xFF, 13]]

theorem live_agrees_tornStart :
    let m := run mdioFeed {} tornStart
    let d := decodeCapture (heard tornStart.flatten)
    d.events.length = 1 ∧ m.frames = d.frames ∧ m.events = d.events ∧
      m.loss = (recordsFromBinary (heard tornStart.flatten)).records.countP (Lossy ·.flags) ∧
      (∀ t, m.regs t = rowOf d.events t) ∧ m.mmdAcc = d.events.countP (MmdAccess ·) :=
  ⟨by decide +kernel, live_agrees_offline tornStart (by decide +kernel)⟩

end Mdio

end Tapioca.WebSniffer

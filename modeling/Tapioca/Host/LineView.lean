-- SUMMARY: From the MDIO line to the live view: what a lossless run of the clocked device lets the browser show.
import Tapioca.Host.LiveOffline
import Tapioca.Host.MasterDecode
import Tapioca.Sniffer.ClockedLossless

/-!
# From the line to the view

The clocked device samples the line, packs it into records and stages them; the
browser gets the staged bytes in chunks of any size. In a lossless run no record
carries an overflow flag, so the view decodes the sampled line itself, cut only
where the device flushed a partial byte and the view resets its bit stream.
-/

namespace Tapioca

open Host MdioCodec WebSniffer Lib.Lts Lib.Bits

-- ---------------------------------------------------------------------------
-- Bursts without loss
-- ---------------------------------------------------------------------------

namespace Host

/-- No loss is reported and, where `whole` says so, no bits are cut. -/
structure CleanBurst (whole : Prop) (lb : LBurst) : Prop where
  flags : ¬ Lossy lb.flags
  valid : whole → lb.validBits = 0

theorem joinStep_clean {whole : Prop} {acc : BurstJoiner × List LBurst} {r : Record}
    (hflags : ¬ Lossy r.flags) (hvalid : whole → validBits r = 0) (hopen : ¬ Lossy acc.1.flags)
    (hbursts : ∀ lb ∈ acc.2, CleanBurst whole lb) :
    ¬ Lossy (joinStep acc r).1.flags ∧ ∀ lb ∈ (joinStep acc r).2, CleanBurst whole lb := by
  have hkeep : (if r.flags &&& (FLAG_OVF_PIOC ||| FLAG_OVF_RAM) ≠ 0 then {} else acc.1) = acc.1 :=
    if_neg hflags
  have hor : ¬ Lossy (acc.1.flags ||| r.flags) := by
    rw [lossy_or]
    exact not_or.mpr ⟨hopen, hflags⟩
  rw [joinStep, hkeep]
  by_cases hcont : r.flags &&& FLAG_CONTINUED ≠ 0
  · simp only [BurstJoiner.feed, if_pos hcont, Option.toList_none, List.append_nil]
    exact ⟨hor, hbursts⟩
  · simp only [BurstJoiner.feed, if_neg hcont, Option.toList_some, List.forall_mem_append,
      List.forall_mem_singleton]
    exact ⟨by decide, hbursts, by rwa [lossy_terminal], hvalid⟩

theorem joined_clean {whole : Prop} {records : List Record}
    (h : ∀ r ∈ records, ¬ Lossy r.flags ∧ (whole → validBits r = 0)) :
    ∀ lb ∈ logicalBursts records, CleanBurst whole lb := by
  have hjoin : ∀ (records : List Record) (acc : BurstJoiner × List LBurst),
      (∀ r ∈ records, ¬ Lossy r.flags ∧ (whole → validBits r = 0)) → ¬ Lossy acc.1.flags →
      (∀ lb ∈ acc.2, CleanBurst whole lb) →
      ∀ lb ∈ (records.foldl joinStep acc).2, CleanBurst whole lb := by
    intro records
    induction records with
    | nil => exact fun _ _ _ hbursts => hbursts
    | cons r records ih =>
      intro acc hrecords hopen hbursts
      obtain ⟨⟨hflags, hvalid⟩, hrecords⟩ := List.forall_mem_cons.mp hrecords
      obtain ⟨hopen, hbursts⟩ := joinStep_clean hflags hvalid hopen hbursts
      exact ih _ hrecords hopen hbursts
  exact hjoin records ({}, []) h (by decide) nofun

/-- The bits of the bursts, cut behind every burst that ends in a partial byte;
`acc` stands in front of the first. -/
def spans (acc : List Bool) : List LBurst → List (List Bool)
  | [] => [acc]
  | lb :: bursts =>
    if lb.validBits ≠ 0 then (acc ++ burstBits lb) :: spans [] bursts
    else spans (acc ++ burstBits lb) bursts

theorem flatten_spans (acc : List Bool) (bursts : List LBurst) :
    (spans acc bursts).flatten = acc ++ bursts.flatMap burstBits := by
  induction bursts generalizing acc with
  | nil => simp [spans]
  | cons lb bursts ih =>
    rw [spans, List.flatMap_cons, ← List.append_assoc]
    split
    · rw [List.flatten_cons, ih, List.nil_append]
    · exact ih _

/-- Bursts of whole bytes are not cut. -/
theorem spans_whole (acc : List Bool) {bursts : List LBurst} (h : ∀ lb ∈ bursts, lb.validBits = 0) :
    spans acc bursts = [acc ++ bursts.flatMap burstBits] := by
  induction bursts generalizing acc with
  | nil => simp [spans]
  | cons lb bursts ih =>
    obtain ⟨hlb, hbursts⟩ := List.forall_mem_cons.mp h
    rw [spans, if_neg (not_not.mpr hlb), ih _ hbursts, List.flatMap_cons, List.append_assoc]

/-- A hunt resumed from `carry` finds the frames that follow those of `acc`. -/
def Resumes (acc carry : List Bool) : Prop :=
  ∀ more, huntFields 0 (acc ++ more) = huntFields 0 acc ++ huntFields 0 (carry ++ more)

theorem resumes_nil : Resumes [] [] := by
  intro more
  have hnone : huntFields 0 [] = [] := by rw [huntFields, hunt_nil, List.map_nil]
  rw [hnone]
  rfl

theorem Resumes.feed {acc carry : List Bool} (h : Resumes acc carry) (bits : List Bool) :
    Resumes (acc ++ bits) (carryOf (carry ++ bits)) := by
  intro more
  rw [List.append_assoc, h, ← List.append_assoc, huntFields_carry, ← List.append_assoc, ← h]

/-- One burst without loss, from a stream that resumes behind `acc`. -/
theorem decodeBurst_clean {d : Decoded} {lb : LBurst} (h : ¬ Lossy lb.flags) :
    let found := (d.stream.feed (burstBits lb)).1
    (decodeBurst d lb).frames = d.frames ++ found ∧
      (decodeBurst d lb).events = d.events ++ (d.folder.feedAll found).2 ∧
      (decodeBurst d lb).folder = (d.folder.feedAll found).1 ∧
      (decodeBurst d lb).stream.carry =
        (if lb.validBits ≠ 0 then [] else carryOf (d.stream.carry ++ burstBits lb)) ∧
      found.map Frame.fields = huntFields 0 (d.stream.carry ++ burstBits lb) := by
  intro found
  have hd := @Mdio.decodeBurst_eq d lb _ _ (if_neg h).symm (if_neg h).symm
  have hfed := codec_feed d.stream (burstBits lb)
  rw [hd]
  refine ⟨rfl, rfl, rfl, ?_, ?_⟩
  · change (if lb.validBits ≠ 0 then (d.stream.feed (burstBits lb)).2.reset
      else (d.stream.feed (burstBits lb)).2).carry = _
    rw [hfed]
    split <;> rfl
  · have hfound : found = (hunt 0 (d.stream.carry ++ burstBits lb)).map (·.1) := congrArg Prod.fst hfed
    rw [hfound, huntFields, List.map_map]
    rfl

/-- The frames in bursts without loss are those of their spans. -/
theorem decode_spans {bursts : List LBurst} (h : ∀ lb ∈ bursts, ¬ Lossy lb.flags) {d : Decoded}
    {acc : List Bool} {found : List Frame} (hresumes : Resumes acc d.stream.carry)
    (hframes : d.frames.map Frame.fields = found ++ huntFields 0 acc) :
    (bursts.foldl decodeBurst d).frames.map Frame.fields =
      found ++ (spans acc bursts).flatMap (huntFields 0) := by
  induction bursts generalizing d acc found with
  | nil => simpa [spans] using hframes
  | cons lb bursts ih =>
    obtain ⟨hlb, hbursts⟩ := List.forall_mem_cons.mp h
    obtain ⟨hadded, -, -, hcarry, hfields⟩ := decodeBurst_clean (d := d) hlb
    have hframes' : (decodeBurst d lb).frames.map Frame.fields =
        found ++ huntFields 0 (acc ++ burstBits lb) := by
      rw [hadded, List.map_append, hframes, hfields, hresumes, List.append_assoc]
    rw [List.foldl_cons, spans]
    by_cases hvalid : lb.validBits ≠ 0
    · rw [if_pos hvalid] at hcarry
      rw [if_pos hvalid, List.flatMap_cons, ← List.append_assoc]
      refine ih hbursts (by rw [hcarry]; exact resumes_nil) ?_
      rw [hframes', huntFields, huntFields, hunt_nil, List.map_nil, List.append_nil]
    · rw [if_neg hvalid] at hcarry
      rw [if_neg hvalid]
      exact ih hbursts (by rw [hcarry]; exact hresumes.feed _) hframes'

theorem codec_feedAll_append (m : MmdFolder) (a b : List Frame) :
    m.feedAll (a ++ b) =
      (((m.feedAll a).1.feedAll b).1, (m.feedAll a).2 ++ ((m.feedAll a).1.feedAll b).2) := by
  induction a generalizing m with
  | nil => rfl
  | cons fr a ih => simp only [List.cons_append, MmdFolder.feedAll, ih, List.append_assoc]

/-- The folder does not look at the preamble. -/
theorem codec_feedAll_fields (m : MmdFolder) (frames : List Frame) :
    m.feedAll (frames.map Frame.fields) = m.feedAll frames := by
  induction frames generalizing m with
  | nil => rfl
  | cons fr frames ih =>
    have hfeed : m.feed fr.fields = m.feed fr := rfl
    rw [List.map_cons, MmdFolder.feedAll, MmdFolder.feedAll, hfeed]
    simp only [ih]

/-- The events in bursts without loss are those of their frames in one sequence. -/
theorem decode_events {bursts : List LBurst} (h : ∀ lb ∈ bursts, ¬ Lossy lb.flags) {d : Decoded}
    (hd : MmdFolder.feedAll {} d.frames = (d.folder, d.events)) :
    MmdFolder.feedAll {} (bursts.foldl decodeBurst d).frames =
      ((bursts.foldl decodeBurst d).folder, (bursts.foldl decodeBurst d).events) := by
  induction bursts generalizing d with
  | nil => exact hd
  | cons lb bursts ih =>
    obtain ⟨hlb, hbursts⟩ := List.forall_mem_cons.mp h
    obtain ⟨hframes, hevents, hfolder, -⟩ := decodeBurst_clean (d := d) hlb
    refine ih hbursts ?_
    rw [hframes, hevents, hfolder, codec_feedAll_append, hd]

end Host

namespace ClockedSniffer

open Pioc ClockedBlob RecordFramer WebSniffer.Mdio
open Sniffer (kbits)

-- ---------------------------------------------------------------------------
-- Records of a lossless run
-- ---------------------------------------------------------------------------

/-- No delivered record reports a loss and, where `whole` says so, none has its
last byte cut. -/
def Clean (whole : Prop) (log : List Entry) : Prop :=
  ∀ r ∈ delivered log, ¬ Lossy r.flags ∧ (whole → validBits r.parsed = 0)

variable {whole : Prop} {s : Sniffer} {out : List Bool}

theorem Clean.emitRecord (h : Clean whole s.log) (hpioc : s.ovfPioc = 0) (hram : s.ovfRam = 0)
    (htail : whole → s.tailBits = 0) (continued : Bool) : Clean whole (s.emitRecord continued).log := by
  by_cases hemits : s.Emits continued
  · by_cases hfit : (s.encoded continued).length ≤ s.ring.free
    · obtain ⟨-, -, -, hvalid, hloss⟩ := s.recordFlags_spec continued
      rw [s.emitRecord_delivered continued hemits hfit]
      refine List.forall_mem_append.mpr ⟨h, List.forall_mem_singleton.mpr ⟨?_, fun hw => ?_⟩⟩
      · exact hloss.not.mpr (not_or.mpr ⟨not_not.mpr hpioc, not_not.mpr hram⟩)
      · rw [htail hw] at hvalid
        exact hvalid
    · rw [s.emitRecord_dropped continued hemits hfit]
      exact h
  · rw [s.emitRecord_idle continued hemits]
    exact h

theorem Clean.drainByte (h : Clean whole s.log) (hc : Carries s out) (b : UInt8) (t0 t1 t2 : UInt32) :
    Clean whole (s.drainByte b t0 t1 t2).log := by
  have happ := s.appendByte_frame b t0 t1
  rw [Sniffer.drainByte]
  generalize s.appendByte b t0 t1 = a at happ ⊢
  have hlog : a.log = s.log := by rw [happ]
  have hpioc : a.ovfPioc = 0 := by rw [happ]; exact hc.ovfPioc
  have hram : a.ovfRam = 0 := by rw [happ]; exact hc.ovfRam
  have htail : a.tailBits = 0 := by rw [happ]; exact hc.tailBits
  have hclean : Clean whole a.log := by rw [hlog]; exact h
  split
  · exact Clean.emitRecord (s := { a with burstLast := t2 }) hclean hpioc hram (fun _ => htail) true
  · exact hclean

theorem Clean.closeBurst (h : Clean whole s.log) (hc : Carries s out) {acc : UInt8}
    (hwhole : whole → kbits acc = 0) (t : UInt32) : Clean whole (s.closeBurst acc t).1.log := by
  have hprep := s.withPartial_frame acc t
  have htail : whole → (s.withPartial acc t).tailBits = 0 := by
    intro hw
    rw [s.withPartial_tailBits acc t hc.room, if_neg (not_not.mpr (hwhole hw)), hc.tailBits]
  rw [Sniffer.closeBurst]
  generalize s.withPartial acc t = a at hprep htail ⊢
  have hlog : a.log = s.log := by rw [hprep]
  have hpioc : a.ovfPioc = 0 := by rw [hprep]; exact hc.ovfPioc
  have hram : a.ovfRam = 0 := by rw [hprep]; exact hc.ovfRam
  have hemitted := Clean.emitRecord (s := a) (by rw [hlog]; exact h) hpioc hram htail false
  dsimp only
  split <;> exact hemitted

theorem Clean.finish (h : Clean whole s.log) (hc : Carries s out) {got : Bool} {nowMs : UInt32}
    {acc : UInt8} {r : TailReadings} (hwhole : whole → ¬ s.FlushesPartial got nowMs acc r) :
    Clean whole (s.finish got nowMs acc r).1.log := by
  have hw := hc.watched got nowMs acc r.last
  have hlog : ((s.afterDrain got nowMs r.last).watchPartial nowMs acc).log = s.log := by
    unfold Sniffer.watchPartial Sniffer.afterDrain
    split <;> split <;> rfl
  rw [Sniffer.finish_fst, Sniffer.ship_log, Sniffer.finalize, Sniffer.finalizeBurst]
  rw [Sniffer.FlushesPartial] at hwhole
  generalize (s.afterDrain got nowMs r.last).watchPartial nowMs acc = u at hw hlog hwhole ⊢
  rw [← hlog] at h
  by_cases hcloses : u.closes nowMs acc
  · rw [if_pos hcloses]
    exact h.closeBurst hw (fun hwh => not_not.mp fun hk => hwhole hwh ⟨hcloses, hk⟩) r.close
  · rw [if_neg hcloses]
    split
    · exact h.emitRecord hw.ovfPioc hw.ovfRam (fun _ => hw.tailBits) false
    · exact h

/-- The step flushes no partial byte. -/
def FlushesNone (s : System) : HostPc → Event → Prop
  | .draining nowMs h got, .finish r =>
    s.host.sniffTail = h → ¬ s.host.FlushesPartial got nowMs (s.emcu.regs ACC) r
  | _, _ => True

instance (s : System) : ∀ pc e, Decidable (FlushesNone s pc e)
  | .draining .., .finish _ => inferInstanceAs (Decidable (_ → _))
  | .idle, _ => .isTrue trivial
  | .draining .., .mcu _ | .draining .., .enter _ | .draining .., .take _ => .isTrue trivial

/-- A step that loses no bit and flushes no partial byte. -/
def WholeStep (s : System) (e : Event) : Prop := QuietStep s e ∧ FlushesNone s s.pc e

instance (s : System) (e : Event) : Decidable (WholeStep s e) := inferInstanceAs (Decidable (_ ∧ _))

theorem WholeStep.lossless {s : System} {e : Event} (h : WholeStep s e) : LosslessStep s e := by
  obtain ⟨hquiet, hnone⟩ := h
  refine ⟨hquiet, ?_⟩
  cases hpc : s.pc with
  | idle => trivial
  | draining nowMs head got =>
    rw [hpc] at hnone
    cases e with
    | finish r => exact fun hdone hflush => absurd hflush (hnone hdone)
    | mcu bit => trivial
    | enter nowMs => trivial
    | take t => trivial

/-- What a lossless step delivers is clean. -/
theorem Clean.step {s : System} (h : Clean whole s.host.log) (hs : Lossless s) {e : Event}
    (he : LosslessStep s e) (hwhole : whole → FlushesNone s s.pc e) :
    Clean whole (s.step e).host.log := by
  obtain ⟨out, hcarries, -⟩ := hs.bits
  cases hpc : s.pc with
  | idle =>
    cases e with
    | mcu bit => exact h
    | enter nowMs =>
      have hread : ∀ (u : Sniffer) (head : UInt8), delivered (u.readHead head).log = delivered u.log := by
        intro u head
        unfold Sniffer.readHead
        split <;> rfl
      simp only [System.step, hpc, Clean]
      rw [hread, s.host.delivered_heartbeat nowMs]
      exact h
    | take t => simpa only [System.step, hpc] using h
    | finish r => simpa only [System.step, hpc] using h
  | draining nowMs head got =>
    rw [hpc] at hwhole
    cases e with
    | mcu bit => exact h
    | enter nowMs => simpa only [System.step, hpc] using h
    | take t =>
      simp only [System.step, hpc]
      split
      · exact h
      · exact h.drainByte hcarries _ _ _ _
    | finish r =>
      simp only [System.step, hpc]
      split
      · exact h
      · rename_i hdone
        have hfin := h.finish hcarries (r := r) fun hw => hwhole hw (not_not.mp hdone)
        split <;> exact hfin

-- ---------------------------------------------------------------------------
-- The staged bytes
-- ---------------------------------------------------------------------------

theorem splitTail_closes (a : List UInt8) : (splitTail (a ++ [0xFF])).2 = [] := by
  induction a with
  | nil => rfl
  | cons x a ih =>
    by_cases hx : x = 0xFF
    · rw [List.cons_append, hx, splitTail_boundary, ih]
    · rw [List.cons_append, splitTail_byte hx]
      cases hs : (splitTail (a ++ [0xFF])).1 with
      | cons s ss => exact ih
      | nil =>
        have hnil := splitTail_eq_nil (Prod.ext hs ih)
        simp at hnil

/-- Every frame ends in a boundary. -/
theorem splitTail_emit (f : WireFrame) : (splitTail f.emit).2 = [] := by
  cases f with
  | record r => exact splitTail_closes _
  | metadata m =>
    rw [WireFrame.emit, Envelope.frameMeta_ascii]
    exact splitTail_closes _
  | loss => exact splitTail_closes [0xFD]

theorem splitTail_frames (fs : List WireFrame) : (splitTail (fs.flatMap WireFrame.emit)).2 = [] := by
  induction fs with
  | nil => rfl
  | cons f fs ih => rw [List.flatMap_cons, splitTail_append, splitTail_emit, List.nil_append, ih]

/-- Behind a boundary, whole segments are all heard. -/
theorem heard_boundary {bs : List UInt8} (h : (splitTail bs).2 = []) : heard (0xFF :: bs) = bs := by
  have hspec := lastIndexOf_spec bs
  have hidx : indexOf 0xFF (0xFF :: bs) = some 0 := rfl
  rw [heard, hidx]
  dsimp only
  rw [Nat.zero_add, List.drop_succ_cons, List.drop_zero]
  cases hlast : lastIndexOf 0xFF bs with
  | none =>
    rw [hlast] at hspec
    rw [hspec] at h
    exact h.symm
  | some last =>
    rw [hlast] at hspec
    obtain ⟨-, hdrop, -⟩ := hspec
    rw [h] at hdrop
    dsimp only
    rw [List.take_of_length_le (List.drop_eq_nil_iff.mp hdrop)]

/-- The device stages no loss marker. -/
theorem isLoss_frames (log : List Entry) : (frames log).countP WireFrame.isLoss = 0 := by
  induction log with
  | nil => rfl
  | cons e log ih =>
    rw [frames_cons, List.countP_append, ih]
    cases e <;> rfl

/-- What a host hears of all staged bytes. -/
theorem stream_heard {s : Sniffer} (h : Staged s) :
    recordsFromBinary (heard (s.wire ++ s.ring.contents)) =
      recordsFromBinary (s.wire ++ s.ring.contents) ∧
    (recordsFromBinary (s.wire ++ s.ring.contents)).losses = 0 := by
  have hdemux : demuxV2 (0xFF :: (frames s.log).flatMap WireFrame.emit) =
      demuxV2 ((frames s.log).flatMap WireFrame.emit) :=
    (Envelope.demuxV2_boundary [] _).trans (Envelope.demux_nil_append _)
  rw [h, heard_boundary (splitTail_frames _), recordsFromBinary, recordsFromBinary, hdemux,
    Envelope.demuxV2_frames]
  exact ⟨rfl, isLoss_frames _⟩

-- ---------------------------------------------------------------------------
-- End to end
-- ---------------------------------------------------------------------------

namespace System

/-- The bursts behind all records staged so far. -/
def bursts (s : System) : List Host.LBurst :=
  logicalBursts (recordsFromBinary (s.host.wire ++ s.host.ring.contents)).records

/-- The bits the host has, cut where it resets its bit stream. -/
def lineSpans (s : System) : List (List Bool) := spans [] s.bursts

theorem bursts_clean {s : System} (h : Clean whole s.host.log) (hs : Staged s.host) :
    ∀ lb ∈ s.bursts, CleanBurst whole lb := by
  rw [bursts, hs.recordsFromBinary]
  refine joined_clean fun r hr => ?_
  obtain ⟨r, hmem, rfl⟩ := List.mem_map.mp hr
  exact h r hmem

end System

/-- The sampled bits are in the spans, in the joiner or still in the device. -/
theorem Lossless.lineSpans {s : System} (h : Lossless s) (hs : Staged s.host) :
    s.lineSpans.flatten ++ s.joinerBits ++ s.heldBits = s.sampled := by
  obtain ⟨out, hcarries, hsampled⟩ := h.bits
  have hfifo : s.fifoBytes = s.pending := h.aligned.window_eq h.lap
  have hspans : s.lineSpans.flatten = s.hostBits := flatten_spans [] s.bursts
  rw [hspans, System.hostBits_eq hs, System.joinerBits_eq hs, System.heldBits, hfifo, hsampled,
    ← hcarries.bits, joinedBits]
  simp only [List.append_assoc]

section Run

variable (regs : Regs) (early : List Bool) (ring : Ring RING_SZ UInt8) (nowMs : UInt32)
  (evs : List Event)

theorem lossless_run {whole : Prop}
    (hrun : AllSteps System.step (fun s e => LosslessStep s e ∧ (whole → FlushesNone s s.pc e))
      (System.begin regs early ring nowMs) evs) :
    Lossless (run System.step (System.begin regs early ring nowMs) evs) ∧
      Clean whole (run System.step (System.begin regs early ring nowMs) evs).host.log := by
  refine AllSteps.invariant (I := fun s : System => Lossless s ∧ Clean whole s.host.log)
    (fun s e hs he => ⟨hs.1.step he.1, hs.2.step hs.1 he.1 he.2⟩) ⟨lossless_begin .., ?_⟩ hrun
  have hlog : delivered (System.begin regs early ring nowMs).host.log = [] := by
    simp only [System.begin]
    rw [Sniffer.begin_eq]
    rfl
  rw [Clean, hlog]
  intro r hr
  cases hr

/-- What the view shows of a clean history, once it has all staged bytes. -/
theorem view_of_clean {s : System} (hs : Staged s.host) (hclean : Clean whole s.host.log)
    {chunks : List (List UInt8)} (hchunks : chunks.flatten = s.host.wire ++ s.host.ring.contents) :
    let m := run mdioFeed {} chunks
    m.frames.map Frame.fields = s.lineSpans.flatMap (huntFields 0) ∧
      m.events = (MmdFolder.feedAll {} m.frames).2 ∧ (∀ t, m.regs t = rowOf m.events t) ∧
      m.loss = 0 := by
  intro m
  obtain ⟨hheard, hnone⟩ := stream_heard hs
  have hnone' : (recordsFromBinary (heard chunks.flatten)).losses = 0 := by rw [hchunks, hheard, hnone]
  obtain ⟨rest, synced, hrun⟩ := run_records hnone'
  rw [hchunks, hheard] at hrun
  have hrecords : ∀ r ∈ (recordsFromBinary (s.host.wire ++ s.host.ring.contents)).records,
      ¬ Lossy r.flags := by
    rw [hs.recordsFromBinary]
    intro r hr
    obtain ⟨r, hmem, rfl⟩ := List.mem_map.mp hr
    exact (hclean r hmem).1
  have hbursts : ∀ lb ∈ s.bursts, ¬ Lossy lb.flags :=
    fun lb hlb => (System.bursts_clean hclean hs lb hlb).flags
  have hfollows := follows_new.onRecords (recordsFromBinary (s.host.wire ++ s.host.ring.contents)).records
  have htabled := tabled_new.onRecords (recordsFromBinary (s.host.wire ++ s.host.ring.contents)).records
  have hloss := onRecords_loss {} (recordsFromBinary (s.host.wire ++ s.host.ring.contents)).records
  have hframes : m.frames = (s.bursts.foldl decodeBurst {}).frames := by
    rw [show m = _ from hrun]
    exact hfollows.frames
  have hevents : m.events = (s.bursts.foldl decodeBurst {}).events := by
    rw [show m = _ from hrun]
    exact hfollows.events
  refine ⟨?_, ?_, ?_, ?_⟩
  · have hstart : ({} : Decoded).frames.map Frame.fields = [] ++ huntFields 0 [] := by simp [huntFields]
    rw [hframes]
    exact decode_spans hbursts resumes_nil hstart
  · rw [hframes, hevents, decode_events hbursts rfl]
  · rw [show m = _ from hrun]
    exact htabled.rows
  · rw [show m = _ from hrun]
    refine hloss.trans ?_
    rw [List.countP_eq_zero.mpr fun r hr => by simpa using hrecords r hr]

/-- In a run that loses no bit, the view decodes the sampled line: its frames
are those of the line cut where partial bytes were flushed, its events and its
table are those of its frames, and it reports no loss. What it has not seen yet
is in its joiner or still in the device. -/
theorem view_follows_line
    (hrun : AllSteps System.step LosslessStep (System.begin regs early ring nowMs) evs)
    (chunks : List (List UInt8))
    (hchunks : chunks.flatten =
      (run System.step (System.begin regs early ring nowMs) evs).host.wire ++
        (run System.step (System.begin regs early ring nowMs) evs).host.ring.contents) :
    let s := run System.step (System.begin regs early ring nowMs) evs
    let m := run mdioFeed {} chunks
    m.frames.map Frame.fields = s.lineSpans.flatMap (fun bits => (decodeBits bits).map Frame.fields) ∧
      s.lineSpans.flatten ++ s.joinerBits ++ s.heldBits = s.sampled ∧
      m.events = (MmdFolder.feedAll {} m.frames).2 ∧ (∀ t, m.regs t = rowOf m.events t) ∧
      m.loss = 0 := by
  intro s m
  have hstaged : Staged s.host := staged_run regs early ring nowMs evs
  obtain ⟨hlossless, hclean⟩ : Lossless s ∧ Clean False s.host.log :=
    lossless_run regs early ring nowMs evs (hrun.mono fun _ _ he => ⟨he, False.elim⟩)
  obtain ⟨hframes, hevents, hrows, hloss⟩ := view_of_clean hstaged hclean hchunks
  have hdecode : (fun bits => (decodeBits bits).map Frame.fields) = huntFields 0 := by
    funext bits
    rw [codec_decodeBits, huntFields, List.map_map]
    rfl
  rw [hdecode]
  exact ⟨hframes, hlossless.lineSpans hstaged, hevents, hrows, hloss⟩

end Run

/-- A command as the device samples it, from the wait for its first bit, and the
call that drains its eight bytes. -/
def commandSteps (w : List UInt8) : List Event :=
  ([0xFF, 0xFF, 0xFF, 0xFF] ++ w).flatMap byteSteps ++ serviceSteps 0 8

/-- A write and a read of PHY 1, and the call behind an idle gap that closes the burst. -/
def writeThenRead : List Event :=
  .mcu false :: commandSteps [0x50, 0x96, 0x12, 0x34] ++ commandSteps [0x60, 0x88, 0x00, 0x22] ++
    serviceSteps 4 0

/-- What the device has staged behind them. -/
def stagedBytes : List UInt8 :=
  (run System.step (System.begin (fun _ => 0) [] freshRing 0) writeThenRead).host.wire ++
    (run System.step (System.begin (fun _ => 0) [] freshRing 0) writeThenRead).host.ring.contents

set_option maxRecDepth 10000 in
/-- The staged bytes, cut inside the record. -/
theorem view_follows_writeThenRead :
    let s := run System.step (System.begin (fun _ => 0) [] freshRing 0) writeThenRead
    let m := run mdioFeed {} [stagedBytes.take 40, stagedBytes.drop 40]
    m.frames.length = 2 ∧
      m.frames.map Frame.fields = s.lineSpans.flatMap (fun bits => (decodeBits bits).map Frame.fields) ∧
      s.lineSpans.flatten ++ s.joinerBits ++ s.heldBits = s.sampled ∧
      m.events = (MmdFolder.feedAll {} m.frames).2 ∧ (∀ t, m.regs t = rowOf m.events t) ∧
      m.loss = 0 :=
  ⟨by decide +kernel,
    view_follows_line _ _ _ _ _ (by decide +kernel) [stagedBytes.take 40, stagedBytes.drop 40]
      (by simp [stagedBytes])⟩

section Run

variable (regs : Regs) (early : List Bool) (ring : Ring RING_SZ UInt8) (nowMs : UInt32)
  (evs : List Event)

/-- When the line holds what the master drives for a sequence of requests, all
answered Done, and has been read out with no partial byte flushed, the view
shows one event per request, in order. -/
theorem view_answers_requests
    (hrun : AllSteps System.step WholeStep (System.begin regs early ring nowMs) evs)
    {sessions : List (Mdio.Session × UInt16)}
    (hline : (run System.step (System.begin regs early ring nowMs) evs).sampled = masterLine sessions)
    (hread : (run System.step (System.begin regs early ring nowMs) evs).heldBits = [] ∧
      (run System.step (System.begin regs early ring nowMs) evs).joinerBits = [])
    (hdone : ∀ p ∈ sessions, p.1.Ended ∧ p.1.answer.status = .done)
    (hrange : ∀ p ∈ sessions, InRange p.1.request)
    (chunks : List (List UInt8))
    (hchunks : chunks.flatten =
      (run System.step (System.begin regs early ring nowMs) evs).host.wire ++
        (run System.step (System.begin regs early ring nowMs) evs).host.ring.contents) :
    ∃ events : List (List Host.Event),
      List.Forall₂ (fun p es => Answers p.1.request p.2 es) sessions events ∧
        (run mdioFeed {} chunks).events = events.flatten := by
  have hstaged := staged_run regs early ring nowMs evs
  obtain ⟨hlossless, hclean⟩ : Lossless (run System.step _ evs) ∧ Clean True (run System.step _ evs).host.log :=
    lossless_run regs early ring nowMs evs (hrun.mono fun _ _ he => ⟨he.lossless, fun _ => he.2⟩)
  generalize run System.step (System.begin regs early ring nowMs) evs = s at *
  obtain ⟨hframes, hevents, -, -⟩ := view_of_clean hstaged hclean hchunks
  -- nothing is flushed early, so the bits at the host are one span, and the whole line
  have hspans : s.lineSpans = [masterLine sessions] := by
    have hwhole : s.lineSpans = [s.bursts.flatMap burstBits] :=
      spans_whole [] fun lb hlb => (System.bursts_clean hclean hstaged lb hlb).valid trivial
    have hline' := hlossless.lineSpans hstaged
    rw [hread.1, hread.2, hline, hwhole, List.append_nil, List.append_nil, List.flatten_singleton] at hline'
    rw [hwhole, hline']
  rw [hspans, List.flatMap_singleton, huntFields, ← Function.comp_def, ← List.map_map] at hframes
  obtain ⟨events, hanswers, hfolded⟩ := feedAll_sessions {} hdone hrange
  refine ⟨events, hanswers, ?_⟩
  have hfolder := codecFolder_feedAll {} ((hunt 0 (masterLine sessions)).map (·.1))
  rw [hevents, ← codec_feedAll_fields, hframes, codec_feedAll_fields, ← hfolded]
  exact congrArg Prod.snd hfolder

end Run

/-- The requests behind that line, with the data the PHY supplies. -/
def writeThenReadSessions : List (Mdio.Session × UInt16) :=
  [(⟨⟨.write, 1, 0, 5, 0x1234, 0⟩, [.answered ⟨Mdio.ST_OK, 0, 0⟩]⟩, 0),
   (⟨⟨.read, 1, 0, 2, 0, 0⟩, [.answered ⟨Mdio.ST_OK, 0, 0x22⟩]⟩, 0x22)]

set_option maxRecDepth 10000 in
theorem view_answers_writeThenRead : ∃ events : List (List Host.Event),
    List.Forall₂ (fun p es => Answers p.1.request p.2 es) writeThenReadSessions events ∧
      (run mdioFeed {} [stagedBytes.take 40, stagedBytes.drop 40]).events = events.flatten := by
  refine view_answers_requests (fun _ => 0) [] freshRing 0 writeThenRead (by decide +kernel)
    (by decide +kernel) ⟨by decide +kernel, by decide +kernel⟩ (fun p hp => ?_) (fun p hp => ?_)
    [stagedBytes.take 40, stagedBytes.drop 40] (by simp [stagedBytes])
  · rcases List.mem_cons.mp hp with rfl | hp
    · exact ⟨⟨[], _, rfl, ⟨nofun, by decide⟩, fun _ => rfl⟩, rfl⟩
    · obtain rfl := List.mem_singleton.mp hp
      exact ⟨⟨[], _, rfl, ⟨nofun, by decide⟩, fun _ => rfl⟩, rfl⟩
  · rcases List.mem_cons.mp hp with rfl | hp
    · exact ⟨by decide, by decide⟩
    · obtain rfl := List.mem_singleton.mp hp
      exact ⟨by decide, by decide⟩

end ClockedSniffer

end Tapioca

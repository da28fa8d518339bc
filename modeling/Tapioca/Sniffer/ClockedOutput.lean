-- SUMMARY: The output side of the clocked sniffer: an invariant rule for what is staged and counted, and what a host reads from the staged bytes.
import Tapioca.Lib.Lts
import Tapioca.Sniffer.ClockedSniffer
import Tapioca.Host.Envelope

/-!
# The output side

Records and markers leave the sniffer through the staging ring. Only three
pieces of `service()` touch it, its counters and its history: the marker, the
emission of a record and the USB stage; `readHead` counts an overrun. An
`OutputInvariant` is a property these four preserve, and then every call does.
The first such invariant says what a host reads from the bytes staged so far.
-/

namespace Tapioca.ClockedSniffer

open RecordFramer Lib.Lts

-- ---------------------------------------------------------------------------
-- The invariant rule
-- ---------------------------------------------------------------------------

/-- The part of the state the output side consists of. -/
structure Sniffer.SameOutput (s t : Sniffer) : Prop where
  ring : t.ring = s.ring
  ovfRam : t.ovfRam = s.ovfRam
  ovfPioc : t.ovfPioc = s.ovfPioc
  wire : t.wire = s.wire
  log : t.log = s.log

structure OutputInvariant (I : Sniffer → Prop) : Prop where
  congr : ∀ {s t : Sniffer}, I s → s.SameOutput t → I t
  emitModeMarker : ∀ {s : Sniffer}, I s → I s.emitModeMarker
  emitRecord : ∀ {s : Sniffer} (continued : Bool), I s → I (s.emitRecord continued)
  readHead : ∀ {s : Sniffer} (h : UInt8), I s → I (s.readHead h)
  ship : ∀ {s : Sniffer} (writeSpace cap : Nat), I s → I (s.ship writeSpace cap)

/-- The state after a number of calls. -/
def Sniffer.serve (s : Sniffer) (calls : List Readings) : Sniffer :=
  run (fun s r => (s.service r).1) s calls

@[simp] theorem Sniffer.serve_nil (s : Sniffer) : s.serve [] = s := rfl

theorem Sniffer.serve_cons (s : Sniffer) (r : Readings) (calls : List Readings) :
    s.serve (r :: calls) = (s.service r).1.serve calls := rfl

theorem Sniffer.serve_append (s : Sniffer) (calls calls' : List Readings) :
    s.serve (calls ++ calls') = (s.serve calls).serve calls' :=
  run_append s calls calls'

namespace OutputInvariant

variable {I : Sniffer → Prop} (hI : OutputInvariant I) {s : Sniffer}

include hI

theorem rearm (h : I s) (ms : UInt32) : I { s with modeHbMs := ms } :=
  hI.congr h ⟨rfl, rfl, rfl, rfl, rfl⟩

theorem heartbeat (h : I s) (nowMs : UInt32) : I (s.heartbeat nowMs) := by
  unfold Sniffer.heartbeat
  split
  · exact hI.rearm (hI.emitModeMarker h) _
  · exact h

theorem drainByte (h : I s) (b : UInt8) (t0 t1 t2 : UInt32) : I (s.drainByte b t0 t1 t2) := by
  have happ : I (s.appendByte b t0 t1) := by
    rw [s.appendByte_frame]
    exact hI.congr h ⟨rfl, rfl, rfl, rfl, rfl⟩
  simp only [Sniffer.drainByte]
  split
  · refine hI.emitRecord true ?_
    exact hI.congr happ ⟨rfl, rfl, rfl, rfl, rfl⟩
  · exact happ

theorem drainLoop (h : I s) (reads : List (UInt8 × DrainTimes)) : I (s.drainLoop reads) := by
  induction reads generalizing s with
  | nil => exact h
  | cons rd reads ih => exact ih (hI.drainByte h _ _ _ _)

theorem closeBurst (h : I s) (acc : UInt8) (t : UInt32) : I (s.closeBurst acc t).1 := by
  have hprep : I (s.withPartial acc t) := by
    rw [s.withPartial_frame]
    exact hI.congr h ⟨rfl, rfl, rfl, rfl, rfl⟩
  have hclosed := hI.emitRecord false hprep
  simp only [Sniffer.closeBurst]
  split <;> exact hI.congr hclosed ⟨rfl, rfl, rfl, rfl, rfl⟩

theorem finalize (h : I s) (nowMs : UInt32) (acc : UInt8) (tcap t : UInt32) :
    I (s.finalize nowMs acc tcap t).1 := by
  have hwatch : I (s.watchPartial nowMs acc) := by
    unfold Sniffer.watchPartial
    split <;> exact hI.congr h ⟨rfl, rfl, rfl, rfl, rfl⟩
  unfold Sniffer.finalize Sniffer.finalizeBurst
  split
  · exact hI.closeBurst hwatch acc t
  · split
    · exact hI.emitRecord false hwatch
    · exact hwatch

theorem finish (h : I s) (got : Bool) (nowMs : UInt32) (acc : UInt8) (r : TailReadings) :
    I (s.finish got nowMs acc r).1 := by
  have hdrained : I (s.afterDrain got nowMs r.last) := by
    unfold Sniffer.afterDrain
    split
    · exact hI.congr h ⟨rfl, rfl, rfl, rfl, rfl⟩
    · exact h
  exact hI.ship _ _ (hI.finalize hdrained nowMs acc r.tcap r.close)

theorem service (h : I s) (r : Readings) : I (s.service r).1 :=
  hI.finish (hI.drainLoop (hI.readHead r.head (hI.heartbeat h r.nowMs)) _) _ _ _ _

/-- What every call preserves holds after every run of calls. -/
theorem serve (h : I s) (calls : List Readings) : I (s.serve calls) :=
  AllSteps.invariant (fun _ r hs _ => hI.service hs r) h
    (allSteps_of_forall (fun _ _ => trivial) s calls)

end OutputInvariant

-- ---------------------------------------------------------------------------
-- What is staged
-- ---------------------------------------------------------------------------

def markerText : MetaText where
  ascii := Sniffer.MARKER
  bracket := by decide
  printable := by decide

/-- The frame an entry of the history left on the wire. -/
def Entry.frame? : Entry → Option WireFrame
  | .delivered r => some (.record r)
  | .marker => some (.metadata markerText)
  | .overrun => none
  | .dropped _ => none

/-- The mode marker it put there. -/
def Entry.marker? : Entry → Option (List UInt8)
  | .marker => some Sniffer.MARKER
  | .overrun | .dropped _ | .delivered _ => none

/-- The records delivered, in order. -/
def delivered : List Entry → List DataRecord
  | [] => []
  | .delivered r :: log => delivered log ++ [r]
  | _ :: log => delivered log

theorem Sniffer.delivered_heartbeat (s : Sniffer) (nowMs : UInt32) :
    delivered (s.heartbeat nowMs).log = delivered s.log := by
  unfold Sniffer.heartbeat
  rw [Sniffer.emitModeMarker_eq]
  split
  · split <;> rfl
  · rfl

/-- The frames of a history, in order. -/
def frames (log : List Entry) : List WireFrame := log.reverse.filterMap Entry.frame?

theorem frames_cons (e : Entry) (log : List Entry) :
    frames (e :: log) = frames log ++ e.frame?.toList := by
  rw [frames, List.reverse_cons, List.filterMap_append, List.filterMap_cons, List.filterMap_nil]
  cases e.frame? <;> rfl

theorem records_frames (log : List Entry) :
    (frames log).filterMap WireFrame.record? = delivered log := by
  induction log with
  | nil => rfl
  | cons e log ih =>
    rw [frames_cons, List.filterMap_append, ih]
    cases e with
    | delivered r => rfl
    | overrun => exact List.append_nil _
    | dropped r => exact List.append_nil _
    | marker => exact List.append_nil _

/-- The bytes shipped and the bytes waiting are the frames of the history,
behind the boundary `begin()` starts with. -/
def Staged (s : Sniffer) : Prop :=
  s.wire ++ s.ring.contents = 0xFF :: (frames s.log).flatMap WireFrame.emit

theorem staged_push {s : Sniffer} (h : Staged s) {f : WireFrame} {e : Entry}
    (he : e.frame? = some f) (hfit : f.emit.length ≤ s.ring.free) :
    s.wire ++ (s.ring.pushAll f.emit).2.contents =
      0xFF :: (frames (e :: s.log)).flatMap WireFrame.emit := by
  rw [(s.ring.contents_pushAll (by decide) (by decide) _ hfit).2, ← List.append_assoc, h,
    frames_cons, he, List.flatMap_append, List.cons_append]
  simp

theorem staged_invariant : OutputInvariant Staged where
  congr h hsame := by
    rw [Staged, hsame.ring, hsame.wire, hsame.log]
    exact h
  emitModeMarker {s} h := by
    rw [Sniffer.emitModeMarker_eq]
    split
    · rename_i hfit
      exact staged_push (f := .metadata markerText) h rfl hfit
    · exact h
  emitRecord {s} continued h := by
    by_cases hemits : s.Emits continued
    · by_cases hfit : (s.encoded continued).length ≤ s.ring.free
      · rw [s.emitRecord_delivered continued hemits hfit]
        exact staged_push (f := .record (s.openRecord continued)) h rfl hfit
      · rw [s.emitRecord_dropped continued hemits hfit, Staged, frames_cons, Entry.frame?,
          Option.toList_none, List.append_nil]
        exact h
    · rw [s.emitRecord_idle continued hemits]
      exact h
  readHead {s} head h := by
    unfold Sniffer.readHead
    split
    · rw [Staged, frames_cons, Entry.frame?, Option.toList_none, List.append_nil]
      exact h
    · exact h
  ship {s} writeSpace cap h := by
    have hn := s.shipCount_le_readContig writeSpace cap
    rw [Staged, Sniffer.ship]
    simp only
    rw [Ring.readPtr_eq (by decide) _ hn, Ring.contents_readCommit (by decide), List.append_assoc,
      List.take_append_drop]
    exact h

theorem staged_begin (ring : Ring RING_SZ UInt8) (nowMs : UInt32) (head : UInt8) :
    Staged (Sniffer.begin ring nowMs head) := by
  have hfirst : ([0xFF] : List UInt8).length ≤ ring.clear.free :=
    Sniffer.cleared_fits ring nowMs head
  have hpushed := (ring.clear.contents_pushAll (by decide) (by decide) [0xFF] hfirst).2
  have hfit : (frameMeta Sniffer.MARKER).length ≤ (ring.clear.pushAll [0xFF]).2.free := by
    rw [Ring.free_eq, hpushed, Ring.contents_clear, Sniffer.length_marker]
    decide
  have hmarked := ((ring.clear.pushAll [0xFF]).2.contents_pushAll (by decide) (by decide) _ hfit).2
  rw [hpushed, Ring.contents_clear, List.nil_append, List.singleton_append] at hmarked
  have hframes : (frames [.marker]).flatMap WireFrame.emit = frameMeta Sniffer.MARKER := by
    simp [frames, Entry.frame?, WireFrame.emit, markerText]
  have hwire : (Sniffer.cleared ring nowMs head).wire = [] := rfl
  rw [Sniffer.begin_eq, Staged]
  simp only [hframes, hwire, hmarked, List.nil_append]

/-- A host that gets everything staged reads exactly the delivered records. -/
theorem Staged.recordsFromBinary {s : Sniffer} (h : Staged s) :
    (MdioCodec.recordsFromBinary (s.wire ++ s.ring.contents)).records =
      (delivered s.log).map DataRecord.parsed := by
  have hdemux : MdioCodec.demuxV2 (0xFF :: (frames s.log).flatMap WireFrame.emit) =
      MdioCodec.demuxV2 ((frames s.log).flatMap WireFrame.emit) :=
    (Envelope.demuxV2_boundary [] _).trans (Envelope.demux_nil_append _)
  have hparse : (((delivered s.log).map DataRecord.raw).filterMap MdioCodec.parseRecord) =
      (delivered s.log).map DataRecord.parsed := by
    rw [List.filterMap_map, ← List.filterMap_eq_map]
    refine List.filterMap_congr fun r _ => ?_
    rw [Function.comp_apply, Envelope.codec_readsHeaders.parse_raw, Function.comp_apply]
  rw [h, MdioCodec.recordsFromBinary, hdemux, Envelope.demuxV2_frames, records_frames]
  simp only [hparse]
  refine List.filter_eq_self.mpr fun r hr => ?_
  obtain ⟨r, -, rfl⟩ := List.mem_map.mp hr
  rfl

end Tapioca.ClockedSniffer

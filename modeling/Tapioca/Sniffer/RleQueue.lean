-- SUMMARY: What lies between the run-length drain and the wire: the RAM ring, the bytes the filter has still to take, the reserved stretch.
import Tapioca.Sniffer.RleDrain

/-!
# The run-length queue

`service()` releases what it has filtered, and commits what it has put out, only
at the end of its loop; until then the bytes it has taken are still in the RAM
ring and the bytes it has put out are in the reserved stretch of the transmit
ring. `ahead` is what the filter has still to take.
-/

namespace Tapioca.RleSniffer

open Pioc RecordFramer Lib.Lts Lib.SlotRing

namespace System

variable (B : Build)

/-- The bytes of the RAM ring the filter loop has taken. -/
def taken (s : System) : Nat :=
  match s.pc with
  | .filter _ l => l.i
  | .idle | .readDrop .. | .mark .. | .finish .. | .report _ => 0

/-- The bytes in the reserved stretch of the transmit ring. -/
def reserved (s : System) : List UInt8 :=
  match s.pc with
  | .filter _ l => l.out
  | .idle | .readDrop .. | .mark .. | .finish .. | .report _ => []

/-- The squelch state the next byte meets. -/
def squelch (s : System) : Squelch :=
  match s.pc with
  | .filter _ l => l.squelch
  | .idle | .readDrop .. | .mark .. | .finish .. | .report _ => s.host.squelch

@[simp] theorem drain_pc (s : System) : s.drain.pc = s.pc := by
  simp only [drain]

@[simp] theorem drain_trace (s : System) : s.drain.trace = s.trace := by
  simp only [drain]

@[simp] theorem drain_taken (s : System) : s.drain.taken = s.taken := by
  simp only [taken, drain]

@[simp] theorem drain_reserved (s : System) : s.drain.reserved = s.reserved := by
  simp only [reserved, drain]

@[simp] theorem drain_squelch (s : System) : s.drain.squelch = s.squelch := by
  simp only [squelch, drain, Sniffer.drainPioc]

/-- What a drain adds to the drop count. -/
theorem drain_ramDrop (s : System) :
    s.drain.host.ramDrop = s.host.ramDrop + UInt32.ofNat (s.gap - s.toCopy) := by
  simp only [drain, Sniffer.drainPioc]
  split
  · rfl
  · rename_i hle
    have hzero : s.gap - s.toCopy = 0 := Nat.sub_eq_zero_of_le (Nat.not_lt.mp hle)
    rw [hzero]
    exact (UInt32.add_zero _).symm

/-- The bytes the filter has still to take, with their indices. -/
def ahead (s : System) : List (Nat × UInt8) := (s.queued.zip s.host.ram.contents).drop s.taken

/-- The bytes a drain takes, with their indices. -/
def fresh (s : System) : List (Nat × UInt8) :=
  ((List.range s.toCopy).map (s.first + ·)).zip (s.host.copied s.fifo.regs)

/-- A drain takes the bytes it counts: HEAD has not lapped its cursor, and no
slot it reads has been stored over. -/
def DrainsWhole (s : System) : Event → Prop
  | .drain => Near s ∧ (s.toCopy = 0 ∨ s.fifo.stored.length ≤ s.first + 30)
  | _ => True

instance decidableDrainsWhole (s : System) : ∀ e, Decidable (s.DrainsWhole e)
  | .drain => inferInstanceAs (Decidable (_ < _ ∧ (_ ∨ _)))
  | .store _ | .publish | .enter .. | .round | .readDrop | .mark _ | .finish .. | .report .. =>
    .isTrue trivial

theorem DrainsWhole.near {s : System} {e : Event} (h : s.DrainsWhole e) : DrainNear s e := by
  cases e with
  | drain => exact h.1
  | _ => trivial

end System

/-- The tag of what the filter puts out says so. -/
theorem Verdict.flatMap_tags (B : Build) (q : Squelch) (k : Nat) (b : UInt8) :
    ((q.verdict B.capIdleK b).tags k b).flatMap (Tag.bytes B) = q.emits B.capIdleK b := by
  unfold Squelch.emits
  cases q.verdict B.capIdleK b <;> rfl

theorem Verdict.run_mem_tags {v : Verdict} {k k' : Nat} {b b' : UInt8}
    (h : Tag.run k' b' ∈ v.tags k b) : v = .pass ∧ k' = k ∧ b' = b := by
  cases v with
  | pass => simpa [Verdict.tags] using h
  | boundary | drop | dropTail => simp [Verdict.tags] at h

namespace System

/-- The marks `service()` writes behind the drop count. -/
def finishTags (B : Build) (s : System) (nowMs : UInt32) (saw room : Bool) (space : Nat) : List Tag :=
  let tracked := s.host.trackActivity nowMs saw
  (if tracked.idleGap nowMs ∧ room then [.boundary] else []) ++
    (if (tracked.separate nowMs room).beatDue nowMs ∧ Sniffer.markerFits B space then [.mode] else [])

theorem run_notMem_finishTags (B : Build) (s : System) (nowMs : UInt32) (saw room : Bool)
    (space k : Nat) (b : UInt8) : Tag.run k b ∉ s.finishTags B nowMs saw room space := by
  intro hmem
  rcases List.mem_append.mp hmem with hmem | hmem <;> split at hmem <;> simp at hmem

theorem mark_trace (s : System) (nowMs : UInt32) (saw : Bool) (rd : UInt32) (room : Bool) :
    (s.mark nowMs saw rd room).trace =
      s.trace ++ if rd ≠ s.host.lossSeen ∧ room = true then [.loss] else [] := by
  simp only [mark]
  split <;> simp_all

theorem finish_trace (B : Build) (s : System) (nowMs : UInt32) (saw room : Bool) (space : Nat) :
    (s.finish B nowMs saw room space).trace = s.trace ++ s.finishTags B nowMs saw room space :=
  List.append_assoc _ _ _

theorem finish_wire (B : Build) (s : System) (nowMs : UInt32) (saw room : Bool) (space : Nat) :
    (s.finish B nowMs saw room space).host.wire =
      s.host.wire ++ (s.finishTags B nowMs saw room space).flatMap (Tag.bytes B) := by
  have htrack : (s.host.trackActivity nowMs saw).wire = s.host.wire := by
    unfold Sniffer.trackActivity
    split <;> rfl
  have hseparate : ∀ u : Sniffer, (u.separate nowMs room).wire =
      u.wire ++ if u.idleGap nowMs ∧ room then [0xFF] else [] := by
    intro u
    unfold Sniffer.separate
    split
    · rfl
    · exact (List.append_nil _).symm
  have hbeat : ∀ u : Sniffer, (u.heartbeat B nowMs space).wire =
      u.wire ++ if u.beatDue nowMs ∧ Sniffer.markerFits B space then
        0xFF :: frameMeta (marker B.fcpu) else [] := by
    intro u
    unfold Sniffer.heartbeat Sniffer.emitModeMarker
    by_cases hdue : u.beatDue nowMs = true <;> by_cases hfits : Sniffer.markerFits B space = true <;>
      simp [hdue, hfits]
  have hhost : (s.finish B nowMs saw room space).host =
      ((s.host.trackActivity nowMs saw).separate nowMs room).heartbeat B nowMs space := rfl
  rw [hhost, hbeat, hseparate, htrack, List.append_assoc, finishTags, List.flatMap_append]
  congr 2
  · split <;> rfl
  · split
    · exact (List.append_nil _).symm
    · rfl

theorem report_wire (B : Build) (s : System) (nowMs : UInt32) (d : TelemetryBlock) (space : Nat) :
    (s.report B nowMs d space).host.wire = s.host.wire ++
      (if s.host.reportDue B nowMs ∧ d.bytes.length ≤ space then [Tag.report d] else []).flatMap
        (Tag.bytes B) := by
  simp only [report, Sniffer.report]
  by_cases hdue : s.host.reportDue B nowMs = true <;> by_cases hfits : d.bytes.length ≤ space <;>
    simp [hdue, hfits, Tag.bytes]

end System

/-- The RAM ring holds the queued bytes, the wire what the trace says. -/
structure Queued (B : Build) (s : System) : Prop where
  aligned : Aligned s
  contents : s.host.ram.contents.map some = s.queued.map fun k => s.fifo.stored[k]?
  loop : ∀ nowMs l, s.pc = .filter nowMs l → l.i ≤ l.n ∧ l.n ≤ s.host.ram.count
  wire : s.host.wire ++ s.reserved = s.trace.flatMap (Tag.bytes B)
  runs : ∀ k b, Tag.run k b ∈ s.trace → s.fifo.stored[k]? = some b

theorem queued_begin (B : Build) (regs : Regs) (mem : Nat → UInt8) (lastT nowMs : UInt32)
    (space printed : Nat) : Queued B (System.begin B regs mem lastT nowMs space printed) := by
  have hempty : ({ mem, head := 0, tail := 0 } : RamRing).contents = [] :=
    RamRing.contents_clear { mem, head := 0, tail := 0 }
  refine
    { aligned := aligned_begin B regs mem lastT nowMs space printed
      contents := ?_
      loop := by rintro _ _ ⟨⟩
      wire := ?_
      runs := ?_ }
  · rw [System.begin, Sniffer.begin_frame]
    simp only [hempty, List.map_nil]
  · rw [System.begin, Sniffer.begin_frame]
    simp only [System.reserved, List.append_nil]
    by_cases hfits : Sniffer.markerFits B space = true <;> by_cases hdiag : B.diag = true <;>
      simp [hfits, hdiag, Tag.bytes]
  · intro k b hrun
    simp only [System.begin, List.mem_append] at hrun
    rcases hrun with hrun | hrun <;> split at hrun <;> simp at hrun

namespace Queued

variable {B : Build} {s : System}

theorem length_queued (h : Queued B s) : s.queued.length = s.host.ram.count := by
  have hlen := congrArg List.length h.contents
  rw [List.length_map, List.length_map, RamRing.length_contents] at hlen
  exact hlen.symm

theorem getD_queued {i : Nat} (hi : i < s.queued.length) : s.queued.getD i 0 = s.queued[i] := by
  rw [List.getD_eq_getElem?_getD, List.getElem?_eq_getElem hi, Option.getD_some]

/-- A queued byte is the stored byte of its index. -/
theorem getElem?_contents (h : Queued B s) {i : Nat} (hi : i < s.host.ram.count) :
    s.fifo.stored[s.queued.getD i 0]? = some (s.host.ram.peek i) := by
  have hlt : i < s.queued.length := h.length_queued ▸ hi
  have hval := congrArg (·[i]?) h.contents
  simp only [List.getElem?_map, RamRing.peek_eq _ hi, Option.map_some,
    List.getElem?_eq_getElem hlt, Option.some_inj] at hval
  rw [getD_queued hlt, hval]

/-- A drain appends what it takes to the queue. -/
theorem ahead_drain (h : Queued B s) : s.drain.ahead = s.ahead ++ s.fresh := by
  have hspace : (s.host.copied s.fifo.regs).length ≤ s.host.ram.space := by
    rw [length_copied]
    exact min_le_right _ _
  have hcontents : s.drain.host.ram.contents = s.host.ram.contents ++ s.host.copied s.fifo.regs :=
    s.host.ram.contents_append hspace
  have htaken : s.taken ≤ (s.queued.zip s.host.ram.contents).length := by
    rw [List.length_zip, h.length_queued, RamRing.length_contents, min_self]
    unfold System.taken
    split
    · rename_i nowMs l hpc
      exact (h.loop nowMs l hpc).1.trans (h.loop nowMs l hpc).2
    all_goals exact Nat.zero_le _
  have hqueued : s.drain.queued = s.queued ++ (List.range s.toCopy).map (s.first + ·) := rfl
  rw [System.ahead, System.drain_taken, hqueued, hcontents,
    List.zip_append (by rw [h.length_queued, RamRing.length_contents]),
    List.drop_append_of_le_length htaken]
  rfl

/-- A round of the loop takes the first byte ahead. -/
theorem ahead_round (h : Queued B s) {nowMs : UInt32} {l : Loop} (hpc : s.pc = .filter nowMs l)
    (hrun : l.running = true) :
    s.ahead = (s.queued.getD l.i 0, s.host.ram.peek l.i) :: (s.round B nowMs l).ahead := by
  obtain ⟨-, hcount⟩ := h.loop nowMs l hpc
  have hmore : l.i < l.n := by
    simp only [Loop.running, Bool.decide_and, Bool.and_eq_true, decide_eq_true_eq] at hrun
    exact hrun.1
  have hi : l.i < s.host.ram.count := by omega
  have hqueued : l.i < s.queued.length := h.length_queued ▸ hi
  have hlen : l.i < (s.queued.zip s.host.ram.contents).length := by
    rw [List.length_zip, h.length_queued, RamRing.length_contents, min_self]
    exact hi
  have hpeek := s.host.ram.peek_eq hi
  have hcontents : l.i < s.host.ram.contents.length := by
    rw [RamRing.length_contents]
    exact hi
  have hval : s.host.ram.contents[l.i] = s.host.ram.peek l.i := by
    rw [← Option.some_inj, ← hpeek, List.getElem?_eq_getElem]
  have hnext : (s.round B nowMs l).ahead = (s.queued.zip s.host.ram.contents).drop (l.i + 1) := by
    rw [System.round, if_pos hrun]
    rfl
  rw [hnext, System.ahead, System.taken, hpc, List.drop_eq_getElem_cons hlen, List.getElem_zip, hval,
    getD_queued hqueued]

/-- The end of the loop releases what it has taken. -/
theorem ahead_commit (h : Queued B s) {nowMs : UInt32} {l : Loop} (hpc : s.pc = .filter nowMs l)
    (hstop : l.running = false) : (s.round B nowMs l).ahead = s.ahead := by
  obtain ⟨hi, hcount⟩ := h.loop nowMs l hpc
  have hcontents := s.host.ram.contents_release (hi.trans hcount)
  rw [System.round, hstop, if_neg Bool.false_ne_true, System.ahead, System.ahead, System.taken,
    System.taken, hpc]
  simp only [Sniffer.commitLoop, hcontents, List.drop_zero]
  rw [List.zip_eq_zipWith, List.zip_eq_zipWith, List.drop_zipWith]

/-- Steps that leave the bytes, the queue and the loop alone, and add nothing to
the captured bytes on the wire. -/
theorem keep (h : Queued B s) {t : System} (haligned : Aligned t) (hfifo : t.fifo = s.fifo)
    (hram : t.host.ram = s.host.ram) (hqueued : t.queued = s.queued)
    (hpc : ∀ nowMs l, t.pc ≠ .filter nowMs l) (hidle : s.reserved = [])
    {tags : List Tag} (htrace : t.trace = s.trace ++ tags)
    (hwire : t.host.wire = s.host.wire ++ tags.flatMap (Tag.bytes B))
    (hmarks : ∀ k b, Tag.run k b ∉ tags) : Queued B t := by
  have hreserved : t.reserved = [] := by
    unfold System.reserved
    split
    · rename_i nowMs l hfilter
      exact absurd hfilter (hpc nowMs l)
    all_goals rfl
  refine ⟨haligned, ?_, fun nowMs l hfilter => absurd hfilter (hpc nowMs l), ?_, ?_⟩
  · rw [hram, hqueued, hfifo]
    exact h.contents
  · have hbefore := h.wire
    rw [hidle, List.append_nil] at hbefore
    rw [hreserved, List.append_nil, hwire, htrace, List.flatMap_append, hbefore]
  · intro k b hrun
    rw [htrace, List.mem_append] at hrun
    rw [hfifo]
    exact h.runs k b (hrun.resolve_right (hmarks k b))

theorem store (h : Queued B s) (v : UInt8) (hnext : s.fifo.published = s.fifo.stored.length) :
    Queued B { s with fifo := s.fifo.store v hnext } := by
  have hkeep : ∀ (k : Nat) (b : UInt8), s.fifo.stored[k]? = some b →
      (s.fifo.stored ++ [v])[k]? = some b := by
    intro k b hk
    rw [List.getElem?_append_left (List.getElem?_eq_some_iff.mp hk).1, hk]
  refine
    { aligned := ⟨h.aligned.cursor_le, h.aligned.tail_eq, h.aligned.slot_eq⟩
      contents := ?_
      loop := h.loop
      wire := h.wire
      runs := fun k b hrun => hkeep k b (h.runs k b hrun) }
  · refine h.contents.trans (List.map_congr_left fun k hk => ?_)
    have hmem : s.fifo.stored[k]? ∈ s.queued.map fun k => s.fifo.stored[k]? :=
      List.mem_map_of_mem hk
    rw [← h.contents] at hmem
    obtain ⟨b, -, hb⟩ := List.mem_map.mp hmem
    rw [← hb]
    exact (hkeep k b hb.symm).symm

theorem drain (h : Queued B s) (hwhole : s.DrainsWhole .drain) : Queued B s.drain := by
  obtain ⟨hnear, hlap⟩ := hwhole
  have hspace : (s.host.copied s.fifo.regs).length ≤ s.host.ram.space := by
    rw [length_copied]
    exact min_le_right _ _
  have hpub := s.fifo.published_le
  have hgap := h.aligned.gap_eq hnear
  have hcopy : s.toCopy ≤ s.gap := toCopy_le _ _
  refine ⟨h.aligned.drain hnear, ?_, ?_, ?_, ?_⟩
  · have htake : (s.host.copied s.fifo.regs).map some =
        ((List.range s.toCopy).map (s.first + ·)).map fun k => s.fifo.stored[k]? := by
      rw [h.aligned.copied_eq hnear hlap, List.map_map]
      refine List.ext_getElem? fun i => ?_
      rw [List.getElem?_map, List.getElem?_map, List.getElem?_take]
      by_cases hi : i < s.toCopy
      · have hidx : s.first + i < s.fifo.stored.length := by
          rw [System.first]
          omega
        rw [if_pos hi, List.getElem?_range hi, List.getElem?_drop, List.getElem?_eq_getElem hidx]
        simp only [Option.map_some, Function.comp_apply, List.getElem?_eq_getElem hidx]
      · rw [if_neg hi, List.getElem?_eq_none (by simpa using hi)]
        rfl
    have happend : s.drain.host.ram.contents = s.host.ram.contents ++ s.host.copied s.fifo.regs :=
      s.host.ram.contents_append hspace
    have hqueued : s.drain.queued = s.queued ++ (List.range s.toCopy).map (s.first + ·) := rfl
    rw [happend, hqueued, List.map_append, List.map_append, h.contents, htake]
    rfl
  · intro nowMs l hpc
    simp only [System.drain] at hpc
    obtain ⟨hi, hcount⟩ := h.loop nowMs l hpc
    have hram : s.drain.host.ram = s.host.ram.append (s.host.copied s.fifo.regs) := rfl
    rw [hram, s.host.ram.count_append hspace]
    exact ⟨hi, hcount.trans (Nat.le_add_right _ _)⟩
  · rw [System.drain_reserved]
    simp only [System.drain, Sniffer.drainPioc]
    exact h.wire
  · simp only [System.drain]
    exact h.runs

theorem round (h : Queued B s) {nowMs : UInt32} {l : Loop} (hpc : s.pc = .filter nowMs l)
    (hrun : l.running = true) : Queued B (s.round B nowMs l) := by
  obtain ⟨-, hcount⟩ := h.loop nowMs l hpc
  have hmore : l.i < l.n := by
    simp only [Loop.running, Bool.decide_and, Bool.and_eq_true, decide_eq_true_eq] at hrun
    exact hrun.1
  have hwire := h.wire
  rw [System.reserved, hpc] at hwire
  rw [System.round, if_pos hrun]
  refine
    { aligned := ⟨h.aligned.cursor_le, h.aligned.tail_eq, h.aligned.slot_eq⟩
      contents := h.contents
      loop := ?_
      wire := ?_
      runs := ?_ }
  · rintro _ _ hpc'
    obtain ⟨-, rfl⟩ := Pc.filter.inj hpc'
    exact ⟨hmore, hcount⟩
  · change s.host.wire ++ (l.out ++ l.squelch.emits B.capIdleK (s.host.ram.peek l.i)) = _
    rw [← List.append_assoc, hwire, List.flatMap_append]
    rw [Verdict.flatMap_tags]
  · intro k b hmem
    rcases List.mem_append.mp hmem with hold | hnew
    · exact h.runs k b hold
    · obtain ⟨-, rfl, rfl⟩ := Verdict.run_mem_tags hnew
      exact h.getElem?_contents (by omega)

theorem commit (h : Queued B s) {nowMs : UInt32} {l : Loop} (hpc : s.pc = .filter nowMs l)
    (hstop : l.running = false) : Queued B (s.round B nowMs l) := by
  obtain ⟨hi, hcount⟩ := h.loop nowMs l hpc
  have hcontents := s.host.ram.contents_release (hi.trans hcount)
  have hwire := h.wire
  rw [System.reserved, hpc] at hwire
  rw [System.round, hstop, if_neg Bool.false_ne_true]
  refine
    { aligned := ⟨h.aligned.cursor_le, h.aligned.tail_eq, h.aligned.slot_eq⟩
      contents := ?_
      loop := by rintro _ _ ⟨⟩
      wire := ?_
      runs := h.runs }
  · simp only [Sniffer.commitLoop, hcontents]
    rw [List.map_drop, List.map_drop, h.contents]
  · change (s.host.wire ++ l.out) ++ [] = _
    rw [List.append_nil, hwire]

theorem step (h : Queued B s) {e : Event} (he : s.DrainsWhole e) : Queued B (s.step B e) := by
  have haligned := h.aligned.step B he.near
  have hto := s.stepTo B e
  generalize s.step B e = t at haligned hto
  cases hto with
  | stay => exact h
  | store v hnext => exact h.store v.val hnext
  | publish hpub =>
    exact { aligned := haligned, contents := h.contents, loop := h.loop, wire := h.wire, runs := h.runs }
  | drain => exact h.drain he
  | enter nowMs writeSpace cap hpc =>
    have hwire := h.wire
    rw [System.reserved, hpc] at hwire
    refine { aligned := haligned, contents := h.contents, loop := ?_, wire := hwire, runs := h.runs }
    rintro _ _ hpc'
    obtain ⟨-, rfl⟩ := Pc.filter.inj hpc'
    exact ⟨Nat.zero_le _, min_le_left _ _⟩
  | round nowMs l hpc hrun => exact h.round hpc hrun
  | commit nowMs l hpc hstop => exact h.commit hpc hstop
  | readDrop nowMs saw hpc =>
    exact h.keep haligned rfl rfl rfl (by rintro _ _ ⟨⟩) (by rw [System.reserved, hpc])
      (List.append_nil _).symm (List.append_nil _).symm (by simp)
  | mark room nowMs saw rd hpc =>
    refine h.keep haligned rfl ?_ rfl (by rintro _ _ ⟨⟩) (by rw [System.reserved, hpc])
      (s.mark_trace nowMs saw rd room) ?_ ?_
    · rw [System.mark, Sniffer.markLoss_frame]
    · simp only [System.mark, Sniffer.markLoss]
      split <;> simp_all [Tag.bytes]
    · intro k b hmem
      split at hmem <;> simp at hmem
  | finish room space nowMs saw hpc =>
    refine h.keep haligned rfl ?_ rfl (by rintro _ _ ⟨⟩) (by rw [System.reserved, hpc])
      (s.finish_trace B nowMs saw room space) (s.finish_wire B nowMs saw room space)
      (s.run_notMem_finishTags B nowMs saw room space)
    rw [System.finish, Sniffer.finish_frame]
  | report d space nowMs hpc =>
    refine h.keep haligned rfl ?_ rfl (by rintro _ _ ⟨⟩) (by rw [System.reserved, hpc]) rfl
      (s.report_wire B nowMs d space) ?_
    · rw [System.report, Sniffer.report_frame]
    · intro k b hmem
      split at hmem <;> simp at hmem

end Queued

end Tapioca.RleSniffer

-- SUMMARY: The drop count as a watermark and as a statistic: when the marker condition of `service()` tells of an unreported drop.
import Tapioca.Sniffer.RleMarkers

/-!
# The drop count under telemetry

`ramDrop_` is compared with `lossSeen_` to find unreported drops, and the
once-a-second telemetry block of a diagnostic build clears it to count drops per
window. It leaves `lossSeen_` as it was. `Ledger` keeps the account the pair
stands for: the bytes dropped since the last `0xFD` was written.
-/

namespace Tapioca.RleSniffer

open Pioc Lib.Lts

namespace System

/-- The bytes a drain leaves in the FIFO for lack of RAM. -/
def lost (s : System) : Nat := s.gap - s.toCopy

/-- The bytes `drainPioc()` drops in a step. -/
def drops (s : System) : Event → Nat
  | .drain => s.lost
  | _ => 0

/-- The step writes a `0xFD`. -/
def writesLoss (s : System) (e : Event) : Bool :=
  match e, s.pc with
  | .mark room, .mark _ _ rd => rd ≠ s.host.lossSeen ∧ room
  | _, _ => false

/-- The telemetry block is due in the step. -/
def clearsDrops (B : Build) (s : System) (e : Event) : Bool :=
  match e, s.pc with
  | .report _ _, .report nowMs => s.host.reportDue B nowMs
  | _, _ => false

end System

/-- The system, and the bytes dropped since the last `0xFD` was written. -/
structure Ledger where
  sys : System
  dropped : Nat

namespace Ledger

def step (B : Build) (a : Ledger) (e : Event) : Ledger where
  sys := a.sys.step B e
  dropped := if a.sys.writesLoss e then 0 else a.dropped + a.sys.drops e

def begin (B : Build) (regs : Regs) (mem : Nat → UInt8) (lastT nowMs : UInt32)
    (space printed : Nat) : Ledger where
  sys := System.begin B regs mem lastT nowMs space printed
  dropped := 0

/-- The condition for a `0xFD` holds exactly while a drop is unreported. -/
def Reported (a : Ledger) : Prop := a.sys.host.ramDrop ≠ a.sys.host.lossSeen ↔ 0 < a.dropped

/-- No drain drops as many bytes as bring the count back to the watermark. A
marker is written only with the count it was decided on. Where telemetry
clears the count, the watermark is other than 0 exactly while a marker is owed. -/
def Undisturbed (B : Build) (a : Ledger) : Event → Prop
  | .drain => a.sys.lost = 0 ∨ a.sys.host.ramDrop + UInt32.ofNat a.sys.lost ≠ a.sys.host.lossSeen
  | .mark room => a.sys.writesLoss (.mark room) = true →
      ∀ nowMs saw rd, a.sys.pc = .mark nowMs saw rd → a.sys.host.ramDrop = rd
  | .report d space => a.sys.clearsDrops B (.report d space) = true →
      (a.sys.host.lossSeen ≠ 0 ↔ a.sys.host.ramDrop ≠ a.sys.host.lossSeen)
  | _ => True

-- ---------------------------------------------------------------------------
-- One step
-- ---------------------------------------------------------------------------

/-- A step that leaves the account alone. -/
theorem reported_kept {B : Build} {a : Ledger} {e : Event} (h : a.Reported)
    (hdrop : (a.step B e).sys.host.ramDrop = a.sys.host.ramDrop)
    (hseen : (a.step B e).sys.host.lossSeen = a.sys.host.lossSeen)
    (hcount : (a.step B e).dropped = a.dropped) : (a.step B e).Reported := by
  rw [Reported, hdrop, hseen, hcount]
  exact h

theorem reported_drain_iff {B : Build} {a : Ledger} (h : a.Reported) :
    (a.step B .drain).Reported ↔ a.Undisturbed B .drain := by
  have hdrop : (a.step B .drain).sys.host.ramDrop = a.sys.host.ramDrop + UInt32.ofNat a.sys.lost :=
    a.sys.drain_ramDrop
  have hseen : (a.step B .drain).sys.host.lossSeen = a.sys.host.lossSeen := by
    simp only [step, System.step, System.drain, Sniffer.drainPioc]
  have hcount : (a.step B .drain).dropped = a.dropped + a.sys.lost := rfl
  by_cases hnone : a.sys.lost = 0
  · have hsame : a.sys.host.ramDrop + UInt32.ofNat a.sys.lost = a.sys.host.ramDrop := by
      rw [hnone]
      exact UInt32.add_zero _
    have hsum : a.dropped + a.sys.lost = a.dropped := by rw [hnone, Nat.add_zero]
    exact iff_of_true (reported_kept h (hdrop.trans hsame) hseen (hcount.trans hsum)) (.inl hnone)
  · have hpos : 0 < a.dropped + a.sys.lost := by omega
    rw [Reported, hdrop, hseen, hcount, iff_true_right hpos]
    exact ⟨.inr, fun hor => hor.resolve_left hnone⟩

theorem reported_mark_iff {B : Build} {a : Ledger} (h : a.Reported) (room : Bool) :
    (a.step B (.mark room)).Reported ↔ a.Undisturbed B (.mark room) := by
  cases hpc : a.sys.pc with
  | mark nowMs saw rd =>
    by_cases hwritten : rd ≠ a.sys.host.lossSeen ∧ room = true
    · have hwrites : a.sys.writesLoss (.mark room) = true := by
        simpa [System.writesLoss, hpc] using hwritten
      have hhost : (a.step B (.mark room)).sys.host = { a.sys.host with
          wire := a.sys.host.wire ++ [0xFD], lossSeen := rd } := by
        simp only [step, System.step, hpc, System.mark, Sniffer.markLoss, if_pos hwritten]
      have hcount : (a.step B (.mark room)).dropped = 0 := if_pos hwrites
      rw [Reported, hhost, hcount, Undisturbed]
      constructor
      · intro hiff _ nowMs' saw' rd' hpc'
        rw [hpc] at hpc'
        obtain ⟨-, -, rfl⟩ := Pc.mark.inj hpc'
        exact not_not.mp (mt hiff.mp (lt_irrefl 0))
      · intro hund
        have heq := hund hwrites nowMs saw rd hpc
        exact iff_of_false (not_not.mpr heq) (lt_irrefl 0)
    · have hwrites : ¬ a.sys.writesLoss (.mark room) = true := by
        simpa [System.writesLoss, hpc] using hwritten
      have hhost : (a.step B (.mark room)).sys.host = a.sys.host := by
        simp only [step, System.step, hpc, System.mark, Sniffer.markLoss, if_neg hwritten]
      have hkept := reported_kept h (by rw [hhost]) (by rw [hhost]) (if_neg hwrites)
      exact iff_of_true hkept fun hw => absurd hw hwrites
  | idle | filter _ _ | readDrop _ _ | finish _ _ | report _ =>
    have hwrites : ¬ a.sys.writesLoss (.mark room) = true := by simp [System.writesLoss, hpc]
    have hsys : (a.step B (.mark room)).sys = a.sys := by simp only [step, System.step, hpc]
    have hkept := reported_kept h (by rw [hsys]) (by rw [hsys]) (if_neg hwrites)
    exact iff_of_true hkept fun hw => absurd hw hwrites

theorem reported_report_iff {B : Build} {a : Ledger} (h : a.Reported) (d : TelemetryBlock)
    (space : Nat) : (a.step B (.report d space)).Reported ↔ a.Undisturbed B (.report d space) := by
  have hcount : (a.step B (.report d space)).dropped = a.dropped := rfl
  cases hpc : a.sys.pc with
  | report nowMs =>
    cases hdue : a.sys.host.reportDue B nowMs with
    | true =>
      have hclears : a.sys.clearsDrops B (.report d space) = true := by
        simpa [System.clearsDrops, hpc] using hdue
      have hdrop : (a.step B (.report d space)).sys.host.ramDrop = 0 := by
        simp only [step, System.step, hpc, System.report, Sniffer.report, hdue, if_true]
      have hseen : (a.step B (.report d space)).sys.host.lossSeen = a.sys.host.lossSeen := by
        simp only [step, System.step, hpc, System.report, Sniffer.report, hdue, if_true]
      have hiff : a.sys.host.ramDrop ≠ a.sys.host.lossSeen ↔ 0 < a.dropped := h
      rw [Reported, hdrop, hseen, hcount, ne_comm, ← hiff, Undisturbed]
      exact ⟨fun hiff _ => hiff, fun hund => hund hclears⟩
    | false =>
      have hclears : ¬ a.sys.clearsDrops B (.report d space) = true := by
        simp [System.clearsDrops, hpc, hdue]
      have hhost : (a.step B (.report d space)).sys.host = a.sys.host := by
        simp only [step, System.step, hpc, System.report, Sniffer.report, hdue, Bool.false_eq_true, if_false]
      have hkept := reported_kept h (by rw [hhost]) (by rw [hhost]) hcount
      exact iff_of_true hkept fun hc => absurd hc hclears
  | idle | filter _ _ | readDrop _ _ | finish _ _ | mark _ _ _ =>
    have hclears : ¬ a.sys.clearsDrops B (.report d space) = true := by
      simp [System.clearsDrops, hpc]
    have hsys : (a.step B (.report d space)).sys = a.sys := by simp only [step, System.step, hpc]
    have hkept := reported_kept h (by rw [hsys]) (by rw [hsys]) hcount
    exact iff_of_true hkept fun hc => absurd hc hclears

/-- The count and the watermark move in a drain, with a marker and under
telemetry. -/
theorem counters_kept (B : Build) (s : System) (e : Event) :
    (e = .drain ∨ (∃ room, e = .mark room) ∨ ∃ d space, e = .report d space) ∨
      (s.step B e).host.ramDrop = s.host.ramDrop ∧ (s.step B e).host.lossSeen = s.host.lossSeen := by
  have hto := s.stepTo B e
  generalize s.step B e = t at hto
  cases hto with
  | stay | store | publish | enter | readDrop => exact .inr ⟨rfl, rfl⟩
  | drain => exact .inl (.inl rfl)
  | round nowMs l hpc hrun =>
    rw [System.round, if_pos hrun]
    exact .inr ⟨rfl, rfl⟩
  | commit nowMs l hpc hstop =>
    rw [System.round, hstop, if_neg Bool.false_ne_true]
    exact .inr ⟨rfl, rfl⟩
  | mark room => exact .inl (.inr (.inl ⟨room, rfl⟩))
  | finish =>
    rw [System.finish, Sniffer.finish_frame]
    exact .inr ⟨rfl, rfl⟩
  | report d space => exact .inl (.inr (.inr ⟨d, space, rfl⟩))

theorem reported_step_iff {B : Build} {a : Ledger} (h : a.Reported) (e : Event) :
    (a.step B e).Reported ↔ a.Undisturbed B e := by
  have hkept := counters_kept B a.sys e
  cases e with
  | drain => exact reported_drain_iff h
  | mark room => exact reported_mark_iff h room
  | report d space => exact reported_report_iff h d space
  | store _ | publish | enter _ _ _ | round | readDrop | finish _ _ =>
    obtain ⟨hdrop, hseen⟩ := hkept.resolve_left (by simp)
    exact iff_of_true (reported_kept h hdrop hseen rfl) trivial

end Ledger

/-- The condition for a `0xFD` tells of an unreported drop in every state of a run
if and only if no step of it disturbs the account. -/
theorem drops_reported_iff (B : Build) (regs : Regs) (mem : Nat → UInt8) (lastT nowMs : UInt32)
    (space printed : Nat) (evs : List Event) :
    let a := Ledger.begin B regs mem lastT nowMs space printed
    (∀ pre, pre <+: evs → (run (Ledger.step B) a pre).Reported) ↔
      AllSteps (Ledger.step B) (Ledger.Undisturbed B) a evs := by
  intro a
  have hbegin : a.Reported := by
    have hhost : a.sys.host.ramDrop = a.sys.host.lossSeen := by
      simp only [a, Ledger.begin, System.begin, Sniffer.begin_frame]
    exact iff_of_false (not_not.mpr hhost) (lt_irrefl 0)
  rw [forall_prefix_iff, and_iff_right hbegin]
  exact allSteps_iff_of_invariant (I := Ledger.Reported) (fun _ e h => Ledger.reported_step_iff h e)
    (fun _ e h he => (Ledger.reported_step_iff h e).mpr he) hbegin evs

-- ---------------------------------------------------------------------------
-- A marker without a drop
-- ---------------------------------------------------------------------------

/-- The diagnostic build for buses down to 5 kbit/s. -/
def diagnostic : Build where
  capIdleK := 150
  diag := true
  fcpu := 48000000

/-- A call of `service()` with one byte free on USB, up to the drop count. -/
def beginCall (nowMs : UInt32) : List Event := [.enter nowMs 1 0, .round]

/-- The rest of it: a marker, if one is owed, and no telemetry block that fits. -/
def endCall : List Event := [.readDrop, .mark true, .finish false 0, .report noReadings 0]

namespace Ledger

/-- Where `service()` stands, and with what account. -/
structure Stands (a : Ledger) (pc : Pc) (drop seen lastT : UInt32) (dropped : Nat) : Prop where
  pc : a.sys.pc = pc
  ramDrop : a.sys.host.ramDrop = drop
  lossSeen : a.sys.host.lossSeen = seen
  lastT : a.sys.host.lastT = lastT
  dropped : a.dropped = dropped

namespace Stands

variable {a : Ledger} {drop seen lastT nowMs : UInt32} {dropped : Nat}

/-- One byte on USB is not enough to take bytes of the RAM ring. -/
theorem enter (h : a.Stands .idle drop seen lastT dropped) (nowMs : UInt32) :
    (a.step diagnostic (.enter nowMs 1 0)).Stands
      (.filter nowMs ⟨0, 0, 0, [], a.sys.host.squelch, false⟩) drop seen lastT dropped := by
  have hn : min a.sys.host.ram.count (min ((if (1 : UInt16) > 160 then 1 - 160 else 0) : UInt16).toNat 192) =
      0 := by simp
  have hstart : a.sys.host.startLoop diagnostic 1 0 = ⟨0, 0, 0, [], a.sys.host.squelch, false⟩ := by
    simp only [Sniffer.startLoop, diagnostic, if_true, hn]
  have hsys : (a.step diagnostic (.enter nowMs 1 0)).sys =
      { a.sys with pc := .filter nowMs ⟨0, 0, 0, [], a.sys.host.squelch, false⟩ } := by
    simp only [step, System.step, h.pc, hstart]
  exact ⟨by rw [hsys], by rw [hsys]; exact h.ramDrop, by rw [hsys]; exact h.lossSeen,
    by rw [hsys]; exact h.lastT, h.dropped⟩

theorem commit {q : Squelch} (h : a.Stands (.filter nowMs ⟨0, 0, 0, [], q, false⟩) drop seen lastT dropped) :
    (a.step diagnostic .round).Stands (.readDrop nowMs false) drop seen lastT dropped := by
  have hsys : (a.step diagnostic .round).sys =
      { a.sys with
        host := a.sys.host.commitLoop ⟨0, 0, 0, [], q, false⟩
        pc := .readDrop nowMs false, queued := a.sys.queued.drop 0 } := by
    simp only [step, System.step, h.pc, System.round]
    exact if_neg (by simp [Loop.running])
  exact ⟨by rw [hsys], by rw [hsys]; exact h.ramDrop, by rw [hsys]; exact h.lossSeen,
    by rw [hsys]; exact h.lastT, h.dropped⟩

theorem beginCall (h : a.Stands .idle drop seen lastT dropped) (nowMs : UInt32) :
    (run (step diagnostic) a (beginCall nowMs)).Stands (.readDrop nowMs false) drop seen lastT dropped :=
  (h.enter nowMs).commit

theorem readDrop (h : a.Stands (.readDrop nowMs false) drop seen lastT dropped) :
    (a.step diagnostic .readDrop).Stands (.mark nowMs false drop) drop seen lastT dropped := by
  have hsys : (a.step diagnostic .readDrop).sys = { a.sys with pc := .mark nowMs false drop } := by
    simp only [step, System.step, h.pc, h.ramDrop]
  exact ⟨by rw [hsys], by rw [hsys]; exact h.ramDrop, by rw [hsys]; exact h.lossSeen,
    by rw [hsys]; exact h.lastT, h.dropped⟩

/-- A marker that is owed is written. -/
theorem mark (h : a.Stands (.mark nowMs false drop) drop seen lastT dropped) (howed : drop ≠ seen) :
    (a.step diagnostic (.mark true)).Stands (.finish nowMs false) drop drop lastT 0 := by
  have hwritten : drop ≠ a.sys.host.lossSeen ∧ True := ⟨by rw [h.lossSeen]; exact howed, trivial⟩
  have hhost : (a.step diagnostic (.mark true)).sys.host =
      { a.sys.host with wire := a.sys.host.wire ++ [0xFD], lossSeen := drop } := by
    simp only [step, System.step, h.pc, System.mark, Sniffer.markLoss]
    exact if_pos hwritten
  have hwrites : a.sys.writesLoss (.mark true) = true := by
    simpa [System.writesLoss, h.pc] using hwritten.1
  refine ⟨?_, by rw [hhost]; exact h.ramDrop, by rw [hhost], by rw [hhost]; exact h.lastT, if_pos hwrites⟩
  simp only [step, System.step, h.pc, System.mark]

theorem finish (h : a.Stands (.finish nowMs false) drop seen lastT dropped) :
    (a.step diagnostic (.finish false 0)).Stands (.report nowMs) drop seen lastT dropped := by
  have hsys : (a.step diagnostic (.finish false 0)).sys = a.sys.finish diagnostic nowMs false false 0 := by
    simp only [step, System.step, h.pc]
  refine ⟨?_, ?_, ?_, ?_, h.dropped⟩
  all_goals rw [hsys, System.finish, Sniffer.finish_frame]
  · exact h.ramDrop
  · exact h.lossSeen
  · exact h.lastT

/-- Telemetry that is due clears the count. -/
theorem report (h : a.Stands (.report nowMs) drop seen lastT dropped) (hdue : 1000 ≤ nowMs - lastT) :
    (a.step diagnostic (.report noReadings 0)).Stands .idle 0 seen nowMs dropped := by
  have hdue' : a.sys.host.reportDue diagnostic nowMs = true := by
    simpa [Sniffer.reportDue, diagnostic, h.lastT] using hdue
  refine ⟨?_, ?_, ?_, ?_, h.dropped⟩
  all_goals simp only [step, System.step, h.pc, System.report, Sniffer.report, hdue', if_true]
  exact h.lossSeen

/-- A call that owes a marker in a second that telemetry is due in. -/
theorem endCall (h : a.Stands (.readDrop nowMs false) drop seen lastT dropped) (howed : drop ≠ seen)
    (hdue : 1000 ≤ nowMs - lastT) :
    (run (step diagnostic) a endCall).Stands .idle 0 drop nowMs 0 :=
  ((h.readDrop.mark howed).finish).report hdue

end Stands

/-- Between two calls, with all that was captured drained, and `count` bytes in
the RAM ring. -/
structure Drained (a : Ledger) (count : Nat) (drop : UInt32) (dropped : Nat) : Prop where
  stands : a.Stands .idle drop 0 0 dropped
  aligned : Aligned a.sys
  settled : a.sys.fifo.published = a.sys.fifo.stored.length
  caught : a.sys.cursor = a.sys.fifo.published
  count : a.sys.host.ram.count = count

namespace Drained

variable {a : Ledger} {count dropped : Nat} {drop : UInt32}

/-- One more byte is put into the RAM ring, or dropped. -/
theorem fill (h : a.Drained count drop dropped) :
    (run (step diagnostic) a fillOne).Drained (count + min 1 (2047 - count))
      (drop + UInt32.ofNat (1 - min 1 (2047 - count))) (dropped + (1 - min 1 (2047 - count))) := by
  obtain ⟨f, hf⟩ : ∃ f : Fifo layout, f = a.sys.fifo.store 5 h.settled := ⟨_, rfl⟩
  have hstore : a.sys.step diagnostic (.store ⟨5, by decide⟩) = { a.sys with fifo := f } := by
    rw [hf]
    exact dif_pos h.settled
  have hpub : f.published < f.stored.length := by
    rw [hf, Fifo.store_published, Fifo.store_stored, List.length_append, ← h.settled]
    exact Nat.lt_succ_self _
  -- u: stored and published, and not yet drained
  obtain ⟨u, hu⟩ : ∃ u : System, u = { a.sys with fifo := f.publish hpub } := ⟨_, rfl⟩
  have hpublish : System.step diagnostic { a.sys with fifo := f } .publish = u := by
    rw [hu]
    exact dif_pos hpub
  have hsys : (run (step diagnostic) a fillOne).sys = u.drain := by
    rw [← hpublish, ← hstore]
    rfl
  have hdropped : (run (step diagnostic) a fillOne).dropped = a.dropped + u.lost := by
    rw [← hpublish, ← hstore]
    rfl
  have haligned : Aligned u := by
    rw [← hpublish, ← hstore]
    exact (h.aligned.step diagnostic (e := .store ⟨5, by decide⟩) trivial).step diagnostic (e := .publish) trivial
  have hcursor : u.cursor = a.sys.fifo.published := by
    rw [hu]
    exact h.caught
  have hpublished : u.fifo.published = a.sys.fifo.published + 1 := by
    rw [hu, Fifo.publish_published, hf, Fifo.store_published]
  have hstored : u.fifo.stored.length = a.sys.fifo.published + 1 := by
    rw [hu, Fifo.publish_stored, hf, Fifo.store_stored, List.length_append, ← h.settled]
    rfl
  have hnear : Near u := by
    rw [Near]
    omega
  have hgap : u.gap = 1 := by
    rw [haligned.gap_eq hnear]
    omega
  have hcount : u.host.ram.count = count := by
    rw [hu]
    exact h.count
  -- the drain takes the byte as far as the ring has room, and counts the rest
  have hcopy : u.toCopy = min 1 (2047 - count) := by
    rw [← hgap, ← hcount, ← RamRing.space_eq]
    rfl
  have hlost : u.lost = 1 - min 1 (2047 - count) := by rw [System.lost, hgap, hcopy]
  have hdrained := haligned.drain hnear
  refine
    { stands := ⟨?_, ?_, ?_, ?_, ?_⟩
      aligned := by rw [hsys]; exact hdrained
      settled := by rw [hsys]; exact hpublished.trans hstored.symm
      caught := by rw [hsys]; rfl
      count := ?_ }
  · rw [hsys]
    simp only [System.drain]
    rw [hu]
    exact h.stands.pc
  · have hdrop : u.host.ramDrop = drop := by
      rw [hu]
      exact h.stands.ramDrop
    rw [hsys, System.drain_ramDrop, hdrop, hgap, hcopy]
  · rw [hsys]
    simp only [System.drain, Sniffer.drainPioc]
    rw [hu]
    exact h.stands.lossSeen
  · rw [hsys]
    simp only [System.drain, Sniffer.drainPioc]
    rw [hu]
    exact h.stands.lastT
  · rw [hdropped, hlost, h.stands.dropped]
  · have hroom : (u.host.copied u.fifo.regs).length ≤ u.host.ram.space := by
      rw [length_copied]
      exact min_le_right _ _
    have hpushed := u.host.ram.count_append hroom
    have hram : u.drain.host.ram = u.host.ram.append (u.host.copied u.fifo.regs) := by
      simp only [System.drain, Sniffer.drainPioc]
    rw [hsys, hram, hpushed, hcount, ← hcopy, length_copied]
    rfl

/-- The RAM ring takes 2047 bytes. -/
theorem fillAll (h : a.Drained 0 0 0) {n : Nat} (hn : n ≤ 2047) :
    (run (step diagnostic) a (List.replicate n fillOne).flatten).Drained n 0 0 := by
  induction n with
  | zero => exact h
  | succ n ih =>
    have hnext := (ih (by omega)).fill
    have hone : min 1 (2047 - n) = 1 := by omega
    rw [hone] at hnext
    simp only [List.replicate_succ', List.flatten_append, List.flatten_cons, List.flatten_nil,
      List.append_nil, run_append]
    exact hnext

end Drained

end Ledger

/-- The RAM ring is filled and one byte dropped. A call reports it, and telemetry
clears the count. The next call is on its way to the drop count. -/
def reportedThenCleared : List Event :=
  (List.replicate 2047 fillOne).flatten ++ fillOne ++ beginCall 1000 ++ endCall ++ beginCall 1001

/-- The second call finds a marker owed, with nothing dropped since the first
call wrote one. -/
theorem marker_without_drop :
    let a := run (Ledger.step diagnostic) (Ledger.begin diagnostic (fun _ => 0) (fun _ => 0) 0 0 0 0)
      reportedThenCleared
    a.sys.pc = .readDrop 1001 false ∧ ¬ a.Reported := by
  have hbegin : (Ledger.begin diagnostic (fun _ => 0) (fun _ => 0) 0 0 0 0).Drained 0 0 0 := by
    refine ⟨⟨rfl, ?_, ?_, ?_, rfl⟩, aligned_begin _ _ _ _ _ _ _, rfl, rfl, ?_⟩
    all_goals rw [Ledger.begin, System.begin, Sniffer.begin_frame]
    exact (RamRing.clear ⟨fun _ => 0, 0, 0⟩).count_eq
  have hfilled := hbegin.fillAll (le_refl 2047)
  have hdropped := hfilled.fill.stands
  have hcalled := (hdropped.beginCall 1000).endCall (by decide) (by decide)
  have hagain := hcalled.beginCall 1001
  simp only [reportedThenCleared, run_append]
  refine ⟨hagain.pc, fun hreported => ?_⟩
  rw [Ledger.Reported, hagain.ramDrop, hagain.lossSeen, hagain.dropped] at hreported
  exact absurd (hreported.mp (by decide)) (lt_irrefl 0)

end Tapioca.RleSniffer

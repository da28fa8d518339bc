-- SUMMARY: How long the clock has been silent when `service()` flushes a partial byte and restarts the eMCU.
import Tapioca.Sniffer.ClockedSystem

/-!
# When a partial is flushed

The clocked system with a clock. `service()` measures silence from the last call
that drained a byte, or, where no burst is open, from the first call that found
the partial; neither is the time of the last bit. `Timed` records what the calls
find, and when the eMCU last shifted a bit or published a byte.
-/

namespace Tapioca.ClockedSniffer

open Pioc ClockedBlob Lib.Lts

structure Timed where
  sys : System
  /-- The time, in microseconds. -/
  now : Nat
  /-- When the eMCU last shifted a bit or published a byte. -/
  active : Option Nat
  /-- The millisecond reading of the last call that drained a byte, or of `begin()`. -/
  drainedMs : UInt32
  /-- That of the first of the latest calls in a row that found a partial. -/
  partialMs : Option UInt32

/-- `dt` microseconds later. -/
structure Tick where
  dt : Nat
  event : Event

namespace Timed

/-- A bit is shifted or a byte published. -/
def acts (s : System) : Event → Bool
  | .mcu bit => !(s.emcu.samples bit).isEmpty || !s.emcu.publishes.isEmpty
  | _ => false

/-- The call that is about to end: its reading, whether it has drained a byte, and
ACC as it finds it. -/
def ending (s : System) : Event → Option (UInt32 × Bool × UInt8)
  | .finish _ =>
    match s.pc with
    | .draining nowMs h got => if s.host.sniffTail = h then some (nowMs, got, s.emcu.regs ACC) else none
    | .idle => none
  | _ => none

/-- The eMCU is restarted, which `service()` does where it has flushed a partial. -/
def flushes (s : System) : Event → Bool
  | .finish r =>
    match s.pc with
    | .draining nowMs h got =>
      s.host.sniffTail = h && (s.host.finish got nowMs (s.emcu.regs ACC) r).2
    | .idle => false
  | _ => false

/-- The reading of the last call that drained a byte, the one about to end included. -/
def lastDrain (t : Timed) (nowMs : UInt32) (got : Bool) : UInt32 := if got then nowMs else t.drainedMs

/-- The reading of the first of the calls in a row that found the partial. -/
def firstSeen (t : Timed) (nowMs : UInt32) : UInt32 := t.partialMs.getD nowMs

def step (t : Timed) (k : Tick) : Timed where
  sys := t.sys.step k.event
  now := t.now + k.dt
  active := if acts t.sys k.event then some (t.now + k.dt) else t.active
  drainedMs :=
    match ending t.sys k.event with
    | some (nowMs, got, _) => t.lastDrain nowMs got
    | none => t.drainedMs
  partialMs :=
    match ending t.sys k.event with
    | some (nowMs, _, acc) =>
      if Sniffer.kbits acc ≠ 0 ∧ ¬ flushes t.sys k.event then some (t.firstSeen nowMs) else none
    | none => t.partialMs

def begin (regs : Regs) (early : List Bool) (ring : Ring RING_SZ UInt8) (nowMs : UInt32) (now : Nat)
    (active : Option Nat) : Timed where
  sys := System.begin regs early ring nowMs
  now
  active
  drainedMs := nowMs
  partialMs := none

/-- A bit has been shifted or a byte published in the preceding 3 ms. -/
def Clocked (t : Timed) (k : Tick) : Prop := ∃ a ∈ t.active, t.now + k.dt < a + 3000

instance (t : Timed) (k : Tick) : Decidable (t.Clocked k) :=
  match h : t.active with
  | none => .isFalse (by simp [Clocked, h])
  | some a =>
    decidable_of_iff (t.now + k.dt < a + 3000) (by simp [Clocked, h])

/-- A flush finds the clock stopped. -/
def FlushSafe (t : Timed) (k : Tick) : Prop := flushes t.sys k.event → ¬ t.Clocked k

instance (t : Timed) (k : Tick) : Decidable (t.FlushSafe k) := inferInstanceAs (Decidable (_ → _))

/-- A call that finds a partial while the clock is running comes at most 3 ms behind the
last call that drained a byte, if a burst is open or a continued one is to be
terminated, and else behind the first call that found the partial. -/
def Prompt (t : Timed) (k : Tick) : Prop :=
  ∀ e ∈ ending t.sys k.event, Sniffer.kbits e.2.2 ≠ 0 → t.Clocked k →
    if t.sys.host.burstOpen ∨ t.sys.host.burstNeedTerminal then e.1 - t.lastDrain e.1 e.2.1 ≤ 3
    else e.1 - t.firstSeen e.1 ≤ 3

end Timed

-- ---------------------------------------------------------------------------
-- The timestamps
-- ---------------------------------------------------------------------------

/-- The timestamps of the idle tests stay. -/
structure SameWatch (s t : Sniffer) : Prop where
  last : t.sniffLastMs = s.sniffLastMs
  seenMs : t.partialSeenMs = s.partialSeenMs
  seenBits : t.partialSeenBits = s.partialSeenBits

namespace SameWatch

variable {s t u : Sniffer}

theorem trans (h : SameWatch s t) (h' : SameWatch t u) : SameWatch s u :=
  ⟨h'.last.trans h.last, h'.seenMs.trans h.seenMs, h'.seenBits.trans h.seenBits⟩

theorem emitRecord (s : Sniffer) (continued : Bool) : SameWatch s (s.emitRecord continued) := by
  rw [Sniffer.emitRecord_frame]
  exact ⟨rfl, rfl, rfl⟩

theorem heartbeat (s : Sniffer) (nowMs : UInt32) : SameWatch s (s.heartbeat nowMs) := by
  rw [Sniffer.heartbeat_frame]
  exact ⟨rfl, rfl, rfl⟩

theorem readHead (s : Sniffer) (head : UInt8) : SameWatch s (s.readHead head) := by
  unfold Sniffer.readHead
  split <;> exact ⟨rfl, rfl, rfl⟩

theorem drainByte (s : Sniffer) (b : UInt8) (t0 t1 t2 : UInt32) :
    SameWatch s (s.drainByte b t0 t1 t2) := by
  have happ : SameWatch s (s.appendByte b t0 t1) := by
    rw [Sniffer.appendByte_frame]
    exact ⟨rfl, rfl, rfl⟩
  simp only [Sniffer.drainByte]
  generalize s.appendByte b t0 t1 = u at happ ⊢
  split
  · have hemit := emitRecord { u with burstLast := t2 } true
    exact happ.trans ⟨hemit.last, hemit.seenMs, hemit.seenBits⟩
  · exact happ

theorem ship (s : Sniffer) (writeSpace cap : Nat) : SameWatch s (s.ship writeSpace cap) := ⟨rfl, rfl, rfl⟩

/-- Closing a burst gives the partial up where it restarts the eMCU. -/
theorem finalizeBurst (s : Sniffer) (nowMs : UInt32) (acc : UInt8) (tcap t : UInt32) :
    SameWatch (if (s.finalizeBurst nowMs acc tcap t).2 then { s with partialSeenBits := 0 } else s)
      (s.finalizeBurst nowMs acc tcap t).1 := by
  unfold Sniffer.finalizeBurst
  by_cases hcloses : s.closes nowMs acc
  · have hclosed : SameWatch s { (s.withPartial acc t).emitRecord false with tailBits := 0 } := by
      refine trans (trans ?_ (emitRecord (s.withPartial acc t) false)) ⟨rfl, rfl, rfl⟩
      rw [Sniffer.withPartial_frame]
      exact ⟨rfl, rfl, rfl⟩
    rw [if_pos hcloses, Sniffer.closeBurst]
    by_cases hk : Sniffer.kbits acc ≠ 0
    · simp only [if_pos hk, if_true]
      exact ⟨hclosed.last, hclosed.seenMs, rfl⟩
    · simp only [if_neg hk, Bool.false_eq_true, if_false]
      exact hclosed
  · rw [if_neg hcloses]
    split
    · exact emitRecord s false
    · exact ⟨rfl, rfl, rfl⟩

end SameWatch

/-- The timestamps behind a call. -/
theorem finish_watch (s : Sniffer) (got : Bool) (nowMs : UInt32) (acc : UInt8) (r : TailReadings) :
    (s.finish got nowMs acc r).1.sniffLastMs = (if got then nowMs else s.sniffLastMs) ∧
    (s.finish got nowMs acc r).1.partialSeenBits =
      (if (s.finish got nowMs acc r).2 then 0 else Sniffer.kbits acc) ∧
    (Sniffer.kbits acc ≠ 0 → (s.finish got nowMs acc r).1.partialSeenMs =
      if s.partialSeenBits = 0 then nowMs else s.partialSeenMs) := by
  have hlast : ((s.afterDrain got nowMs r.last).watchPartial nowMs acc).sniffLastMs =
      if got then nowMs else s.sniffLastMs := by
    rw [Sniffer.watchPartial, Sniffer.afterDrain]
    cases got <;> split <;> rfl
  have hbits : ((s.afterDrain got nowMs r.last).watchPartial nowMs acc).partialSeenBits =
      Sniffer.kbits acc := by
    rw [Sniffer.watchPartial]
    split
    · rfl
    · rename_i hzero
      exact (not_not.mp hzero).symm
  have hms (hk : Sniffer.kbits acc ≠ 0) :
      ((s.afterDrain got nowMs r.last).watchPartial nowMs acc).partialSeenMs =
        if s.partialSeenBits = 0 then nowMs else s.partialSeenMs := by
    rw [Sniffer.watchPartial, if_pos hk, Sniffer.afterDrain]
    cases got <;> rfl
  have hsame := (SameWatch.finalizeBurst ((s.afterDrain got nowMs r.last).watchPartial nowMs acc)
    nowMs acc r.tcap r.close).trans (SameWatch.ship _ r.writeSpace r.cap)
  rw [Sniffer.finish_fst, Sniffer.finish_snd, Sniffer.finalize]
  refine ⟨hsame.last.trans ?_, hsame.seenBits.trans ?_, fun hk => hsame.seenMs.trans ?_⟩
  · split <;> exact hlast
  · split
    · rfl
    · exact hbits
  · split <;> exact hms hk

/-- The timestamps are those of the calls. -/
structure Watch (t : Timed) : Prop where
  last : t.sys.host.sniffLastMs = t.drainedMs
  seen : t.partialMs =
    if t.sys.host.partialSeenBits = 0 then none else some t.sys.host.partialSeenMs

theorem Watch.keep {t t' : Timed} (h : Watch t) (hsame : SameWatch t.sys.host t'.sys.host)
    (hdrained : t'.drainedMs = t.drainedMs) (hseenAt : t'.partialMs = t.partialMs) : Watch t' := by
  refine ⟨?_, ?_⟩
  · rw [hsame.last, hdrained]
    exact h.last
  · rw [hsame.seenBits, hsame.seenMs, hseenAt]
    exact h.seen

/-- Where a call finds the partial and no flush has come in between. -/
theorem Watch.firstSeen {t : Timed} (h : Watch t) (nowMs : UInt32) :
    t.firstSeen nowMs =
      if t.sys.host.partialSeenBits = 0 then nowMs else t.sys.host.partialSeenMs := by
  rw [Timed.firstSeen, h.seen]
  split <;> rfl

/-- What the end of a call finds stale. -/
theorem Watch.flushes_iff {t : Timed} (h : Watch t) (nowMs : UInt32) (got : Bool) (acc : UInt8)
    (r : TailReadings) :
    (t.sys.host.finish got nowMs acc r).2 = true ↔
      Sniffer.kbits acc ≠ 0 ∧
        ¬ (if t.sys.host.burstOpen ∨ t.sys.host.burstNeedTerminal then nowMs - t.lastDrain nowMs got ≤ 3
          else nowMs - t.firstSeen nowMs ≤ 3) := by
  rw [Sniffer.finish_restarts, Sniffer.FlushesPartial, and_comm]
  refine and_congr_right fun hk => ?_
  have hlast : (if got = true then nowMs else t.sys.host.sniffLastMs) = t.lastDrain nowMs got := by
    rw [Timed.lastDrain, h.last]
  have hwatched : ((t.sys.host.afterDrain got nowMs r.last).watchPartial nowMs acc).sniffLastMs =
      t.lastDrain nowMs got := by
    rw [← hlast, Sniffer.watchPartial, if_pos hk, Sniffer.afterDrain]
    cases got <;> rfl
  have hseen : ((t.sys.host.afterDrain got nowMs r.last).watchPartial nowMs acc).partialSeenMs =
      t.firstSeen nowMs := by
    rw [h.firstSeen, Sniffer.watchPartial, if_pos hk, Sniffer.afterDrain]
    cases got <;> rfl
  have hopen := t.sys.host.watched_burstOpen got nowMs acc r.last
  have hterm := t.sys.host.watched_burstNeedTerminal got nowMs acc r.last
  generalize (t.sys.host.afterDrain got nowMs r.last).watchPartial nowMs acc = u at *
  rw [Sniffer.closes, Sniffer.partialOnlyIdle, ← hopen, ← hterm, ← hwatched, ← hseen]
  by_cases hburst : u.burstOpen = true ∨ u.burstNeedTerminal = true
  · have hnot : ¬ (¬ u.burstOpen = true ∧ ¬ u.burstNeedTerminal = true) := by
      rintro ⟨hopen, hterm⟩
      exact hburst.elim hopen hterm
    rw [if_pos hburst, UInt32.not_le]
    grind
  · obtain ⟨hopen, hterm⟩ := not_or.mp hburst
    rw [if_neg hburst, UInt32.not_le]
    grind

/-- The end of a call. -/
theorem Watch.finish {t : Timed} (h : Watch t) {k : Tick} {r : TailReadings} (hk : k.event = .finish r)
    {nowMs : UInt32} {head : UInt8} {got : Bool} (hpc : t.sys.pc = .draining nowMs head got)
    (hdone : t.sys.host.sniffTail = head) : Watch (t.step k) := by
  have hending : Timed.ending t.sys k.event = some (nowMs, got, t.sys.emcu.regs ACC) := by
    simp only [Timed.ending, hk, hpc, if_pos hdone]
  have hflush : Timed.flushes t.sys k.event =
      (t.sys.host.finish got nowMs (t.sys.emcu.regs ACC) r).2 := by
    simp only [Timed.flushes, hk, hpc, hdone, decide_true, Bool.true_and]
  have hhost : (t.step k).sys.host = (t.sys.host.finish got nowMs (t.sys.emcu.regs ACC) r).1 := by
    simp only [Timed.step, hk, System.step, hpc, if_neg (not_not.mpr hdone)]
    split <;> rfl
  have hdrained : (t.step k).drainedMs = t.lastDrain nowMs got := by
    simp only [Timed.step, hending]
  have hseenAt : (t.step k).partialMs =
      if Sniffer.kbits (t.sys.emcu.regs ACC) ≠ 0 ∧
        ¬ (t.sys.host.finish got nowMs (t.sys.emcu.regs ACC) r).2 then some (t.firstSeen nowMs)
      else none := by
    simp only [Timed.step, hending, hflush]
  obtain ⟨hlast, hbits, hms⟩ := finish_watch t.sys.host got nowMs (t.sys.emcu.regs ACC) r
  refine ⟨?_, ?_⟩
  · rw [hhost, hdrained, hlast, Timed.lastDrain, h.last]
  · rw [hhost, hseenAt, hbits]
    by_cases hrestart : (t.sys.host.finish got nowMs (t.sys.emcu.regs ACC) r).2 = true
    · simp only [hrestart, if_true, not_true_eq_false, and_false, if_false]
    · by_cases hk : Sniffer.kbits (t.sys.emcu.regs ACC) = 0
      · rw [if_neg (fun hboth => hboth.1 hk), if_neg hrestart, if_pos hk]
      · rw [if_pos ⟨hk, hrestart⟩, if_neg hrestart, if_neg hk, hms hk, h.firstSeen]

theorem Watch.step {t : Timed} (h : Watch t) (k : Tick) : Watch (t.step k) := by
  have hkeep (hending : Timed.ending t.sys k.event = none)
      (hsame : SameWatch t.sys.host (t.sys.step k.event).host) : Watch (t.step k) :=
    h.keep hsame (by simp only [Timed.step, hending]) (by simp only [Timed.step, hending])
  cases hk : k.event with
  | mcu bit => exact hkeep (by rw [hk]; rfl) (by rw [hk]; exact ⟨rfl, rfl, rfl⟩)
  | enter nowMs =>
    refine hkeep (by rw [hk]; rfl) ?_
    rw [hk]
    simp only [System.step]
    split
    · exact (SameWatch.heartbeat _ _).trans (SameWatch.readHead _ _)
    · exact ⟨rfl, rfl, rfl⟩
  | take d =>
    refine hkeep (by rw [hk]; rfl) ?_
    rw [hk]
    simp only [System.step]
    split
    · exact ⟨rfl, rfl, rfl⟩
    · split
      · exact ⟨rfl, rfl, rfl⟩
      · exact SameWatch.drainByte _ _ _ _ _
  | finish r =>
    cases hpc : t.sys.pc with
    | idle =>
      refine hkeep (by simp only [Timed.ending, hk, hpc]) ?_
      rw [hk]
      simp only [System.step, hpc]
      exact ⟨rfl, rfl, rfl⟩
    | draining nowMs head got =>
      by_cases hdone : t.sys.host.sniffTail = head
      · exact h.finish hk hpc hdone
      · refine hkeep (by simp only [Timed.ending, hk, hpc, if_neg hdone]) ?_
        rw [hk]
        simp only [System.step, hpc, if_pos hdone]
        exact ⟨rfl, rfl, rfl⟩

/-- Where a flush falls. -/
theorem Watch.flushSafe_iff {t : Timed} (h : Watch t) (k : Tick) : t.FlushSafe k ↔ t.Prompt k := by
  unfold Timed.FlushSafe Timed.Prompt
  cases hk : k.event with
  | mcu bit => simp [Timed.flushes, Timed.ending]
  | enter nowMs => simp [Timed.flushes, Timed.ending]
  | take d => simp [Timed.flushes, Timed.ending]
  | finish r =>
    cases hpc : t.sys.pc with
    | idle => simp [Timed.flushes, Timed.ending, hpc]
    | draining nowMs head got =>
      by_cases hdone : t.sys.host.sniffTail = head
      · have hiff := h.flushes_iff nowMs got (t.sys.emcu.regs ACC) r
        have hending : Timed.ending t.sys (.finish r) = some (nowMs, got, t.sys.emcu.regs ACC) := by
          simp only [Timed.ending, hpc, if_pos hdone]
        have hflush : Timed.flushes t.sys (.finish r) =
            (t.sys.host.finish got nowMs (t.sys.emcu.regs ACC) r).2 := by
          simp only [Timed.flushes, hpc, hdone, decide_true, Bool.true_and]
        rw [hending, hflush, hiff]
        simp only [Option.mem_some_iff, forall_eq']
        tauto
      · simp [Timed.flushes, Timed.ending, hpc, hdone]

theorem watch_begin (regs : Regs) (early : List Bool) (ring : Ring RING_SZ UInt8) (nowMs : UInt32)
    (now : Nat) (active : Option Nat) : Watch (.begin regs early ring nowMs now active) := by
  have hbegin (head : UInt8) : (Sniffer.begin ring nowMs head).sniffLastMs = nowMs ∧
      (Sniffer.begin ring nowMs head).partialSeenBits = 0 := by
    rw [Sniffer.begin_eq]
    exact ⟨rfl, rfl⟩
  refine ⟨(hbegin _).1, ?_⟩
  exact (if_pos (hbegin _).2).symm

/-- In every run the flushes find the clock stopped exactly when every call that finds a
partial under a running clock is prompt. -/
theorem flushes_stopped_iff (regs : Regs) (early : List Bool) (ring : Ring RING_SZ UInt8) (nowMs : UInt32)
    (now : Nat) (active : Option Nat) (ticks : List Tick) :
    AllSteps Timed.step Timed.FlushSafe (.begin regs early ring nowMs now active) ticks ↔
      AllSteps Timed.step Timed.Prompt (.begin regs early ring nowMs now active) ticks :=
  allSteps_iff_of_invariant (I := Watch) (fun _ k h => h.flushSafe_iff k) (fun _ k h _ => h.step k)
    (watch_begin ..) ticks

/-- The calls pass the millisecond clock. -/
def Timed.Accurate (t : Timed) (k : Tick) : Prop :=
  ∀ nowMs, k.event = .enter nowMs → nowMs = UInt32.ofNat ((t.now + k.dt) / 1000)

instance (t : Timed) : (k : Tick) → Decidable (t.Accurate k)
  | ⟨dt, .enter nowMs⟩ =>
    decidable_of_iff (nowMs = UInt32.ofNat ((t.now + dt) / 1000)) (by simp [Timed.Accurate])
  | ⟨_, .mcu _⟩ | ⟨_, .take _⟩ | ⟨_, .finish _⟩ => .isTrue (by simp [Timed.Accurate])

/-- A byte is drained at 0 ms. The clock starts again shortly before 4 ms and has shifted
three bits when `service()` is called at 4 ms. -/
def resumedClock : List Tick :=
  (.mcu false :: byteSteps 0xA5 ++ serviceSteps 0 1).map (Tick.mk 0) ++
    [⟨3990, .mcu true⟩, ⟨2, .mcu true⟩, ⟨2, .mcu true⟩, ⟨6, .enter 4⟩, ⟨1, .finish ⟨0, 0, 0, 0, 0⟩⟩]

set_option maxRecDepth 10000 in
theorem flush_under_running_clock :
    AllSteps Timed.step Timed.Accurate (Timed.begin (fun _ => 0) [] freshRing 0 0 none) resumedClock ∧
    ¬ AllSteps Timed.step Timed.FlushSafe (Timed.begin (fun _ => 0) [] freshRing 0 0 none) resumedClock := by
  decide +kernel

end Tapioca.ClockedSniffer

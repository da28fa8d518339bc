-- SUMMARY: Which captured bytes a record of the clocked sniffer puts side by side, and the overrun that is no seam.
import Tapioca.Sniffer.ClockedSystem

/-!
# Seams

A record's payload is to be a slice of the captured stream. An overrun skips
bytes, and `service()` leaves an open burst open over it: the bytes before and
behind the hole then share a payload. Two races do the same: a slot stored over
between the read of HEAD and its own read, and a byte that `restartPioc()`
discards in front of the partial flushed behind it. In every run without these
three, payloads are slices.
-/

namespace Tapioca.ClockedSniffer

open Pioc ClockedBlob RecordFramer Lib.Lts
open Sniffer (kbits partialByte)

-- ---------------------------------------------------------------------------
-- The open burst
-- ---------------------------------------------------------------------------

/-- The delivered payloads are slices of `cap`, and the open burst is the end
of what has been consumed of it. -/
structure Slices (s : Sniffer) (consumed cap : List UInt8) : Prop where
  payloads : ∀ r ∈ delivered s.log, r.payload <:+: cap
  burst : s.burstBuf.bytes <:+ consumed
  closed : s.burstOpen = false → s.burstBuf.bytes = []
  room : s.burstBuf.bytes.length < BURST_MAX
  within : consumed <+: cap

namespace Slices

variable {s : Sniffer} {consumed cap : List UInt8}

theorem capture (h : Slices s consumed cap) (more : List UInt8) : Slices s consumed (cap ++ more) where
  payloads r hr := (h.payloads r hr).trans (List.prefix_append _ _).isInfix
  burst := h.burst
  closed := h.closed
  room := h.room
  within := h.within.trans (List.prefix_append _ _)

theorem congr (h : Slices s consumed cap) {t : Sniffer} (hlog : t.log = s.log)
    (hbuf : t.burstBuf = s.burstBuf) (hopen : t.burstOpen = s.burstOpen) : Slices t consumed cap where
  payloads := by rw [hlog]; exact h.payloads
  burst := by rw [hbuf]; exact h.burst
  closed := by rw [hopen, hbuf]; exact h.closed
  room := by rw [hbuf]; exact h.room
  within := h.within

/-- Bytes may be skipped while no burst is open. -/
theorem skip (h : Slices s consumed cap) {consumed' : List UInt8}
    (hskip : s.burstOpen → consumed' = consumed) (hwithin : consumed' <+: cap) :
    Slices s consumed' cap where
  payloads := h.payloads
  burst := by
    by_cases hopen : s.burstOpen
    · rw [hskip hopen]
      exact h.burst
    · rw [h.closed (Bool.eq_false_iff.mpr hopen)]
      exact List.nil_suffix
  closed := h.closed
  room := h.room
  within := hwithin

/-- A burst that is a slice is emitted as one. -/
theorem emitRecord (hpayloads : ∀ r ∈ delivered s.log, r.payload <:+: cap)
    (hburst : s.burstBuf.bytes <:+: cap) (hopen : s.burstOpen = true) (continued : Bool)
    (hwithin : consumed <+: cap) : Slices (s.emitRecord continued) consumed cap := by
  have hempty : Burst.empty.bytes.length < BURST_MAX := by decide
  by_cases hfit : (s.encoded continued).length ≤ s.ring.free
  · rw [s.emitRecord_delivered continued (.inl hopen) hfit]
    refine ⟨fun r hr => ?_, List.nil_suffix, fun _ => rfl, hempty, hwithin⟩
    rcases List.mem_append.mp hr with hr | hr
    · exact hpayloads r hr
    · rw [List.mem_singleton.mp hr]
      exact hburst
  · rw [s.emitRecord_dropped continued (.inl hopen) hfit]
    exact ⟨hpayloads, List.nil_suffix, fun _ => rfl, hempty, hwithin⟩

theorem heartbeat (h : Slices s consumed cap) (nowMs : UInt32) :
    Slices (s.heartbeat nowMs) consumed cap := by
  have hlog := s.delivered_heartbeat nowMs
  rw [s.heartbeat_frame]
  exact ⟨by rw [hlog]; exact h.payloads, h.burst, h.closed, h.room, h.within⟩

theorem readHead (h : Slices s consumed cap) (head : UInt8) :
    Slices (s.readHead head) consumed cap := by
  unfold Sniffer.readHead
  split
  · exact ⟨h.payloads, h.burst, h.closed, h.room, h.within⟩
  · exact h

theorem ship (h : Slices s consumed cap) (writeSpace room : Nat) :
    Slices (s.ship writeSpace room) consumed cap :=
  h.congr rfl rfl rfl

/-- The state in which `finish` decides whether to close the burst. -/
theorem watched (h : Slices s consumed cap) (got : Bool) (nowMs : UInt32) (acc : UInt8)
    (t : UInt32) : Slices ((s.afterDrain got nowMs t).watchPartial nowMs acc) consumed cap := by
  unfold Sniffer.watchPartial Sniffer.afterDrain
  split <;> split <;> exact h.congr rfl rfl rfl

/-- The next byte consumed joins the burst. -/
theorem drainByte (h : Slices s consumed cap) {b : UInt8} (hwithin : consumed ++ [b] <+: cap)
    (t0 t1 t2 : UInt32) : Slices (s.drainByte b t0 t1 t2) (consumed ++ [b]) cap := by
  have hpush : (s.burstBuf.push b).bytes = s.burstBuf.bytes ++ [b] := Burst.bytes_push b h.room
  have hburst : (s.burstBuf.push b).bytes <:+ consumed ++ [b] := by
    rw [hpush]
    obtain ⟨before, hbefore⟩ := h.burst
    exact ⟨before, by rw [← hbefore, List.append_assoc]⟩
  have happ := s.appendByte_frame b t0 t1
  rw [s.buffered_eq h.closed] at happ
  simp only [Sniffer.drainByte]
  generalize s.appendByte b t0 t1 = a at happ ⊢
  have hlog : a.log = s.log := by rw [happ]
  have hbuf : a.burstBuf = s.burstBuf.push b := by rw [happ]
  have hopen : a.burstOpen = true := by rw [happ]
  split
  · exact emitRecord (s := { a with burstLast := t2 }) (by rw [hlog]; exact h.payloads)
      (by rw [hbuf]; exact hburst.isInfix.trans hwithin.isInfix) hopen true hwithin
  · rename_i hroom
    exact
      { payloads := by rw [hlog]; exact h.payloads
        burst := by rw [hbuf]; exact hburst
        closed := fun hclosed => by rw [hopen] at hclosed; cases hclosed
        room := Nat.lt_of_not_le hroom
        within := hwithin }

/-- What `closeBurst` emits is a slice, the partial included. -/
theorem closeBurst (h : Slices s consumed cap) {acc : UInt8} (t : UInt32) {cap' : List UInt8}
    (hcap : cap <+: cap')
    (hburst : (if kbits acc ≠ 0 then s.burstBuf.push (partialByte acc) else s.burstBuf).bytes <:+: cap')
    {consumed' : List UInt8} (hwithin : consumed' <+: cap') :
    Slices (s.closeBurst acc t).1 consumed' cap' := by
  have hlog : (s.withPartial acc t).log = s.log := by rw [s.withPartial_frame]
  have hopen : (s.withPartial acc t).burstOpen = true := by rw [s.withPartial_frame]
  have hbuf : (s.withPartial acc t).burstBuf =
      if kbits acc ≠ 0 then s.burstBuf.push (partialByte acc) else s.burstBuf := by
    rw [s.withPartial_frame]
  have hemitted : Slices ((s.withPartial acc t).emitRecord false) consumed' cap' :=
    emitRecord (fun r hr => (h.payloads r (hlog ▸ hr)).trans hcap.isInfix) (hbuf ▸ hburst) hopen
      false hwithin
  simp only [Sniffer.closeBurst]
  generalize (s.withPartial acc t).emitRecord false = e at hemitted ⊢
  split <;> exact hemitted.congr rfl rfl rfl

/-- A call that restarts nothing. -/
theorem finish_whole (h : Slices s consumed cap) {got : Bool} {nowMs : UInt32} {acc : UInt8}
    {r : TailReadings} (hwhole : ¬ s.FlushesPartial got nowMs acc r) :
    Slices (s.finish got nowMs acc r).1 consumed cap := by
  rw [Sniffer.finish_fst, Sniffer.finalize, Sniffer.finalizeBurst]
  rw [Sniffer.FlushesPartial] at hwhole
  have hw := h.watched got nowMs acc r.last
  generalize (s.afterDrain got nowMs r.last).watchPartial nowMs acc = u at hw hwhole ⊢
  by_cases hcloses : u.closes nowMs acc
  · have hk : ¬ kbits acc ≠ 0 := fun hk => hwhole ⟨hcloses, hk⟩
    rw [if_pos hcloses]
    refine (hw.closeBurst r.close (List.prefix_refl _) ?_ hw.within).ship _ _
    rw [if_neg hk]
    exact hw.burst.isInfix.trans hw.within.isInfix
  · rw [if_neg hcloses]
    by_cases htcap : u.burstOpen ∧ r.tcap - u.burstT0 > BURST_TCAP_US
    · rw [if_pos htcap]
      exact (emitRecord hw.payloads (hw.burst.isInfix.trans hw.within.isInfix) htcap.1 false
        hw.within).ship _ _
    · rw [if_neg htcap]
      exact hw.ship _ _

/-- A call that flushes a partial, which joins the captured stream. -/
theorem finish_partial (h : Slices s consumed cap) {got : Bool} {nowMs : UInt32} {acc : UInt8}
    {r : TailReadings} (hflush : s.FlushesPartial got nowMs acc r)
    (hdrained : s.burstOpen → consumed = cap) :
    Slices (s.finish got nowMs acc r).1 (cap ++ [partialByte acc]) (cap ++ [partialByte acc]) := by
  rw [Sniffer.finish_fst, Sniffer.finalize, Sniffer.finalizeBurst]
  rw [Sniffer.FlushesPartial] at hflush
  have hw := h.watched got nowMs acc r.last
  have hopen := s.watched_burstOpen got nowMs acc r.last
  generalize (s.afterDrain got nowMs r.last).watchPartial nowMs acc = u at hw hopen hflush ⊢
  rw [if_pos hflush.1]
  refine (hw.closeBurst r.close (List.prefix_append _ _) ?_ (List.prefix_refl _)).ship _ _
  rw [if_pos hflush.2, Burst.bytes_push _ hw.room]
  by_cases hburst : s.burstOpen
  · rw [← hdrained hburst]
    obtain ⟨before, hbefore⟩ := hw.burst
    exact ⟨before, [], by rw [← hbefore, List.append_nil, List.append_assoc]⟩
  · rw [hw.closed (by rw [hopen]; exact Bool.eq_false_iff.mpr hburst)]
    exact (List.suffix_append _ _).isInfix

end Slices

-- ---------------------------------------------------------------------------
-- The run
-- ---------------------------------------------------------------------------

/-- The registers and cursors agree with the history, and the captured bytes
are the consumed ones and the pending ones. -/
structure Seamless (s : System) : Prop where
  aligned : Aligned s
  slices : ∃ consumed, s.captured = consumed ++ s.pending ∧ Slices s.host consumed s.captured

/-- A step of `service()` makes no seam inside a burst: HEAD is at most 16 bytes
ahead when it is read while a burst is open, no slot is stored over before it
is read, and an open burst that a partial is appended to has no byte pending. -/
def SeamSafeAt (s : System) : HostPc → Event → Prop
  | .idle, .enter _ => s.host.burstOpen → s.published ≤ s.cursor + 16
  | .draining _ h _, .take _ => s.host.sniffTail ≠ h → s.bytes.length ≤ s.cursor + 16
  | .draining nowMs h got, .finish r =>
    s.host.sniffTail = h → s.host.FlushesPartial got nowMs (s.emcu.regs ACC) r →
      s.host.burstOpen → s.published = s.cursor
  | _, _ => True

def SeamSafe (s : System) (e : Event) : Prop := SeamSafeAt s s.pc e

instance (s : System) : ∀ (pc : HostPc) (e : Event), Decidable (SeamSafeAt s pc e)
  | .idle, .enter _ => inferInstanceAs (Decidable (_ → _))
  | .draining .., .take _ => inferInstanceAs (Decidable (_ → _))
  | .draining .., .finish _ => inferInstanceAs (Decidable (_ → _))
  | .idle, .mcu _ | .idle, .take _ | .idle, .finish _ => .isTrue trivial
  | .draining .., .mcu _ | .draining .., .enter _ => .isTrue trivial

instance (s : System) (e : Event) : Decidable (SeamSafe s e) :=
  inferInstanceAs (Decidable (SeamSafeAt s s.pc e))

theorem Seamless.mcu {s : System} (h : Seamless s) (bit : Bool) : Seamless (s.mcuStep bit) := by
  obtain ⟨consumed, hcap, hslices⟩ := h.slices
  refine ⟨h.aligned.mcu bit, consumed, ?_, hslices.capture _⟩
  rw [h.aligned.pending_mcu bit, ← List.append_assoc, ← hcap]
  rfl

/-- Where a cursor moves on, what it passes is consumed. -/
theorem captured_advance {cap consumed published : List UInt8} {c c' : Nat}
    (hcap : cap = consumed ++ published.drop c) (hle : c ≤ c') :
    cap = consumed ++ (published.drop c).take (c' - c) ++ published.drop c' := by
  obtain ⟨k, rfl⟩ := Nat.exists_eq_add_of_le hle
  rw [Nat.add_sub_cancel_left, ← List.drop_drop, List.append_assoc, List.take_append_drop, hcap]

theorem Seamless.enter {s : System} (h : Seamless s) {nowMs : UInt32} (hpc : s.pc = .idle)
    (hsafe : s.host.burstOpen → s.published ≤ s.cursor + 16) :
    Seamless (s.step (.enter nowMs)) := by
  have haligned := h.aligned.step (.enter nowMs)
  obtain ⟨consumed, hcap, hslices⟩ := h.slices
  have hbeat : (s.host.heartbeat nowMs).sniffTail = UInt8.ofNat s.cursor := by
    rw [s.host.heartbeat_frame]
    exact h.aligned.tail_eq
  have hopen : ((s.host.heartbeat nowMs).readHead (UInt8.ofNat s.published)).burstOpen =
      s.host.burstOpen := by
    unfold Sniffer.readHead
    split <;> rw [s.host.heartbeat_frame]
  obtain ⟨-, hle, hclose, -⟩ := readHead_cursor _ h.aligned.cursor_le hbeat
  have hread := (hslices.heartbeat nowMs).readHead (UInt8.ofNat s.published)
  refine ⟨haligned, ?_⟩
  simp only [System.step, hpc, h.aligned.head]
  generalize (s.host.heartbeat nowMs).readHead (UInt8.ofNat s.published) = host at hle hclose hopen hread ⊢
  have hcursor := h.aligned.cursor_le
  have hmove : s.cursor ≤ s.published - (UInt8.ofNat s.published - host.sniffTail).toNat := by omega
  have hcap' := captured_advance hcap hmove
  refine ⟨_, hcap', hread.skip (fun hburst => ?_) ⟨_, hcap'.symm⟩⟩
  have hgap := hclose (hsafe (hopen ▸ hburst))
  have hstay : s.published - (UInt8.ofNat s.published - host.sniffTail).toNat - s.cursor = 0 := by
    omega
  rw [hstay, List.take_zero, List.append_nil]

theorem Seamless.take {s : System} (h : Seamless s) {t : DrainTimes} {nowMs : UInt32}
    {head : UInt8} {got : Bool} (hpc : s.pc = .draining nowMs head got)
    (hsafe : s.host.sniffTail ≠ head → s.bytes.length ≤ s.cursor + 16) :
    Seamless (s.step (.take t)) := by
  by_cases hmore : s.host.sniffTail = head
  · simpa only [System.step, hpc, if_pos hmore] using h
  refine ⟨h.aligned.step _, ?_⟩
  obtain ⟨consumed, hcap, hslices⟩ := h.slices
  have hpending := h.aligned.pending_take (h.aligned.unread hpc hmore) (hsafe hmore)
  have hcap' : s.captured = consumed ++ [s.emcu.regs s.host.slotAddr] ++
      (s.bytes.take s.published).drop (s.cursor + 1) := by
    rw [hcap, hpending, List.append_assoc]
    rfl
  simp only [System.step, hpc, if_neg hmore]
  exact ⟨_, hcap', hslices.drainByte ⟨_, hcap'.symm⟩ _ _ _⟩

theorem Seamless.finish {s : System} (h : Seamless s) {r : TailReadings} {nowMs : UInt32}
    {head : UInt8} {got : Bool} (hpc : s.pc = .draining nowMs head got)
    (hsafe : s.host.sniffTail = head → s.host.FlushesPartial got nowMs (s.emcu.regs ACC) r →
      s.host.burstOpen → s.published = s.cursor) :
    Seamless (s.step (.finish r)) := by
  by_cases hdone : s.host.sniffTail = head
  · refine ⟨h.aligned.step _, ?_⟩
    obtain ⟨consumed, hcap, hslices⟩ := h.slices
    have hrestarts := s.host.finish_restarts got nowMs (s.emcu.regs ACC) r
    simp only [System.step, hpc, if_neg (not_not.mpr hdone)]
    by_cases hflush : s.host.FlushesPartial got nowMs (s.emcu.regs ACC) r
    · have hdrained : s.host.burstOpen → consumed = s.captured := by
        intro hburst
        rw [hcap, System.pending_eq_nil (hsafe hdone hflush hburst).le, List.append_nil]
      have hsealed := hslices.finish_partial hflush hdrained
      rw [if_pos (hrestarts.mpr hflush)]
      exact ⟨_, (List.append_nil _).symm, hsealed⟩
    · have hwhole := hslices.finish_whole hflush
      rw [if_neg fun hrestart => hflush (hrestarts.mp hrestart)]
      exact ⟨consumed, hcap, hwhole⟩
  · simpa only [System.step, hpc, if_pos hdone] using h

theorem Seamless.step {s : System} (h : Seamless s) {e : Event} (hsafe : SeamSafe s e) :
    Seamless (s.step e) := by
  unfold SeamSafe at hsafe
  cases hpc : s.pc with
  | idle =>
    rw [hpc] at hsafe
    cases e with
    | mcu bit => exact h.mcu bit
    | enter nowMs => exact h.enter hpc hsafe
    | take t => simpa only [System.step, hpc] using h
    | finish r => simpa only [System.step, hpc] using h
  | draining nowMs head got =>
    rw [hpc] at hsafe
    cases e with
    | mcu bit => exact h.mcu bit
    | enter nowMs => simpa only [System.step, hpc] using h
    | take t => exact h.take hpc hsafe
    | finish r => exact h.finish hpc hsafe

theorem seamless_begin (regs : Regs) (early : List Bool) (ring : Ring RING_SZ UInt8)
    (nowMs : UInt32) : Seamless (System.begin regs early ring nowMs) := by
  have hroom : Burst.empty.bytes.length < BURST_MAX := by decide
  refine ⟨aligned_begin regs early ring nowMs, [], ?_, ?_⟩
  · exact (System.pending_eq_nil (s := System.begin regs early ring nowMs) (le_refl _)).symm
  · simp only [System.begin]
    rw [Sniffer.begin_eq]
    exact
      { payloads := fun r hr => by cases hr
        burst := List.nil_suffix
        closed := fun _ => rfl
        room := hroom
        within := List.nil_prefix }

/-- In every run whose steps make no seam inside a burst, every delivered
payload is a slice of the captured stream. -/
theorem payloads_sliced_when_safe (regs : Regs) (early : List Bool) (ring : Ring RING_SZ UInt8)
    (nowMs : UInt32) (evs : List Event)
    (hsafe : AllSteps System.step SeamSafe (System.begin regs early ring nowMs) evs) :
    let s := run System.step (System.begin regs early ring nowMs) evs
    ∀ r ∈ delivered s.host.log, r.payload <:+: s.captured := by
  have h : Seamless (run System.step (System.begin regs early ring nowMs) evs) :=
    AllSteps.invariant (fun s e hs he => hs.step he) (seamless_begin regs early ring nowMs) hsafe
  obtain ⟨consumed, -, hslices⟩ := h.slices
  exact hslices.payloads

/-- Two bytes and an idle gap, all from power-on. -/
def twoBytes : List Event :=
  .mcu false :: byteSteps 0xA5 ++ byteSteps 0x5A ++ serviceSteps 0 2 ++ serviceSteps 4 0

set_option maxRecDepth 10000 in
theorem twoBytes_sliced :
    let s := run System.step (System.begin (fun _ => 0) [] freshRing 0) twoBytes
    (delivered s.host.log).map DataRecord.payload = [[0xA5, 0x5A]] ∧
      ∀ r ∈ delivered s.host.log, r.payload <:+: s.captured :=
  ⟨by decide +kernel, payloads_sliced_when_safe _ _ _ _ _ (by decide +kernel)⟩

/-- A byte opens a burst. Behind it 17 more are captured before the next call,
which skips the oldest. -/
def overrunInBurst : List Event :=
  .mcu false :: byteSteps 0 ++ serviceSteps 0 1 ++
    (List.range 17).flatMap (fun v => byteSteps (UInt8.ofNat (v + 1))) ++
    serviceSteps 1 16 ++ serviceSteps 5 0

set_option maxRecDepth 10000 in
/-- One record carries byte 0 and byte 2 side by side. -/
theorem payload_not_sliced_over_overrun :
    ¬ let s := run System.step (System.begin (fun _ => 0) [] freshRing 0) overrunInBurst
      ∀ r ∈ delivered s.host.log, r.payload <:+: s.captured := by
  decide +kernel

end Tapioca.ClockedSniffer

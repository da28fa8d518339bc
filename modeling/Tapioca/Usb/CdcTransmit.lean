-- SUMMARY: What the USB-CDC device sends is what was queued: the packets armed on EP3 and the ring make up the accepted bytes.
import Tapioca.Usb.CdcSystem

/-!
# What the device sends

`Moves` relates two states of the device between which it has only moved bytes
from the front of the transmit ring into armed packets; every routine of the
device but a bus reset does no more than that. `Sound` is what they keep of EP3:
while a packet waits for the host the software flag is set, and no routine arms
with the flag set.
-/

namespace Tapioca.UsbCdc

open Usb Lib.Lts

theorem cap_dvd : 512 ∣ 2 ^ 32 := by decide

theorem cap_le : 512 ≤ 2 ^ 31 := by decide

/-- Between the two, bytes went from the ring into packets and nowhere else. -/
structure Moves (s s' : UsbCdc) : Prop where
  queue : s'.armed.flatten ++ s'.tx.contents = s.armed.flatten ++ s.tx.contents
  head : s'.tx.head = s.tx.head
  buf : s'.tx.buf = s.tx.buf
  free : s.tx.free ≤ s'.tx.free

/-- The packets are of a legal size, and the one that waits for the host is in
the buffer as it was armed. -/
structure Sound (s : UsbCdc) : Prop where
  packets : ∀ p ∈ s.armed, 0 < p.length ∧ p.length ≤ kPacket
  intact : s.clobbered = false
  loaded : s.flying → s.Loaded
  busy : s.flying → s.ep3Busy ∧ s.uifTransfer ≠ some (.inToken UEP3)
  idle : s.ep3Busy = false → s.uep3.res ≠ .ack ∧ s.uifTransfer ≠ some (.inToken UEP3)

/-- The two agree on all that EP3 sends from, and the second does not open it. -/
structure SameTx (s s' : UsbCdc) : Prop where
  tx : s'.tx = s.tx
  ep3 : s'.ep3 = s.ep3
  ep3TxLen : s'.uep3TxLen = s.uep3TxLen
  ep3Busy : s'.ep3Busy = s.ep3Busy
  armed : s'.armed = s.armed
  flying : s'.flying = s.flying
  clobbered : s'.clobbered = s.clobbered
  busRst : s'.uifBusRst = s.uifBusRst
  res : s'.uep3.res = .ack → s.uep3.res = .ack

namespace Moves

theorem refl (s : UsbCdc) : Moves s s := ⟨rfl, rfl, rfl, le_refl _⟩

theorem trans {s s' s'' : UsbCdc} (h : Moves s s') (h' : Moves s' s'') : Moves s s'' where
  queue := h'.queue.trans h.queue
  head := h'.head.trans h.head
  buf := h'.buf.trans h.buf
  free := h.free.trans h'.free

theorem freeContig {s s' : UsbCdc} (h : Moves s s') : s.tx.freeContig ≤ s'.tx.freeContig := by
  simp only [Ring.freeContig, h.head]
  have := h.free
  omega

theorem writePtr {s s' : UsbCdc} (h : Moves s s') (n : Nat) :
    s'.tx.writePtr n = s.tx.writePtr n := by
  simp only [Ring.writePtr, h.head, h.buf]

end Moves

namespace SameTx

theorem refl (s : UsbCdc) : SameTx s s := ⟨rfl, rfl, rfl, rfl, rfl, rfl, rfl, rfl, id⟩

theorem moves {s s' : UsbCdc} (h : SameTx s s') : Moves s s' where
  queue := by rw [h.armed, h.tx]
  head := by rw [h.tx]
  buf := by rw [h.tx]
  free := by rw [h.tx]

theorem loaded {s s' : UsbCdc} (h : SameTx s s') : s'.Loaded ↔ s.Loaded := by
  rw [Loaded, Loaded, packet, packet, h.ep3, h.ep3TxLen, h.armed]

theorem sound {s s' : UsbCdc} (h : SameTx s s') (hs : s.Sound)
    (ht : s'.uifTransfer = none ∨ s'.uifTransfer = s.uifTransfer) : s'.Sound where
  packets := by
    rw [h.armed]
    exact hs.packets
  intact := by rw [h.clobbered, hs.intact]
  loaded := by
    rw [h.flying, h.loaded]
    exact hs.loaded
  busy := by
    rw [h.flying, h.ep3Busy]
    intro hfly
    refine ⟨(hs.busy hfly).1, ?_⟩
    rcases ht with ht | ht
    · simp [ht]
    · rw [ht]
      exact (hs.busy hfly).2
  idle := by
    rw [h.ep3Busy]
    intro hbusy
    refine ⟨fun hack => (hs.idle hbusy).1 (h.res hack), ?_⟩
    rcases ht with ht | ht
    · simp [ht]
    · rw [ht]
      exact (hs.idle hbusy).2

end SameTx

-- ---------------------------------------------------------------------------
-- The routines of the device
-- ---------------------------------------------------------------------------

theorem setLineState_sameTx (s : UsbCdc) (value : UInt16) : SameTx s (s.setLineState value) := by
  rw [setLineState]
  split <;> exact ⟨rfl, rfl, rfl, rfl, rfl, rfl, rfl, rfl, id⟩

theorem clearHalt_sameTx (s : UsbCdc) (index : UInt8) : SameTx s (s.clearHalt index) := by
  rw [clearHalt]
  split_ifs <;> exact ⟨rfl, rfl, rfl, rfl, rfl, rfl, rfl, rfl, by simp [Endpoint.init]⟩

theorem setHalt_sameTx (s : UsbCdc) (index : UInt8) : SameTx s (s.setHalt index) := by
  rw [setHalt]
  split_ifs <;>
    exact ⟨rfl, rfl, rfl, rfl, rfl, rfl, rfl, rfl, by simp [Endpoint.halt, Endpoint.respond]⟩

theorem handleSetup_sameTx (s : UsbCdc) (req : SetupReq) : SameTx s (s.handleSetup req) := by
  rw [handleSetup]
  split_ifs
  · exact s.setLineState_sameTx _
  · exact .refl s
  · exact s.clearHalt_sameTx _
  · exact .refl s
  · exact s.setHalt_sameTx _
  · exact .refl s
  · exact .refl s

theorem ep2Out_sameTx (s : UsbCdc) (packet : List UInt8) : SameTx s (s.ep2Out packet) := by
  rw [ep2Out]
  split <;> exact ⟨rfl, rfl, rfl, rfl, rfl, rfl, rfl, rfl, id⟩

theorem reopenOut_sameTx (s : UsbCdc) : SameTx s s.reopenOut := by
  rw [reopenOut]
  split <;> exact ⟨rfl, rfl, rfl, rfl, rfl, rfl, rfl, rfl, id⟩

/-- Only the completion of EP3 touches what EP3 sends from. -/
theorem handleTransfer_sameTx (s : UsbCdc) {t : Transfer} (h : t ≠ .inToken UEP3) :
    SameTx s (s.handleTransfer t) := by
  cases t with
  | inToken ep =>
    have hep : ep ≠ UEP3 := fun he => h (congrArg _ he)
    simp only [handleTransfer, if_neg hep]
    split <;> exact ⟨rfl, rfl, rfl, rfl, rfl, rfl, rfl, rfl, id⟩
  | outToken ep packet =>
    simp only [handleTransfer]
    split
    · exact s.ep2Out_sameTx packet
    · exact .refl s
  | setup req => exact s.handleSetup_sameTx req
  | sof => exact .refl s

/-- A completion that is pending says that nothing is on its way. -/
theorem Sound.not_flying {s : UsbCdc} (hs : s.Sound) (h : s.uifTransfer = some (.inToken UEP3)) :
    s.flying = false := by
  rw [← Bool.not_eq_true]
  intro hfly
  exact (hs.busy hfly).2 h

theorem Sound.not_flying_of_idle {s : UsbCdc} (hs : s.Sound) (h : s.ep3Busy = false) :
    s.flying = false := by
  rw [← Bool.not_eq_true]
  intro hfly
  have := (hs.busy hfly).1
  simp [h] at this

/-- The buffer after a pop starts with what was popped. -/
theorem take_popEp3 (s : UsbCdc) {n : Nat} (h : n ≤ s.tx.size) :
    ((s.tx.pop n).1 ++ s.ep3.drop n).take n = s.tx.contents.take n := by
  have hlen : (s.tx.contents.take n).length = n := by
    rw [List.length_take, Ring.length_contents]
    omega
  rw [Ring.pop_fst, List.take_left' hlen]

/-- `armEp3FromTx` has a packet that it may send. -/
def Sendable (s : UsbCdc) (allowShort : Bool) : Prop :=
  s.tx.size ≠ 0 ∧ (kPacket ≤ s.tx.size ∨ allowShort = true)

/-- The next packet popped and armed. -/
def sendNext (s : UsbCdc) : UsbCdc :=
  ((s.popEp3 (min s.tx.size kPacket)).countTx (min s.tx.size kPacket)).armEp3
    (min s.tx.size kPacket)

theorem armEp3FromTx_of_sendable {s : UsbCdc} {allowShort : Bool} (h : s.Sendable allowShort) :
    s.armEp3FromTx allowShort = (true, s.sendNext) := by
  have hshort : ¬ (s.tx.size < kPacket ∧ ¬ allowShort = true) := by
    rintro ⟨hlt, hnot⟩
    rcases h.2 with hfull | hallow
    · omega
    · exact hnot hallow
  simp only [armEp3FromTx, if_neg h.1, if_neg hshort]
  rfl

theorem armEp3FromTx_of_not_sendable {s : UsbCdc} {allowShort : Bool}
    (h : ¬ s.Sendable allowShort) : s.armEp3FromTx allowShort = (false, s) := by
  simp only [armEp3FromTx]
  split_ifs with hzero hshort
  · rfl
  · rfl
  · refine absurd ⟨hzero, ?_⟩ h
    by_cases hallow : allowShort = true
    · exact .inr hallow
    · exact .inl (Nat.le_of_not_lt fun hlt => hshort ⟨hlt, hallow⟩)

/-- The next packet is the front of the queue. -/
theorem sendNext_packet (s : UsbCdc) :
    s.sendNext.packet = s.tx.contents.take (min s.tx.size kPacket) :=
  s.take_popEp3 (min_le_left _ _)

theorem sendNext_armed (s : UsbCdc) : s.sendNext.armed = s.armed ++ [s.sendNext.packet] := rfl

theorem sendNext_contents (s : UsbCdc) :
    s.sendNext.tx.contents = s.tx.contents.drop (min s.tx.size kPacket) :=
  Ring.contents_pop cap_dvd _ _

theorem sendNext_length (s : UsbCdc) : s.sendNext.packet.length = min s.tx.size kPacket := by
  rw [sendNext_packet, List.length_take, Ring.length_contents]
  omega

theorem sendNext_loaded {s : UsbCdc} (h : s.tx.size ≠ 0) : s.sendNext.Loaded := by
  refine ⟨?_, by rw [sendNext_armed, List.getLast?_concat]⟩
  have : 0 < kPacket := by decide
  rw [sendNext_length]
  omega

/-- Sending moves the front of the ring into a packet. -/
theorem armEp3FromTx_moves (s : UsbCdc) (allowShort : Bool) :
    Moves s (s.armEp3FromTx allowShort).2 := by
  by_cases h : s.Sendable allowShort
  · rw [armEp3FromTx_of_sendable h]
    constructor
    · rw [sendNext_armed, sendNext_packet, sendNext_contents, List.flatten_append,
        List.flatten_singleton, List.append_assoc, List.take_append_drop]
    · rfl
    · rfl
    · simp only [Ring.free_eq, sendNext_contents, List.length_drop]
      omega
  · rw [armEp3FromTx_of_not_sendable h]
    exact .refl s

/-- Armed with nothing on its way, EP3 is sound again. -/
theorem armEp3FromTx_sound {s : UsbCdc} (hs : s.Sound) (hfly : s.flying = false)
    (ht : s.uifTransfer ≠ some (.inToken UEP3)) (allowShort : Bool) :
    (s.armEp3FromTx allowShort).2.Sound := by
  by_cases h : s.Sendable allowShort
  · rw [armEp3FromTx_of_sendable h]
    have hloaded := sendNext_loaded h.1
    constructor
    · intro p hp
      rw [sendNext_armed] at hp
      rcases List.mem_append.mp hp with hp | hp
      · exact hs.packets p hp
      · rw [List.mem_singleton.mp hp]
        refine ⟨hloaded.1, ?_⟩
        rw [sendNext_length]
        exact min_le_right _ _
    · simp [sendNext, armEp3, countTx, popEp3, hs.intact, hfly]
    · exact fun _ => hloaded
    · exact fun _ => ⟨rfl, ht⟩
    · intro hbusy
      cases hbusy
  · rw [armEp3FromTx_of_not_sendable h]
    exact hs

/-- The completion of EP3, with the flag of the transfer cleared. -/
theorem release_sound {s : UsbCdc} (hs : s.Sound) (h : s.uifTransfer = some (.inToken UEP3)) :
    s.release.Sound := by
  have hfly : s.release.flying = false := hs.not_flying h
  refine ⟨hs.packets, hs.intact, ?_, ?_, ?_⟩
  · simp [hfly]
  · simp [hfly]
  · intro _
    exact ⟨by simp [release, ep3In, Endpoint.respond], by simp [release]⟩

theorem release_moves (s : UsbCdc) : Moves s s.release := ⟨rfl, rfl, rfl, le_refl _⟩

/-- What a routine that keeps the device sound also does. -/
structure Sends (s s' : UsbCdc) : Prop where
  moves : Moves s s'
  sound : s'.Sound
  busRst : s'.uifBusRst = false

theorem SameTx.sends {s s' : UsbCdc} (h : SameTx s s') (hs : s.Sound) (hrst : s.uifBusRst = false)
    (ht : s'.uifTransfer = none ∨ s'.uifTransfer = s.uifTransfer) : Sends s s' :=
  ⟨h.moves, h.sound hs ht, h.busRst.trans hrst⟩

theorem Sends.trans {s s' s'' : UsbCdc} (h : Sends s s') (h' : Sends s' s'') : Sends s s'' :=
  ⟨h.moves.trans h'.moves, h'.sound, h'.busRst⟩

theorem onIrq_sends {s : UsbCdc} (hs : s.Sound) (hrst : s.uifBusRst = false) :
    Sends s s.onIrq := by
  rcases ht : s.uifTransfer with _ | t
  · rw [onIrq_none ht, hrst, if_neg Bool.false_ne_true]
    split
    · exact SameTx.sends ⟨rfl, rfl, rfl, rfl, rfl, rfl, rfl, hrst.symm, id⟩ hs hrst (.inr rfl)
    · exact ⟨.refl s, hs, hrst⟩
  · rw [onIrq_some ht]
    by_cases hin : t = .inToken UEP3
    · subst hin
      exact ⟨s.release_moves, release_sound hs ht, hrst⟩
    · have hsame : SameTx s { s.handleTransfer t with uifTransfer := none } :=
        { s.handleTransfer_sameTx hin with }
      exact hsame.sends hs hrst (.inl rfl)

theorem poll_sends {s : UsbCdc} (hs : s.Sound) (hrst : s.uifBusRst = false) : Sends s s.poll := by
  rw [poll]
  split
  · exact onIrq_sends hs hrst
  · exact ⟨.refl s, hs, hrst⟩

theorem armEp3FromTx_busRst (s : UsbCdc) (allowShort : Bool) :
    (s.armEp3FromTx allowShort).2.uifBusRst = s.uifBusRst := by
  by_cases h : s.Sendable allowShort
  · rw [armEp3FromTx_of_sendable h]
    rfl
  · rw [armEp3FromTx_of_not_sendable h]

theorem armEp3FromTx_sends {s : UsbCdc} (hs : s.Sound) (hrst : s.uifBusRst = false)
    (hfly : s.flying = false) (ht : s.uifTransfer ≠ some (.inToken UEP3)) (allowShort : Bool) :
    Sends s (s.armEp3FromTx allowShort).2 :=
  ⟨s.armEp3FromTx_moves allowShort, armEp3FromTx_sound hs hfly ht allowShort,
    (s.armEp3FromTx_busRst allowShort).trans hrst⟩

/-- The hold of a short packet is not part of what EP3 sends. -/
theorem withPartial_sends {s : UsbCdc} (hs : s.Sound) (hrst : s.uifBusRst = false)
    (pending : Bool) (since : UInt32) : Sends s (s.withPartial pending since) :=
  SameTx.sends ⟨rfl, rfl, rfl, rfl, rfl, rfl, rfl, rfl, id⟩ hs hrst (.inr rfl)

theorem pump_sends {s : UsbCdc} (hs : s.Sound) (hrst : s.uifBusRst = false) : Sends s s.pump := by
  rcases ht : s.uifTransfer with _ | t
  · rw [pump_none ht]
    exact ⟨.refl s, hs, hrst⟩
  · by_cases hin : t = .inToken UEP3
    · subst hin
      have hdone : Sends s s.release := ⟨s.release_moves, release_sound hs ht, hrst⟩
      have harm := hdone.trans
        (armEp3FromTx_sends hdone.sound hrst (hs.not_flying ht) (by simp [release]) false)
      rw [pump_ep3In ht]
      split
      · exact harm.trans (withPartial_sends harm.sound harm.busRst _ _)
      · exact harm
    · rw [pump_other ht hin]
      exact onIrq_sends hs hrst

theorem armDue_idle {s : UsbCdc} {nowMs : UInt32} (h : s.armDue nowMs = true) :
    s.ep3Busy = false := by
  simp only [armDue, Bool.and_eq_true, Bool.not_eq_true'] at h
  exact h.1

/-- `tick` arms only with the flag clear: nothing is on its way, and no
completion of EP3 has come in since the poll. -/
theorem coalesceTx_sends {s : UsbCdc} (hs : s.Sound) (hrst : s.uifBusRst = false)
    (nowMs : UInt32) : Sends s (s.coalesceTx nowMs) := by
  rcases s.coalesceTx_cases nowMs with ⟨hdue, since, short, _, heq⟩ | ⟨_, pending, since, heq⟩
  · have hbusy := armDue_idle hdue
    have hpart := withPartial_sends hs hrst false since
    rw [heq]
    exact hpart.trans (armEp3FromTx_sends hpart.sound hrst (hs.not_flying_of_idle hbusy)
      (hs.idle hbusy).2 short)
  · rw [heq]
    exact withPartial_sends hs hrst pending since

theorem reopenOut_sends {s : UsbCdc} (hs : s.Sound) (hrst : s.uifBusRst = false) :
    Sends s s.reopenOut := by
  refine s.reopenOut_sameTx.sends hs hrst (.inr ?_)
  rw [reopenOut]
  split <;> rfl

/-- The bus takes the packet, or reports something else. -/
theorem report_sends {s : UsbCdc} (hs : s.Sound) (hrst : s.uifBusRst = false) {t : Transfer}
    (h : s.admits t = true) : Sends s (s.report t) := by
  refine ⟨⟨rfl, rfl, rfl, le_refl _⟩, ⟨hs.packets, hs.intact, ?_, ?_, ?_⟩, hrst⟩
  · intro hfly
    simp only [report, Bool.and_eq_true] at hfly
    exact hs.loaded hfly.1
  · intro hfly
    simp only [report, Bool.and_eq_true, decide_eq_true_eq] at hfly
    refine ⟨(hs.busy hfly.1).1, ?_⟩
    simp only [report, ne_eq, Option.some.injEq]
    exact hfly.2
  · intro hbusy
    have hidle := hs.idle hbusy
    refine ⟨hidle.1, ?_⟩
    simp only [report, ne_eq, Option.some.injEq]
    rintro rfl
    simp only [admits, decide_eq_true_eq, true_imp_iff] at h
    exact hidle.1 h.2.2

-- ---------------------------------------------------------------------------
-- What a tick arms
-- ---------------------------------------------------------------------------

/-- No flag waits to be polled. -/
structure Calm (s : UsbCdc) : Prop where
  transfer : s.uifTransfer = none
  busRst : s.uifBusRst = false
  suspend : s.uifSuspend = false

theorem Calm.reopenOut {s : UsbCdc} (h : s.Calm) : s.reopenOut.Calm := by
  rw [UsbCdc.reopenOut]
  split <;> exact ⟨h.transfer, h.busRst, h.suspend⟩

theorem tick_calm {s : UsbCdc} (h : s.Calm) (nowMs : UInt32) :
    s.tick nowMs = s.reopenOut.coalesceTx nowMs := by
  rw [tick, poll, if_neg (by simp [h.transfer, h.busRst, h.suspend])]

/-- The tick that finds the completion of EP3 goes on with EP3 free. -/
theorem tick_release {s : UsbCdc} (h : s.uifTransfer = some (.inToken UEP3)) (hcalm : s.release.Calm)
    (nowMs : UInt32) : s.tick nowMs = s.release.tick nowMs := by
  have hpoll : s.poll = s.release := by
    rw [poll, if_pos (.inl (by rw [h]; rfl)), onIrq_some h]
    rfl
  rw [tick_calm hcalm, tick, hpoll]

/-- A packet that is due is armed. -/
theorem coalesceTx_due {s : UsbCdc} {nowMs : UInt32} (h : s.armDue nowMs = true) :
    ∃ since, s.coalesceTx nowMs = (s.withPartial false since).sendNext := by
  rcases s.coalesceTx_cases nowMs with ⟨-, since, short, hsend, heq⟩ | ⟨hnot, -⟩
  · have hsize : s.tx.size ≠ 0 := by
      intro hzero
      simp [armDue, hzero, kPacket] at h
    have hsend : (s.withPartial false since).Sendable short := ⟨hsize, hsend⟩
    exact ⟨since, by rw [heq, armEp3FromTx_of_sendable hsend]⟩
  · exact absurd (hnot.symm.trans h) (by decide)

/-- A short packet that is not due is held, and from now at the latest. -/
theorem coalesceTx_held {s : UsbCdc} {nowMs : UInt32} (hfree : s.ep3Busy = false)
    (hsize : s.tx.size ≠ 0) (hshort : s.tx.size < kPacket) (hdue : s.armDue nowMs = false) :
    s.coalesceTx nowMs = s.withPartial true nowMs := by
  have hwait : s.partialPending = true → s.partialSinceMs = nowMs := by
    intro hpending
    have hyoung : ¬ kPartialFlushMs ≤ nowMs - s.partialSinceMs := by
      simpa [armDue, hfree, hsize, hpending, Nat.not_le.mpr hshort] using hdue
    have hzero : nowMs - s.partialSinceMs = 0 := by
      rw [kPartialFlushMs, UInt32.le_iff_toNat_le] at hyoung
      refine UInt32.toNat_inj.mp ?_
      simp only [UInt32.reduceToNat] at hyoung ⊢
      omega
    have hsum : nowMs = (nowMs - s.partialSinceMs) + s.partialSinceMs := by grind
    rw [hzero, UInt32.zero_add] at hsum
    exact hsum.symm
  have hheld : (if s.partialPending then s else s.withPartial true nowMs) = s.withPartial true nowMs := by
    split
    · next hpending =>
      have hsince := hwait hpending
      obtain ⟨⟩ := s
      simp only [withPartial] at hpending hsince ⊢
      rw [hpending, hsince]
    · rfl
  have hfresh : ¬ kPartialFlushMs ≤ nowMs - (s.withPartial true nowMs).partialSinceMs := by
    rw [withPartial, UInt32.sub_self]
    decide
  rw [coalesceTx, if_neg (by simp [hfree]), if_neg (Nat.not_le.mpr hshort), if_pos hsize]
  simp only [hheld, if_neg hfresh]

theorem coalesceTx_empty {s : UsbCdc} {nowMs : UInt32} (hfree : s.ep3Busy = false) (hsize : s.tx.size = 0) :
    s.coalesceTx nowMs = s.withPartial false s.partialSinceMs := by
  rw [coalesceTx, if_neg (by simp [hfree]), if_neg (by simp [hsize, kPacket]), if_neg (not_not.mpr hsize)]

/-- What a packet leaves in the ring. -/
theorem sendNext_drop (s : UsbCdc) : s.sendNext.tx.contents = s.tx.contents.drop kPacket := by
  rw [sendNext_contents]
  rcases Nat.le_total s.tx.size kPacket with hle | hle
  · rw [Nat.min_eq_left hle, ← Ring.length_contents, List.drop_length, List.drop_eq_nil_of_le]
    rw [Ring.length_contents]
    exact hle
  · rw [Nat.min_eq_right hle]

/-- Where the two ticks leave the device: the front of the ring is in a packet. -/
structure Sent (s s' : UsbCdc) : Prop where
  calm : s'.Calm
  contents : s'.tx.contents = s.tx.contents.drop kPacket
  opened : s'.ep3Busy = true → s'.uep3.res = .ack
  empty : s.tx.contents = [] → s'.ep3Busy = false

theorem tick_due {s : UsbCdc} (hcalm : s.Calm) {nowMs : UInt32} (h : s.armDue nowMs = true) :
    Sent s (s.tick nowMs) ∧ (s.tick nowMs).ep3Busy = true := by
  have hreopen := hcalm.reopenOut
  have hdue : s.reopenOut.armDue nowMs = true := by
    rw [← h, reopenOut]
    split <;> rfl
  obtain ⟨since, heq⟩ := coalesceTx_due hdue
  have htx : s.reopenOut.tx = s.tx := s.reopenOut_sameTx.tx
  rw [tick_calm hcalm, heq]
  refine ⟨⟨⟨hreopen.transfer, hreopen.busRst, hreopen.suspend⟩, ?_, fun _ => rfl, fun hnone => ?_⟩, rfl⟩
  · rw [sendNext_drop, ← htx]
    rfl
  · have hzero : s.tx.size = 0 := by rw [← Ring.length_contents, hnone, List.length_nil]
    simp [armDue, hzero, kPacket] at h

/-- Two ticks arm what waits: a full packet, or a short one that has been held. -/
theorem two_ticks {s : UsbCdc} (hcalm : s.Calm) (hfree : s.ep3Busy = false) {nowMs laterMs : UInt32}
    (hlater : kPartialFlushMs ≤ laterMs - nowMs) : Sent s ((s.tick nowMs).tick laterMs) := by
  have hreopen := hcalm.reopenOut
  have hsame := s.reopenOut_sameTx
  have hfree' : s.reopenOut.ep3Busy = false := hsame.ep3Busy.trans hfree
  cases hdue : s.armDue nowMs with
  | true =>
    obtain ⟨hsent, hbusy⟩ := tick_due hcalm hdue
    have hsame' := (s.tick nowMs).reopenOut_sameTx
    have hstay : (s.tick nowMs).tick laterMs = (s.tick nowMs).reopenOut := by
      rw [tick_calm hsent.calm, coalesceTx, if_pos (hsame'.ep3Busy.trans hbusy)]
    have hres : (s.tick nowMs).reopenOut.uep3.res = (s.tick nowMs).uep3.res := by
      rw [reopenOut]
      split <;> rfl
    rw [hstay]
    refine ⟨hsent.calm.reopenOut, ?_, fun _ => hres.trans (hsent.opened hbusy), fun hnone => ?_⟩
    · rw [hsame'.tx, hsent.contents]
    · rw [hsame'.ep3Busy, hsent.empty hnone]
  | false =>
    have hwait : s.reopenOut.armDue nowMs = false := by
      rw [← hdue, reopenOut]
      split <;> rfl
    by_cases hsize : s.tx.size = 0
    · -- nothing waits, at either tick
      have hnone : s.tx.contents = [] := List.eq_nil_of_length_eq_zero (by rw [Ring.length_contents, hsize])
      have hempty : ∀ u : UsbCdc, u.Calm → u.ep3Busy = false → u.tx = s.tx → ∀ t,
          (u.tick t).Calm ∧ (u.tick t).ep3Busy = false ∧ (u.tick t).tx = s.tx := by
        intro u hu hidle htx t
        have husame := u.reopenOut_sameTx
        rw [tick_calm hu, coalesceTx_empty (husame.ep3Busy.trans hidle) (by rw [husame.tx, htx, hsize])]
        exact ⟨⟨hu.reopenOut.transfer, hu.reopenOut.busRst, hu.reopenOut.suspend⟩,
          husame.ep3Busy.trans hidle, husame.tx.trans htx⟩
      obtain ⟨hcalm₁, hfree₁, htx₁⟩ := hempty s hcalm hfree rfl nowMs
      obtain ⟨hcalm₂, hfree₂, htx₂⟩ := hempty _ hcalm₁ hfree₁ htx₁ laterMs
      refine ⟨hcalm₂, ?_, fun hbusy => ?_, fun _ => hfree₂⟩
      · rw [htx₂, hnone, List.drop_nil]
      · rw [hfree₂] at hbusy
        cases hbusy
    · have hshort : s.tx.size < kPacket := by
        by_contra hfull
        simp [armDue, hfree, Nat.not_lt.mp hfull] at hdue
      have hheld : s.tick nowMs = s.reopenOut.withPartial true nowMs := by
        rw [tick_calm hcalm, coalesceTx_held hfree' (by rw [hsame.tx]; exact hsize)
          (by rw [hsame.tx]; exact hshort) hwait]
      have hcalm₁ : (s.reopenOut.withPartial true nowMs).Calm :=
        ⟨hreopen.transfer, hreopen.busRst, hreopen.suspend⟩
      have hdue₁ : (s.reopenOut.withPartial true nowMs).armDue laterMs = true := by
        simp [armDue, withPartial, hfree', hsame.tx, hsize, hlater]
      obtain ⟨hsent, -⟩ := tick_due hcalm₁ hdue₁
      have htx : (s.reopenOut.withPartial true nowMs).tx = s.tx := hsame.tx
      rw [hheld]
      exact ⟨hsent.calm, htx ▸ hsent.contents, hsent.opened, fun hnone => hsent.empty (htx ▸ hnone)⟩

-- ---------------------------------------------------------------------------
-- Runs
-- ---------------------------------------------------------------------------

namespace System

/-- What the packets and the ring hold is what was accepted, and the reserved
stretch is what the producer sees. -/
structure Transmits (s : System) : Prop where
  sound : s.cdc.Sound
  busRst : s.cdc.uifBusRst = false
  sent : s.cdc.armed.flatten ++ s.cdc.tx.contents = s.accepted
  fits : ∀ r, s.region = some r → r.length ≤ s.cdc.tx.freeContig
  sees : ∀ r, s.region = some r → s.cdc.tx.writePtr r.length = r

theorem init_transmits (rxBuf txBuf : Nat → UInt8) (ep3 : List UInt8) :
    (init rxBuf txBuf ep3).Transmits where
  sound := ⟨by simp [init, UsbCdc.init], rfl, by simp [init, UsbCdc.init],
    by simp [init, UsbCdc.init], by simp [init, UsbCdc.init, Endpoint.init]⟩
  busRst := rfl
  sent := by
    simp only [init, UsbCdc.init, List.flatten_nil, List.nil_append]
    exact Ring.contents_eq_nil (by simp [Ring.size])
  fits := by simp [init]
  sees := by simp [init]

/-- A routine of the device keeps the invariant. -/
theorem Transmits.device {s s' : System} (hs : s.Transmits) (h : Sends s.cdc s'.cdc)
    (hregion : s'.region = s.region) (hacc : s'.accepted = s.accepted) : s'.Transmits where
  sound := h.sound
  busRst := h.busRst
  sent := by rw [h.moves.queue, hacc, hs.sent]
  fits := by
    rw [hregion]
    intro r hr
    exact (hs.fits r hr).trans h.moves.freeContig
  sees := by
    rw [hregion]
    intro r hr
    rw [h.moves.writePtr, hs.sees r hr]

/-- What EP3 sends from does not include the ring. -/
theorem sound_tx {s : UsbCdc} (hs : s.Sound) (tx : Ring 512 UInt8) : Sound { s with tx := tx } :=
  { hs with }

theorem Transmits.write {s : System} (hs : s.Transmits) (src : List UInt8) :
    (s.call (.write src)).Transmits where
  sound := sound_tx hs.sound _
  busRst := hs.busRst
  sent := by
    simp only [call]
    rw [Ring.contents_push cap_dvd cap_le, ← List.append_assoc, hs.sent]
  fits := by simp [call]
  sees := by simp [call]

theorem Transmits.txReserve {s : System} (hs : s.Transmits) :
    (s.call .txReserve).Transmits where
  sound := hs.sound
  busRst := hs.busRst
  sent := hs.sent
  fits := by simp [call, Ring.writePtr]
  sees := by simp [call, Ring.writePtr]

theorem Transmits.fill {s : System} (hs : s.Transmits) (i : Nat) (b : UInt8) :
    (s.call (.fill i b)).Transmits := by
  rcases hr : s.region with _ | r
  · simp only [call, hr]
    exact hs
  · simp only [call, hr]
    split
    · next hi =>
      have hcontig := Nat.lt_of_lt_of_le hi (hs.fits r hr)
      constructor
      · exact sound_tx hs.sound _
      · exact hs.busRst
      · simp only [Ring.contents_poke cap_dvd _ hcontig]
        exact hs.sent
      · intro r' hr'
        simp only [Option.some_inj] at hr'
        rw [← hr', List.length_set]
        exact hs.fits r hr
      · intro r' hr'
        simp only [Option.some_inj] at hr'
        rw [← hr', List.length_set, Ring.writePtr_poke, hs.sees r hr]
    · exact hs

theorem Transmits.txCommit {s : System} (hs : s.Transmits) (n : Nat) :
    (s.call (.txCommit n)).Transmits := by
  rcases hr : s.region with _ | r
  · simp only [call, hr]
    exact hs
  · simp only [call, hr]
    split
    · next h =>
      have hcontig := h.1.trans (hs.fits r hr)
      constructor
      · exact sound_tx hs.sound _
      · exact hs.busRst
      · simp only []
        rw [Ring.contents_writeCommit cap_dvd cap_le _ hcontig, ← List.append_assoc, hs.sent,
          Ring.writePtr_take _ h.1, hs.sees r hr]
      · simp
      · simp
    · exact hs

theorem Transmits.call {s : System} (hs : s.Transmits) (c : Call) : (s.call c).Transmits := by
  cases c with
  | onIrq => exact hs.device (onIrq_sends hs.sound hs.busRst) rfl rfl
  | pump => exact hs.device (pump_sends hs.sound hs.busRst) rfl rfl
  | write src => exact hs.write src
  | txReserve => exact hs.txReserve
  | fill i b => exact hs.fill i b
  | txCommit n => exact hs.txCommit n
  | read maxLen =>
    refine hs.device (SameTx.sends ?_ hs.sound hs.busRst (.inr rfl)) rfl rfl
    exact ⟨rfl, rfl, rfl, rfl, rfl, rfl, rfl, rfl, id⟩
  | sessionStarted =>
    refine hs.device (SameTx.sends ?_ hs.sound hs.busRst (.inr rfl)) rfl rfl
    exact ⟨rfl, rfl, rfl, rfl, rfl, rfl, rfl, rfl, id⟩

theorem Transmits.step {s : System} (hs : s.Transmits) {e : Event} (he : e ≠ .busReset) :
    (s.step e).Transmits := by
  cases e with
  | transfer t =>
    simp only [System.step]
    split
    · next h => exact hs.device (report_sends hs.sound hs.busRst h) rfl rfl
    · exact hs
  | busReset => exact absurd rfl he
  | suspend =>
    refine hs.device (SameTx.sends ?_ hs.sound hs.busRst (.inr rfl)) rfl rfl
    exact ⟨rfl, rfl, rfl, rfl, rfl, rfl, rfl, rfl, id⟩
  | tick nowMs =>
    simp only [System.step]
    split
    · exact hs.device (poll_sends hs.sound hs.busRst) rfl rfl
    · exact hs
  | tickRest =>
    simp only [System.step]
    split
    · have hopen := reopenOut_sends hs.sound hs.busRst
      exact hs.device (hopen.trans (coalesceTx_sends hopen.sound hopen.busRst _)) rfl rfl
    · exact hs
  | call c =>
    simp only [System.step]
    split
    · exact hs.call c
    · exact hs

theorem run_transmits {s : System} (hs : s.Transmits) {evs : List Event}
    (h : Event.busReset ∉ evs) : (run System.step s evs).Transmits := by
  induction evs generalizing s with
  | nil => exact hs
  | cons e evs ih =>
    rw [List.mem_cons, not_or] at h
    exact ih (hs.step (Ne.symm h.1)) h.2

/-- The device sends what was queued: the packets armed on EP3 followed by the
unread bytes of the ring are the accepted bytes, every packet has 1 to 64 bytes,
and `ep3_` holds its packet until the host has it. -/
theorem cdc_sends_what_was_queued (rxBuf txBuf : Nat → UInt8) (ep3 : List UInt8)
    (evs : List Event) (h : Event.busReset ∉ evs) :
    let s := run step (init rxBuf txBuf ep3) evs
    s.cdc.armed.flatten ++ s.cdc.tx.contents = s.accepted ∧
      (∀ p ∈ s.cdc.armed, 1 ≤ p.length ∧ p.length ≤ 64) ∧
      s.cdc.clobbered = false ∧ (s.cdc.flying → s.cdc.Loaded) := by
  have hs := run_transmits (init_transmits rxBuf txBuf ep3) h
  exact ⟨hs.sent, hs.sound.packets, hs.sound.intact, hs.sound.loaded⟩

/-- A packet goes out of a reserved stretch while the next bytes are filled in. -/
theorem reserved_bytes_sent :
    let evs : List Event :=
      [.call (.write (List.replicate 70 1)), .call .txReserve, .call (.fill 0 2), .tick 0, .tickRest,
        .transfer (.inToken UEP3), .call (.fill 1 3), .call .pump, .call (.txCommit 2), .tick 1,
        .tickRest, .tick 2, .tickRest]
    let s := run step (init (fun _ => 0) (fun _ => 0) []) evs
    Event.busReset ∉ evs ∧
      s.cdc.armed = [List.replicate 64 1, List.replicate 6 1 ++ [2, 3]] ∧
      s.cdc.armed.flatten ++ s.cdc.tx.contents = s.accepted ∧
      (∀ p ∈ s.cdc.armed, 1 ≤ p.length ∧ p.length ≤ 64) ∧
      s.cdc.clobbered = false ∧ (s.cdc.flying → s.cdc.Loaded) :=
  ⟨by simp, by decide +kernel, cdc_sends_what_was_queued _ _ _ _ (by simp)⟩

/-! ### What is queued goes out -/

/-- Between two calls of the main loop, no flag set, and the pipe open. -/
structure Ready (s : System) : Prop where
  idle : s.ticking = none
  calm : s.cdc.Calm
  opened : s.cdc.ep3Busy = true → s.cdc.uep3.res = .ack

/-- The host takes a packet, and the main loop ticks twice. -/
def round (nowMs laterMs : UInt32) : List Event :=
  [.transfer (.inToken UEP3), .tick nowMs, .tickRest, .tick laterMs, .tickRest]

/-- The two halves make a `tick`. -/
theorem run_tick (s : System) (h : s.ticking = none) (nowMs : UInt32) (evs : List Event) :
    run step s (.tick nowMs :: .tickRest :: evs) = run step { s with cdc := s.cdc.tick nowMs } evs := by
  rw [run_cons, run_cons]
  simp only [step, h]
  rfl

/-- EP3 is free at the first tick: its packet has been taken, or it had none. -/
theorem Ready.taken {s : System} (h : s.Ready) (nowMs : UInt32) :
    ∃ u : UsbCdc, u.Calm ∧ u.ep3Busy = false ∧ u.tx = s.cdc.tx ∧
      (s.step (.transfer (.inToken UEP3))).cdc.tick nowMs = u.tick nowMs := by
  by_cases hack : s.cdc.uep3.res = .ack
  · have hadmits : s.cdc.admits (.inToken UEP3) = true := by
      simp [admits, h.calm.transfer, hack, show ¬ UEP3 = UEP1 by decide]
    have hcalm : (s.cdc.report (.inToken UEP3)).release.Calm := ⟨rfl, h.calm.busRst, h.calm.suspend⟩
    refine ⟨(s.cdc.report (.inToken UEP3)).release, hcalm, rfl, rfl, ?_⟩
    simp only [step, if_pos hadmits]
    exact tick_release rfl hcalm nowMs
  · have hadmits : ¬ s.cdc.admits (.inToken UEP3) = true := by
      simp [admits, hack]
    have hfree : s.cdc.ep3Busy = false := Bool.eq_false_iff.mpr fun hbusy => hack (h.opened hbusy)
    refine ⟨s.cdc, h.calm, hfree, rfl, ?_⟩
    simp only [step, if_neg hadmits]

theorem Ready.after_round {s : System} (h : s.Ready) {nowMs laterMs : UInt32}
    (hlater : kPartialFlushMs ≤ laterMs - nowMs) :
    (run step s (round nowMs laterMs)).Ready ∧
      (run step s (round nowMs laterMs)).accepted = s.accepted ∧
      Sent s.cdc (run step s (round nowMs laterMs)).cdc := by
  obtain ⟨u, hcalm, hfree, htx, htick⟩ := h.taken nowMs
  have hsent := two_ticks hcalm hfree hlater
  have hreport : (s.step (.transfer (.inToken UEP3))).ticking = none ∧
      (s.step (.transfer (.inToken UEP3))).accepted = s.accepted := by
    simp only [step]
    split <;> exact ⟨h.idle, rfl⟩
  rw [System.round, run_cons, run_tick _ hreport.1, run_tick _ (by exact hreport.1), run_nil, htick]
  exact ⟨⟨hreport.1, hsent.calm, hsent.opened⟩, hreport.2,
    ⟨hsent.calm, htx ▸ hsent.contents, hsent.opened, fun hnone => hsent.empty (htx ▸ hnone)⟩⟩

theorem busReset_notMem_round (nowMs laterMs : UInt32) : Event.busReset ∉ round nowMs laterMs := by
  simp [System.round]

theorem Ready.after_rounds {s : System} (hs : s.Transmits) (h : s.Ready) {rounds : List (UInt32 × UInt32)}
    (hlater : ∀ r ∈ rounds, kPartialFlushMs ≤ r.2 - r.1) :
    let s' := run step s (rounds.flatMap fun r => round r.1 r.2)
    s'.Transmits ∧ s'.Ready ∧ s'.accepted = s.accepted ∧
      s'.cdc.tx.contents = s.cdc.tx.contents.drop (kPacket * rounds.length) := by
  induction rounds generalizing s with
  | nil => exact ⟨hs, h, rfl, rfl⟩
  | cons r rounds ih =>
    obtain ⟨hnow, hrest⟩ := List.forall_mem_cons.mp hlater
    obtain ⟨hready, haccepted, hsent⟩ := h.after_round hnow
    obtain ⟨hs', hready', haccepted', hcontents'⟩ :=
      ih (run_transmits hs (busReset_notMem_round r.1 r.2)) hready hrest
    rw [List.flatMap_cons, run_append]
    refine ⟨hs', hready', haccepted'.trans haccepted, ?_⟩
    have hcount : kPacket + kPacket * rounds.length = kPacket * (rounds.length + 1) := by ring
    rw [hcontents', hsent.contents, List.drop_drop, List.length_cons, hcount]

/-- With the pipe open, nine packets taken and two ticks of the main loop for each leave nothing
behind: all that was accepted has gone out. -/
theorem cdc_drains (rxBuf txBuf : Nat → UInt8) (ep3 : List UInt8) {evs : List Event}
    (h : Event.busReset ∉ evs) {s : System} (hrun : s = run step (init rxBuf txBuf ep3) evs)
    (hready : s.Ready) {rounds : List (UInt32 × UInt32)}
    (hlater : ∀ r ∈ rounds, kPartialFlushMs ≤ r.2 - r.1) (hmany : 9 ≤ rounds.length) :
    let s' := run step s (rounds.flatMap fun r => round r.1 r.2)
    s'.cdc.armed.flatten = s.accepted ∧ s'.cdc.flying = false := by
  have hs : s.Transmits := hrun ▸ run_transmits (init_transmits rxBuf txBuf ep3) h
  obtain rfl | ⟨front, last, rfl⟩ := rounds.eq_nil_or_concat'
  · simp at hmany
  have hfront : ∀ r ∈ front, kPartialFlushMs ≤ r.2 - r.1 := fun r hr =>
    hlater r (List.mem_append_left _ hr)
  have hlast := hlater last (by simp)
  obtain ⟨hs₁, hready₁, haccepted₁, hcontents₁⟩ := hready.after_rounds hs hfront
  -- eight rounds are more than the ring holds, and the ninth takes the last packet
  have hempty : (run step s (front.flatMap fun r => round r.1 r.2)).cdc.tx.contents = [] := by
    rw [hcontents₁, List.drop_eq_nil_iff, Ring.length_contents]
    have hsize : s.cdc.tx.size ≤ 512 := s.cdc.tx.size_le
    rw [List.length_append, List.length_singleton] at hmany
    rw [kPacket]
    omega
  obtain ⟨hready₂, haccepted₂, hsent₂⟩ := hready₁.after_round hlast
  have hs₂ := run_transmits hs₁ (busReset_notMem_round last.1 last.2)
  rw [List.flatMap_append, List.flatMap_singleton, run_append]
  refine ⟨?_, hs₂.sound.not_flying_of_idle (hsent₂.empty hempty)⟩
  have hqueue := hs₂.sent
  rw [hsent₂.contents, hempty, List.drop_nil, List.append_nil, haccepted₂, haccepted₁] at hqueue
  exact hqueue

end System

end Tapioca.UsbCdc

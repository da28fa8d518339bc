-- SUMMARY: When no accepted host byte is dropped: EP2's response against the receive ring, and halts that `tick` respects.
import Tapioca.Usb.CdcPipe

/-!
# The bulk-OUT flow control

EP2 may answer ACK only with room for a full packet in the receive ring. The
data path keeps this; `CLEAR_FEATURE(ENDPOINT_HALT)` sets ACK whatever the ring
holds. And `tick` writes ACK to EP2 and EP3 on its own flags alone, so that it
takes an endpoint out of a halt.
-/

namespace Tapioca.UsbCdc

open Usb Lib.Lts

/-- EP2 answers ACK only with room for a packet, and a packet that has come in
is stored whole. -/
def RoomForPacket (s : UsbCdc) : Prop :=
  (s.uep2.res = .ack → kPacket ≤ s.rx.free) ∧
    ∀ packet, s.uifTransfer = some (.outToken UEP2 packet) →
      (s.rx.push packet).1 = packet.length

/-- What the routines keep of it; and a halted endpoint does not answer ACK. -/
structure Flows (s : UsbCdc) : Prop where
  room : s.uep2.res = .ack → kPacket ≤ s.rx.free
  pendingOut : ∀ packet, s.uifTransfer = some (.outToken UEP2 packet) →
    s.uep2.res = .ack ∧ packet.length ≤ kPacket
  pendingIn : s.uifTransfer = some (.inToken UEP3) → s.uep3.res = .ack
  held1 : s.uep1.res ≠ .ack
  held2 : s.uep2.halted = true → s.uep2.res ≠ .ack
  held3 : s.uep3.halted = true → s.uep3.res ≠ .ack

theorem Flows.roomForPacket {s : UsbCdc} (hs : s.Flows) : s.RoomForPacket := by
  refine ⟨hs.room, fun packet ht => ?_⟩
  obtain ⟨hack, hlen⟩ := hs.pendingOut packet ht
  exact Ring.push_fits _ _ (hlen.trans (hs.room hack))

/-- With the transfer handled, nothing is pending. -/
theorem Flows.of_handled {s : UsbCdc} (room : s.uep2.res = .ack → kPacket ≤ s.rx.free)
    (held1 : s.uep1.res ≠ .ack) (held2 : s.uep2.halted = true → s.uep2.res ≠ .ack)
    (held3 : s.uep3.halted = true → s.uep3.res ≠ .ack) : Flows { s with uifTransfer := none } where
  room := room
  pendingOut := by simp
  pendingIn := by simp
  held1 := held1
  held2 := held2
  held3 := held3

theorem free_clear (r : Ring 1024 UInt8) : r.clear.free = 1024 := by
  rw [Ring.free_eq, Ring.contents_clear]
  rfl

theorem free_pop_le {cap : Nat} (hcap : cap ∣ 2 ^ 32) (r : Ring cap UInt8) (len : Nat) :
    r.free ≤ (r.pop len).2.free := by
  rw [Ring.free_eq, Ring.free_eq, Ring.contents_pop hcap, List.length_drop]
  omega

theorem halt_res (e : Endpoint) : e.halt.res ≠ .ack := by simp [Endpoint.halt, Endpoint.respond]

-- ---------------------------------------------------------------------------
-- The routines of the device
-- ---------------------------------------------------------------------------

/-- The host clears the halt of EP2 with room for a packet. -/
def RoomyClear (s : UsbCdc) (req : SetupReq) : Prop :=
  clearsHalt req (UEP_OUT ||| UEP2) = true → kPacket ≤ s.rx.free

theorem setLineState_flows {s : UsbCdc} (hs : s.Flows) (value : UInt16) :
    Flows { s.setLineState value with uifTransfer := none } := by
  rw [setLineState]
  split
  · refine .of_handled (fun _ => ?_) hs.held1 hs.held2 hs.held3
    simp only [free_clear]
    decide
  · exact .of_handled hs.room hs.held1 hs.held2 hs.held3

theorem setHalt_flows {s : UsbCdc} (hs : s.Flows) (index : UInt8) :
    Flows { s.setHalt index with uifTransfer := none } := by
  rw [setHalt]
  split_ifs
  · exact .of_handled hs.room (halt_res _) hs.held2 hs.held3
  · exact .of_handled (fun h => absurd h (halt_res _)) hs.held1 (fun _ => halt_res _) hs.held3
  · exact .of_handled hs.room hs.held1 hs.held2 (fun _ => halt_res _)
  · exact .of_handled hs.room hs.held1 hs.held2 hs.held3

theorem clearHalt_flows {s : UsbCdc} (hs : s.Flows) {index : UInt8}
    (h : index = UEP_OUT ||| UEP2 → kPacket ≤ s.rx.free) :
    Flows { s.clearHalt index with uifTransfer := none } := by
  rw [clearHalt]
  split_ifs with h1 h2
  · exact .of_handled hs.room (by simp [Endpoint.init]) hs.held2 hs.held3
  · exact .of_handled (fun _ => h h2) hs.held1 (by simp [Endpoint.init]) hs.held3
  · exact .of_handled hs.room hs.held1 hs.held2 (by simp [Endpoint.init])
  · exact .of_handled hs.room hs.held1 hs.held2 hs.held3

theorem handleSetup_flows {s : UsbCdc} (hs : s.Flows) {req : SetupReq} (h : s.RoomyClear req) :
    Flows { s.handleSetup req with uifTransfer := none } := by
  rcases s.handleSetup_cases req with ⟨index, heq, hclear⟩ | ⟨-, ⟨_, heq⟩ | ⟨_, heq⟩ | heq⟩
  · rw [heq]
    exact clearHalt_flows hs fun hindex => h ((hclear _).mpr hindex)
  · rw [heq]
    exact setLineState_flows hs _
  · rw [heq]
    exact setHalt_flows hs _
  · rw [heq]
    exact .of_handled hs.room hs.held1 hs.held2 hs.held3

/-- After a packet, EP2 is left open only with room for the next. -/
theorem ep2Out_flows {s : UsbCdc} (hs : s.Flows) (packet : List UInt8) :
    Flows { s.ep2Out packet with uifTransfer := none } := by
  rw [ep2Out]
  split
  · exact .of_handled (by simp [Endpoint.respond]) hs.held1 (by simp [Endpoint.respond]) hs.held3
  · next hfree => exact .of_handled (fun _ => Nat.le_of_not_lt hfree) hs.held1 hs.held2 hs.held3

theorem release_flows {s : UsbCdc} (hs : s.Flows) : s.release.Flows :=
  .of_handled hs.room hs.held1 hs.held2 (by simp [ep3In, Endpoint.respond])

theorem handleTransfer_flows {s : UsbCdc} (hs : s.Flows) {t : Transfer}
    (h : ∀ req, t = .setup req → s.RoomyClear req) :
    Flows { s.handleTransfer t with uifTransfer := none } := by
  have hkeep : Flows { s with uifTransfer := none } :=
    .of_handled hs.room hs.held1 hs.held2 hs.held3
  cases t with
  | inToken ep =>
    simp only [handleTransfer]
    split_ifs
    · exact .of_handled hs.room (by simp [Endpoint.respond]) hs.held2 hs.held3
    · exact release_flows hs
    · exact hkeep
  | outToken ep packet =>
    simp only [handleTransfer]
    split
    · exact ep2Out_flows hs packet
    · exact hkeep
  | setup req => exact handleSetup_flows hs (h req rfl)
  | sof => exact hkeep

theorem onIrq_flows {s : UsbCdc} (hs : s.Flows)
    (h : ∀ req, s.uifTransfer = some (.setup req) → s.RoomyClear req) : s.onIrq.Flows := by
  rcases ht : s.uifTransfer with _ | t
  · rw [onIrq_none ht]
    split_ifs
    · refine ⟨fun _ => ?_, by simp [busReset, endpointInit, ht],
        by simp [busReset, endpointInit, ht], ?_, ?_, ?_⟩
      · simp only [busReset, endpointInit, free_clear]
        decide
      · simp [busReset, endpointInit, Endpoint.init]
      · simp [busReset, endpointInit, Endpoint.init]
      · simp [busReset, endpointInit, Endpoint.init]
    · exact { hs with }
    · exact hs
  · rw [onIrq_some ht]
    exact handleTransfer_flows hs fun req hreq => h req (hreq ▸ ht)

theorem poll_flows {s : UsbCdc} (hs : s.Flows)
    (h : ∀ req, s.uifTransfer = some (.setup req) → s.RoomyClear req) : s.poll.Flows := by
  rw [poll]
  split
  · exact onIrq_flows hs h
  · exact hs

/-- Arming opens EP3, which must not be halted. -/
theorem armEp3FromTx_flows {s : UsbCdc} (hs : s.Flows) (hhalt : s.uep3.halted = false)
    (allowShort : Bool) : (s.armEp3FromTx allowShort).2.Flows := by
  by_cases h : s.Sendable allowShort
  · rw [armEp3FromTx_of_sendable h]
    refine ⟨hs.room, hs.pendingOut, fun _ => rfl, hs.held1, hs.held2, fun hhalt' => ?_⟩
    exact absurd (hhalt'.symm.trans hhalt) (by decide)
  · rw [armEp3FromTx_of_not_sendable h]
    exact hs

theorem withPartial_flows {s : UsbCdc} (hs : s.Flows) (pending : Bool) (since : UInt32) :
    (s.withPartial pending since).Flows := { hs with }

/-- A completion of EP3 comes only from an EP3 that is not halted, so `pump` may
arm again. -/
theorem pump_flows {s : UsbCdc} (hs : s.Flows)
    (h : ∀ req, s.uifTransfer = some (.setup req) → s.RoomyClear req) : s.pump.Flows := by
  rcases ht : s.uifTransfer with _ | t
  · rw [pump_none ht]
    exact hs
  · by_cases hin : t = .inToken UEP3
    · subst hin
      have hhalt : s.release.uep3.halted = false :=
        Bool.eq_false_iff.mpr fun hhalt => hs.held3 hhalt (hs.pendingIn ht)
      have harm := armEp3FromTx_flows (release_flows hs) hhalt false
      rw [pump_ep3In ht]
      split
      · exact withPartial_flows harm _ _
      · exact harm
    · rw [pump_other ht hin]
      exact onIrq_flows hs h

theorem reopenOut_flows {s : UsbCdc} (hs : s.Flows)
    (h : ¬ (s.uep2.halted = true ∧ s.ep2Nak = true ∧ kPacket ≤ s.rx.free)) :
    s.reopenOut.Flows := by
  rw [reopenOut]
  split
  · next hopen =>
    refine ⟨fun _ => hopen.2, ?_, hs.pendingIn, hs.held1, ?_, hs.held3⟩
    · intro packet ht
      exact ⟨rfl, (hs.pendingOut packet ht).2⟩
    · intro hhalt
      exact absurd ⟨hhalt, hopen⟩ h
  · exact hs

theorem coalesceTx_flows {s : UsbCdc} (hs : s.Flows) {nowMs : UInt32}
    (h : ¬ (s.uep3.halted = true ∧ s.armDue nowMs = true)) : (s.coalesceTx nowMs).Flows := by
  rcases s.coalesceTx_cases nowMs with ⟨hdue, since, short, -, heq⟩ | ⟨-, pending, since, heq⟩
  · have hhalt : s.uep3.halted = false := Bool.eq_false_iff.mpr fun hhalt => h ⟨hhalt, hdue⟩
    rw [heq]
    exact armEp3FromTx_flows (withPartial_flows hs false since) hhalt short
  · rw [heq]
    exact withPartial_flows hs pending since

theorem reopenOut_armDue (s : UsbCdc) (nowMs : UInt32) :
    s.reopenOut.armDue nowMs = s.armDue nowMs := by
  rw [reopenOut]
  split <;> rfl

theorem reopenOut_uep3 (s : UsbCdc) : s.reopenOut.uep3 = s.uep3 := by
  rw [reopenOut]
  split <;> rfl

theorem coalesceTx_uep2 (s : UsbCdc) (nowMs : UInt32) : (s.coalesceTx nowMs).uep2 = s.uep2 := by
  rcases s.coalesceTx_cases nowMs with ⟨-, since, short, -, heq⟩ | ⟨-, pending, since, heq⟩
  · rw [heq]
    by_cases h : (s.withPartial false since).Sendable short
    · rw [armEp3FromTx_of_sendable h]
      rfl
    · rw [armEp3FromTx_of_not_sendable h]
      rfl
  · rw [heq]
    rfl

/-- A packet that is due is armed, on a halted endpoint too. -/
theorem coalesceTx_uep3 {s : UsbCdc} {nowMs : UInt32} (h : s.armDue nowMs = true) :
    (s.coalesceTx nowMs).uep3 = s.uep3.respond .ack := by
  rcases s.coalesceTx_cases nowMs with ⟨-, since, short, hsend, heq⟩ | ⟨hnot, -⟩
  · have hsize : s.tx.size ≠ 0 := by
      intro hzero
      simp [armDue, hzero, kPacket] at h
    have hsend : (s.withPartial false since).Sendable short := ⟨hsize, hsend⟩
    rw [heq, armEp3FromTx_of_sendable hsend]
    rfl
  · exact absurd (hnot.symm.trans h) (by decide)

-- ---------------------------------------------------------------------------
-- Runs
-- ---------------------------------------------------------------------------

/-- A halted endpoint that does not answer ACK does not answer ACK later. -/
def KeepsHalt (e e' : Endpoint) : Prop :=
  e.halted = true → e.res ≠ .ack → e'.halted = true → e'.res ≠ .ack

namespace System

/-- A step of `tick` turns no endpoint halted by the host back to ACK. -/
def TickKeepsHalts (s : System) (e : Event) : Prop :=
  e = .tickRest ∨ (∃ nowMs, e = .tick nowMs) →
    KeepsHalt s.cdc.uep1 (s.step e).cdc.uep1 ∧ KeepsHalt s.cdc.uep2 (s.step e).cdc.uep2 ∧
      KeepsHalt s.cdc.uep3 (s.step e).cdc.uep3

/-- A step that handles `CLEAR_FEATURE(ENDPOINT_HALT)` for EP2 finds room for a
packet, and `tick` finds nothing to do on a halted endpoint. -/
def HaltsHeeded (s : System) (e : Event) : Prop :=
  (∀ req, s.handles e = some req → s.cdc.RoomyClear req) ∧
    ∀ nowMs, e = .tickRest → s.ticking = some nowMs →
      ¬ (s.cdc.uep2.halted = true ∧ s.cdc.ep2Nak = true ∧ kPacket ≤ s.cdc.rx.free) ∧
        ¬ (s.cdc.uep3.halted = true ∧ s.cdc.armDue nowMs = true)

theorem init_flows (rxBuf txBuf : Nat → UInt8) (ep3 : List UInt8) :
    (init rxBuf txBuf ep3).cdc.Flows where
  room := by
    intro _
    simp [init, UsbCdc.init, Ring.free, Ring.size, kPacket]
  pendingOut := by simp [init, UsbCdc.init]
  pendingIn := by simp [init, UsbCdc.init]
  held1 := by simp [init, UsbCdc.init, Endpoint.init]
  held2 := by simp [init, UsbCdc.init, Endpoint.init]
  held3 := by simp [init, UsbCdc.init, Endpoint.init]

/-- What the bus reports came from an open endpoint. -/
theorem report_flows {s : UsbCdc} (hs : s.Flows) {t : Transfer} (h : s.admits t = true) :
    (s.report t).Flows := by
  refine ⟨hs.room, fun packet ht => ?_, fun ht => ?_, hs.held1, hs.held2, hs.held3⟩
  · simp only [report, Option.some_inj] at ht
    subst ht
    simp only [admits, decide_eq_true_eq, true_imp_iff] at h
    exact ⟨h.2.1, h.2.2.2⟩
  · simp only [report, Option.some_inj] at ht
    subst ht
    simp only [admits, decide_eq_true_eq, true_imp_iff] at h
    exact h.2.2

theorem call_flows {s : System} (hs : s.cdc.Flows) (c : Call)
    (h : c = .onIrq ∨ c = .pump →
      ∀ req, s.cdc.uifTransfer = some (.setup req) → s.cdc.RoomyClear req) :
    (s.call c).cdc.Flows := by
  cases c with
  | onIrq => exact onIrq_flows hs (h (.inl rfl))
  | pump => exact pump_flows hs (h (.inr rfl))
  | write src => exact { hs with }
  | txReserve => exact hs
  | fill i b =>
    simp only [call]
    split
    · split
      · exact { hs with }
      · exact hs
    · exact hs
  | txCommit n =>
    simp only [call]
    split
    · split
      · exact { hs with }
      · exact hs
    · exact hs
  | read maxLen =>
    refine { hs with room := fun hack => ?_ }
    exact (hs.room hack).trans (free_pop_le (by decide) _ _)
  | sessionStarted => exact { hs with }

theorem step_flows {s : System} (hs : s.cdc.Flows) {e : Event} (h : s.HaltsHeeded e) :
    (s.step e).cdc.Flows := by
  cases e with
  | transfer t =>
    simp only [step]
    split
    · next hadmits => exact report_flows hs hadmits
    · exact hs
  | busReset => exact { hs with }
  | suspend => exact { hs with }
  | tick nowMs =>
    simp only [step]
    split
    · next hticking =>
      refine poll_flows hs fun req ht => h.1 req ?_
      simp only [handles, hticking, ht]
    · exact hs
  | tickRest =>
    simp only [step]
    split
    · next nowMs hticking =>
      obtain ⟨h2, h3⟩ := h.2 nowMs rfl hticking
      refine coalesceTx_flows (reopenOut_flows hs h2) ?_
      rw [reopenOut_uep3, reopenOut_armDue]
      exact h3
    · exact hs
  | call c =>
    simp only [step]
    split
    · next hticking =>
      refine call_flows hs c fun hc req ht => h.1 req ?_
      rcases hc with rfl | rfl <;> simp only [handles, hticking, ht]
    · exact hs

theorem Flows.tickKeepsHalts {s : System} {e : Event} (h : (s.step e).cdc.Flows) :
    s.TickKeepsHalts e := fun _ =>
  ⟨fun _ _ _ => h.held1, fun _ _ hhalt => h.held2 hhalt, fun _ _ hhalt => h.held3 hhalt⟩

/-- A step that overlooks one of these leaves an endpoint open that should be
closed. -/
theorem haltsHeeded_of_kept {s : System} (hs : s.cdc.Flows) {e : Event}
    (hroom : (s.step e).cdc.RoomForPacket) (hkeep : s.TickKeepsHalts e) : s.HaltsHeeded e := by
  constructor
  · intro req hreq hclear
    have hstep := handles_spec hreq
    rcases s.cdc.handleSetup_cases req with ⟨index, heq, hindex⟩ | ⟨hnot, -⟩
    · have hopen : s.cdc.handleSetup req = { s.cdc with uep2 := .init .ack } := by
        rw [heq, (hindex _).mp hclear]
        rfl
      rw [hstep, hopen] at hroom
      exact hroom.1 rfl
    · exact absurd ((hnot _).symm.trans hclear) (by decide)
  · rintro nowMs rfl hticking
    obtain ⟨-, hkeep2, hkeep3⟩ := hkeep (.inl rfl)
    have hstep : (s.step .tickRest).cdc = s.cdc.reopenOut.coalesceTx nowMs := by
      simp only [step, hticking]
    rw [hstep] at hkeep2 hkeep3
    constructor
    · rintro ⟨hhalt, hopen⟩
      have hack : (s.cdc.reopenOut.coalesceTx nowMs).uep2 = s.cdc.uep2.respond .ack := by
        rw [coalesceTx_uep2, reopenOut, if_pos hopen]
      rw [hack] at hkeep2
      exact hkeep2 hhalt (hs.held2 hhalt) hhalt rfl
    · rintro ⟨hhalt, hdue⟩
      have hack : (s.cdc.reopenOut.coalesceTx nowMs).uep3 = s.cdc.uep3.respond .ack := by
        rw [coalesceTx_uep3 (by rw [reopenOut_armDue, hdue]), reopenOut_uep3]
      rw [hack] at hkeep3
      exact hkeep3 hhalt (hs.held3 hhalt) hhalt rfl

/-- No accepted host byte is dropped and `tick` respects every halt, if and only
if the host clears the halt of EP2 only with room for a packet, and `tick`
never finds a halted endpoint throttled with room again or a packet due on it. -/
theorem host_bytes_kept_iff (rxBuf txBuf : Nat → UInt8) (ep3 : List UInt8) (evs : List Event) :
    ((∀ pre, pre <+: evs → (run step (init rxBuf txBuf ep3) pre).cdc.RoomForPacket) ∧
        AllSteps step TickKeepsHalts (init rxBuf txBuf ep3) evs) ↔
      AllSteps step HaltsHeeded (init rxBuf txBuf ep3) evs := by
  have hinit := init_flows rxBuf txBuf ep3
  have hsteps := allSteps_iff_of_invariant (I := fun s : System => s.cdc.Flows)
    (P := fun s e => (s.step e).cdc.RoomForPacket ∧ s.TickKeepsHalts e) (Q := HaltsHeeded)
    (fun s e hs => ⟨fun h => haltsHeeded_of_kept hs h.1 h.2, fun h =>
      ⟨(step_flows hs h).roomForPacket, Flows.tickKeepsHalts (step_flows hs h)⟩⟩)
    (fun s e hs h => step_flows hs h) hinit evs
  rw [forall_prefix_iff (G := fun s : System => s.cdc.RoomForPacket), and_assoc,
    ← allSteps_and, hsteps]
  exact and_iff_right hinit.roomForPacket

/-- Sixteen packets fill the ring; the host clears a halt of EP2 that it never
set, and EP2 is open with no room. -/
theorem cleared_halt_overruns :
    ¬ ∀ (rxBuf txBuf : Nat → UInt8) (ep3 : List UInt8) (evs : List Event),
      (∀ pre, pre <+: evs → (run step (init rxBuf txBuf ep3) pre).cdc.RoomForPacket) ∧
        AllSteps step TickKeepsHalts (init rxBuf txBuf ep3) evs := by
  intro h
  let packet : List Event :=
    [.transfer (.outToken UEP2 (List.replicate 64 0)), .tick 0, .tickRest]
  let evs : List Event := (List.replicate 16 packet).flatten ++
    [.transfer (.setup ⟨0x02, 0x01, 0, 0x02, 0⟩), .tick 0, .tickRest]
  have hroom := (h (fun _ => 0) (fun _ => 0) [] evs).1 evs (List.prefix_refl _)
  have hopen : (run step (init (fun _ => 0) (fun _ => 0) []) evs).cdc.uep2.res = .ack ∧
      (run step (init (fun _ => 0) (fun _ => 0) []) evs).cdc.rx.free = 0 := by decide +kernel
  have hfree := hroom.1 hopen.1
  rw [hopen.2] at hfree
  exact absurd hfree (by decide)

end System

end Tapioca.UsbCdc

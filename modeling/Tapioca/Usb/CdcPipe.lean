-- SUMMARY: When the bulk-IN pipe of the USB-CDC device stays open: the software flag of EP3 against its response field.
import Tapioca.Usb.CdcTransmit

/-!
# The bulk-IN pipe

`ep3Busy_` is to say that EP3 has a packet for the host. Every routine that
writes the response field of EP3 keeps the two together, but for
`CLEAR_FEATURE(ENDPOINT_HALT)`: it sets NAK and leaves the flag. The flag then
waits for a completion that cannot come.
-/

namespace Tapioca.UsbCdc

open Usb Lib.Lts

/-- With EP3 not halted, the flag says whether EP3 has a packet for the host. -/
def PipeOpen (s : UsbCdc) : Prop :=
  s.uep3.halted = false → (s.ep3Busy = true ↔ s.uep3.res = .ack ∧ s.Loaded)

/-- What the routines keep of it. -/
structure Piped (s : UsbCdc) : Prop where
  acked : s.uep3.res = .ack → s.ep3Busy = true ∧ s.Loaded
  busy : s.uep3.halted = false → s.ep3Busy = true → s.uep3.res = .ack

theorem Piped.pipeOpen {s : UsbCdc} (hs : s.Piped) : s.PipeOpen := by
  intro hhalt
  constructor
  · intro hbusy
    have hack := hs.busy hhalt hbusy
    exact ⟨hack, (hs.acked hack).2⟩
  · rintro ⟨hack, -⟩
    exact (hs.acked hack).1

/-- A closed endpoint with the flag clear. -/
theorem Piped.of_idle {s : UsbCdc} (hres : s.uep3.res ≠ .ack) (hbusy : s.ep3Busy = false) :
    s.Piped := by
  refine ⟨fun hack => absurd hack hres, fun _ h => ?_⟩
  rw [hbusy] at h
  cases h

theorem Piped.of_same {s s' : UsbCdc} (hs : s.Piped) (h : SameTx s s')
    (h3 : s'.uep3 = s.uep3) : s'.Piped where
  acked := by
    rw [h3, h.ep3Busy, h.loaded]
    exact hs.acked
  busy := by
    rw [h3, h.ep3Busy]
    exact hs.busy

-- ---------------------------------------------------------------------------
-- The routines of the device
-- ---------------------------------------------------------------------------

/-- A request clears the halt of EP3, or it leaves EP3 alone or halts it. -/
theorem handleSetup_uep3 (s : UsbCdc) (req : SetupReq) :
    (clearsHalt req (UEP_IN ||| UEP3) = true ∧ (s.handleSetup req).uep3 = .init .nak) ∨
    (clearsHalt req (UEP_IN ||| UEP3) = false ∧
      ((s.handleSetup req).uep3 = s.uep3 ∨ (s.handleSetup req).uep3 = s.uep3.halt)) := by
  rcases s.handleSetup_cases req with ⟨index, heq, hclear⟩ | ⟨hclear, hrest⟩
  · rw [heq]
    by_cases hindex : index = UEP_IN ||| UEP3
    · refine .inl ⟨(hclear _).mpr hindex, ?_⟩
      rw [hindex]
      rfl
    · refine .inr ⟨Bool.eq_false_iff.mpr fun h => hindex ((hclear _).mp h), .inl ?_⟩
      simp only [clearHalt, if_neg hindex]
      split_ifs <;> rfl
  · refine .inr ⟨hclear _, ?_⟩
    rcases hrest with ⟨value, heq⟩ | ⟨index, heq⟩ | heq
    · rw [heq, setLineState]
      split <;> exact .inl rfl
    · rw [heq, setHalt]
      split_ifs
      · exact .inl rfl
      · exact .inl rfl
      · exact .inr rfl
      · exact .inl rfl
    · exact .inl (by rw [heq])

theorem handleSetup_piped {s : UsbCdc} (hs : s.Piped) {req : SetupReq}
    (h : clearsHalt req (UEP_IN ||| UEP3) = true → s.ep3Busy = false) :
    (s.handleSetup req).Piped := by
  have hsame := s.handleSetup_sameTx req
  rcases s.handleSetup_uep3 req with ⟨hclear, hnak⟩ | ⟨-, hkeep | hhalt⟩
  · refine .of_idle (by simp [hnak, Endpoint.init]) ?_
    rw [hsame.ep3Busy, h hclear]
  · exact hs.of_same hsame hkeep
  · refine ⟨fun hack => ?_, fun hnot _ => ?_⟩
    · simp [hhalt, Endpoint.halt, Endpoint.respond] at hack
    · simp [hhalt, Endpoint.halt] at hnot

theorem release_piped (s : UsbCdc) : s.release.Piped :=
  .of_idle (by simp [release, ep3In, Endpoint.respond]) rfl

theorem armEp3FromTx_piped {s : UsbCdc} (hs : s.Piped) (allowShort : Bool) :
    (s.armEp3FromTx allowShort).2.Piped := by
  by_cases h : s.Sendable allowShort
  · rw [armEp3FromTx_of_sendable h]
    exact ⟨fun _ => ⟨rfl, sendNext_loaded h.1⟩, fun _ _ => rfl⟩
  · rw [armEp3FromTx_of_not_sendable h]
    exact hs

theorem withPartial_piped {s : UsbCdc} (hs : s.Piped) (pending : Bool) (since : UInt32) :
    (s.withPartial pending since).Piped :=
  ⟨hs.acked, hs.busy⟩

theorem coalesceTx_piped {s : UsbCdc} (hs : s.Piped) (nowMs : UInt32) :
    (s.coalesceTx nowMs).Piped := by
  rcases s.coalesceTx_cases nowMs with ⟨-, since, short, -, heq⟩ | ⟨-, pending, since, heq⟩
  · rw [heq]
    exact armEp3FromTx_piped (withPartial_piped hs false since) short
  · rw [heq]
    exact withPartial_piped hs pending since

theorem reopenOut_piped {s : UsbCdc} (hs : s.Piped) : s.reopenOut.Piped := by
  refine hs.of_same s.reopenOut_sameTx ?_
  rw [reopenOut]
  split <;> rfl

theorem handleTransfer_uep3 (s : UsbCdc) {t : Transfer} (hin : t ≠ .inToken UEP3)
    (hsetup : ∀ req, t ≠ .setup req) : (s.handleTransfer t).uep3 = s.uep3 := by
  cases t with
  | inToken ep =>
    have hep : ep ≠ UEP3 := fun he => hin (congrArg _ he)
    simp only [handleTransfer, if_neg hep]
    split <;> rfl
  | outToken ep packet =>
    simp only [handleTransfer, ep2Out]
    split_ifs <;> rfl
  | setup req => exact absurd rfl (hsetup req)
  | sof => rfl

/-- The pending request does not clear a halt of EP3 under a loaded packet. -/
def CleanClear (s : UsbCdc) : Prop :=
  ∀ req, s.uifTransfer = some (.setup req) → clearsHalt req (UEP_IN ||| UEP3) = true →
    s.ep3Busy = false

theorem onIrq_piped {s : UsbCdc} (hs : s.Piped) (hclean : s.CleanClear) : s.onIrq.Piped := by
  rcases ht : s.uifTransfer with _ | t
  · rw [onIrq_none ht]
    split_ifs
    · exact .of_idle (by simp [busReset, endpointInit, Endpoint.init]) rfl
    · exact ⟨hs.acked, hs.busy⟩
    · exact hs
  · rw [onIrq_some ht]
    by_cases hin : t = .inToken UEP3
    · subst hin
      exact s.release_piped
    · have hdone : (s.handleTransfer t).Piped := by
        by_cases hsetup : ∃ req, t = .setup req
        · obtain ⟨req, rfl⟩ := hsetup
          exact handleSetup_piped hs (hclean req ht)
        · exact hs.of_same (s.handleTransfer_sameTx hin)
            (s.handleTransfer_uep3 hin fun req h => hsetup ⟨req, h⟩)
      exact ⟨hdone.acked, hdone.busy⟩

theorem poll_piped {s : UsbCdc} (hs : s.Piped) (hclean : s.CleanClear) : s.poll.Piped := by
  rw [poll]
  split
  · exact onIrq_piped hs hclean
  · exact hs

theorem pump_piped {s : UsbCdc} (hs : s.Piped) (hclean : s.CleanClear) : s.pump.Piped := by
  rcases ht : s.uifTransfer with _ | t
  · rw [pump_none ht]
    exact hs
  · by_cases hin : t = .inToken UEP3
    · subst hin
      have harm := armEp3FromTx_piped s.release_piped false
      rw [pump_ep3In ht]
      split
      · exact withPartial_piped harm _ _
      · exact harm
    · rw [pump_other ht hin]
      exact onIrq_piped hs hclean

-- ---------------------------------------------------------------------------
-- Runs
-- ---------------------------------------------------------------------------

namespace System

/-- A step that handles `CLEAR_FEATURE(ENDPOINT_HALT)` for EP3 finds `ep3Busy_`
clear. -/
def ClearsIdle (s : System) (e : Event) : Prop :=
  ∀ req, s.handles e = some req → clearsHalt req (UEP_IN ||| UEP3) = true → s.cdc.ep3Busy = false

theorem init_piped (rxBuf txBuf : Nat → UInt8) (ep3 : List UInt8) :
    (init rxBuf txBuf ep3).cdc.Piped :=
  .of_idle (by simp [init, UsbCdc.init, Endpoint.init]) rfl

theorem call_piped {s : System} (hs : s.cdc.Piped) (c : Call)
    (hclean : c = .onIrq ∨ c = .pump → s.cdc.CleanClear) : (s.call c).cdc.Piped := by
  cases c with
  | onIrq => exact onIrq_piped hs (hclean (.inl rfl))
  | pump => exact pump_piped hs (hclean (.inr rfl))
  | write src => exact ⟨hs.acked, hs.busy⟩
  | txReserve => exact hs
  | fill i b =>
    simp only [call]
    split
    · split
      · exact ⟨hs.acked, hs.busy⟩
      · exact hs
    · exact hs
  | txCommit n =>
    simp only [call]
    split
    · split
      · exact ⟨hs.acked, hs.busy⟩
      · exact hs
    · exact hs
  | read maxLen => exact ⟨hs.acked, hs.busy⟩
  | sessionStarted => exact ⟨hs.acked, hs.busy⟩

theorem step_piped {s : System} (hs : s.cdc.Piped) {e : Event} (hclean : s.ClearsIdle e) :
    (s.step e).cdc.Piped := by
  cases e with
  | transfer t =>
    simp only [step]
    split
    · exact ⟨hs.acked, hs.busy⟩
    · exact hs
  | busReset => exact ⟨hs.acked, hs.busy⟩
  | suspend => exact ⟨hs.acked, hs.busy⟩
  | tick nowMs =>
    simp only [step]
    split
    · next hticking =>
      refine poll_piped hs fun req ht hclear => hclean req ?_ hclear
      simp only [handles, hticking, ht]
    · exact hs
  | tickRest =>
    simp only [step]
    split
    · exact coalesceTx_piped (reopenOut_piped hs) _
    · exact hs
  | call c =>
    simp only [step]
    split
    · next hticking =>
      refine call_piped hs c fun hc req ht hclear => hclean req ?_ hclear
      rcases hc with rfl | rfl <;> simp only [handles, hticking, ht]
    · exact hs

/-- Clearing the halt under the flag wedges the pipe. -/
theorem clearsIdle_of_pipeOpen {s : System} {e : Event} (h : (s.step e).cdc.PipeOpen) :
    s.ClearsIdle e := by
  intro req hreq hclear
  have hstep := handles_spec hreq
  have hnak : (s.step e).cdc.uep3 = .init .nak := by
    rw [hstep]
    rcases s.cdc.handleSetup_uep3 req with ⟨-, hnak⟩ | ⟨hnot, -⟩
    · exact hnak
    · rw [hclear] at hnot
      cases hnot
  have hbusy : (s.step e).cdc.ep3Busy = s.cdc.ep3Busy := by
    rw [hstep]
    exact (s.cdc.handleSetup_sameTx req).ep3Busy
  by_contra hne
  rw [Bool.not_eq_false] at hne
  have hack := ((h (by simp [hnak, Endpoint.init])).mp (hbusy.trans hne)).1
  simp [hnak, Endpoint.init] at hack

/-- In every state of a run in which the host has not halted EP3, the flag says
whether EP3 has a packet for the host, if and only if no
`CLEAR_FEATURE(ENDPOINT_HALT)` for EP3 is handled with the flag set. -/
theorem pipe_open_iff (rxBuf txBuf : Nat → UInt8) (ep3 : List UInt8) (evs : List Event) :
    (∀ pre, pre <+: evs → (run step (init rxBuf txBuf ep3) pre).cdc.PipeOpen) ↔
      AllSteps step ClearsIdle (init rxBuf txBuf ep3) evs := by
  have hinit := init_piped rxBuf txBuf ep3
  have hsteps := allSteps_iff_of_invariant (I := fun s : System => s.cdc.Piped)
    (P := fun s e => (s.step e).cdc.PipeOpen) (Q := ClearsIdle)
    (fun s e hs => ⟨clearsIdle_of_pipeOpen, fun h => (step_piped hs h).pipeOpen⟩)
    (fun s e hs h => step_piped hs h) hinit evs
  rw [forall_prefix_iff (G := fun s : System => s.cdc.PipeOpen), hsteps]
  exact and_iff_right hinit.pipeOpen

/-- The host clears a halt that it never set, with a packet on EP3. -/
theorem pipe_wedged :
    ¬ ∀ (rxBuf txBuf : Nat → UInt8) (ep3 : List UInt8) (evs pre : List Event), pre <+: evs →
      (run step (init rxBuf txBuf ep3) pre).cdc.PipeOpen := by
  intro h
  let evs : List Event :=
    [.call (.write (List.replicate 64 0)), .tick 0, .tickRest,
      .transfer (.setup ⟨0x02, 0x01, 0, 0x83, 0⟩), .tick 0, .tickRest]
  have hopen := h (fun _ => 0) (fun _ => 0) [] evs evs (List.prefix_refl _)
  have hwedged : (run step (init (fun _ => 0) (fun _ => 0) []) evs).cdc.uep3 = .init .nak ∧
      (run step (init (fun _ => 0) (fun _ => 0) []) evs).cdc.ep3Busy = true := by decide +kernel
  have hack := ((hopen (by rw [hwedged.1]; rfl)).mp hwedged.2).1
  rw [hwedged.1] at hack
  cases hack

end System

end Tapioca.UsbCdc

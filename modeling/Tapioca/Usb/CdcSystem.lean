-- SUMMARY: The USB-CDC device, the bus and the main loop: runs of events, and which packets the bus may report.
import Tapioca.Lib.Lts
import Tapioca.Usb.UsbCdc

/-!
# The device on the bus

The bus interface reports one transfer at a time: with `INT_BUSY` it answers NAK
until the flag of the last one is cleared. It takes a packet from EP3, or leaves
one in the buffer of EP2, only while the response of the endpoint is ACK.

The main loop makes its calls one after the other. The bus may report between
the two halves of `tick`, the poll of the flags and the rest, and between a
`txReserve` and its `txCommit` the loop may call `pump` and `tick`.
-/

namespace Tapioca.UsbCdc

open Usb Lib.Lts

/-- The bus interface can end this transfer now. -/
def admits (s : UsbCdc) : Transfer → Bool
  | .inToken ep =>
    s.uifTransfer.isNone ∧ (ep = UEP1 → s.uep1.res = .ack) ∧ (ep = UEP3 → s.uep3.res = .ack)
  | .outToken ep packet =>
    s.uifTransfer.isNone ∧
      (ep = UEP2 → s.uep2.res = .ack ∧ 0 < packet.length ∧ packet.length ≤ kPacket)
  | .setup _ | .sof => s.uifTransfer.isNone

/-- The bus interface reports the end of a transfer. -/
def report (s : UsbCdc) (t : Transfer) : UsbCdc :=
  { s with uifTransfer := some t, flying := s.flying && t ≠ .inToken UEP3 }

/-- The calls of the main loop besides `tick`. -/
inductive Call where
  | onIrq
  | pump
  | write (src : List UInt8)
  | txReserve
  /-- The producer writes to the reserved stretch. -/
  | fill (i : Nat) (b : UInt8)
  | txCommit (n : Nat)
  | read (maxLen : Nat)
  | sessionStarted

inductive Event where
  | transfer (t : Transfer)
  | busReset
  | suspend
  | tick (nowMs : UInt32)
  | tickRest
  | call (c : Call)

structure System where
  cdc : UsbCdc
  /-- `tick` has polled the flags and not done the rest. -/
  ticking : Option UInt32
  /-- What the producer sees behind the pointer of its `txReserve`. -/
  region : Option (List UInt8)
  /-- The bytes accepted for transmission so far. -/
  accepted : List UInt8

namespace System

def call (s : System) : Call → System
  | .onIrq => { s with cdc := s.cdc.onIrq }
  | .pump => { s with cdc := s.cdc.pump }
  | .write src =>
    { s with
      cdc := { s.cdc with tx := (s.cdc.tx.push src).2 }
      -- a reservation ends with the next call that moves the head of the ring
      region := none
      accepted := s.accepted ++ src.take (s.cdc.tx.push src).1 }
  | .txReserve => { s with region := some (s.cdc.tx.writePtr s.cdc.tx.freeContig) }
  | .fill i b =>
    match s.region with
    | some r =>
      if i < r.length then
        { s with cdc := { s.cdc with tx := s.cdc.tx.poke i b }, region := some (r.set i b) }
      else s
    | none => s
  | .txCommit n =>
    match s.region with
    | some r =>
      if h : n ≤ r.length ∧ n ≤ s.cdc.tx.free then
        { s with
          cdc := { s.cdc with tx := s.cdc.tx.writeCommit n h.2 }
          region := none
          accepted := s.accepted ++ r.take n }
      else s
    | none => s
  | .read maxLen => { s with cdc := { s.cdc with rx := (s.cdc.rx.pop maxLen).2 } }
  | .sessionStarted => { s with cdc := { s.cdc with sessionStarted := false } }

/-- A step; an event that is out of turn does nothing. -/
def step (s : System) : Event → System
  | .transfer t => if s.cdc.admits t then { s with cdc := s.cdc.report t } else s
  | .busReset => { s with cdc := { s.cdc with uifBusRst := true } }
  | .suspend => { s with cdc := { s.cdc with uifSuspend := true } }
  | .tick nowMs =>
    match s.ticking with
    | none => { s with cdc := s.cdc.poll, ticking := some nowMs }
    | some _ => s
  | .tickRest =>
    match s.ticking with
    | some nowMs => { s with cdc := s.cdc.reopenOut.coalesceTx nowMs, ticking := none }
    | none => s
  | .call c =>
    match s.ticking with
    | none => s.call c
    | some _ => s

def init (rxBuf txBuf : Nat → UInt8) (ep3 : List UInt8) : System where
  cdc := UsbCdc.init rxBuf txBuf ep3
  ticking := none
  region := none
  accepted := []

/-- The request a step hands to `handleSetup`. -/
def handles (s : System) (e : Event) : Option SetupReq :=
  match s.ticking, e, s.cdc.uifTransfer with
  | none, .tick _, some (.setup req) => some req
  | none, .call .onIrq, some (.setup req) => some req
  | none, .call .pump, some (.setup req) => some req
  | _, _, _ => none

theorem handles_spec {s : System} {e : Event} {req : SetupReq} (h : s.handles e = some req) :
    (s.step e).cdc = { s.cdc.handleSetup req with uifTransfer := none } := by
  unfold handles at h
  split at h
  · next hticking htransfer =>
    cases h
    have hpoll : s.cdc.poll = s.cdc.onIrq := by rw [poll, htransfer, if_pos (.inl rfl)]
    simp only [step, hticking, hpoll, onIrq_some htransfer]
    rfl
  · next hticking htransfer =>
    cases h
    simp only [step, hticking, call, onIrq_some htransfer]
    rfl
  · next hticking htransfer =>
    cases h
    simp only [step, hticking, call, pump_other htransfer (by simp), onIrq_some htransfer]
    rfl
  · cases h

end System

end Tapioca.UsbCdc

-- SUMMARY: The bulk data path of the USB-CDC device (`usb_cdc.cpp`): endpoints, rings, `tick`, `pump`, `onIrq`.
import Tapioca.Util.Ring

/-!
# The USB-CDC device

`UsbCdc` with the registers of its endpoints. Of a SETUP packet the model has
what it does outside EP0: the halt features of the endpoints and the control
line state. The data stage of EP0 touches neither the rings nor the bulk
endpoints.

Three fields are history and not part of the device: the packets armed so far,
whether the last one is still on its way, and whether one was written over on
its way. So is the `halted` flag of an endpoint, which says what the host last
asked for.
-/

namespace Tapioca

namespace Usb

-- ---------------------------------------------------------------------------
-- Registers
-- ---------------------------------------------------------------------------

/-- The response field of a `UEPn_CTRL_H`. -/
inductive Response where
  | ack
  | nak
  | stall
deriving DecidableEq, Repr

/-- `UEPn_CTRL_H` of an endpoint with one direction. -/
structure Endpoint where
  tog : Bool
  res : Response
  /-- The host has halted the endpoint and not cleared the halt. -/
  halted : Bool
deriving DecidableEq, Repr

namespace Endpoint

/-- `CTRL_H = res`: the toggle starts over. -/
def init (res : Response) : Endpoint where
  tog := false
  res := res
  halted := false

/-- `CTRL_H = (CTRL_H & ~RES_MASK) | res`. -/
def respond (e : Endpoint) (res : Response) : Endpoint := { e with res := res }

/-- `CTRL_H ^= TOG`. -/
def toggle (e : Endpoint) : Endpoint := { e with tog := !e.tog }

/-- The response of a halted endpoint. -/
def halt (e : Endpoint) : Endpoint := { e.respond .stall with halted := true }

end Endpoint

structure SetupReq where
  bRequestType : UInt8
  bRequest : UInt8
  wValue : UInt16
  wIndex : UInt16
  wLength : UInt16
deriving DecidableEq, Repr

def USB_REQ_TYP_MASK : UInt8 := 0x60
def USB_REQ_TYP_STANDARD : UInt8 := 0x00
def USB_REQ_TYP_CLASS : UInt8 := 0x20
def USB_REQ_RECIP_MASK : UInt8 := 0x1F
def USB_REQ_RECIP_ENDP : UInt8 := 0x02
def USB_REQ_FEAT_ENDP_HALT : UInt8 := 0x00
def USB_CLEAR_FEATURE : UInt8 := 0x01
def USB_SET_FEATURE : UInt8 := 0x03
def CDC_SET_LINE_CTLSTE : UInt8 := 0x22

def UEP_IN : UInt8 := 0x80
def UEP_OUT : UInt8 := 0x00
def UEP1 : UInt8 := 0x01
def UEP2 : UInt8 := 0x02
def UEP3 : UInt8 := 0x03

/-- The token and the endpoint in `INT_ST`, with the packet an OUT or SETUP
token has left in the endpoint buffer. -/
inductive Transfer where
  | inToken (ep : UInt8)
  | outToken (ep : UInt8) (packet : List UInt8)
  | setup (req : SetupReq)
  | sof
deriving DecidableEq, Repr

end Usb

open Usb

/-- `usb_desc::kPacket`. -/
def kPacket : Nat := 64

structure UsbCdc where
  rx : Ring 1024 UInt8
  tx : Ring 512 UInt8
  ep3 : List UInt8
  dtr : Bool
  sessionStarted : Bool
  ep3Busy : Bool
  ep2Nak : Bool
  txPkts : UInt32
  txBytes : UInt32
  fullPkts : UInt32
  shortPkts : UInt32
  partialPending : Bool
  partialSinceMs : UInt32
  -- `UEPn_CTRL_H`, `UEP3_TX_LEN`, and `INT_FG` with `INT_ST`
  uep1 : Endpoint
  uep2 : Endpoint
  uep3 : Endpoint
  uep3TxLen : Nat
  uifTransfer : Option Transfer
  uifBusRst : Bool
  uifSuspend : Bool
  /-- The packets armed on EP3 so far. -/
  armed : List (List UInt8)
  /-- The last of them is waiting for the host. -/
  flying : Bool
  /-- One was written over while it was waiting. -/
  clobbered : Bool

namespace UsbCdc

def kPartialFlushMs : UInt32 := 1

/-- What EP3 sends: the first `UEP3_TX_LEN` bytes of its buffer. -/
def packet (s : UsbCdc) : List UInt8 := s.ep3.take s.uep3TxLen

/-- A packet waits in `ep3_` to be sent. -/
def Loaded (s : UsbCdc) : Prop := 0 < s.packet.length ∧ s.armed.getLast? = some s.packet

instance (s : UsbCdc) : Decidable s.Loaded := inferInstanceAs (Decidable (_ ∧ _))

-- ---------------------------------------------------------------------------
-- Setup and bus reset
-- ---------------------------------------------------------------------------

def endpointInit (s : UsbCdc) : UsbCdc :=
  { s with
    uep1 := .init .nak
    uep2 := .init .ack
    uep3 := .init .nak
    uep3TxLen := 0
    ep3Busy := false
    ep2Nak := false
    partialPending := false
    flying := false }

def busReset (s : UsbCdc) : UsbCdc :=
  { s with dtr := false, sessionStarted := true, rx := s.rx.clear, tx := s.tx.clear }.endpointInit

/-- The static object after `init()`, with whatever its buffers hold. -/
def init (rxBuf txBuf : Nat → UInt8) (ep3 : List UInt8) : UsbCdc where
  rx := { head := 0, tail := 0, buf := rxBuf, size_le := Nat.zero_le _ }
  tx := { head := 0, tail := 0, buf := txBuf, size_le := Nat.zero_le _ }
  ep3 := ep3
  dtr := false
  sessionStarted := false
  ep3Busy := false
  ep2Nak := false
  txPkts := 0
  txBytes := 0
  fullPkts := 0
  shortPkts := 0
  partialPending := false
  partialSinceMs := 0
  uep1 := .init .nak
  uep2 := .init .ack
  uep3 := .init .nak
  uep3TxLen := 0
  uifTransfer := none
  uifBusRst := false
  uifSuspend := false
  armed := []
  flying := false
  clobbered := false

-- ---------------------------------------------------------------------------
-- Bulk IN
-- ---------------------------------------------------------------------------

def armEp3 (s : UsbCdc) (len : Nat) : UsbCdc :=
  { s with
    uep3TxLen := len
    uep3 := s.uep3.respond .ack
    ep3Busy := true
    armed := s.armed ++ [s.ep3.take len]
    flying := true }

/-- `tx_.pop(ep3_, n)`. -/
def popEp3 (s : UsbCdc) (n : Nat) : UsbCdc :=
  { s with
    tx := (s.tx.pop n).2
    ep3 := (s.tx.pop n).1 ++ s.ep3.drop n
    clobbered := s.clobbered || s.flying }

def countTx (s : UsbCdc) (n : Nat) : UsbCdc :=
  { s with
    txBytes := s.txBytes + UInt32.ofNat n
    fullPkts := if n = kPacket then s.fullPkts + 1 else s.fullPkts
    shortPkts := if n = kPacket then s.shortPkts else s.shortPkts + 1 }

def armEp3FromTx (s : UsbCdc) (allowShort : Bool) : Bool × UsbCdc :=
  let n := s.tx.size
  if n = 0 then (false, s)
  else if n < kPacket ∧ ¬ allowShort then (false, s)
  else
    let n := min n kPacket
    (true, ((s.popEp3 n).countTx n).armEp3 n)

/-- A packet on EP3 has been delivered. -/
def ep3In (s : UsbCdc) : UsbCdc :=
  { s with
    uep3 := s.uep3.toggle.respond .nak
    ep3Busy := false
    txPkts := s.txPkts + 1 }

-- ---------------------------------------------------------------------------
-- Requests and packets of the host
-- ---------------------------------------------------------------------------

def setLineState (s : UsbCdc) (value : UInt16) : UsbCdc :=
  let nextDtr : Bool := value &&& 0x0001 ≠ 0
  if nextDtr ∧ ¬ s.dtr then
    { s with rx := s.rx.clear, sessionStarted := true, dtr := nextDtr }
  else { s with dtr := nextDtr }

/-- `CLEAR_FEATURE(ENDPOINT_HALT)`; an unknown endpoint is an error on EP0. -/
def clearHalt (s : UsbCdc) (index : UInt8) : UsbCdc :=
  if index = UEP_IN ||| UEP1 then { s with uep1 := .init .nak }
  else if index = UEP_OUT ||| UEP2 then { s with uep2 := .init .ack }
  else if index = UEP_IN ||| UEP3 then { s with uep3 := .init .nak }
  else s

/-- `SET_FEATURE(ENDPOINT_HALT)`. -/
def setHalt (s : UsbCdc) (index : UInt8) : UsbCdc :=
  if index = UEP_IN ||| UEP1 then { s with uep1 := s.uep1.halt }
  else if index = UEP_OUT ||| UEP2 then { s with uep2 := s.uep2.halt }
  else if index = UEP_IN ||| UEP3 then { s with uep3 := s.uep3.halt }
  else s

/-- A standard request for the halt feature of an endpoint. -/
def endpHalt (req : SetupReq) : Bool :=
  req.bRequestType &&& USB_REQ_RECIP_MASK = USB_REQ_RECIP_ENDP ∧
    req.wValue.toUInt8 = USB_REQ_FEAT_ENDP_HALT

def handleSetup (s : UsbCdc) (req : SetupReq) : UsbCdc :=
  if req.bRequestType &&& USB_REQ_TYP_MASK ≠ USB_REQ_TYP_STANDARD then
    if req.bRequestType &&& USB_REQ_TYP_CLASS ≠ 0 ∧ req.bRequest = CDC_SET_LINE_CTLSTE then
      s.setLineState req.wValue
    else s
  else if req.bRequest = USB_CLEAR_FEATURE then
    if endpHalt req then s.clearHalt req.wIndex.toUInt8 else s
  else if req.bRequest = USB_SET_FEATURE then
    if endpHalt req then s.setHalt req.wIndex.toUInt8 else s
  else s

/-- `CLEAR_FEATURE(ENDPOINT_HALT)` for one endpoint. -/
def clearsHalt (req : SetupReq) (ep : UInt8) : Bool :=
  req.bRequestType &&& USB_REQ_TYP_MASK = USB_REQ_TYP_STANDARD ∧
    req.bRequest = USB_CLEAR_FEATURE ∧ endpHalt req ∧ req.wIndex.toUInt8 = ep

/-- What a request can do, and which of these clears a halt. -/
theorem handleSetup_cases (s : UsbCdc) (req : SetupReq) :
    (∃ index, s.handleSetup req = s.clearHalt index ∧
      ∀ ep, clearsHalt req ep = true ↔ index = ep) ∨
    ((∀ ep, clearsHalt req ep = false) ∧
      ((∃ value, s.handleSetup req = s.setLineState value) ∨
        (∃ index, s.handleSetup req = s.setHalt index) ∨ s.handleSetup req = s)) := by
  by_cases htype : req.bRequestType &&& USB_REQ_TYP_MASK = USB_REQ_TYP_STANDARD
  · rw [handleSetup, if_neg (not_not.mpr htype)]
    by_cases hclear : req.bRequest = USB_CLEAR_FEATURE
    · rw [if_pos hclear]
      by_cases hhalt : endpHalt req = true
      · rw [if_pos hhalt]
        exact .inl ⟨_, rfl, fun ep => by simp [clearsHalt, htype, hclear, hhalt]⟩
      · rw [if_neg hhalt]
        exact .inr ⟨fun ep => by simp [clearsHalt, hhalt], .inr (.inr rfl)⟩
    · refine .inr ⟨fun ep => by simp [clearsHalt, hclear], ?_⟩
      rw [if_neg hclear]
      split_ifs
      · exact .inr (.inl ⟨_, rfl⟩)
      · exact .inr (.inr rfl)
      · exact .inr (.inr rfl)
  · refine .inr ⟨fun ep => by simp [clearsHalt, htype], ?_⟩
    rw [handleSetup, if_pos htype]
    split_ifs
    · exact .inl ⟨_, rfl⟩
    · exact .inr (.inr rfl)

/-- A packet has arrived on EP2. -/
def ep2Out (s : UsbCdc) (packet : List UInt8) : UsbCdc :=
  let s := { s with uep2 := s.uep2.toggle, rx := (s.rx.push packet).2 }
  -- throttle the host without room for the next packet
  if s.rx.free < kPacket then { s with uep2 := s.uep2.respond .nak, ep2Nak := true } else s

def handleTransfer (s : UsbCdc) : Transfer → UsbCdc
  | .inToken ep =>
    if ep = UEP1 then { s with uep1 := s.uep1.toggle.respond .nak }
    else if ep = UEP3 then s.ep3In
    else s
  | .outToken ep packet => if ep = UEP2 then s.ep2Out packet else s
  | .setup req => s.handleSetup req
  | .sof => s

def onIrq (s : UsbCdc) : UsbCdc :=
  match s.uifTransfer with
  | some t => { s.handleTransfer t with uifTransfer := none }
  | none =>
    if s.uifBusRst then { s.busReset with uifBusRst := false }
    else if s.uifSuspend then { s with uifSuspend := false }
    else s

theorem onIrq_none {s : UsbCdc} (h : s.uifTransfer = none) :
    s.onIrq =
      if s.uifBusRst then { s.busReset with uifBusRst := false }
      else if s.uifSuspend then { s with uifSuspend := false }
      else s := by
  simp only [onIrq, h]

theorem onIrq_some {s : UsbCdc} {t : Transfer} (h : s.uifTransfer = some t) :
    s.onIrq = { s.handleTransfer t with uifTransfer := none } := by
  simp only [onIrq, h]

-- ---------------------------------------------------------------------------
-- Main loop
-- ---------------------------------------------------------------------------

/-- `tick` first polls the interrupt flags. -/
def poll (s : UsbCdc) : UsbCdc :=
  if s.uifTransfer.isSome ∨ s.uifBusRst ∨ s.uifSuspend then s.onIrq else s

/-- `tick` re-opens the OUT endpoint once the ring has room for a full packet. -/
def reopenOut (s : UsbCdc) : UsbCdc :=
  if s.ep2Nak ∧ kPacket ≤ s.rx.free then
    { s with uep2 := s.uep2.respond .ack, ep2Nak := false }
  else s

def withPartial (s : UsbCdc) (pending : Bool) (sinceMs : UInt32) : UsbCdc :=
  { s with partialPending := pending, partialSinceMs := sinceMs }

/-- `tick` arms a full packet at once, a short one after `kPartialFlushMs`. -/
def coalesceTx (s : UsbCdc) (nowMs : UInt32) : UsbCdc :=
  if s.ep3Busy then s
  else if kPacket ≤ s.tx.size then
    ((s.withPartial false s.partialSinceMs).armEp3FromTx false).2
  else if s.tx.size ≠ 0 then
    let s := if s.partialPending then s else s.withPartial true nowMs
    if kPartialFlushMs ≤ nowMs - s.partialSinceMs then
      ((s.withPartial false s.partialSinceMs).armEp3FromTx true).2
    else s
  else s.withPartial false s.partialSinceMs

def tick (s : UsbCdc) (nowMs : UInt32) : UsbCdc := s.poll.reopenOut.coalesceTx nowMs

def pump (s : UsbCdc) : UsbCdc :=
  match s.uifTransfer with
  | none => s
  | some t =>
    if t ≠ .inToken UEP3 then s.onIrq
    else
      let (armed, s) := { s.ep3In with uifTransfer := none }.armEp3FromTx false
      if armed then { s with partialPending := false } else s

/-- `tick` has a packet to arm: a full one, or a short one held long enough. -/
def armDue (s : UsbCdc) (nowMs : UInt32) : Bool :=
  !s.ep3Busy && (kPacket ≤ s.tx.size ||
    (s.tx.size ≠ 0 && s.partialPending && kPartialFlushMs ≤ nowMs - s.partialSinceMs))

/-- What `tick` does to EP3: it arms what is due, or only notes since when a
short packet is held. -/
theorem coalesceTx_cases (s : UsbCdc) (nowMs : UInt32) :
    (s.armDue nowMs = true ∧ ∃ since short, (kPacket ≤ s.tx.size ∨ short = true) ∧
      s.coalesceTx nowMs = ((s.withPartial false since).armEp3FromTx short).2) ∨
    (s.armDue nowMs = false ∧ ∃ pending since,
      s.coalesceTx nowMs = s.withPartial pending since) := by
  by_cases hbusy : s.ep3Busy = true
  · refine .inr ⟨by simp [armDue, hbusy], s.partialPending, s.partialSinceMs, ?_⟩
    rw [coalesceTx, if_pos hbusy]
    rfl
  · rw [coalesceTx, if_neg hbusy]
    by_cases hfull : kPacket ≤ s.tx.size
    · refine .inl ⟨by simp [armDue, hbusy, hfull], s.partialSinceMs, false, .inl hfull, ?_⟩
      rw [if_pos hfull]
    · rw [if_neg hfull]
      by_cases hsize : s.tx.size = 0
      · refine .inr ⟨by simp [armDue, hsize, kPacket], false, s.partialSinceMs, ?_⟩
        rw [if_neg (not_not.mpr hsize)]
      · rw [if_pos hsize]
        by_cases hpend : s.partialPending = true
        · simp only [if_pos hpend]
          by_cases hheld : kPartialFlushMs ≤ nowMs - s.partialSinceMs
          · refine .inl ⟨by simp [armDue, hbusy, hsize, hpend, hheld], s.partialSinceMs, true,
              .inr rfl, ?_⟩
            rw [if_pos hheld]
          · refine .inr ⟨by simp [armDue, hfull, hheld], s.partialPending, s.partialSinceMs, ?_⟩
            rw [if_neg hheld]
            rfl
        · -- a short packet first seen now is held
          refine .inr ⟨by simp [armDue, hfull, hpend], true, nowMs, ?_⟩
          have hfresh : ¬ kPartialFlushMs ≤ nowMs - (s.withPartial true nowMs).partialSinceMs := by
            rw [withPartial, UInt32.sub_self]
            decide
          simp only [if_neg hpend, if_neg hfresh]

/-- The completion of EP3 as `pump` handles it, before it arms again. -/
def release (s : UsbCdc) : UsbCdc := { s.ep3In with uifTransfer := none }

theorem pump_none {s : UsbCdc} (h : s.uifTransfer = none) : s.pump = s := by
  simp only [pump, h]

theorem pump_ep3In {s : UsbCdc} (h : s.uifTransfer = some (.inToken UEP3)) :
    s.pump =
      if (s.release.armEp3FromTx false).1 then
        { (s.release.armEp3FromTx false).2 with partialPending := false }
      else (s.release.armEp3FromTx false).2 := by
  simp only [pump, h]
  rfl

theorem pump_other {s : UsbCdc} {t : Transfer} (h : s.uifTransfer = some t)
    (ht : t ≠ .inToken UEP3) : s.pump = s.onIrq := by
  simp only [pump, h, if_pos ht]

end UsbCdc

end Tapioca

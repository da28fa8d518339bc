-- SUMMARY: Control transfers of the USB-CDC device on EP0, and when a control read returns the object it asks for.
import Tapioca.Usb.UsbCdc

/-!
# Control reads

`handleSetup` and `handleEp0In` with the state of EP0: the cursor `descr_` into
the object a request names, the length that is left, and the endpoint buffer.
The memory behind an object is a parameter. An IN token takes the packet in the
buffer under the toggle of the endpoint; the host drops a packet under the
toggle it has seen last.
-/

namespace Tapioca

namespace Usb

-- ---------------------------------------------------------------------------
-- Requests
-- ---------------------------------------------------------------------------

def USB_GET_STATUS : UInt8 := 0x00
def USB_SET_ADDRESS : UInt8 := 0x05
def USB_GET_DESCRIPTOR : UInt8 := 0x06
def USB_GET_CONFIGURATION : UInt8 := 0x08
def USB_SET_CONFIGURATION : UInt8 := 0x09
def USB_GET_INTERFACE : UInt8 := 0x0A
def USB_SET_INTERFACE : UInt8 := 0x0B
def USB_DESCR_TYP_DEVICE : UInt8 := 0x01
def USB_DESCR_TYP_CONFIG : UInt8 := 0x02
def USB_DESCR_TYP_STRING : UInt8 := 0x03
def USB_REQ_RECIP_DEVICE : UInt8 := 0x00
def USB_REQ_FEAT_REMOTE_WAKEUP : UInt8 := 0x01
def CDC_SET_LINE_CODING : UInt8 := 0x20
def CDC_GET_LINE_CODING : UInt8 := 0x21
def CDC_SEND_BREAK : UInt8 := 0x23

namespace SetupReq

/-- A standard request. -/
def standard (req : SetupReq) : Bool := req.bRequestType &&& USB_REQ_TYP_MASK = USB_REQ_TYP_STANDARD

def recip (req : SetupReq) : UInt8 := req.bRequestType &&& USB_REQ_RECIP_MASK

/-- The data stage goes from the device to the host. -/
def deviceToHost (req : SetupReq) : Bool := req.bRequestType &&& UEP_IN ≠ 0

end SetupReq

-- ---------------------------------------------------------------------------
-- Descriptors
-- ---------------------------------------------------------------------------

def kEp0Size : UInt16 := 64
def kStrLang : UInt8 := 0x00
def kStrManu : UInt8 := 0x01
def kStrProd : UInt8 := 0x02
def kStrSerial : UInt8 := 0x03

def kDevice : List UInt8 :=
  [0x12, 0x01, 0x10, 0x01, 0x02, 0x00, 0x00, 0x40, 0x86, 0x1A, 0x0C, 0xFE, 0x01, 0x00, kStrManu, kStrProd,
    0x00, 0x01]

def kConfig : List UInt8 :=
  [0x09, 0x02, 0x43, 0x00, 0x02, 0x01, 0x00, 0x80, 0x32,
    -- interface 0
    0x09, 0x04, 0x00, 0x00, 0x01, 0x02, 0x02, 0x01, 0x00,
    0x05, 0x24, 0x00, 0x10, 0x01,
    0x05, 0x24, 0x01, 0x00, 0x01,
    0x04, 0x24, 0x02, 0x02,
    0x05, 0x24, 0x06, 0x00, 0x01,
    0x07, 0x05, 0x81, 0x03, 0x40, 0x00, 0x01,
    -- interface 1
    0x09, 0x04, 0x01, 0x00, 0x02, 0x0A, 0x00, 0x00, 0x00,
    0x07, 0x05, 0x02, 0x02, 0x40, 0x00, 0x00,
    0x07, 0x05, 0x83, 0x02, 0x40, 0x00, 0x00]

def kLang : List UInt8 := [0x04, 0x03, 0x09, 0x04]

/-- A string in UTF-16, all of it ASCII, behind its length and type. -/
def stringDescr (len : UInt8) (text : List UInt8) : List UInt8 := len :: 0x03 :: text.flatMap fun c => [c, 0]

/-- "wch.cn". -/
def kManufacturer : List UInt8 := stringDescr 0x0E [0x77, 0x63, 0x68, 0x2E, 0x63, 0x6E]

/-- "USB Serial". -/
def kProduct : List UInt8 := stringDescr 0x16 [0x55, 0x53, 0x42, 0x20, 0x53, 0x65, 0x72, 0x69, 0x61, 0x6C]

/-- "0123456789". -/
def kSerial : List UInt8 := stringDescr 0x16 [0x30, 0x31, 0x32, 0x33, 0x34, 0x35, 0x36, 0x37, 0x38, 0x39]

/-- Byte `i` of a table. -/
def byteAt (table : List UInt8) (i : Nat) : UInt16 := (table.getD i 0).toUInt16

def deviceLen : UInt16 := byteAt kDevice 0

def configLen : UInt16 := byteAt kConfig 2 ||| byteAt kConfig 3 <<< 8

/-- The table a GET_DESCRIPTOR names, and its length as the table gives it. -/
def descriptor (value : UInt16) : Option (List UInt8 × UInt16) :=
  if (value >>> 8).toUInt8 = USB_DESCR_TYP_DEVICE then some (kDevice, deviceLen)
  else if (value >>> 8).toUInt8 = USB_DESCR_TYP_CONFIG then some (kConfig, configLen)
  else if (value >>> 8).toUInt8 = USB_DESCR_TYP_STRING then
    if value.toUInt8 = kStrLang then some (kLang, byteAt kLang 0)
    else if value.toUInt8 = kStrManu then some (kManufacturer, byteAt kManufacturer 0)
    else if value.toUInt8 = kStrProd then some (kProduct, byteAt kProduct 0)
    else if value.toUInt8 = kStrSerial then some (kSerial, byteAt kSerial 0)
    else none
  else none

/-- The tables give their own length. -/
theorem descriptor_len {value : UInt16} {table : List UInt8} {len : UInt16}
    (h : descriptor value = some (table, len)) : len.toNat = table.length := by
  have hall : ∀ d ∈ [(kDevice, deviceLen), (kConfig, configLen), (kLang, byteAt kLang 0),
      (kManufacturer, byteAt kManufacturer 0), (kProduct, byteAt kProduct 0), (kSerial, byteAt kSerial 0)],
      d.2.toNat = d.1.length := by decide
  refine hall (table, len) ?_
  rw [descriptor] at h
  split_ifs at h <;> simp [← Option.some.inj h]

end Usb

open Usb

-- ---------------------------------------------------------------------------
-- The state of EP0
-- ---------------------------------------------------------------------------

/-- `UEP0_CTRL_H`. -/
structure Uep0 where
  tTog : Bool
  tRes : Response
  rTog : Bool
  rRes : Response

/-- `descr_`, as a table and a place in it. -/
structure Cursor where
  table : List UInt8
  off : Nat

/-- The byte `i` places on, behind the table what the memory holds there. -/
def Cursor.read (beyond : Nat → UInt8) (c : Cursor) (i : Nat) : UInt8 :=
  c.table.getD (c.off + i) (beyond (c.off + i))

structure Control where
  cdc : UsbCdc
  ep0 : Nat → UInt8
  descr : Option Cursor
  setupLen : UInt16
  setupReq : SetupReq
  devAddr : UInt8
  devConfig : UInt8
  enumerated : Bool
  sleepStatus : UInt8
  lcWire : List UInt8
  lcWire_len : lcWire.length = 7
  uep0 : Uep0
  uep0TxLen : UInt16
  /-- `DEV_ADDR`. -/
  devAddrReg : UInt8
  /-- A `memcpy` of this transfer has read behind its table. -/
  overread : Bool

namespace Control

/-- `memcpy(ep0_, descr_, len); descr_ += len;` -/
def copyDescr (s : Control) (beyond : Nat → UInt8) (len : UInt16) : Control :=
  match s.descr with
  | none => s
  | some c =>
    { s with
      ep0 := fun i => if i < len.toNat then c.read beyond i else s.ep0 i
      descr := some { c with off := c.off + len.toNat }
      overread := s.overread || c.table.length < c.off + len.toNat }

/-- `(setupLen_ >= kEp0Size) ? kEp0Size : setupLen_`. -/
def chunk (s : Control) : UInt16 := if kEp0Size ≤ s.setupLen then kEp0Size else s.setupLen

/-- `if (setupLen_ > len) setupLen_ = len;` -/
def clamp (s : Control) (len : UInt16) : Control :=
  { s with setupLen := if len < s.setupLen then len else s.setupLen }

def setEp0 (s : Control) (bytes : List UInt8) : Control :=
  { s with ep0 := fun i => bytes.getD i (s.ep0 i) }

-- ---------------------------------------------------------------------------
-- SETUP
-- ---------------------------------------------------------------------------

/-- A class or vendor request, and whether it is an error. -/
def classRequest (s : Control) (beyond : Nat → UInt8) (req : SetupReq) : Bool × Control :=
  let (errflag, s) : Bool × Control :=
    if req.bRequestType &&& USB_REQ_TYP_CLASS ≠ 0 then
      if req.bRequest = CDC_GET_LINE_CODING then (false, { s with descr := some ⟨s.lcWire, 0⟩ })
      else if req.bRequest = CDC_SET_LINE_CODING ∨ req.bRequest = CDC_SET_LINE_CTLSTE ∨
        req.bRequest = CDC_SEND_BREAK then (false, s)
      else (true, s)
    else (true, s)
  (errflag, s.copyDescr beyond s.chunk)

def getDescriptor (s : Control) (beyond : Nat → UInt8) (req : SetupReq) : Bool × Control :=
  match descriptor req.wValue with
  | some (table, len) =>
    let s := { s with descr := some ⟨table, 0⟩ }.clamp len
    (false, s.copyDescr beyond s.chunk)
  | none => (true, s.clamp 0)

/-- The endpoint of a halt feature, or of a status. -/
def knownEndpoint (index : UInt8) : Bool :=
  index = UEP_IN ||| UEP1 ∨ index = UEP_OUT ||| UEP2 ∨ index = UEP_IN ||| UEP3

def clearFeature (s : Control) (req : SetupReq) : Bool × Control :=
  if req.recip = USB_REQ_RECIP_DEVICE then
    (false, if req.wValue.toUInt8 = USB_REQ_FEAT_REMOTE_WAKEUP then
      { s with sleepStatus := s.sleepStatus &&& ~~~ 0x01 } else s)
  else (!(UsbCdc.endpHalt req && knownEndpoint req.wIndex.toUInt8), s)

def setFeature (s : Control) (req : SetupReq) : Bool × Control :=
  if req.recip = USB_REQ_RECIP_DEVICE then
    if req.wValue.toUInt8 = USB_REQ_FEAT_REMOTE_WAKEUP ∧ byteAt kConfig 7 &&& 0x20 ≠ 0 then
      (false, { s with sleepStatus := s.sleepStatus ||| 0x01 })
    else (true, s)
  else (!(UsbCdc.endpHalt req && knownEndpoint req.wIndex.toUInt8), s)

/-- The response of an endpoint is a stall. -/
def stalled (s : Control) (index : UInt8) : Bool :=
  if index = UEP_IN ||| UEP1 then s.cdc.uep1.res = .stall
  else if index = UEP_OUT ||| UEP2 then s.cdc.uep2.res = .stall
  else s.cdc.uep3.res = .stall

/-- The two bytes of a status, if the request is no error. -/
def status (s : Control) (req : SetupReq) : Option (List UInt8) :=
  if req.recip = USB_REQ_RECIP_DEVICE then
    some [if s.sleepStatus &&& 0x01 ≠ 0 then 0x02 else 0x00, 0x00]
  else if req.recip = USB_REQ_RECIP_ENDP ∧ knownEndpoint req.wIndex.toUInt8 then
    some [if s.stalled req.wIndex.toUInt8 then 0x01 else 0x00, 0x00]
  else none

def getStatus (s : Control) (req : SetupReq) : Bool × Control :=
  match s.status req with
  | some bytes => (false, (s.setEp0 bytes).clamp 2)
  | none => (true, (s.setEp0 [0x00, 0x00]).clamp 2)

def standardRequest (s : Control) (beyond : Nat → UInt8) (req : SetupReq) : Bool × Control :=
  if req.bRequest = USB_GET_DESCRIPTOR then s.getDescriptor beyond req
  else if req.bRequest = USB_SET_ADDRESS then (false, { s with devAddr := req.wValue.toUInt8 })
  else if req.bRequest = USB_GET_CONFIGURATION then (false, (s.setEp0 [s.devConfig]).clamp 1)
  else if req.bRequest = USB_SET_CONFIGURATION then
    (false, { s with devConfig := req.wValue.toUInt8, enumerated := true })
  else if req.bRequest = USB_CLEAR_FEATURE then s.clearFeature req
  else if req.bRequest = USB_SET_FEATURE then s.setFeature req
  else if req.bRequest = USB_GET_INTERFACE then (false, (s.setEp0 [0x00]).clamp 1)
  else if req.bRequest = USB_SET_INTERFACE then (false, s)
  else if req.bRequest = USB_GET_STATUS then s.getStatus req
  else (true, s)

/-- The data stage, or the status stage, or a stall. -/
def dataStage (s : Control) (req : SetupReq) (errflag : Bool) : Control :=
  if errflag then { s with uep0 := ⟨true, .stall, true, .stall⟩ }
  else if req.deviceToHost then
    let len := if kEp0Size < s.setupLen then kEp0Size else s.setupLen
    { s with
      setupLen := s.setupLen - len
      uep0TxLen := len
      uep0 := { s.uep0 with tTog := true, tRes := .ack } }
  else if s.setupLen = 0 then
    { s with uep0TxLen := 0, uep0 := { s.uep0 with tTog := true, tRes := .ack } }
  else { s with uep0 := { s.uep0 with rTog := true, rRes := .ack } }

/-- What `handleSetup` starts with; the bulk side of the request is that of `UsbCdc`. -/
def beginSetup (s : Control) (req : SetupReq) : Control :=
  { s with
    cdc := s.cdc.handleSetup req
    uep0 := ⟨true, .nak, true, .nak⟩
    descr := none
    setupLen := req.wLength
    setupReq := req
    overread := false }

def handleSetup (s : Control) (beyond : Nat → UInt8) (req : SetupReq) : Control :=
  let s := s.beginSetup req
  let (errflag, s) := if req.standard then s.standardRequest beyond req else s.classRequest beyond req
  s.dataStage req errflag

-- ---------------------------------------------------------------------------
-- IN
-- ---------------------------------------------------------------------------

/-- With nothing left to send the status stage may begin. -/
def openStatus (s : Control) : Control :=
  if s.setupLen = 0 then { s with uep0 := { s.uep0 with rTog := true, rRes := .ack } } else s

/-- The next packet of a descriptor. -/
def sendMore (s : Control) (beyond : Nat → UInt8) : Control :=
  let len := s.chunk
  let s := s.copyDescr beyond len
  { s with
    setupLen := s.setupLen - len
    uep0TxLen := len
    uep0 := { s.uep0 with tTog := !s.uep0.tTog } }

def handleEp0In (s : Control) (beyond : Nat → UInt8) : Control :=
  let s := s.openStatus
  if s.setupReq.standard then
    if s.setupReq.bRequest = USB_GET_DESCRIPTOR then s.sendMore beyond
    else if s.setupReq.bRequest = USB_SET_ADDRESS then { s with devAddrReg := s.devAddr }
    else s
  else s

/-- The packet EP0 answers an IN token with, and its toggle. -/
def inPacket (s : Control) : Bool × List UInt8 :=
  (s.uep0.tTog, (List.range s.uep0TxLen.toNat).map s.ep0)

/-- The state behind `n` IN completions. -/
def afterIn (s : Control) (beyond : Nat → UInt8) : Nat → Control
  | 0 => s
  | n + 1 => (s.handleEp0In beyond).afterIn beyond n

/-- The packets of `n` IN tokens. -/
def inPackets (s : Control) (beyond : Nat → UInt8) : Nat → List (Bool × List UInt8)
  | 0 => []
  | n + 1 => s.inPacket :: (s.handleEp0In beyond).inPackets beyond n

end Control

/-- What a host takes from the packets: those under the toggle it waits for. -/
def received (tog : Bool) : List (Bool × List UInt8) → List UInt8
  | [] => []
  | (t, bytes) :: packets => if t = tog then bytes ++ received (!tog) packets else received tog packets

namespace Control

-- ---------------------------------------------------------------------------
-- What a control read is for
-- ---------------------------------------------------------------------------

/-- The object a request reads. -/
def object (s : Control) (req : SetupReq) : Option (List UInt8) :=
  if req.standard then
    if req.bRequest = USB_GET_DESCRIPTOR then (descriptor req.wValue).map Prod.fst
    else if req.bRequest = USB_GET_CONFIGURATION then some [s.devConfig]
    else if req.bRequest = USB_GET_INTERFACE then some [0x00]
    else if req.bRequest = USB_GET_STATUS then s.status req
    else none
  else if req.bRequestType &&& USB_REQ_TYP_CLASS ≠ 0 ∧ req.bRequest = CDC_GET_LINE_CODING then some s.lcWire
  else none

/-- The device returns an object, as far as it is asked for, however many IN
tokens the host sends, and reads nothing behind it. -/
structure Returns (s : Control) (beyond : Nat → UInt8) (req : SetupReq) (obj : List UInt8) : Prop where
  bytes n : received true ((s.handleSetup beyond req).inPackets beyond n) =
    (obj.take req.wLength.toNat).take (64 * n)
  short n : ∀ p ∈ (s.handleSetup beyond req).inPackets beyond n, p.2.length ≤ 64
  inside n : ((s.handleSetup beyond req).afterIn beyond n).overread = false

-- ---------------------------------------------------------------------------
-- Copies
-- ---------------------------------------------------------------------------

theorem toNat_chunk (s : Control) : s.chunk.toNat = min 64 s.setupLen.toNat := by
  rw [chunk]
  have hsize : kEp0Size.toNat = 64 := rfl
  split
  · rename_i h
    have hle := UInt16.le_iff_toNat_le.mp h
    omega
  · rename_i h
    have hlt := UInt16.lt_iff_toNat_lt.mp (UInt16.not_le.mp h)
    omega

theorem map_read (beyond : Nat → UInt8) (c : Cursor) {n : Nat} (h : c.off + n ≤ c.table.length) :
    (List.range n).map (c.read beyond) = (c.table.drop c.off).take n := by
  refine List.ext_getElem (by simp; omega) fun i hi hi' => ?_
  have hlt : i < n := by simpa using hi
  have hin : c.off + i < c.table.length := by omega
  simp [Cursor.read, List.getElem?_eq_getElem hin]

theorem copyDescr_some {s : Control} {c : Cursor} (hdescr : s.descr = some c) (beyond : Nat → UInt8) (len : UInt16) :
    s.copyDescr beyond len =
      { s with
        ep0 := fun i => if i < len.toNat then c.read beyond i else s.ep0 i
        descr := some { c with off := c.off + len.toNat }
        overread := s.overread || c.table.length < c.off + len.toNat } := by
  simp only [copyDescr, hdescr]

/-- The packet of a copy. -/
theorem map_copied (beyond : Nat → UInt8) (c : Cursor) (ep0 : Nat → UInt8) (n : Nat) :
    (List.range n).map (fun i => if i < n then c.read beyond i else ep0 i) = (List.range n).map (c.read beyond) :=
  List.map_congr_left fun _ hi => if_pos (List.mem_range.mp hi)

-- ---------------------------------------------------------------------------
-- A descriptor, packet by packet
-- ---------------------------------------------------------------------------

theorem sendMore_some {s : Control} {c : Cursor} (hdescr : s.descr = some c) (beyond : Nat → UInt8) :
    s.sendMore beyond =
      { s with
        ep0 := fun i => if i < s.chunk.toNat then c.read beyond i else s.ep0 i
        descr := some { c with off := c.off + s.chunk.toNat }
        overread := s.overread || c.table.length < c.off + s.chunk.toNat
        setupLen := s.setupLen - s.chunk
        uep0TxLen := s.chunk
        uep0 := { s.uep0 with tTog := !s.uep0.tTog } } := by
  simp only [sendMore, copyDescr_some hdescr]

/-- The device is about to send `rest` of a descriptor, its next packet under `tog`. -/
structure Serving (s : Control) (rest : List UInt8) (tog : Bool) : Prop where
  standard : s.setupReq.standard = true
  code : s.setupReq.bRequest = USB_GET_DESCRIPTOR
  packet : s.inPacket = (tog, rest.take 64)
  left : s.setupLen.toNat = (rest.drop 64).length
  ahead : ∃ c, s.descr = some c ∧ c.off + s.setupLen.toNat ≤ c.table.length ∧
    rest.drop 64 = (c.table.drop c.off).take s.setupLen.toNat
  inside : s.overread = false

theorem Serving.openStatus {s : Control} {rest : List UInt8} {tog : Bool} (h : s.Serving rest tog) :
    s.openStatus.Serving rest tog := by
  rw [Control.openStatus]
  split
  · exact ⟨h.standard, h.code, h.packet, h.left, h.ahead, h.inside⟩
  · exact h

theorem Serving.sendMore {s : Control} {rest : List UInt8} {tog : Bool} (h : s.Serving rest tog)
    (beyond : Nat → UInt8) : (s.sendMore beyond).Serving (rest.drop 64) (!tog) := by
  obtain ⟨c, hdescr, hfits, hahead⟩ := h.ahead
  have hlen := s.toNat_chunk
  have hle : s.chunk.toNat ≤ s.setupLen.toNat := by omega
  have hsub : (s.setupLen - s.chunk).toNat = s.setupLen.toNat - s.chunk.toNat :=
    UInt16.toNat_sub_of_le _ _ (UInt16.le_iff_toNat_le.mpr hle)
  have hrest : (rest.drop 64).length = s.setupLen.toNat := h.left.symm
  rw [sendMore_some hdescr]
  exact
    { standard := h.standard
      code := h.code
      packet := by
        have htog : (!s.uep0.tTog) = !tog := congrArg (fun p : Bool × List UInt8 => !p.1) h.packet
        refine Prod.ext htog ?_
        show (List.range s.chunk.toNat).map _ = _
        rw [map_copied, map_read beyond c (by omega), hahead, List.take_take, hlen]
      left := by
        show (s.setupLen - s.chunk).toNat = _
        rw [hsub, List.length_drop, hrest]
        omega
      ahead := by
        refine ⟨_, rfl, ?_, ?_⟩
        · show c.off + s.chunk.toNat + (s.setupLen - s.chunk).toNat ≤ c.table.length
          omega
        · show (rest.drop 64).drop 64 = (c.table.drop (c.off + s.chunk.toNat)).take (s.setupLen - s.chunk).toNat
          rw [hsub, hahead, List.drop_take, List.drop_drop, hlen]
          rcases Nat.le_total s.setupLen.toNat 64 with hsmall | hlarge
          · rw [Nat.sub_eq_zero_of_le hsmall, min_eq_right hsmall, Nat.sub_self, List.take_zero, List.take_zero]
          · rw [min_eq_left hlarge]
      inside := by
        show (s.overread || decide (c.table.length < c.off + s.chunk.toNat)) = false
        rw [h.inside, Bool.false_or, decide_eq_false (by omega)] }

theorem Serving.next {s : Control} {rest : List UInt8} {tog : Bool} (h : s.Serving rest tog)
    (beyond : Nat → UInt8) : (s.handleEp0In beyond).Serving (rest.drop 64) (!tog) := by
  have hmore : s.handleEp0In beyond = s.openStatus.sendMore beyond := by
    simp only [handleEp0In, h.openStatus.standard, h.openStatus.code, if_true]
  rw [hmore]
  exact h.openStatus.sendMore beyond

theorem Serving.received {s : Control} {rest : List UInt8} {tog : Bool} (h : s.Serving rest tog)
    (beyond : Nat → UInt8) (n : Nat) : received tog (s.inPackets beyond n) = rest.take (64 * n) := by
  induction n generalizing s rest tog with
  | zero => rfl
  | succ n ih =>
    have hnext := ih (h.next beyond)
    rw [inPackets, h.packet, Tapioca.received, if_pos rfl, hnext, Nat.mul_succ, Nat.add_comm, List.take_add]

theorem Serving.short {s : Control} {rest : List UInt8} {tog : Bool} (h : s.Serving rest tog)
    (beyond : Nat → UInt8) (n : Nat) : ∀ p ∈ s.inPackets beyond n, p.2.length ≤ 64 := by
  induction n generalizing s rest tog with
  | zero => exact List.forall_mem_nil _
  | succ n ih =>
    refine List.forall_mem_cons.mpr ⟨?_, ih (h.next beyond)⟩
    rw [h.packet]
    exact List.length_take_le _ _

theorem Serving.inside_after {s : Control} {rest : List UInt8} {tog : Bool} (h : s.Serving rest tog)
    (beyond : Nat → UInt8) (n : Nat) : (s.afterIn beyond n).overread = false := by
  induction n generalizing s rest tog with
  | zero => exact h.inside
  | succ n ih => exact ih (h.next beyond)

-- ---------------------------------------------------------------------------
-- A single packet
-- ---------------------------------------------------------------------------

/-- No completion changes the packet or its toggle. -/
structure Still (s : Control) (packet : List UInt8) : Prop where
  code : s.setupReq.standard = true → s.setupReq.bRequest ≠ USB_GET_DESCRIPTOR
  packet : s.inPacket = (true, packet)
  inside : s.overread = false

theorem Still.openStatus {s : Control} {packet : List UInt8} (h : s.Still packet) : s.openStatus.Still packet := by
  rw [Control.openStatus]
  split
  · exact ⟨h.code, h.packet, h.inside⟩
  · exact h

theorem Still.next {s : Control} {packet : List UInt8} (h : s.Still packet) (beyond : Nat → UInt8) :
    (s.handleEp0In beyond).Still packet := by
  have hopen := h.openStatus
  simp only [handleEp0In]
  split_ifs with hstandard hcode haddr
  · exact absurd hcode (hopen.code hstandard)
  · exact ⟨hopen.code, hopen.packet, hopen.inside⟩
  · exact hopen
  · exact hopen

/-- Under the toggle it has seen the host takes nothing more. -/
theorem Still.again {s : Control} {packet : List UInt8} (h : s.Still packet) (beyond : Nat → UInt8) (n : Nat) :
    Tapioca.received false (s.inPackets beyond n) = [] := by
  induction n generalizing s with
  | zero => rfl
  | succ n ih =>
    rw [inPackets, h.packet, Tapioca.received, if_neg (by decide)]
    exact ih (h.next beyond)

theorem Still.received {s : Control} {packet : List UInt8} (h : s.Still packet) (hlen : packet.length ≤ 64)
    (beyond : Nat → UInt8) (n : Nat) : received true (s.inPackets beyond n) = packet.take (64 * n) := by
  cases n with
  | zero => rfl
  | succ n =>
    have hall : packet.length ≤ 64 * (n + 1) := by omega
    rw [inPackets, h.packet, Tapioca.received, if_pos rfl, Bool.not_true, (h.next beyond).again, List.append_nil,
      List.take_of_length_le hall]

theorem Still.short {s : Control} {packet : List UInt8} (h : s.Still packet) (hlen : packet.length ≤ 64)
    (beyond : Nat → UInt8) (n : Nat) : ∀ p ∈ s.inPackets beyond n, p.2.length ≤ 64 := by
  induction n generalizing s with
  | zero => exact List.forall_mem_nil _
  | succ n ih =>
    refine List.forall_mem_cons.mpr ⟨?_, ih (h.next beyond)⟩
    rw [h.packet]
    exact hlen

theorem Still.inside_after {s : Control} {packet : List UInt8} (h : s.Still packet) (beyond : Nat → UInt8)
    (n : Nat) : (s.afterIn beyond n).overread = false := by
  induction n generalizing s with
  | zero => exact h.inside
  | succ n ih => exact ih (h.next beyond)

-- ---------------------------------------------------------------------------
-- What SETUP stages
-- ---------------------------------------------------------------------------

theorem Serving.returns {s : Control} {beyond : Nat → UInt8} {req : SetupReq} {obj : List UInt8}
    (h : (s.handleSetup beyond req).Serving (obj.take req.wLength.toNat) true) : s.Returns beyond req obj :=
  ⟨h.received beyond, h.short beyond, h.inside_after beyond⟩

theorem Still.returns {s : Control} {beyond : Nat → UInt8} {req : SetupReq} {obj : List UInt8}
    (h : (s.handleSetup beyond req).Still (obj.take req.wLength.toNat)) (hlen : obj.length ≤ 64) :
    s.Returns beyond req obj := by
  have hshort : (obj.take req.wLength.toNat).length ≤ 64 := (List.length_take_le' _ _).trans hlen
  exact ⟨h.received hshort beyond, h.short hshort beyond, h.inside_after beyond⟩

theorem dataStage_in (s : Control) {req : SetupReq} (hin : req.deviceToHost = true) :
    s.dataStage req false =
      { s with
        setupLen := s.setupLen - s.chunk
        uep0TxLen := s.chunk
        uep0 := { s.uep0 with tTog := true, tRes := .ack } } := by
  have hlen : (if kEp0Size < s.setupLen then kEp0Size else s.setupLen) = s.chunk := by
    refine UInt16.toNat_inj.mp ?_
    have hsize : kEp0Size.toNat = 64 := rfl
    rw [toNat_chunk]
    split
    · rename_i h
      have hlt := UInt16.lt_iff_toNat_lt.mp h
      omega
    · rename_i h
      have hle := UInt16.le_iff_toNat_le.mp (UInt16.not_lt.mp h)
      omega
  simp only [dataStage, hin, hlen, Bool.false_eq_true, if_false, if_true]

theorem toNat_clamp (s : Control) (len : UInt16) : (s.clamp len).setupLen.toNat = min s.setupLen.toNat len.toNat := by
  show (if len < s.setupLen then len else s.setupLen).toNat = _
  split
  · rename_i h
    have hlt := UInt16.lt_iff_toNat_lt.mp h
    omega
  · rename_i h
    have hle := UInt16.le_iff_toNat_le.mp (UInt16.not_lt.mp h)
    omega

theorem handleSetup_descriptor (s : Control) (beyond : Nat → UInt8) {req : SetupReq} (hin : req.deviceToHost = true)
    (hstandard : req.standard = true) (hcode : req.bRequest = USB_GET_DESCRIPTOR) {table : List UInt8} {len : UInt16}
    (htable : descriptor req.wValue = some (table, len)) :
    (s.handleSetup beyond req).Serving (table.take req.wLength.toNat) true := by
  set s₁ : Control := { s.beginSetup req with descr := some ⟨table, 0⟩ }.clamp len with hs₁
  have hsetup : s.handleSetup beyond req = (s₁.copyDescr beyond s₁.chunk).dataStage req false := by
    simp only [handleSetup, hstandard, if_true, standardRequest, hcode, getDescriptor, htable]
    rfl
  have htotal : s₁.setupLen.toNat = min req.wLength.toNat table.length := by
    rw [hs₁, toNat_clamp, descriptor_len htable]
    rfl
  have hchunk := s₁.toNat_chunk
  have hcopy := copyDescr_some (s := s₁) (c := ⟨table, 0⟩) rfl beyond s₁.chunk
  have hrest : table.take req.wLength.toNat = table.take s₁.setupLen.toNat := by
    rw [htotal, List.take_eq_take_min]
  have hsub : (s₁.setupLen - s₁.chunk).toNat = s₁.setupLen.toNat - s₁.chunk.toNat :=
    UInt16.toNat_sub_of_le _ _ (UInt16.le_iff_toNat_le.mpr (by omega))
  have hfits : s₁.setupLen.toNat ≤ table.length := by omega
  have hchunk' : (s₁.copyDescr beyond s₁.chunk).chunk = s₁.chunk := by
    rw [hcopy]
    rfl
  rw [hsetup, dataStage_in _ hin, hchunk', hcopy, hrest]
  exact
    { standard := hstandard
      code := hcode
      packet := by
        refine Prod.ext rfl ?_
        show (List.range s₁.chunk.toNat).map _ = _
        rw [map_copied, map_read beyond ⟨table, 0⟩ (by simp only; omega), List.drop_zero, List.take_take, hchunk]
      left := by
        show (s₁.setupLen - s₁.chunk).toNat = _
        rw [hsub, List.length_drop, List.length_take]
        omega
      ahead := by
        refine ⟨_, rfl, ?_, ?_⟩
        · show 0 + s₁.chunk.toNat + (s₁.setupLen - s₁.chunk).toNat ≤ table.length
          omega
        · show (table.take s₁.setupLen.toNat).drop 64 =
            (table.drop (0 + s₁.chunk.toNat)).take (s₁.setupLen - s₁.chunk).toNat
          rw [hsub, List.drop_take, Nat.zero_add, hchunk]
          rcases Nat.le_total s₁.setupLen.toNat 64 with hsmall | hlarge
          · rw [Nat.sub_eq_zero_of_le hsmall, min_eq_right hsmall, Nat.sub_self, List.take_zero, List.take_zero]
          · rw [min_eq_left hlarge]
      inside := by
        show (false || decide (table.length < 0 + s₁.chunk.toNat)) = false
        rw [Bool.false_or, decide_eq_false (by omega)] }

/-- A request whose object is written straight into the buffer. -/
theorem handleSetup_bytes (s : Control) (beyond : Nat → UInt8) {req : SetupReq} (hin : req.deviceToHost = true)
    (hstandard : req.standard = true) (hcode : req.bRequest ≠ USB_GET_DESCRIPTOR) (bytes : List UInt8)
    (len : UInt16) (hlen : len.toNat = bytes.length) (hshort : bytes.length ≤ 64)
    (hrequest : (s.beginSetup req).standardRequest beyond req =
      (false, ((s.beginSetup req).setEp0 bytes).clamp len)) :
    s.Returns beyond req bytes := by
  have hsetup : s.handleSetup beyond req = (((s.beginSetup req).setEp0 bytes).clamp len).dataStage req false := by
    simp only [handleSetup, hstandard, if_true, hrequest]
  have htotal := toNat_clamp ((s.beginSetup req).setEp0 bytes) len
  have hchunk := (((s.beginSetup req).setEp0 bytes).clamp len).toNat_chunk
  have hsame : ((s.beginSetup req).setEp0 bytes).setupLen = req.wLength := rfl
  rw [hsame] at htotal
  refine Still.returns ?_ hshort
  rw [hsetup, dataStage_in _ hin]
  refine ⟨fun _ => hcode, Prod.ext rfl ?_, rfl⟩
  show (List.range (((s.beginSetup req).setEp0 bytes).clamp len).chunk.toNat).map
    (fun i => bytes.getD i (s.ep0 i)) = _
  have hmap : ∀ n ≤ bytes.length, (List.range n).map (fun i => bytes.getD i (s.ep0 i)) = bytes.take n := by
    intro n hn
    refine List.ext_getElem (by simp [hn]) fun i hi hi' => ?_
    have hlt : i < bytes.length := by simp at hi'; omega
    simp [List.getElem?_eq_getElem hlt]
  rw [hmap _ (by omega), hchunk, htotal, hlen, List.take_eq_take_min, List.take_eq_take_min (i := req.wLength.toNat)]
  congr 1
  omega

/-- The class path copies as much of the line coding as the host asks for, whatever
its size. -/
theorem handleSetup_lineCoding (s : Control) (beyond : Nat → UInt8) {req : SetupReq} (hin : req.deviceToHost = true)
    (hclass : req.standard = false) (htype : req.bRequestType &&& USB_REQ_TYP_CLASS ≠ 0)
    (hcode : req.bRequest = CDC_GET_LINE_CODING) :
    (s.handleSetup beyond req).inPacket =
        (true, (List.range (min 64 req.wLength.toNat)).map (Cursor.read beyond ⟨s.lcWire, 0⟩)) ∧
      (s.handleSetup beyond req).setupReq = req ∧
      (s.handleSetup beyond req).overread = decide (7 < min 64 req.wLength.toNat) := by
  set s₁ : Control := { s.beginSetup req with descr := some ⟨s.lcWire, 0⟩ } with hs₁
  have hsetup : s.handleSetup beyond req = (s₁.copyDescr beyond s₁.chunk).dataStage req false := by
    simp only [handleSetup, hclass, Bool.false_eq_true, if_false, classRequest, if_pos htype, if_pos hcode]
    rfl
  have hchunk : s₁.chunk.toNat = min 64 req.wLength.toNat := s₁.toNat_chunk
  have hcopy := copyDescr_some (s := s₁) (c := ⟨s.lcWire, 0⟩) rfl beyond s₁.chunk
  have hchunk' : (s₁.copyDescr beyond s₁.chunk).chunk = s₁.chunk := by
    rw [hcopy]
    rfl
  rw [hsetup, dataStage_in _ hin, hchunk', hcopy, ← hchunk, ← s.lcWire_len]
  refine ⟨Prod.ext rfl (map_copied beyond ⟨s.lcWire, 0⟩ _ _), rfl, ?_⟩
  show (false || decide (s.lcWire.length < 0 + s₁.chunk.toNat)) = _
  rw [Bool.false_or, Nat.zero_add]

theorem lineCoding_returns_iff (s : Control) (beyond : Nat → UInt8) {req : SetupReq} (hin : req.deviceToHost = true)
    (hclass : req.standard = false) (htype : req.bRequestType &&& USB_REQ_TYP_CLASS ≠ 0)
    (hcode : req.bRequest = CDC_GET_LINE_CODING) : s.Returns beyond req s.lcWire ↔ req.wLength ≤ 7 := by
  obtain ⟨hpacket, hreq, hover⟩ := s.handleSetup_lineCoding beyond hin hclass htype hcode
  have hseven : req.wLength ≤ 7 ↔ req.wLength.toNat ≤ 7 := UInt16.le_iff_toNat_le
  rw [hseven]
  constructor
  · intro h
    have hinside := h.inside 0
    rw [afterIn, hover] at hinside
    have hle := of_decide_eq_false hinside
    omega
  · intro hle
    have hmin : min 64 req.wLength.toNat = req.wLength.toNat := by omega
    have hfits : 0 + req.wLength.toNat ≤ s.lcWire.length := by
      rw [s.lcWire_len]
      omega
    rw [hmin, map_read beyond ⟨s.lcWire, 0⟩ hfits] at hpacket
    rw [hmin, decide_eq_false (by omega)] at hover
    have hstill : (s.handleSetup beyond req).Still (s.lcWire.take req.wLength.toNat) := by
      refine ⟨fun hstandard => ?_, hpacket, hover⟩
      rw [hreq, hclass] at hstandard
      cases hstandard
    exact hstill.returns (by rw [s.lcWire_len]; decide)

theorem status_length (s : Control) {req : SetupReq} {bytes : List UInt8} (h : s.status req = some bytes) :
    bytes.length = 2 := by
  rw [status] at h
  split_ifs at h <;> exact congrArg List.length (Option.some.inj h).symm

/-- A standard request that names an object returns it. -/
theorem standard_returns (s : Control) (beyond : Nat → UInt8) {req : SetupReq} (hin : req.deviceToHost = true)
    (hstandard : req.standard = true) {obj : List UInt8} (hobj : s.object req = some obj) :
    s.Returns beyond req obj := by
  rw [object, if_pos hstandard] at hobj
  split_ifs at hobj with hdescr hconfig hinterface hstatus
  · obtain ⟨⟨table, len⟩, htable, rfl⟩ := Option.map_eq_some_iff.mp hobj
    exact (s.handleSetup_descriptor beyond hin hstandard hdescr htable).returns
  · obtain rfl := Option.some.inj hobj
    refine s.handleSetup_bytes beyond hin hstandard hdescr _ 1 rfl (Nat.le_of_ble_eq_true rfl) ?_
    rw [standardRequest, if_neg hdescr, hconfig]
    rfl
  · obtain rfl := Option.some.inj hobj
    refine s.handleSetup_bytes beyond hin hstandard hdescr _ 1 rfl (Nat.le_of_ble_eq_true rfl) ?_
    rw [standardRequest, if_neg hdescr, hinterface]
    rfl
  · have hlen := s.status_length hobj
    refine s.handleSetup_bytes beyond hin hstandard hdescr obj 2 hlen.symm (by omega) ?_
    have hcdc : s.cdc.handleSetup req = s.cdc := by
      have htype : req.bRequestType &&& USB_REQ_TYP_MASK = USB_REQ_TYP_STANDARD := of_decide_eq_true hstandard
      rw [UsbCdc.handleSetup, if_neg (not_not.mpr htype), hstatus]
      rfl
    have hsame : (s.beginSetup req).status req = some obj := by
      rw [status, stalled, beginSetup, hcdc]
      exact hobj
    rw [standardRequest, if_neg hdescr, hstatus]
    show (s.beginSetup req).getStatus req = _
    simp only [getStatus, hsame]

/-- A read returns the object it asks for if and only if there is one, and the line
coding is not asked for beyond its size. -/
theorem control_read_iff (s : Control) (beyond : Nat → UInt8) (req : SetupReq) (hin : req.deviceToHost = true) :
    (∃ obj, s.object req = some obj ∧ s.Returns beyond req obj) ↔
      (∃ obj, s.object req = some obj) ∧ (req.standard = false → req.wLength ≤ 7) := by
  constructor
  · rintro ⟨obj, hobj, hreturns⟩
    refine ⟨⟨obj, hobj⟩, fun hclass => ?_⟩
    rw [object, hclass, if_neg Bool.false_ne_true] at hobj
    split_ifs at hobj with hcoding
    obtain rfl := Option.some.inj hobj
    exact (s.lineCoding_returns_iff beyond hin hclass hcoding.1 hcoding.2).mp hreturns
  · rintro ⟨⟨obj, hobj⟩, hlen⟩
    refine ⟨obj, hobj, ?_⟩
    cases hstandard : req.standard with
    | true => exact s.standard_returns beyond hin hstandard hobj
    | false =>
      rw [object, hstandard, if_neg Bool.false_ne_true] at hobj
      split_ifs at hobj with hcoding
      obtain rfl := Option.some.inj hobj
      exact (s.lineCoding_returns_iff beyond hin hstandard hcoding.1 hcoding.2).mpr (hlen hstandard)

/-- The device after `init()`, with nothing in its buffers. -/
def plugged : Control where
  cdc := .init (fun _ => 0) (fun _ => 0) []
  ep0 _ := 0
  descr := none
  setupLen := 0
  setupReq := ⟨0, 0, 0, 0, 0⟩
  devAddr := 0
  devConfig := 0
  enumerated := false
  sleepStatus := 0
  -- 115200 8N1
  lcWire := [0x00, 0xC2, 0x01, 0x00, 0x00, 0x00, 0x08]
  lcWire_len := rfl
  uep0 := ⟨false, .nak, false, .ack⟩
  uep0TxLen := 0
  devAddrReg := 0
  overread := false

/-- All of the configuration descriptor, in two packets. -/
theorem config_returned :
    ∃ obj, plugged.object ⟨0x80, USB_GET_DESCRIPTOR, 0x0200, 0, 255⟩ = some obj ∧
      plugged.Returns (fun _ => 0xEE) ⟨0x80, USB_GET_DESCRIPTOR, 0x0200, 0, 255⟩ obj :=
  (control_read_iff plugged _ _ (by decide)).mpr ⟨⟨_, rfl⟩, by decide⟩

/-- Eight bytes of the line coding are seven, and one of what lies behind them. -/
theorem line_coding_overread :
    let req : SetupReq := ⟨0xA1, CDC_GET_LINE_CODING, 0, 0, 8⟩
    let s := plugged.handleSetup (fun _ => 0xEE) req
    ¬ (∃ obj, plugged.object req = some obj ∧ plugged.Returns (fun _ => 0xEE) req obj) ∧
      s.uep0.tRes = .ack ∧ s.overread = true ∧
      received true (s.inPackets (fun _ => 0xEE) 1) = plugged.lcWire ++ [0xEE] := by
  intro req s
  refine ⟨?_, by decide, by decide, by decide⟩
  rintro ⟨obj, -, hreturns⟩
  have hinside := hreturns.inside 0
  exact absurd hinside (by decide)

end Control

end Tapioca

-- SUMMARY: The asynchronous MDIO master of `mdio/mdio_master.cpp`, one request slot in front of the PIOC blob.
import Tapioca.Lib.Lts

/-!
# The MDIO master

`Mdio::Master` owns the bus and takes one request at a time. A request is one
Clause-22 transaction, or the four of a Clause-45 access: REGCR, ADDAR, REGCR,
ADDAR. `tick` hands the next transaction to the blob and polls its STATUS; the
values it finds there are the environment's. The client's `Response` objects
are memory addressed by a key, and `log` records what the master did.
-/

namespace Tapioca.Mdio

def CTRL_READ : UInt8 := 0x01

def CTRL_GO : UInt8 := 0x80

def ST_OK : UInt8 := 0x01

def ST_NORESP : UInt8 := 0x80

def MDIO_TIMEOUT_MS : UInt32 := 5

/-- Clause-22 MMD access control. -/
def REGCR : UInt8 := 0x0D

/-- Clause-22 MMD address/data. -/
def ADDAR : UInt8 := 0x0E

def MMD_ADDR : UInt16 := 0x0000

def MMD_DATA : UInt16 := 0x4000

inductive Result
  | ok
  | busy
  deriving DecidableEq, Repr

inductive Status
  | idle
  | pending
  | done
  | noResp
  | timeout
  deriving DecidableEq, Repr

structure Response where
  status : Status := .idle
  value : UInt16 := 0
  deriving DecidableEq, Repr

inductive Op
  | read
  | write
  | readMmd
  | writeMmd
  deriving DecidableEq, Repr

inductive Step
  | start
  | mmdAddrMode
  | mmdSetAddr
  | mmdDataMode
  | mmdData
  | done
  deriving DecidableEq, Repr

/-- What `submit` is asked for; `resp` is the address of the client's `Response`. -/
structure Request where
  op : Op
  phy : UInt8
  mmd : UInt8
  reg : UInt16
  val : UInt16
  resp : Nat
  deriving DecidableEq, Repr

/-- The command bytes and the doorbell a transaction writes to the mailbox. It
also clears STATUS before the doorbell; what STATUS holds at the next poll is
the blob's. -/
structure Command where
  cmd0 : UInt8
  cmd1 : UInt8
  cmd2 : UInt8
  cmd3 : UInt8
  ctrl : UInt8
  deriving DecidableEq, Repr

/-- What a `tick` reads back: `DR_STATUS`, `DR_RES_H` and `DR_RES_L`. -/
structure Reading where
  status : UInt8
  resH : UInt8
  resL : UInt8
  deriving DecidableEq, Repr

def Reading.result (r : Reading) : UInt16 := r.resH.toUInt16 <<< 8 ||| r.resL.toUInt16

/-- Why a transaction ended: the STATUS the blob wrote, or the timeout. -/
inductive Outcome
  | answered (r : Reading)
  | expired
  deriving DecidableEq, Repr

inductive Entry
  | accepted (q : Request)
  | started (c : Command)
  | reported (o : Outcome)
  | finished (status : Status) (value : UInt16)
  deriving DecidableEq, Repr

structure Master where
  active : Bool := false
  started : Bool := false
  op : Op := .read
  step : Step := .start
  phy : UInt8 := 0
  mmd : UInt8 := 0
  reg : UInt16 := 0
  val : UInt16 := 0
  wireRead : Bool := true
  wireReg : UInt8 := 0
  wireVal : UInt16 := 0
  startedMs : UInt32 := 0
  resp : Option Nat := none
  responses : Nat → Response
  log : List Entry := []

/-- The 32-bit post-preamble frame, most significant bit first:
ST(01) OP PHYAD(5) REGAD(5) TA DATA(16). -/
def frame (isRead : Bool) (phy reg : UInt8) (val : UInt16) : UInt32 :=
  let op : UInt32 := if isRead then 0x2 else 0x1
  let ta : UInt32 := if isRead then 0x0 else 0x2
  (0x1 : UInt32) <<< 30 ||| op <<< 28 ||| (phy &&& 0x1F).toUInt32 <<< 23 ||| (reg &&& 0x1F).toUInt32 <<< 18 |||
    ta <<< 16 ||| (if isRead then 0 else val.toUInt32)

def command (isRead : Bool) (phy reg : UInt8) (val : UInt16) : Command where
  cmd0 := (frame isRead phy reg val >>> 24).toUInt8
  cmd1 := (frame isRead phy reg val >>> 16).toUInt8
  cmd2 := (frame isRead phy reg val >>> 8).toUInt8
  cmd3 := (frame isRead phy reg val).toUInt8
  ctrl := (if isRead then CTRL_READ else 0) ||| CTRL_GO

namespace Master

/-- `begin()`: the slot is free. The clients' memory and the register file are
left as they are. -/
def begin (responses : Nat → Response) : Master where
  responses := responses

def submit (m : Master) (q : Request) : Result × Master :=
  if m.active then (.busy, m)
  else
    (.ok, { m with
      responses := Function.update m.responses q.resp { status := .pending }
      active := true
      started := false
      op := q.op
      step := .start
      phy := q.phy
      mmd := q.mmd
      reg := q.reg
      val := q.val
      wireRead := true
      wireReg := 0
      wireVal := 0
      startedMs := 0
      resp := some q.resp
      log := m.log ++ [.accepted q] })

def read (m : Master) (phy reg : UInt8) (resp : Nat) : Result × Master :=
  m.submit ⟨.read, phy, 0, reg.toUInt16, 0, resp⟩

def write (m : Master) (phy reg : UInt8) (val : UInt16) (resp : Nat) : Result × Master :=
  m.submit ⟨.write, phy, 0, reg.toUInt16, val, resp⟩

def readMmd (m : Master) (phy mmd : UInt8) (reg : UInt16) (resp : Nat) : Result × Master :=
  m.submit ⟨.readMmd, phy, mmd, reg, 0, resp⟩

def writeMmd (m : Master) (phy mmd : UInt8) (reg val : UInt16) (resp : Nat) : Result × Master :=
  m.submit ⟨.writeMmd, phy, mmd, reg, val, resp⟩

/-- Assemble the frame and ring the doorbell. -/
def startTransaction (m : Master) : Master :=
  { m with log := m.log ++ [.started (command m.wireRead m.phy m.wireReg m.wireVal)] }

/-- The switch of `startNextTransaction`: the next transaction's wire fields. -/
def prepareNext (m : Master) : Master :=
  match m.op with
  | .read | .write =>
    { m with
      wireRead := m.op = .read, wireReg := (m.reg &&& 0x1F).toUInt8, wireVal := m.val, step := .done }
  | .readMmd | .writeMmd =>
    match m.step with
    | .start =>
      { m with
        wireRead := false, wireReg := REGCR
        wireVal := MMD_ADDR ||| (m.mmd &&& 0x1F).toUInt16, step := .mmdAddrMode }
    | .mmdAddrMode =>
      { m with wireRead := false, wireReg := ADDAR, wireVal := m.reg, step := .mmdSetAddr }
    | .mmdSetAddr =>
      { m with
        wireRead := false, wireReg := REGCR
        wireVal := MMD_DATA ||| (m.mmd &&& 0x1F).toUInt16, step := .mmdDataMode }
    | .mmdDataMode =>
      { m with wireRead := m.op = .readMmd, wireReg := ADDAR, wireVal := m.val, step := .mmdData }
    | _ => { m with step := .done }

def startNextTransaction (m : Master) (nowMs : UInt32) : Master :=
  let m := { m with started := false }.prepareNext
  if m.step = .done ∧ (m.op = .readMmd ∨ m.op = .writeMmd) then m
  else { m.startTransaction with started := true, startedMs := nowMs }

def finish (m : Master) (status : Status) (value : UInt16) : Master :=
  { m with
    responses :=
      match m.resp with
      | some p => Function.update m.responses p { status, value }
      | none => m.responses
    active := false
    started := false
    resp := none
    log := m.log ++ [.finished status value] }

def completeTransaction (m : Master) (nowMs : UInt32) (status : Status) (value : UInt16) : Master :=
  let m := { m with started := false }
  if status ≠ .done then m.finish status 0
  else if m.step = .done then m.finish .done value
  else if m.step = .mmdData then m.finish .done (if m.op = .readMmd then value else 0)
  else m.startNextTransaction nowMs

/-- The poll of `tick`, on the STATUS and result bytes it reads. -/
def poll (m : Master) (nowMs : UInt32) (r : Reading) : Master :=
  if r.status = 0 then
    if nowMs - m.startedMs > MDIO_TIMEOUT_MS then
      { m with log := m.log ++ [Entry.reported .expired] }.finish .timeout 0
    else m
  else
    let m := { m with log := m.log ++ [Entry.reported (.answered r)] }
    if r.status = ST_NORESP then m.completeTransaction nowMs .noResp 0
    else if r.status ≠ ST_OK then m.completeTransaction nowMs .timeout 0
    else m.completeTransaction nowMs .done (if m.wireRead then r.result else 0)

def tick (m : Master) (nowMs : UInt32) (r : Reading) : Master :=
  if ¬ m.active then m
  else if ¬ m.started then (m.startNextTransaction nowMs).poll nowMs r
  else m.poll nowMs r

end Master

/-! ## Runs -/

/-- What clients and the main loop do: submissions, and ticks with the readings
they find. -/
inductive Event
  | read (phy reg : UInt8) (resp : Nat)
  | write (phy reg : UInt8) (val : UInt16) (resp : Nat)
  | readMmd (phy mmd : UInt8) (reg : UInt16) (resp : Nat)
  | writeMmd (phy mmd : UInt8) (reg val : UInt16) (resp : Nat)
  | tick (nowMs : UInt32) (r : Reading)

def Master.event (m : Master) : Event → Master
  | .read phy reg resp => (m.read phy reg resp).2
  | .write phy reg val resp => (m.write phy reg val resp).2
  | .readMmd phy mmd reg resp => (m.readMmd phy mmd reg resp).2
  | .writeMmd phy mmd reg val resp => (m.writeMmd phy mmd reg val resp).2
  | .tick nowMs r => m.tick nowMs r

end Tapioca.Mdio

-- SUMMARY: The MDIO master and the `mdio_master.ASM` blob over their mailbox, one register access at a time.
import Tapioca.Mdio.MasterIntegrity

/-!
# The MDIO mailbox

The master writes a transaction into the data registers byte by byte, clears
STATUS and rings the doorbell; later it reads STATUS and the result. The blob
waits for GO, consumes it, runs the frame and writes STATUS last. Neither party
waits for the other beyond that, and the mailbox has no sequence number: the
master gives a transaction up after a timeout, whatever the blob is doing.
-/

namespace Tapioca.Mdio

open Lib.Lts

/-! ## The registers -/

structure Mailbox where
  cmd0 : UInt8
  cmd1 : UInt8
  cmd2 : UInt8
  cmd3 : UInt8
  ctrl : UInt8
  status : UInt8
  resH : UInt8
  resL : UInt8
  deriving DecidableEq

def Mailbox.go (mb : Mailbox) : Bool := mb.ctrl.toNat.testBit 7

/-- CTRL bit 0 of a command. -/
def Command.isRead (c : Command) : Bool := c.ctrl.toNat.testBit 0

/-- A write of `startTransaction`. -/
inductive Store
  | cmd0 (v : UInt8)
  | cmd1 (v : UInt8)
  | cmd2 (v : UInt8)
  | cmd3 (v : UInt8)
  | clearStatus
  | ring (ctrl : UInt8)
  deriving DecidableEq

def Store.apply (mb : Mailbox) : Store → Mailbox
  | .cmd0 v => { mb with cmd0 := v }
  | .cmd1 v => { mb with cmd1 := v }
  | .cmd2 v => { mb with cmd2 := v }
  | .cmd3 v => { mb with cmd3 := v }
  | .clearStatus => { mb with status := 0 }
  | .ring ctrl => { mb with ctrl }

/-- The writes of a transaction, STATUS cleared before the doorbell. -/
def Command.stores (c : Command) : List Store :=
  [.cmd0 c.cmd0, .cmd1 c.cmd1, .cmd2 c.cmd2, .cmd3 c.cmd3, .clearStatus, .ring c.ctrl]

/-! ## The blob -/

/-- Where the blob stands, between its accesses to the mailbox. -/
inductive Pc
  | waitGo
  | consumeGo
  | clearStatus
  | cmd0
  | op
  | wrCmd1
  | wrCmd2
  | wrCmd3
  | rdCmd1
  | turnaround
  | resH
  | resL
  | publish (err : Bool)
  | rearm
  deriving DecidableEq

/-- What a run of the frame has taken from the mailbox and put back. -/
structure Execution where
  /-- How many times the doorbell had been rung when GO was consumed. -/
  rung : Nat
  isRead : Bool
  cmd0 : UInt8
  cmd1 : UInt8
  cmd2 : UInt8
  cmd3 : UInt8
  resH : UInt8
  resL : UInt8
  status : UInt8
  deriving DecidableEq

structure Blob where
  pc : Pc
  /-- `SB_GP_BIT_X`, the no-response flag. -/
  noResp : Bool
  /-- The frame being run. -/
  frame : Execution
  deriving DecidableEq

/-- What the bus answers: the turnaround bit and a byte of data. -/
structure Bus where
  ta0 : Bool
  data : UInt8

/-- Inside `tick`: in front of reading STATUS, RES_H and RES_L. -/
inductive Task
  | idle
  | status (nowMs : UInt32)
  | resH (nowMs : UInt32)
  | resL (nowMs : UInt32) (h : UInt8)
  deriving DecidableEq

structure System where
  master : Master
  /-- The writes of `startTransaction` that are still to be done. -/
  stores : List Store
  /-- What `tick` does behind them. -/
  task : Task
  mailbox : Mailbox
  blob : Blob
  /-- How many times the doorbell has been rung. -/
  rung : Nat
  /-- The frames the blob has run. -/
  frames : List Execution

namespace System

/-- One access of the blob; the sampled bus levels are the environment's. -/
def blobStep (s : System) (bus : Bus) : System :=
  let b := s.blob
  match b.pc with
  | .waitGo => if s.mailbox.go then { s with blob := { b with pc := .consumeGo } } else s
  | .consumeGo =>
    { s with
      mailbox := { s.mailbox with ctrl := s.mailbox.ctrl &&& 0x7F }
      blob := { b with pc := .clearStatus, frame := { b.frame with rung := s.rung } } }
  | .clearStatus =>
    { s with mailbox := { s.mailbox with status := 0 }, blob := { b with pc := .cmd0 } }
  | .cmd0 =>
    { s with blob := { b with pc := .op, frame := { b.frame with cmd0 := s.mailbox.cmd0 } } }
  | .op =>
    let isRead := s.mailbox.ctrl.toNat.testBit 0
    { s with blob :=
        { b with pc := if isRead then .rdCmd1 else .wrCmd1, frame := { b.frame with isRead } } }
  | .wrCmd1 =>
    { s with blob := { b with pc := .wrCmd2, frame := { b.frame with cmd1 := s.mailbox.cmd1 } } }
  | .wrCmd2 =>
    { s with blob := { b with pc := .wrCmd3, frame := { b.frame with cmd2 := s.mailbox.cmd2 } } }
  | .wrCmd3 =>
    { s with blob :=
        { b with pc := .publish false, frame := { b.frame with cmd3 := s.mailbox.cmd3 } } }
  | .rdCmd1 =>
    { s with blob := { b with pc := .turnaround, frame := { b.frame with cmd1 := s.mailbox.cmd1 } } }
  | .turnaround =>
    -- a line still high at TA0 means that no PHY has answered
    { s with blob := { b with pc := .resH, noResp := b.noResp || bus.ta0 } }
  | .resH =>
    { s with
      mailbox := { s.mailbox with resH := bus.data }
      blob := { b with pc := .resL, frame := { b.frame with resH := bus.data } } }
  | .resL =>
    { s with
      mailbox := { s.mailbox with resL := bus.data }
      blob := { b with pc := .publish b.noResp, frame := { b.frame with resL := bus.data } } }
  | .publish err =>
    let status := if err then ST_NORESP else ST_OK
    { s with
      mailbox := { s.mailbox with status }
      blob := { b with pc := .rearm }
      frames := s.frames ++ [{ b.frame with status }] }
  | .rearm => { s with blob := { b with pc := .waitGo, noResp := false } }

/-- The main loop is inside `tick`. -/
def Busy (s : System) : Prop := s.stores ≠ [] ∨ s.task ≠ .idle

instance (s : System) : Decidable s.Busy := inferInstanceAs (Decidable (_ ∨ _))

/-- The master goes on to `m'`, with the transactions it has started on the way to
be written into the mailbox. -/
def goTo (s : System) (m' : Master) (task : Task) : System :=
  { s with
    master := m'
    stores := (started (m'.log.drop s.master.log.length)).flatMap Command.stores
    task }

def submit (s : System) (q : Request) : System :=
  if s.Busy then s else { s with master := (s.master.submit q).2 }

/-- The entry of `tick`. -/
def tick (s : System) (nowMs : UInt32) : System :=
  if s.Busy then s
  else if ¬ s.master.active then s
  else if ¬ s.master.started then s.goTo (s.master.startNextTransaction nowMs) (.status nowMs)
  else { s with task := .status nowMs }

/-- One access of the master, and what follows from it. -/
def cpuStep (s : System) : System :=
  match s.stores with
  | w :: stores =>
    { s with
      mailbox := w.apply s.mailbox
      stores
      rung := match w with
        | .ring _ => s.rung + 1
        | _ => s.rung }
  | [] =>
    match s.task with
    | .idle => s
    | .status nowMs =>
      let st := s.mailbox.status
      if st = ST_OK ∧ s.master.wireRead then { s with task := .resH nowMs }
      else s.goTo (s.master.poll nowMs ⟨st, 0, 0⟩) .idle
    | .resH nowMs => { s with task := .resL nowMs s.mailbox.resH }
    | .resL nowMs h => s.goTo (s.master.poll nowMs ⟨ST_OK, h, s.mailbox.resL⟩) .idle

end System

/-- What may happen next. -/
inductive Turn
  | submit (q : Request)
  | tick (nowMs : UInt32)
  | cpu
  | blob (bus : Bus)

def System.step (s : System) : Turn → System
  | .submit q => s.submit q
  | .tick nowMs => s.tick nowMs
  | .cpu => s.cpuStep
  | .blob bus => s.blobStep bus

/-- Behind `begin()`: STATUS is cleared and the blob has been started; the other
registers hold anything. -/
def System.begin (responses : Nat → Response) (mailbox : Mailbox) (frame : Execution) : System where
  master := .begin responses
  stores := []
  task := .idle
  mailbox := { mailbox with status := 0 }
  blob := ⟨.waitGo, false, frame⟩
  rung := 0
  frames := []

/-! ## What the master starts and what a poll does -/

theorem command_isRead (isRead : Bool) (phy reg : UInt8) (val : UInt16) :
    (command isRead phy reg val).isRead = isRead := by
  cases isRead <;> simp [command, Command.isRead, CTRL_READ, CTRL_GO]

/-- Where a completion does not finish, there is a next transaction. -/
theorem Master.starts (m : Master) (nowMs : UInt32) (hdone : m.step ≠ .done) (hlast : m.step ≠ .mmdData) :
    ∃ c, (m.startNextTransaction nowMs).log = m.log ++ [.started c] ∧
      (m.startNextTransaction nowMs).wireRead = c.isRead ∧
      (m.startNextTransaction nowMs).started = true ∧
      (m.startNextTransaction nowMs).active = m.active ∧
      (m.startNextTransaction nowMs).startedMs = nowMs := by
  have hgo {p : Master} (hp : ¬ (p.step = .done ∧ (p.op = .readMmd ∨ p.op = .writeMmd)))
      (hprep : { m with started := false }.prepareNext = p) (hlog : p.log = m.log)
      (hactive : p.active = m.active) :
      ∃ c, (m.startNextTransaction nowMs).log = m.log ++ [.started c] ∧
        (m.startNextTransaction nowMs).wireRead = c.isRead ∧
        (m.startNextTransaction nowMs).started = true ∧
        (m.startNextTransaction nowMs).active = m.active ∧
        (m.startNextTransaction nowMs).startedMs = nowMs := by
    rw [Master.startNextTransaction, hprep, if_neg hp]
    exact ⟨command p.wireRead p.phy p.wireReg p.wireVal, congrArg (· ++ _) hlog,
      (command_isRead ..).symm, rfl, hactive, rfl⟩
  obtain ⟨active, started, op, step, phy, mmd, reg, val, wr, wreg, wval, ms, resp, rs, log⟩ := m
  cases op <;> cases step <;> first
    | exact absurd rfl hdone
    | exact absurd rfl hlast
    | exact hgo (by simp [Master.prepareNext]) rfl rfl rfl

/-- A poll that finds STATUS clear leaves the transaction or gives it up. -/
theorem Master.poll_busy (m : Master) (nowMs : UInt32) {r : Reading} (hr : r.status = 0) :
    m.poll nowMs r = m ∨
    (m.poll nowMs r).log = m.log ++ [.reported .expired, .finished .timeout 0] ∧
      (m.poll nowMs r).started = false := by
  rw [Master.poll, if_pos hr]
  split
  · exact .inr ⟨by simp [Master.finish], rfl⟩
  · exact .inl rfl

/-- One that finds an answer ends the request or starts its next transaction. -/
theorem Master.poll_answered (m : Master) (nowMs : UInt32) {r : Reading} (hr : r.status ≠ 0) :
    (∃ status value,
      (m.poll nowMs r).log = m.log ++ [.reported (.answered r), .finished status value] ∧
        (m.poll nowMs r).started = false) ∨
    ∃ c, (m.poll nowMs r).log = m.log ++ [.reported (.answered r), .started c] ∧
      (m.poll nowMs r).wireRead = c.isRead ∧ (m.poll nowMs r).started = true ∧
      (m.poll nowMs r).active = m.active := by
  have hfinish (p : Master) (hp : p.log = m.log ++ [.reported (.answered r)]) (status : Status)
      (value : UInt16) :
      (p.finish status value).log = m.log ++ [.reported (.answered r), .finished status value] ∧
        (p.finish status value).started = false :=
    ⟨by simp [Master.finish, hp], rfl⟩
  rw [Master.poll, if_neg hr]
  simp only
  by_cases hnoresp : r.status = ST_NORESP
  · rw [if_pos hnoresp, Master.completeTransaction, if_pos (by decide)]
    exact .inl ⟨_, _, hfinish _ rfl _ _⟩
  rw [if_neg hnoresp]
  by_cases hok : r.status = ST_OK
  · rw [if_neg (not_not.mpr hok), Master.completeTransaction, if_neg (by decide)]
    simp only
    by_cases hdone : m.step = .done
    · rw [if_pos hdone]
      exact .inl ⟨_, _, hfinish _ rfl _ _⟩
    rw [if_neg hdone]
    by_cases hlast : m.step = .mmdData
    · rw [if_pos hlast]
      exact .inl ⟨_, _, hfinish _ rfl _ _⟩
    rw [if_neg hlast]
    obtain ⟨c, hlog, hwire, hstarted, hactive, -⟩ := Master.starts
      { m with log := m.log ++ [Entry.reported (.answered r)], started := false } nowMs hdone hlast
    exact .inr ⟨c, by simp [hlog], hwire, hstarted, hactive⟩
  · rw [if_pos hok, Master.completeTransaction, if_pos (by decide)]
    exact .inl ⟨_, _, hfinish _ rfl _ _⟩

/-! ## Frames and answers -/

/-- The frame of the command: the bytes and the direction that the blob takes from the
mailbox for it. -/
structure Execution.Of (f : Execution) (c : Command) : Prop where
  cmd0 : f.cmd0 = c.cmd0
  isRead : f.isRead = c.isRead
  cmd1 : f.cmd1 = c.cmd1
  data : c.isRead = false → f.cmd2 = c.cmd2 ∧ f.cmd3 = c.cmd3

instance (f : Execution) (c : Command) : Decidable (f.Of c) :=
  decidable_of_iff (f.cmd0 = c.cmd0 ∧ f.isRead = c.isRead ∧ f.cmd1 = c.cmd1 ∧
      (c.isRead = false → f.cmd2 = c.cmd2 ∧ f.cmd3 = c.cmd3))
    ⟨fun ⟨h0, hr, h1, hd⟩ => ⟨h0, hr, h1, hd⟩, fun h => ⟨h.cmd0, h.isRead, h.cmd1, h.data⟩⟩

/-- The reading is what the run of the frame has left in the mailbox. -/
structure Execution.Gives (f : Execution) (r : Reading) : Prop where
  status : r.status = f.status
  result : f.isRead = true → f.status = ST_OK → r.resH = f.resH ∧ r.resL = f.resL

/-- The answer of every transaction in the log comes from a run of its frame, behind
its own doorbell. -/
def Answered (log : List Entry) (frames : List Execution) : Prop :=
  ∀ front c r rest, log = front ++ .started c :: .reported (.answered r) :: rest →
    ∃ f ∈ frames, f.rung = (started front).length + 1 ∧ f.Of c ∧ f.Gives r

theorem Answered.mono {log : List Entry} {fs gs : List Execution} (h : Answered log fs)
    (hsub : ∀ f ∈ fs, f ∈ gs) : Answered log gs := by
  intro front c r rest hlog
  obtain ⟨f, hf, hprops⟩ := h front c r rest hlog
  exact ⟨f, hsub f hf, hprops⟩

theorem Answered.concat {log : List Entry} {fs : List Execution} (h : Answered log fs) {x : Entry}
    (hx : ∀ r front c, x = .reported (.answered r) → log = front ++ [.started c] →
      ∃ f ∈ fs, f.rung = (started front).length + 1 ∧ f.Of c ∧ f.Gives r) :
    Answered (log ++ [x]) fs := by
  intro front c r rest hlog
  rcases List.eq_nil_or_concat rest with rfl | ⟨rest, y, rfl⟩
  · have hsplit : log ++ [x] = (front ++ [.started c]) ++ [.reported (.answered r)] := by simp [hlog]
    obtain ⟨hfront, hlast⟩ := List.append_inj' hsplit rfl
    exact hx r front c (List.singleton_inj.mp hlast) hfront
  · have hsplit : log ++ [x] =
        (front ++ .started c :: .reported (.answered r) :: rest) ++ [y] := by simp [hlog]
    exact h front c r rest (List.append_inj' hsplit rfl).1

/-- Anything but an answer. -/
theorem Answered.quiet {log : List Entry} {fs : List Execution} (h : Answered log fs) {x : Entry}
    (hx : ∀ r, x ≠ .reported (.answered r)) : Answered (log ++ [x]) fs :=
  h.concat fun r _ _ heq _ => absurd heq (hx r)

/-! ## The transaction in the mailbox -/

/-- Not between the consumption of GO and the write of STATUS. -/
def Pc.AtRest : Pc → Prop
  | .waitGo | .consumeGo | .rearm => True
  | _ => False

instance : DecidablePred Pc.AtRest
  | .waitGo | .consumeGo | .rearm => .isTrue trivial
  | .clearStatus | .cmd0 | .op | .wrCmd1 | .wrCmd2 | .wrCmd3 | .rdCmd1 | .turnaround | .resH | .resL
  | .publish _ => .isFalse id

/-- The command bytes are in the mailbox. -/
structure Mailbox.Carries (mb : Mailbox) (c : Command) : Prop where
  cmd0 : mb.cmd0 = c.cmd0
  cmd1 : mb.cmd1 = c.cmd1
  cmd2 : mb.cmd2 = c.cmd2
  cmd3 : mb.cmd3 = c.cmd3

/-- What a blob that runs the command has taken so far. -/
def Taken (c : Command) (mb : Mailbox) (f : Execution) : Pc → Prop
  | .clearStatus | .cmd0 => True
  | .op => f.cmd0 = c.cmd0
  | .wrCmd1 => f.cmd0 = c.cmd0 ∧ f.isRead = false ∧ c.isRead = false
  | .wrCmd2 => f.cmd0 = c.cmd0 ∧ f.isRead = false ∧ c.isRead = false ∧ f.cmd1 = c.cmd1
  | .wrCmd3 =>
    f.cmd0 = c.cmd0 ∧ f.isRead = false ∧ c.isRead = false ∧ f.cmd1 = c.cmd1 ∧ f.cmd2 = c.cmd2
  | .rdCmd1 => f.cmd0 = c.cmd0 ∧ f.isRead = true ∧ c.isRead = true
  | .turnaround | .resH =>
    f.cmd0 = c.cmd0 ∧ f.isRead = true ∧ c.isRead = true ∧ f.cmd1 = c.cmd1
  | .resL =>
    f.cmd0 = c.cmd0 ∧ f.isRead = true ∧ c.isRead = true ∧ f.cmd1 = c.cmd1 ∧ mb.resH = f.resH
  | .publish _ => f.Of c ∧ (f.isRead = true → mb.resH = f.resH ∧ mb.resL = f.resL)
  | .waitGo | .consumeGo | .rearm => False

/-- The blob has run the command, and nothing touches the mailbox. -/
structure Ran (c : Command) (n : Nat) (s : System) (f : Execution) : Prop where
  stores : s.stores = []
  go : s.mailbox.go = false
  pc : s.blob.pc = .rearm ∨ s.blob.pc = .waitGo
  mem : f ∈ s.frames
  rung : f.rung = n + 1
  of : f.Of c
  status : s.mailbox.status = f.status
  result : f.isRead = true → s.mailbox.resH = f.resH ∧ s.mailbox.resL = f.resL

/-- In front of the result the master has only STATUS to read. -/
def Task.Early : Task → Prop
  | .idle | .status _ => True
  | _ => False

/-- How far the transaction `c` is, the one behind `n` others. -/
inductive Phase (c : Command) (n : Nat) (s : System) : Prop
  | cmd0 (stores : s.stores = c.stores) (task : s.task.Early) (rung : s.rung = n)
  | cmd1 (stores : s.stores = c.stores.drop 1) (task : s.task.Early) (rung : s.rung = n)
    (h0 : s.mailbox.cmd0 = c.cmd0)
  | cmd2 (stores : s.stores = c.stores.drop 2) (task : s.task.Early) (rung : s.rung = n)
    (h0 : s.mailbox.cmd0 = c.cmd0) (h1 : s.mailbox.cmd1 = c.cmd1)
  | cmd3 (stores : s.stores = c.stores.drop 3) (task : s.task.Early) (rung : s.rung = n)
    (h0 : s.mailbox.cmd0 = c.cmd0) (h1 : s.mailbox.cmd1 = c.cmd1) (h2 : s.mailbox.cmd2 = c.cmd2)
  | clear (stores : s.stores = c.stores.drop 4) (task : s.task.Early) (rung : s.rung = n)
    (carries : s.mailbox.Carries c)
  | ring (stores : s.stores = c.stores.drop 5) (task : s.task.Early) (rung : s.rung = n)
    (carries : s.mailbox.Carries c) (status : s.mailbox.status = 0) (pc : s.blob.pc.AtRest)
  | rung (stores : s.stores = []) (task : s.task.Early) (rung : s.rung = n + 1)
    (carries : s.mailbox.Carries c) (ctrl : s.mailbox.ctrl = c.ctrl) (status : s.mailbox.status = 0)
    (pc : s.blob.pc.AtRest)
  | running (stores : s.stores = []) (task : s.task.Early) (rung : s.rung = n + 1)
    (carries : s.mailbox.Carries c) (ctrl : s.mailbox.ctrl = c.ctrl &&& 0x7F)
    (status : s.mailbox.status = 0) (own : s.blob.frame.rung = n + 1)
    (taken : Taken c s.mailbox s.blob.frame s.blob.pc)
  | done (f : Execution) (rung : s.rung = n + 1) (ran : Ran c n s f)
    (task : match s.task with
      | .idle | .status _ => True
      | .resH _ => f.status = ST_OK ∧ f.isRead = true
      | .resL _ h => f.status = ST_OK ∧ f.isRead = true ∧ h = f.resH)

/-! ## Steps of the blob -/

/-- What the blob leaves alone. -/
structure System.Kept (s s' : System) : Prop where
  master : s'.master = s.master
  stores : s'.stores = s.stores
  task : s'.task = s.task
  rung : s'.rung = s.rung
  cmd0 : s'.mailbox.cmd0 = s.mailbox.cmd0
  cmd1 : s'.mailbox.cmd1 = s.mailbox.cmd1
  cmd2 : s'.mailbox.cmd2 = s.mailbox.cmd2
  cmd3 : s'.mailbox.cmd3 = s.mailbox.cmd3
  frames : ∀ f ∈ s.frames, f ∈ s'.frames

theorem System.blobStep_kept (s : System) (bus : Bus) : s.Kept (s.blobStep bus) := by
  obtain ⟨m, stores, task, mb, ⟨pc, x, f⟩, rung, frames⟩ := s
  cases pc with
  | waitGo =>
    simp only [System.blobStep]
    split <;> exact ⟨rfl, rfl, rfl, rfl, rfl, rfl, rfl, rfl, fun _ h => h⟩
  | publish err => exact ⟨rfl, rfl, rfl, rfl, rfl, rfl, rfl, rfl, fun _ h => List.mem_append_left _ h⟩
  | _ => exact ⟨rfl, rfl, rfl, rfl, rfl, rfl, rfl, rfl, fun _ h => h⟩

theorem Mailbox.Carries.kept {s s' : System} {c : Command} (h : s.mailbox.Carries c) (hk : s.Kept s') :
    s'.mailbox.Carries c :=
  ⟨hk.cmd0.trans h.cmd0, hk.cmd1.trans h.cmd1, hk.cmd2.trans h.cmd2, hk.cmd3.trans h.cmd3⟩

theorem testBit_clearGo (ctrl : UInt8) : (ctrl &&& 0x7F).toNat.testBit 7 = false := by
  have hmask : Nat.testBit 127 7 = false := by decide
  simp [UInt8.toNat_and, hmask]

theorem testBit_clearGo_zero (ctrl : UInt8) :
    (ctrl &&& 0x7F).toNat.testBit 0 = ctrl.toNat.testBit 0 := by
  simp [UInt8.toNat_and]

variable {c : Command} {n : Nat} {s : System}

/-- A blob at rest stays so, but for taking a GO. -/
theorem Phase.blob_ring (hstores : s.stores = c.stores.drop 5) (htask : s.task.Early)
    (hrung : s.rung = n) (hcarries : s.mailbox.Carries c) (hstatus : s.mailbox.status = 0)
    (hpc : s.blob.pc.AtRest) (hgo : s.blob.pc ≠ .consumeGo) (bus : Bus) :
    Phase c n (s.blobStep bus) := by
  have hk := s.blobStep_kept bus
  have hbase (hs : (s.blobStep bus).mailbox.status = 0) (hp : (s.blobStep bus).blob.pc.AtRest) :
      Phase c n (s.blobStep bus) :=
    .ring (hk.stores.trans hstores) (hk.task ▸ htask) (hk.rung.trans hrung) (hcarries.kept hk) hs hp
  obtain ⟨m, stores, task, mb, ⟨pc, x, f⟩, rung, frames⟩ := s
  cases pc with
  | waitGo =>
    refine hbase ?_ ?_ <;> simp only [System.blobStep] <;> split <;> first | exact hstatus | trivial
  | rearm => exact hbase hstatus trivial
  | consumeGo => exact absurd rfl hgo
  | _ => exact absurd hpc id

theorem Phase.blob_rung (hstores : s.stores = []) (htask : s.task.Early) (hrung : s.rung = n + 1)
    (hcarries : s.mailbox.Carries c) (hctrl : s.mailbox.ctrl = c.ctrl) (hstatus : s.mailbox.status = 0)
    (hpc : s.blob.pc.AtRest) (bus : Bus) : Phase c n (s.blobStep bus) := by
  have hk := s.blobStep_kept bus
  have hcarries' := hcarries.kept hk
  have hbase (hs : (s.blobStep bus).mailbox.status = 0) (hc : (s.blobStep bus).mailbox.ctrl = c.ctrl)
      (hp : (s.blobStep bus).blob.pc.AtRest) : Phase c n (s.blobStep bus) :=
    .rung (hk.stores.trans hstores) (hk.task ▸ htask) (hk.rung.trans hrung) hcarries' hc hs hp
  obtain ⟨m, stores, task, mb, ⟨pc, x, f⟩, rung, frames⟩ := s
  cases pc with
  | waitGo =>
    refine hbase ?_ ?_ ?_ <;> simp only [System.blobStep] <;> split <;>
      first | exact hstatus | exact hctrl | trivial
  | rearm => exact hbase hstatus hctrl trivial
  | consumeGo => exact .running hstores htask hrung hcarries' (congrArg (· &&& 0x7F) hctrl) hstatus hrung trivial
  | _ => exact absurd hpc id

/-- A run of the frame, to the STATUS that ends it. -/
theorem Phase.blob_running (hstores : s.stores = []) (htask : s.task.Early) (hrung : s.rung = n + 1)
    (hcarries : s.mailbox.Carries c) (hctrl : s.mailbox.ctrl = c.ctrl &&& 0x7F)
    (hstatus : s.mailbox.status = 0) (hown : s.blob.frame.rung = n + 1)
    (htaken : Taken c s.mailbox s.blob.frame s.blob.pc) (bus : Bus) : Phase c n (s.blobStep bus) := by
  have hcarries' := hcarries.kept (s.blobStep_kept bus)
  obtain ⟨m, stores, task, mb, ⟨pc, x, f⟩, rung, frames⟩ := s
  -- each access takes over one more byte of the command; STATUS is the last one
  cases pc with
  | waitGo => exact absurd htaken id
  | consumeGo => exact absurd htaken id
  | rearm => exact absurd htaken id
  | clearStatus => exact .running hstores htask hrung hcarries' hctrl rfl hown trivial
  | cmd0 => exact .running hstores htask hrung hcarries' hctrl hstatus hown hcarries.cmd0
  | op =>
    have hop : mb.ctrl.toNat.testBit 0 = c.isRead := by
      rw [show mb.ctrl = c.ctrl &&& 0x7F from hctrl, testBit_clearGo_zero]
      rfl
    refine .running hstores htask hrung hcarries' hctrl hstatus hown ?_
    simp only [System.blobStep, hop]
    cases hread : c.isRead with
    | true => exact ⟨htaken, rfl, hread⟩
    | false => exact ⟨htaken, rfl, hread⟩
  | wrCmd1 =>
    obtain ⟨h0, hread, hdir⟩ := htaken
    exact .running hstores htask hrung hcarries' hctrl hstatus hown ⟨h0, hread, hdir, hcarries.cmd1⟩
  | wrCmd2 =>
    obtain ⟨h0, hread, hdir, h1⟩ := htaken
    exact .running hstores htask hrung hcarries' hctrl hstatus hown ⟨h0, hread, hdir, h1, hcarries.cmd2⟩
  | wrCmd3 =>
    obtain ⟨h0, hread, hdir, h1, h2⟩ := htaken
    refine .running hstores htask hrung hcarries' hctrl hstatus hown ⟨⟨h0, ?_, h1, fun _ => ?_⟩, ?_⟩
    · exact hread.trans hdir.symm
    · exact ⟨h2, hcarries.cmd3⟩
    · intro hr
      exact absurd (hread.symm.trans hr) Bool.false_ne_true
  | rdCmd1 =>
    obtain ⟨h0, hread, hdir⟩ := htaken
    exact .running hstores htask hrung hcarries' hctrl hstatus hown ⟨h0, hread, hdir, hcarries.cmd1⟩
  | turnaround => exact .running hstores htask hrung hcarries' hctrl hstatus hown htaken
  | resH =>
    obtain ⟨h0, hread, hdir, h1⟩ := htaken
    exact .running hstores htask hrung hcarries' hctrl hstatus hown ⟨h0, hread, hdir, h1, rfl⟩
  | resL =>
    obtain ⟨h0, hread, hdir, h1, hh⟩ := htaken
    refine .running hstores htask hrung hcarries' hctrl hstatus hown
      ⟨⟨h0, hread.trans hdir.symm, h1, fun hw => ?_⟩, fun _ => ⟨hh, rfl⟩⟩
    exact Bool.noConfusion (hdir.symm.trans hw)
  | publish err =>
    obtain ⟨hof, hres⟩ := htaken
    refine .done { f with status := if err then ST_NORESP else ST_OK } hrung
      ⟨hstores, ?_, .inl rfl, List.mem_append_right _ (List.mem_singleton_self _), hown,
        ⟨hof.cmd0, hof.isRead, hof.cmd1, hof.data⟩, rfl, hres⟩ ?_
    · exact (congrArg (fun v : UInt8 => v.toNat.testBit 7) hctrl).trans (testBit_clearGo _)
    · cases task with
      | idle => trivial
      | status nowMs => trivial
      | resH nowMs => exact absurd htask id
      | resL nowMs h => exact absurd htask id

theorem Phase.blob_done {f : Execution} (hrung : s.rung = n + 1) (hran : Ran c n s f)
    (htask : match s.task with
      | .idle | .status _ => True
      | .resH _ => f.status = ST_OK ∧ f.isRead = true
      | .resL _ h => f.status = ST_OK ∧ f.isRead = true ∧ h = f.resH) (bus : Bus) :
    Phase c n (s.blobStep bus) := by
  obtain ⟨hstores, hgo, hpc, hmem, hf, hof, hstatus, hresult⟩ := hran
  obtain ⟨m, stores, task, mb, ⟨pc, x, g⟩, rung, frames⟩ := s
  rcases hpc with rfl | rfl
  · exact .done f hrung ⟨hstores, hgo, .inr rfl, hmem, hf, hof, hstatus, hresult⟩ htask
  · have hstay : System.blobStep ⟨m, stores, task, mb, ⟨.waitGo, x, g⟩, rung, frames⟩ bus =
        ⟨m, stores, task, mb, ⟨.waitGo, x, g⟩, rung, frames⟩ :=
      if_neg (ne_true_of_eq_false hgo)
    rw [hstay]
    exact .done f hrung ⟨hstores, hgo, .inr rfl, hmem, hf, hof, hstatus, hresult⟩ htask

/-- A step of the blob, which must not consume a GO right in front of the doorbell. -/
theorem Phase.blob (h : Phase c n s) (bus : Bus)
    (hgo : s.blob.pc = .consumeGo → s.stores.length ≠ 1) : Phase c n (s.blobStep bus) := by
  have hk := s.blobStep_kept bus
  cases h with
  | cmd0 hstores htask hrung =>
    exact .cmd0 (hk.stores.trans hstores) (hk.task ▸ htask) (hk.rung.trans hrung)
  | cmd1 hstores htask hrung h0 =>
    exact .cmd1 (hk.stores.trans hstores) (hk.task ▸ htask) (hk.rung.trans hrung) (hk.cmd0.trans h0)
  | cmd2 hstores htask hrung h0 h1 =>
    exact .cmd2 (hk.stores.trans hstores) (hk.task ▸ htask) (hk.rung.trans hrung) (hk.cmd0.trans h0)
      (hk.cmd1.trans h1)
  | cmd3 hstores htask hrung h0 h1 h2 =>
    exact .cmd3 (hk.stores.trans hstores) (hk.task ▸ htask) (hk.rung.trans hrung) (hk.cmd0.trans h0)
      (hk.cmd1.trans h1) (hk.cmd2.trans h2)
  | clear hstores htask hrung hcarries =>
    exact .clear (hk.stores.trans hstores) (hk.task ▸ htask) (hk.rung.trans hrung) (hcarries.kept hk)
  | ring hstores htask hrung hcarries hstatus hpc =>
    exact blob_ring hstores htask hrung hcarries hstatus hpc
      (fun heq => hgo heq (by rw [hstores]; rfl)) bus
  | rung hstores htask hrung hcarries hctrl hstatus hpc =>
    exact blob_rung hstores htask hrung hcarries hctrl hstatus hpc bus
  | running hstores htask hrung hcarries hctrl hstatus hown htaken =>
    exact blob_running hstores htask hrung hcarries hctrl hstatus hown htaken bus
  | done f hrung hran htask => exact blob_done hrung hran htask bus

/-! ## Steps of the master -/

/-- The next write, which must not clear STATUS over a frame that is being run. -/
theorem Phase.store (h : Phase c n s) {w : Store} {stores : List Store} (hstores : s.stores = w :: stores)
    (hrest : w = .clearStatus → s.blob.pc.AtRest) : Phase c n s.cpuStep := by
  obtain ⟨m, todo, task, mb, b, rung, frames⟩ := s
  cases hstores
  cases h with
  | cmd0 hs htask hrung =>
    cases hs
    exact .cmd1 rfl htask hrung rfl
  | cmd1 hs htask hrung h0 =>
    cases hs
    exact .cmd2 rfl htask hrung h0 rfl
  | cmd2 hs htask hrung h0 h1 =>
    cases hs
    exact .cmd3 rfl htask hrung h0 h1 rfl
  | cmd3 hs htask hrung h0 h1 h2 =>
    cases hs
    exact .clear rfl htask hrung ⟨h0, h1, h2, rfl⟩
  | clear hs htask hrung hcarries =>
    cases hs
    exact .ring rfl htask hrung ⟨hcarries.cmd0, hcarries.cmd1, hcarries.cmd2, hcarries.cmd3⟩ rfl
      (hrest rfl)
  | ring hs htask hrung hcarries hstatus hpc =>
    cases hs
    exact .rung rfl htask (congrArg (· + 1) hrung)
      ⟨hcarries.cmd0, hcarries.cmd1, hcarries.cmd2, hcarries.cmd3⟩ rfl hstatus hpc
  | rung hs => cases hs
  | running hs => cases hs
  | done f hrung hran => cases hran.stores

/-- The master, its log and the mailbox go together. -/
structure Link (responses : Nat → Response) (s : System) : Prop where
  progress : ∃ past, Progress responses s.master past
  answered : Answered s.master.log s.frames
  idle : s.master.started = false →
    s.stores = [] ∧ s.task = .idle ∧ s.rung = (started s.master.log).length
  flight : s.master.started = true → s.master.active = true ∧
    ∃ front c, s.master.log = front ++ [.started c] ∧ s.master.wireRead = c.isRead ∧
      Phase c (started front).length s

/-- A transaction is on its way as soon as it has been started. -/
theorem Phase.begin {front : List Entry} (hrung : s.rung = (started front).length) {m' : Master}
    {tail : List Entry} (hlog : m'.log = s.master.log ++ tail) (htail : started tail = [c]) {task : Task}
    (htask : task.Early) : Phase c (started front).length (s.goTo m' task) := by
  refine .cmd0 ?_ htask hrung
  simp only [System.goTo]
  rw [hlog, List.drop_left, htail, List.flatMap_singleton]

variable {responses : Nat → Response}

theorem Link.submit (h : Link responses s) (q : Request) : Link responses (s.submit q) := by
  rw [System.submit]
  by_cases hbusy : s.Busy
  · rw [if_pos hbusy]
    exact h
  rw [if_neg hbusy]
  obtain ⟨past, hpast⟩ := h.progress
  by_cases hact : s.master.active = true
  · have hsame : (s.master.submit q).2 = s.master := by rw [Master.submit, if_pos hact]
    rw [hsame]
    exact h
  · have hstarted : s.master.started = false := by
      by_contra hne
      exact hact (h.flight (Bool.not_eq_false _ ▸ hne)).1
    obtain ⟨hstores, htask, hrung⟩ := h.idle hstarted
    have hlog : (s.master.submit q).2.log = s.master.log ++ [.accepted q] := by
      rw [Master.submit, if_neg hact]
    have hidle : (s.master.submit q).2.started = false := by rw [Master.submit, if_neg hact]
    refine ⟨⟨past, hpast.submit q⟩, ?_, fun _ => ⟨hstores, htask, ?_⟩, fun hs => ?_⟩
    · simp only [hlog]
      exact h.answered.quiet (by simp)
    · simp only [hlog, started_append, hrung, List.length_append]
      rfl
    · exact Bool.noConfusion (hs.symm.trans hidle)

/-- Reading STATUS is always the next thing to do. -/
theorem Phase.retask (h : Phase c n s) {task : Task} (htask : task.Early) : Phase c n { s with task } := by
  cases h with
  | cmd0 hs _ hrung => exact .cmd0 hs htask hrung
  | cmd1 hs _ hrung h0 => exact .cmd1 hs htask hrung h0
  | cmd2 hs _ hrung h0 h1 => exact .cmd2 hs htask hrung h0 h1
  | cmd3 hs _ hrung h0 h1 h2 => exact .cmd3 hs htask hrung h0 h1 h2
  | clear hs _ hrung hcarries => exact .clear hs htask hrung hcarries
  | ring hs _ hrung hcarries hstatus hpc => exact .ring hs htask hrung hcarries hstatus hpc
  | rung hs _ hrung hcarries hctrl hstatus hpc => exact .rung hs htask hrung hcarries hctrl hstatus hpc
  | running hs _ hrung hcarries hctrl hstatus hown htaken =>
    exact .running hs htask hrung hcarries hctrl hstatus hown htaken
  | done f hrung hran _ =>
    refine .done f hrung ⟨hran.stores, hran.go, hran.pc, hran.mem, hran.rung, hran.of, hran.status,
      hran.result⟩ ?_
    cases task with
    | idle => trivial
    | status nowMs => trivial
    | resH nowMs => exact absurd htask id
    | resL nowMs h => exact absurd htask id

theorem Link.tick (h : Link responses s) (nowMs : UInt32) : Link responses (s.tick nowMs) := by
  rw [System.tick]
  by_cases hbusy : s.Busy
  · rw [if_pos hbusy]
    exact h
  rw [if_neg hbusy]
  by_cases hact : s.master.active = true
  swap
  · rw [if_pos hact]
    exact h
  rw [if_neg (not_not.mpr hact)]
  obtain ⟨past, hpast⟩ := h.progress
  by_cases hstarted : s.master.started = true
  · rw [if_neg (not_not.mpr hstarted)]
    obtain ⟨hactive, front, c, hlog, hwire, hphase⟩ := h.flight hstarted
    exact ⟨⟨past, hpast⟩, h.answered, fun hs => Bool.noConfusion (hs.symm.trans hstarted),
      fun _ => ⟨hactive, front, c, hlog, hwire, hphase.retask trivial⟩⟩
  · rw [if_pos hstarted]
    have hstarted : s.master.started = false := Bool.not_eq_true _ ▸ hstarted
    have hstep : s.master.step = .start := by
      obtain ⟨q, -, -, ⟨-, hstep, -⟩ | ⟨os, hbus, -⟩⟩ := hpast.active hact
      · exact hstep
      · exact Bool.noConfusion (hstarted.symm.trans hbus)
    obtain ⟨c, hlog, hwire, hgo, hactive, hms⟩ :=
      s.master.starts nowMs (by rw [hstep]; decide) (by rw [hstep]; decide)
    have hrung := (h.idle hstarted).2.2
    refine ⟨?_, ?_, fun hs => Bool.noConfusion (hs.symm.trans hgo), fun _ =>
      ⟨hactive.trans hact, s.master.log, c, hlog, hwire, Phase.begin hrung hlog rfl trivial⟩⟩
    · -- a poll that finds nothing leaves the state as it is
      obtain ⟨past', hpast'⟩ := hpast.tick nowMs ⟨0, 0, 0⟩
      have hpoll : s.master.tick nowMs ⟨0, 0, 0⟩ = s.master.startNextTransaction nowMs := by
        rw [Master.tick, if_neg (not_not.mpr hact), if_pos (by simp [hstarted]), Master.poll, if_pos rfl,
          hms, UInt32.sub_self, if_neg (by decide)]
      exact ⟨past', hpoll ▸ hpast'⟩
    · simp only [System.goTo, hlog]
      exact h.answered.quiet (by simp)

/-- A poll that finds STATUS clear, or the result of the transaction on its way. -/
theorem Link.polled (h : Link responses s) (hstarted : s.master.started = true) {front : List Entry}
    {c : Command} (hlog : s.master.log = front ++ [.started c])
    (hphase : Phase c (started front).length s) (hstores : s.stores = [])
    (hrung : s.rung = (started front).length + 1) (nowMs : UInt32) {r : Reading}
    (hr : r.status = 0 ∨
      ∃ f ∈ s.frames, f.rung = (started front).length + 1 ∧ f.Of c ∧ f.Gives r) :
    Link responses (s.goTo (s.master.poll nowMs r) .idle) := by
  obtain ⟨hact, front', c', hlog', hwire', -⟩ := h.flight hstarted
  have hcount : s.rung = (started s.master.log).length := by
    rw [hrung, hlog, started_append, List.length_append]
    rfl
  have hprogress : ∃ past, Progress responses (s.master.poll nowMs r) past := by
    obtain ⟨past, hpast⟩ := h.progress
    have htick : s.master.tick nowMs r = s.master.poll nowMs r := by
      rw [Master.tick, if_neg (not_not.mpr hact), if_neg (not_not.mpr hstarted)]
    exact htick ▸ hpast.tick nowMs r
  -- where the request ends, the mailbox is done with
  have hends {tail : List Entry} (htail : (s.master.poll nowMs r).log = s.master.log ++ tail)
      (hnone : started tail = []) (hidle : (s.master.poll nowMs r).started = false)
      (hanswered : Answered (s.master.poll nowMs r).log s.frames) :
      Link responses (s.goTo (s.master.poll nowMs r) .idle) := by
    refine ⟨hprogress, hanswered, fun _ => ⟨?_, rfl, ?_⟩, fun hs => Bool.noConfusion (hs.symm.trans hidle)⟩
    · simp only [System.goTo, htail, List.drop_left, hnone, List.flatMap_nil]
    · simp only [System.goTo, htail, started_append, hnone, List.append_nil]
      exact hcount
  by_cases hzero : r.status = 0
  · rcases s.master.poll_busy nowMs hzero with hsame | ⟨htail, hidle⟩
    · rw [hsame]
      have hstay : s.goTo s.master .idle = { s with task := .idle } := by
        simp [System.goTo, started, hstores]
      rw [hstay]
      exact ⟨h.progress, h.answered, fun hs => Bool.noConfusion (hs.symm.trans hstarted), fun _ =>
        ⟨hact, front, c, hlog, by
          obtain ⟨-, heq⟩ := List.append_inj' (hlog'.symm.trans hlog) rfl
          cases heq
          exact hwire', hphase.retask trivial⟩⟩
    · refine hends htail rfl hidle ?_
      rw [htail, List.append_cons]
      exact (h.answered.quiet (by simp)).quiet (by simp)
  · obtain ⟨f, hf, hown, hof, hgives⟩ := hr.resolve_left hzero
    have hnew : Answered (s.master.log ++ [.reported (.answered r)]) s.frames := by
      refine h.answered.concat fun r' front'' c'' hx hlog'' => ?_
      cases hx
      obtain ⟨hfront, hlast⟩ := List.append_inj' (hlog.symm.trans hlog'') rfl
      cases hlast
      subst hfront
      exact ⟨f, hf, hown, hof, hgives⟩
    rcases s.master.poll_answered nowMs hzero with
      ⟨status, value, htail, hidle⟩ | ⟨c', htail, hwire, hgo, hactive⟩
    · refine hends htail rfl hidle ?_
      rw [htail, List.append_cons]
      exact hnew.quiet (by simp)
    · refine ⟨hprogress, ?_, fun hs => Bool.noConfusion (hs.symm.trans hgo), fun _ =>
        ⟨hactive.trans hact, s.master.log ++ [.reported (.answered r)], c', ?_, hwire, ?_⟩⟩
      · simp only [System.goTo]
        rw [htail, List.append_cons]
        exact hnew.quiet (by simp)
      · simp only [System.goTo]
        rw [htail, List.append_assoc]
        rfl
      · refine Phase.begin ?_ htail rfl trivial
        rw [hcount, started_append, List.length_append]
        rfl

theorem Link.cpu (h : Link responses s) (hrest : s.stores.head? = some .clearStatus → s.blob.pc.AtRest) :
    Link responses s.cpuStep := by
  by_cases hstarted : s.master.started = true
  swap
  · -- nothing to do
    obtain ⟨hstores, htask, -⟩ := h.idle (Bool.not_eq_true _ ▸ hstarted)
    have hstay : s.cpuStep = s := by rw [System.cpuStep, hstores, htask]
    rw [hstay]
    exact h
  obtain ⟨hact, front, c, hlog, hwire, hphase⟩ := h.flight hstarted
  rcases hs : s.stores with _ | ⟨w, stores⟩
  swap
  · have hnext := hphase.store hs fun heq => hrest (by rw [hs, heq]; rfl)
    rw [System.cpuStep, hs] at hnext ⊢
    exact ⟨h.progress, h.answered, fun hn => Bool.noConfusion (hn.symm.trans hstarted),
      fun _ => ⟨hact, front, c, hlog, hwire, hnext⟩⟩
  -- the master reads, and moves on to its next read
  have hreads (task : Task) (hp : Phase c (started front).length { s with stores := [], task }) :
      Link responses { s with stores := [], task } :=
    ⟨h.progress, h.answered, fun hn => Bool.noConfusion (hn.symm.trans hstarted),
      fun _ => ⟨hact, front, c, hlog, hwire, hp⟩⟩
  have hclear (hrung : s.rung = (started front).length + 1) (hstatus : s.mailbox.status = 0)
      (htask : s.task.Early) : Link responses s.cpuStep := by
    rw [System.cpuStep, hs]
    cases ht : s.task with
    | idle => exact h
    | resH nowMs =>
      rw [ht] at htask
      exact absurd htask id
    | resL nowMs hh =>
      rw [ht] at htask
      exact absurd htask id
    | status nowMs =>
      have hbusy : ¬ (s.mailbox.status = ST_OK ∧ s.master.wireRead = true) := by
        rw [hstatus]
        exact fun hok => absurd hok.1 (by decide)
      simp only [if_neg hbusy]
      exact h.polled hstarted hlog hphase hs hrung nowMs (.inl hstatus)
  cases hphase with
  | cmd0 hs' => cases hs.symm.trans hs'
  | cmd1 hs' => cases hs.symm.trans hs'
  | cmd2 hs' => cases hs.symm.trans hs'
  | cmd3 hs' => cases hs.symm.trans hs'
  | clear hs' => cases hs.symm.trans hs'
  | ring hs' => cases hs.symm.trans hs'
  | rung _ htask hrung _ _ hstatus => exact hclear hrung hstatus htask
  | running _ htask hrung _ _ hstatus => exact hclear hrung hstatus htask
  | done f hrung hran htask =>
    have hdone := Phase.done f hrung hran htask
    obtain ⟨hstores, hgo, hpc, hmem, hown, hof, hstatus, hresult⟩ := hran
    rw [System.cpuStep, hs]
    cases ht : s.task with
    | idle => exact h
    | status nowMs =>
      by_cases hok : s.mailbox.status = ST_OK ∧ s.master.wireRead = true
      · simp only [if_pos hok]
        refine hreads (.resH nowMs) (.done f hrung ⟨rfl, hgo, hpc, hmem, hown, hof, hstatus, hresult⟩ ⟨?_, ?_⟩)
        · exact hstatus.symm.trans hok.1
        · exact hof.isRead.trans (hwire.symm.trans hok.2)
      · simp only [if_neg hok]
        refine h.polled hstarted hlog hdone hs hrung nowMs (.inr ⟨f, hmem, hown, hof, hstatus, ?_⟩)
        intro hread hokay
        exact absurd ⟨hstatus.trans hokay, hwire.trans (hof.isRead.symm.trans hread)⟩ hok
    | resH nowMs =>
      rw [ht] at htask
      exact hreads (.resL nowMs s.mailbox.resH) (.done f hrung ⟨rfl, hgo, hpc, hmem, hown, hof, hstatus, hresult⟩
        ⟨htask.1, htask.2, (hresult htask.2).1⟩)
    | resL nowMs hh =>
      rw [ht] at htask
      obtain ⟨hokay, hread, hval⟩ := htask
      refine h.polled hstarted hlog hdone hs hrung nowMs (.inr ⟨f, hmem, hown, hof, hokay.symm, ?_⟩)
      exact fun _ _ => ⟨hval, (hresult hread).2⟩

theorem Link.blob (h : Link responses s) (bus : Bus) (hgo : s.blob.pc = .consumeGo → s.stores.length ≠ 1) :
    Link responses (s.blobStep bus) := by
  have hk := s.blobStep_kept bus
  refine ⟨hk.master ▸ h.progress, ?_, fun hn => ?_, fun hn => ?_⟩
  · rw [hk.master]
    exact h.answered.mono hk.frames
  · rw [hk.master] at hn ⊢
    rw [hk.stores, hk.task, hk.rung]
    exact h.idle hn
  · rw [hk.master] at hn ⊢
    obtain ⟨hact, front, c, hlog, hwire, hphase⟩ := h.flight hn
    exact ⟨hact, front, c, hlog, hwire, hphase.blob bus hgo⟩

/-! ## Runs -/

/-- When the master clears STATUS for a transaction, the blob is not running an earlier
frame; and it does not consume a GO in front of the doorbell that follows. -/
def System.Undisturbed (s : System) : Turn → Prop
  | .cpu => s.stores.head? = some .clearStatus → s.blob.pc.AtRest
  | .blob _ => s.blob.pc = .consumeGo → s.stores.length ≠ 1
  | _ => True

instance (s : System) : (t : Turn) → Decidable (s.Undisturbed t)
  | .cpu => inferInstanceAs (Decidable (_ → _))
  | .blob _ => inferInstanceAs (Decidable (_ → _))
  | .submit _ | .tick _ => .isTrue trivial

theorem Link.step (h : Link responses s) {t : Turn} (ht : s.Undisturbed t) : Link responses (s.step t) := by
  cases t with
  | submit q => exact h.submit q
  | tick nowMs => exact h.tick nowMs
  | cpu => exact h.cpu ht
  | blob bus => exact h.blob bus ht

theorem link_begin (responses : Nat → Response) (mailbox : Mailbox) (frame : Execution) :
    Link responses (.begin responses mailbox frame) where
  progress := ⟨[], progress_begin responses⟩
  answered := by
    intro front c r rest hlog
    simp [System.begin, Master.begin] at hlog
  idle := fun _ => ⟨rfl, rfl, rfl⟩
  flight := fun hs => Bool.noConfusion (hs : false = true)

/-- The response to a request that ends on this frame. -/
def Execution.answer (f : Execution) : Response :=
  Outcome.answer f.isRead (.answered ⟨f.status, f.resH, f.resL⟩)

/-- With every outcome so far OK, the log ends on the transaction that is on the bus. -/
theorem steps_open_last (isRead : Bool) {ts : List Transaction} {os : List Outcome} {t : Transaction}
    (hos : ∀ o ∈ os, o.Ok) (ht : ts[os.length]? = some t) :
    ∃ front, steps isRead ts os = front ++ [.started t.command] := by
  induction os generalizing ts with
  | nil =>
    match ts, ht with
    | t₀ :: ts, ht =>
      obtain rfl : t₀ = t := by simpa using ht
      exact ⟨[], rfl⟩
  | cons o os ih =>
    obtain ⟨ho, hos⟩ := List.forall_mem_cons.mp hos
    match ts, ht with
    | t₀ :: ts, ht =>
      have ht : ts[os.length]? = some t := by simpa using ht
      have hmore : ts ≠ [] := by
        rintro rfl
        simp at ht
      obtain ⟨front, hfront⟩ := ih hos ht
      exact ⟨.started t₀.command :: .reported o :: front, by simp [steps, ho, hmore, hfront]⟩

/-- The transaction that ended a session, and where it stands in the log. -/
theorem Session.Ended.last {p : Session} (h : p.Ended) {r : Reading}
    (hr : p.outcomes.getLast? = some (.answered r)) :
    ∃ t ∈ p.request.transactions, ∃ front entry,
      p.log = front ++ [.started t.command, .reported (.answered r), entry] ∧
      (started front).length + 1 = p.outcomes.length ∧
      (r.status = ST_OK → t.isRead = p.request.isRead) := by
  obtain ⟨q, outcomes⟩ := p
  obtain ⟨os, o, rfl, ⟨hos, hlen⟩, hlast⟩ := h
  obtain rfl : o = .answered r := by simpa using hr
  have hlen : os.length < q.transactions.length := hlen
  have hos : ∀ o ∈ os, o.Ok := hos
  have ht := List.getElem?_eq_getElem hlen
  obtain ⟨front, hfront⟩ := steps_open_last q.isRead hos ht
  have hcount : (started (steps q.isRead q.transactions os)).length = os.length + 1 := by
    rw [started_steps q.isRead hos hlen, List.length_map, List.length_take]
    exact min_eq_left hlen
  have hlog : Session.log ⟨q, os ++ [.answered r]⟩ =
      (.accepted q :: front) ++ [.started q.transactions[os.length].command, .reported (.answered r),
        .finished ((Outcome.answered r).answer q.isRead).status
          ((Outcome.answered r).answer q.isRead).value] := by
    rw [Session.log, steps_concat_last q.isRead hos hlen hlast, hfront]
    simp
  refine ⟨_, List.getElem_mem hlen, .accepted q :: front, _, hlog, ?_, fun hok => ?_⟩
  · rw [hfront, started_append, List.length_append] at hcount
    rw [List.length_append]
    exact hcount
  · exact transactions_last q ht (hlast hok)

/-- The log of a run starts with the sessions that have ended. -/
theorem Progress.log {m : Master} {past : List Session} (h : Progress responses m past) :
    ∃ tail, m.log = past.flatMap Session.log ++ tail := by
  cases hact : m.active with
  | false => exact ⟨[], by rw [(h.idle hact).1, List.append_nil]⟩
  | true =>
    obtain ⟨q, -, -, ⟨-, -, hlog⟩ | ⟨os, -, hbus⟩⟩ := h.active hact
    · exact ⟨_, hlog⟩
    · exact ⟨_, hbus.log⟩

/-- A frame that gives the reading of a session's end gives its answer. -/
theorem Execution.Gives.answer {f : Execution} {r : Reading} (h : f.Gives r) {isRead : Bool}
    (hdir : r.status = ST_OK → f.isRead = isRead) :
    (Outcome.answered r).answer isRead = f.answer := by
  simp only [Outcome.answer, Execution.answer, ← h.status]
  by_cases hok : r.status = ST_OK
  · have hread := hdir hok
    rw [if_pos hok, if_pos hok, hread]
    cases isRead with
    | false => rfl
    | true =>
      obtain ⟨hh, hl⟩ := h.result hread (h.status.symm.trans hok)
      simp only [if_true, Reading.result, hh, hl]
  · rw [if_neg hok, if_neg hok]

/-- In every run in which no transaction disturbs an earlier frame, each session answered
Done or NoResp carries what the blob's run of its own frame, behind its own doorbell, has
given. -/
theorem no_stale_result (responses : Nat → Response) (mailbox : Mailbox) (frame : Execution)
    (turns : List Turn)
    (h : AllSteps System.step System.Undisturbed (.begin responses mailbox frame) turns) :
    let s := run System.step (.begin responses mailbox frame) turns
    Answered s.master.log s.frames ∧
    ∃ past, History responses s.master past ∧
      ∀ before p after, past = before ++ p :: after →
        p.answer.status = .done ∨ p.answer.status = .noResp →
        ∃ f ∈ s.frames, ∃ t ∈ p.request.transactions,
          f.rung = (started (before.flatMap Session.log)).length + p.outcomes.length ∧
          f.Of t.command ∧ p.answer = f.answer := by
  intro s
  have hlink : Link responses s :=
    h.invariant (I := Link responses) (fun _ _ hs ht => hs.step ht) (link_begin responses mailbox frame)
  obtain ⟨past, hpast⟩ := hlink.progress
  refine ⟨hlink.answered, past, hpast.history, ?_⟩
  rintro before p after hsplit hstatus
  have hended : p.Ended := hpast.ended p (by rw [hsplit]; simp)
  obtain ⟨r, hr⟩ : ∃ r, p.outcomes.getLast? = some (.answered r) := by
    rw [Session.answer] at hstatus
    cases hlast : p.outcomes.getLast? with
    | none => simp [hlast] at hstatus
    | some o =>
      cases o with
      | answered r => exact ⟨r, rfl⟩
      | expired => simp [hlast, Outcome.answer] at hstatus
  -- the last start of the session is the doorbell its answer belongs to
  obtain ⟨t, ht, front, entry, hlog, hcount, hdir⟩ := hended.last hr
  obtain ⟨tail, htail⟩ := hpast.log
  have hwhole : s.master.log = (before.flatMap Session.log ++ front) ++
      .started t.command :: .reported (.answered r) :: (entry :: (after.flatMap Session.log ++ tail)) := by
    rw [htail, hsplit, List.flatMap_append, List.flatMap_cons, hlog]
    simp
  obtain ⟨f, hf, hrung, hof, hgives⟩ := hlink.answered _ _ _ _ hwhole
  refine ⟨f, hf, t, ht, ?_, hof, ?_⟩
  · rw [hrung, started_append, List.length_append, Nat.add_assoc, hcount]
  · have hanswer : p.answer = (Outcome.answered r).answer p.request.isRead := by
      rw [Session.answer, hr]
      rfl
    rw [hanswer]
    refine hgives.answer fun hok => ?_
    exact (hof.isRead.trans (command_isRead ..)).trans (hdir hok)

def blank : System := .begin (fun _ => {}) ⟨0, 0, 0, 0, 0, 0, 0, 0⟩ ⟨0, false, 0, 0, 0, 0, 0, 0, 0⟩

/-- `n` accesses of the blob, on a bus that reads zeros. -/
def blobRuns (n : Nat) : List Turn := List.replicate n (.blob ⟨false, 0⟩)

/-- The end of a read that takes `h` and `l` from the bus. -/
def busGives (h l : UInt8) : List Turn :=
  [.blob ⟨false, 0⟩, .blob ⟨false, h⟩, .blob ⟨false, l⟩, .blob ⟨false, 0⟩]

/-- One read, answered at the second poll. -/
def promptRead : List Turn :=
  [.submit ⟨.read, 1, 0, 2, 0, 0⟩, .tick 0] ++ List.replicate 7 .cpu ++ blobRuns 6 ++ busGives 0x12 0x34 ++
    [.tick 1, .cpu, .cpu, .cpu]

theorem promptRead_answered :
    Answered (run System.step blank promptRead).master.log (run System.step blank promptRead).frames :=
  (no_stale_result _ _ _ promptRead (by decide +kernel)).1

/-- A read of register 2 that the blob is still running when it times out, and a read of
register 3 behind it. -/
def lateRead : List Turn :=
  [.submit ⟨.read, 1, 0, 2, 0, 0⟩, .tick 0] ++ List.replicate 7 .cpu ++ blobRuns 6 ++
    [.tick 10, .cpu, .submit ⟨.read, 1, 0, 3, 0, 1⟩, .tick 10] ++ List.replicate 7 .cpu ++
    busGives 0x12 0x34 ++ [.tick 11, .cpu, .cpu, .cpu]

/-- The second read is answered with the frame of the first. -/
theorem stale_result :
    (run System.step blank lateRead).master.responses 1 = ⟨.done, 0x1234⟩ ∧
    ∀ f ∈ (run System.step blank lateRead).frames, ¬ f.Of (command true 1 3 0) := by
  decide +kernel

end Tapioca.Mdio

-- SUMMARY: The run-length eMCU, the drain ISR and `service()` side by side, and where every captured byte is.
import Tapioca.Lib.Lts
import Tapioca.Sniffer.RleSniffer

/-!
# The run-length system

The eMCU stores run-bytes into a 30-slot FIFO and publishes them one at a time.
The drain ISR runs as a whole, between any two steps of the eMCU and any two
pieces of `service()`. The history variables name every captured byte by its
index in the stream: which of them wait in the RAM ring, and which of them a
byte on the wire is.
-/

namespace Tapioca.RleSniffer

open Pioc RecordFramer Lib.Lts Lib.SlotRing

/-- `DATA_REG2..31`, with HEAD in `DATA_REG1`. -/
def layout : Layout where
  slots := 30
  base := RING_BASE
  head := RING_HEAD
  slots_pos := by decide
  fits := by decide
  head_outside := by decide

/-- A byte the capture blob stores: a terminal byte or the continuation byte. -/
structure RunByte where
  val : UInt8
  le : val ≤ 0x80

/-- What `service()` and `drainPioc()` leave on the wire; a run-byte with its
index in the captured stream. -/
inductive Tag where
  | run (k : Nat) (b : UInt8)
  | boundary
  | loss
  | mode
  | report (d : TelemetryBlock)
  | banner (text : List UInt8)

def Tag.bytes (B : Build) : Tag → List UInt8
  | .run _ b => [b]
  | .boundary => [0xFF]
  | .loss => [0xFD]
  | .mode => 0xFF :: frameMeta (marker B.fcpu)
  | .report d => d.bytes
  | .banner text => text

/-- The mode marker a tag is. -/
def Tag.marker? (B : Build) : Tag → Option (List UInt8)
  | .mode => some (marker B.fcpu)
  | .run .. | .boundary | .loss | .report _ | .banner _ => none

/-- The tag of what the filter puts out for byte `k`. -/
def Verdict.tags (k : Nat) (b : UInt8) : Verdict → List Tag
  | .pass => [.run k b]
  | .boundary => [.boundary]
  | .drop | .dropTail => []

/-- Where `service()` stands, with its locals. -/
inductive Pc where
  | idle
  | filter (nowMs : UInt32) (l : Loop)
  | readDrop (nowMs : UInt32) (sawActivity : Bool)
  | mark (nowMs : UInt32) (sawActivity : Bool) (rd : UInt32)
  | finish (nowMs : UInt32) (sawActivity : Bool)
  | report (nowMs : UInt32)
  deriving DecidableEq

structure System where
  fifo : Fifo layout
  host : Sniffer
  pc : Pc
  /-- How many published bytes the cursor of the drain has passed. -/
  cursor : Nat
  /-- The indices of the bytes in the RAM ring. -/
  queued : List Nat
  /-- The indices of the bytes the filter has taken. -/
  consumed : List Nat
  /-- What is on the wire, or in the reserved stretch of the transmit ring. -/
  trace : List Tag
  /-- An overrun has been found since the last `0xFD`. -/
  lapped : Bool

inductive Event where
  | store (v : RunByte)
  | publish
  | drain
  | enter (nowMs : UInt32) (writeSpace : UInt16) (cap : Nat)
  | round
  | readDrop
  | mark (room : Bool)
  | finish (room : Bool) (space : Nat)
  | report (d : TelemetryBlock) (space : Nat)

namespace System

/-- The bytes `drainPioc()` takes, as the code counts them, and the index of the
first. -/
def gap (s : System) : Nat := (s.host.gap (s.fifo.regs RING_HEAD)).toNat

def first (s : System) : Nat := s.fifo.published - s.gap

def toCopy (s : System) : Nat := s.host.toCopy (s.fifo.regs RING_HEAD)

/-- `sawActivity`, which lives until the activity is tracked. -/
def sawActivity (s : System) : Bool :=
  match s.pc with
  | .filter _ l => l.sawActivity
  | .readDrop _ saw | .mark _ saw _ | .finish _ saw => saw
  | .idle | .report _ => false

/-- `drainPioc()` finds an overrun. -/
def overrun (s : System) : Bool := s.host.rawGap (s.fifo.regs RING_HEAD) > RING_SLOTS

def drain (s : System) : System :=
  { s with
    host := s.host.drainPioc s.fifo.regs
    cursor := s.fifo.published
    queued := s.queued ++ (List.range s.toCopy).map (s.first + ·)
    lapped := s.lapped ∨ s.overrun }

/-- One round of the filter loop, or its end. -/
def round (B : Build) (s : System) (nowMs : UInt32) (l : Loop) : System :=
  if l.running then
    let k := s.queued.getD l.i 0
    let b := s.host.ram.peek l.i
    let next := s.host.loopRound B l
    { s with
      host := next.1, pc := .filter nowMs next.2, consumed := s.consumed ++ [k]
      trace := s.trace ++ (l.squelch.verdict B.capIdleK b).tags k b }
  else
    { s with
      host := s.host.commitLoop l, pc := .readDrop nowMs l.sawActivity
      queued := s.queued.drop l.i }

def mark (s : System) (nowMs : UInt32) (saw : Bool) (rd : UInt32) (room : Bool) : System :=
  let written : Bool := rd ≠ s.host.lossSeen ∧ room
  { s with
    host := s.host.markLoss rd room, pc := .finish nowMs saw
    trace := if written then s.trace ++ [.loss] else s.trace
    lapped := s.lapped ∧ ¬ written }

def finish (B : Build) (s : System) (nowMs : UInt32) (saw room : Bool) (space : Nat) : System :=
  let tracked := s.host.trackActivity nowMs saw
  let separated := tracked.separate nowMs room
  { s with
    host := s.host.finish B nowMs saw room space
    pc := .report nowMs
    trace := s.trace ++ (if tracked.idleGap nowMs ∧ room then [.boundary] else []) ++
      (if separated.beatDue nowMs ∧ Sniffer.markerFits B space then [.mode] else []) }

def report (B : Build) (s : System) (nowMs : UInt32) (d : TelemetryBlock) (space : Nat) : System :=
  { s with
    host := s.host.report B nowMs d space
    pc := .idle
    trace := s.trace ++
      (if s.host.reportDue B nowMs ∧ d.bytes.length ≤ space then [.report d] else []) }

/-- A step; an event the system is not ready for does nothing. -/
def step (B : Build) (s : System) (e : Event) : System :=
  match e, s.pc with
  | .store v, _ =>
    if h : s.fifo.published = s.fifo.stored.length then { s with fifo := s.fifo.store v.val h } else s
  | .publish, _ =>
    if h : s.fifo.published < s.fifo.stored.length then { s with fifo := s.fifo.publish h } else s
  | .drain, _ => s.drain
  | .enter nowMs writeSpace cap, .idle =>
    { s with pc := .filter nowMs (s.host.startLoop B writeSpace cap) }
  | .round, .filter nowMs l => s.round B nowMs l
  | .readDrop, .readDrop nowMs saw => { s with pc := .mark nowMs saw s.host.ramDrop }
  | .mark room, .mark nowMs saw rd => s.mark nowMs saw rd room
  | .finish room space, .finish nowMs saw => s.finish B nowMs saw room space
  | .report d space, .report nowMs => s.report B nowMs d space
  | _, _ => s

/-- What the steps do, one case for each kind; `stay` for the events the system
is not ready for. -/
inductive StepTo (B : Build) (s : System) : Event → System → Prop
  | stay (e : Event) (he : e ≠ .drain) : StepTo B s e s
  | store (v : RunByte) (h : s.fifo.published = s.fifo.stored.length) :
    StepTo B s (.store v) { s with fifo := s.fifo.store v.val h }
  | publish (h : s.fifo.published < s.fifo.stored.length) :
    StepTo B s .publish { s with fifo := s.fifo.publish h }
  | drain : StepTo B s .drain s.drain
  | enter (nowMs : UInt32) (writeSpace : UInt16) (cap : Nat) (hpc : s.pc = .idle) :
    StepTo B s (.enter nowMs writeSpace cap)
      { s with pc := .filter nowMs (s.host.startLoop B writeSpace cap) }
  | round (nowMs : UInt32) (l : Loop) (hpc : s.pc = .filter nowMs l) (hrun : l.running = true) :
    StepTo B s .round (s.round B nowMs l)
  | commit (nowMs : UInt32) (l : Loop) (hpc : s.pc = .filter nowMs l) (hstop : l.running = false) :
    StepTo B s .round (s.round B nowMs l)
  | readDrop (nowMs : UInt32) (saw : Bool) (hpc : s.pc = .readDrop nowMs saw) :
    StepTo B s .readDrop { s with pc := .mark nowMs saw s.host.ramDrop }
  | mark (room : Bool) (nowMs : UInt32) (saw : Bool) (rd : UInt32) (hpc : s.pc = .mark nowMs saw rd) :
    StepTo B s (.mark room) (s.mark nowMs saw rd room)
  | finish (room : Bool) (space : Nat) (nowMs : UInt32) (saw : Bool) (hpc : s.pc = .finish nowMs saw) :
    StepTo B s (.finish room space) (s.finish B nowMs saw room space)
  | report (d : TelemetryBlock) (space : Nat) (nowMs : UInt32) (hpc : s.pc = .report nowMs) :
    StepTo B s (.report d space) (s.report B nowMs d space)

theorem stepTo (B : Build) (s : System) (e : Event) : StepTo B s e (s.step B e) := by
  cases e with
  | store v =>
    simp only [step]
    split
    · rename_i h
      exact .store v h
    · exact .stay _ nofun
  | publish =>
    simp only [step]
    split
    · rename_i h
      exact .publish h
    · exact .stay _ nofun
  | drain => exact .drain
  | enter nowMs writeSpace cap =>
    cases hpc : s.pc with
    | idle =>
      simp only [step, hpc]
      exact .enter nowMs writeSpace cap hpc
    | filter _ _ | readDrop _ _ | mark _ _ _ | finish _ _ | report _ =>
      simp only [step, hpc]
      exact .stay _ nofun
  | round =>
    cases hpc : s.pc with
    | filter nowMs l =>
      simp only [step, hpc]
      cases hrun : l.running with
      | true => exact .round nowMs l hpc hrun
      | false => exact .commit nowMs l hpc hrun
    | idle | readDrop _ _ | mark _ _ _ | finish _ _ | report _ =>
      simp only [step, hpc]
      exact .stay _ nofun
  | readDrop =>
    cases hpc : s.pc with
    | readDrop nowMs saw =>
      simp only [step, hpc]
      exact .readDrop nowMs saw hpc
    | idle | filter _ _ | mark _ _ _ | finish _ _ | report _ =>
      simp only [step, hpc]
      exact .stay _ nofun
  | mark room =>
    cases hpc : s.pc with
    | mark nowMs saw rd =>
      simp only [step, hpc]
      exact .mark room nowMs saw rd hpc
    | idle | filter _ _ | readDrop _ _ | finish _ _ | report _ =>
      simp only [step, hpc]
      exact .stay _ nofun
  | finish room space =>
    cases hpc : s.pc with
    | finish nowMs saw =>
      simp only [step, hpc]
      exact .finish room space nowMs saw hpc
    | idle | filter _ _ | readDrop _ _ | mark _ _ _ | report _ =>
      simp only [step, hpc]
      exact .stay _ nofun
  | report d space =>
    cases hpc : s.pc with
    | report nowMs =>
      simp only [step, hpc]
      exact .report d space nowMs hpc
    | idle | filter _ _ | readDrop _ _ | mark _ _ _ | finish _ _ =>
      simp only [step, hpc]
      exact .stay _ nofun

/-- `begin()` has just started the eMCU and the drain timer. -/
def begin (B : Build) (regs : Regs) (mem : Nat → UInt8) (lastT nowMs : UInt32)
    (space printed : Nat) : System where
  fifo := Fifo.start layout regs
  host := Sniffer.begin B mem lastT nowMs space printed
  pc := .idle
  cursor := 0
  queued := []
  consumed := []
  trace := (if Sniffer.markerFits B space then [.mode] else []) ++
    if B.diag then [.banner (banner.take printed)] else []
  lapped := false

end System

/-- Readings of a telemetry block that never goes out. -/
def noReadings : TelemetryBlock where
  numbers := ⟨0, 0, 0, 0, 0, 0, 0, 0, 0, 0, 0, 0, 0⟩
  fits := by decide +kernel

end Tapioca.RleSniffer

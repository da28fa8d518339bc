-- SUMMARY: The run-length datapath `sniffer/rle_sniffer.cpp`: the drain ISR, the squelch and the pieces of `service()`.
import Tapioca.Pioc.Fifo
import Tapioca.Util.RamRing
import Tapioca.Sniffer.RecordFramer

/-!
# The run-length sniffer

`RleSniffer` as `main_sniffer` builds it. The TIM3 interrupt runs `drainPioc()`
at any time, so `service()` is cut into pieces between its accesses to what the
two share: `tail_` and the ring, `ramDrop_`, and `ringCount()`. The pieces come
in the order of the source. Counters that only the telemetry block reports are
left out; its numbers are readings.
-/

namespace Tapioca.RleSniffer

open Pioc RecordFramer

def RING_SLOTS : UInt8 := 30
def RING_BASE : UInt8 := 0x22
def RING_HEAD : UInt8 := 0x21
def TICK_HI_CYC : Nat := 9
def TICK_LO_CYC : Nat := 8

/-- `CAP_IDLE_K`, with `RLE_MIN_KBPS` 0 for no bound. -/
def capIdleK (minKbps : Nat) : Nat :=
  if minKbps = 0 then 0 else if 750 / minKbps ≠ 0 then 750 / minKbps else 1

/-- What is fixed when the firmware is built. -/
structure Build where
  capIdleK : Nat
  diag : Bool
  /-- `SystemCoreClock`. -/
  fcpu : UInt32

/-- The squelch state, `capRun_` and `capPiped_`. -/
structure Squelch where
  capRun : Nat
  capPiped : Bool
  deriving DecidableEq

structure Sniffer where
  ram : RamRing
  ovfPioc : UInt16
  sniffTail : UInt8
  sniffSlot : UInt8
  sniffLastMs : UInt32
  sniffActive : Bool
  ramDrop : UInt32
  lossSeen : UInt32
  squelch : Squelch
  modeHbMs : UInt32
  /-- `lastT`, when the last telemetry block was due. -/
  lastT : UInt32
  /-- The bytes committed to the USB transmit ring. -/
  wire : List UInt8

namespace Sniffer

-- ---------------------------------------------------------------------------
-- The drain ISR
-- ---------------------------------------------------------------------------

def rawGap (s : Sniffer) (h : UInt8) : UInt8 := h - s.sniffTail

/-- `slot >= RING_SLOTS`, so `slot -= RING_SLOTS`. -/
def wrapSlot (slot : UInt8) : UInt8 := if slot ≥ RING_SLOTS then slot - RING_SLOTS else slot

/-- The bytes to take: `rawGap`, or a full ring behind an overrun. -/
def gap (s : Sniffer) (h : UInt8) : UInt8 :=
  if s.rawGap h > RING_SLOTS then RING_SLOTS else s.rawGap h

/-- The slot of the first of them. The source reduces `rawGap` by subtraction. -/
def firstSlot (s : Sniffer) (h : UInt8) : UInt8 :=
  if s.rawGap h > RING_SLOTS then wrapSlot (s.sniffSlot + s.rawGap h % RING_SLOTS) else s.sniffSlot

/-- The bytes to take that the RAM ring has room for. -/
def toCopy (s : Sniffer) (h : UInt8) : Nat := min (s.gap h).toNat s.ram.space

/-- What the two copy loops read. -/
def copied (s : Sniffer) (DR : Regs) : List UInt8 :=
  let h := DR RING_HEAD
  let slot := s.firstSlot h
  let first := min (RING_SLOTS - slot).toNat (s.toCopy h)
  ((List.range first).map fun i => DR (RING_BASE + slot + UInt8.ofNat i)) ++
    (List.range (s.toCopy h - first)).map fun i => DR (RING_BASE + UInt8.ofNat i)

/-- `drainPioc()`. The cursor skips all bytes, those not copied are counted. -/
def drainPioc (s : Sniffer) (DR : Regs) : Sniffer :=
  let h := DR RING_HEAD
  let slot := s.firstSlot h
  { s with
    ram := s.ram.append (s.copied DR)
    ovfPioc := if s.rawGap h > RING_SLOTS then s.ovfPioc + 1 else s.ovfPioc
    sniffTail := (if s.rawGap h > RING_SLOTS then h - RING_SLOTS else s.sniffTail) + s.gap h
    sniffSlot := if s.rawGap h ≤ RING_SLOTS then wrapSlot (slot + s.rawGap h) else slot
    ramDrop :=
      if s.toCopy h < (s.gap h).toNat then
        s.ramDrop + UInt32.ofNat ((s.gap h).toNat - s.toCopy h)
      else s.ramDrop }

end Sniffer

-- ---------------------------------------------------------------------------
-- Markers
-- ---------------------------------------------------------------------------

/-- A number as `%u` and `%lu` print it. -/
def decimal (n : Nat) : List UInt8 := (Nat.toDigits 10 n).map fun c => UInt8.ofNat c.toNat

def marker (fcpu : UInt32) : List UInt8 :=
  ascii "[MODE rle wire=2 thi=" ++ decimal TICK_HI_CYC ++ ascii " tlo=" ++ decimal TICK_LO_CYC ++
    ascii " fcpu=" ++ decimal fcpu.toNat ++ ascii "]"

/-- What `begin()` prints in a diagnostic build; the host reads it as run-bytes. -/
def banner : List UInt8 :=
  ascii "rle sniffer (30-slot ring; TIM3 @ 50 kHz drain; 0xFF = gap)\r\n"

/-- The numbers of a telemetry block. -/
structure Telemetry where
  t : Nat
  loopHz : Nat
  pktHz : Nat
  shortHz : Nat
  usbB : Nat
  svcUs : Nat
  drnCpu : Nat
  drnMax : Nat
  ramHi : Nat
  maxGap : Nat
  ovf : Nat
  txFree : Nat
  drop : Nat

def Telemetry.text (d : Telemetry) : List UInt8 :=
  ascii "[T t=" ++ decimal d.t ++ ascii " loopHz=" ++ decimal d.loopHz ++
    ascii " pktHz=" ++ decimal d.pktHz ++ ascii " shortHz=" ++ decimal d.shortHz ++
    ascii " usbB=" ++ decimal d.usbB ++ ascii " svcUs=" ++ decimal d.svcUs ++
    ascii " drnCpu=" ++ decimal d.drnCpu ++ ascii "% drnMax=" ++ decimal d.drnMax ++
    ascii " ramHi=" ++ decimal d.ramHi ++ ascii " maxGap=" ++ decimal d.maxGap ++ ascii "/" ++
    decimal RING_SLOTS.toNat ++ ascii " ovf=" ++ decimal d.ovf ++ ascii " txFree=" ++
    decimal d.txFree ++ ascii " drop=" ++ decimal d.drop ++ ascii "]"

/-- A block that `char m[176]` holds. -/
structure TelemetryBlock where
  numbers : Telemetry
  fits : numbers.text.length ≤ 173

/-- `0xFE <ascii> 0xFE`. -/
def TelemetryBlock.bytes (d : TelemetryBlock) : List UInt8 := [0xFE] ++ d.numbers.text ++ [0xFE]

namespace Sniffer

/-- The mode marker is well formed, and `space` holds a boundary and the marker. -/
def markerFits (B : Build) (space : Nat) : Bool :=
  (frameMeta (marker B.fcpu)).length ≠ 0 ∧ (frameMeta (marker B.fcpu)).length + 1 ≤ space

/-- `emitModeMarker()`, with `space` bytes free on USB. -/
def emitModeMarker (B : Build) (s : Sniffer) (space : Nat) : Sniffer :=
  if markerFits B space then { s with wire := s.wire ++ 0xFF :: frameMeta (marker B.fcpu) } else s

/-- `begin()`. The ring and the telemetry clock keep what they held. Of the banner
that a diagnostic build prints, USB takes `printed` bytes. -/
def begin (B : Build) (mem : Nat → UInt8) (lastT nowMs : UInt32) (space printed : Nat) : Sniffer :=
  let s : Sniffer :=
    { ram := { mem, head := 0, tail := 0 }
      ovfPioc := 0
      sniffTail := 0
      sniffSlot := 0
      sniffLastMs := nowMs
      sniffActive := false
      ramDrop := 0
      lossSeen := 0
      squelch := { capRun := 0, capPiped := false }
      modeHbMs := nowMs + 1000
      lastT
      wire := [] }
  let t := s.emitModeMarker B space
  if B.diag then { t with wire := t.wire ++ banner.take printed } else t

end Sniffer

-- ---------------------------------------------------------------------------
-- The squelch
-- ---------------------------------------------------------------------------

/-- What the filter does with a byte of the RAM ring. -/
inductive Verdict where
  | pass
  | boundary
  | drop
  | dropTail
  deriving DecidableEq

namespace Squelch

variable (K : Nat)

/-- A continuation byte passes below the idle threshold, is replaced by a
boundary at it, and is dropped past it; the terminal byte behind a boundary is
dropped too. -/
def verdict (q : Squelch) (b : UInt8) : Verdict :=
  if b ≥ 128 then
    if K ≠ 0 ∧ q.capPiped then .drop
    else if K ≠ 0 ∧ q.capRun + 1 ≥ K then .boundary
    else .pass
  else if q.capPiped then .dropTail
  else .pass

/-- `capRun` and `capPiped` behind a byte. -/
def next (q : Squelch) (b : UInt8) : Squelch :=
  if b ≥ 128 then
    if K ≠ 0 ∧ q.capPiped then q
    else { capRun := q.capRun + 1, capPiped := q.capPiped ∨ K ≠ 0 ∧ q.capRun + 1 ≥ K }
  else { capRun := 0, capPiped := false }

/-- `dst[outl++] = …`. -/
def emits (q : Squelch) (b : UInt8) : List UInt8 :=
  match q.verdict K b with
  | .pass => [b]
  | .boundary => [0xFF]
  | .drop | .dropTail => []

end Squelch

-- ---------------------------------------------------------------------------
-- `service()`
-- ---------------------------------------------------------------------------

/-- The locals of the filter loop. `out` is `dst[0 .. outl)`. -/
structure Loop where
  n : Nat
  cap : Nat
  i : Nat
  out : List UInt8
  squelch : Squelch
  sawActivity : Bool
  deriving DecidableEq

/-- The loop goes on: `i < n`, and the reserved stretch of the transmit ring is
not full. -/
def Loop.running (l : Loop) : Bool := l.i < l.n ∧ l.out.length < l.cap

namespace Sniffer

/-- `service()` up to the filter loop, with `writeSpace` bytes free on USB, `cap`
of them in one stretch. -/
def startLoop (B : Build) (s : Sniffer) (writeSpace : UInt16) (cap : Nat) : Loop where
  n :=
    let avail := if B.diag then (if writeSpace > 160 then writeSpace - 160 else 0) else writeSpace
    min s.ram.count (min avail.toNat 192)
  cap := cap
  i := 0
  out := []
  squelch := s.squelch
  sawActivity := false

/-- One round of the filter loop. -/
def loopRound (B : Build) (s : Sniffer) (l : Loop) : Sniffer × Loop :=
  let b := s.ram.peek l.i
  let v := l.squelch.verdict B.capIdleK b
  ({ s with sniffActive := if v = .boundary then false else s.sniffActive },
    { l with
      i := l.i + 1
      out := l.out ++ l.squelch.emits B.capIdleK b
      squelch := l.squelch.next B.capIdleK b
      sawActivity :=
        match v with
        | .pass | .dropTail => true
        | .boundary => false
        | .drop => l.sawActivity })

/-- The end of the loop: the squelch state is written back, what was consumed
is released, what was filtered is committed. -/
def commitLoop (s : Sniffer) (l : Loop) : Sniffer :=
  { s with squelch := l.squelch, ram := s.ram.release l.i, wire := s.wire ++ l.out }

/-- The loss marker for the drop count `rd`, if USB has `room` for it. -/
def markLoss (s : Sniffer) (rd : UInt32) (room : Bool) : Sniffer :=
  if rd ≠ s.lossSeen ∧ room then { s with wire := s.wire ++ [0xFD], lossSeen := rd } else s

/-- Activity tracking behind the read of `ringCount()`. -/
def trackActivity (s : Sniffer) (nowMs : UInt32) (sawActivity : Bool) : Sniffer :=
  if sawActivity ∨ s.ram.count > 0 then { s with sniffLastMs := nowMs, sniffActive := true } else s

/-- The idle-gap separator is due. -/
def idleGap (s : Sniffer) (nowMs : UInt32) : Bool :=
  s.sniffActive ∧ s.ram.count = 0 ∧ nowMs - s.sniffLastMs > 3

/-- The idle-gap separator, if USB has `room` for it. -/
def separate (s : Sniffer) (nowMs : UInt32) (room : Bool) : Sniffer :=
  if s.idleGap nowMs ∧ room then { s with wire := s.wire ++ [0xFF], sniffActive := false } else s

/-- The mode heartbeat is due and no frame is in flight. The comparison is the
sign of the `int32_t` difference. -/
def beatDue (s : Sniffer) (nowMs : UInt32) : Bool :=
  ¬ s.sniffActive ∧ nowMs - s.modeHbMs < 0x80000000

def heartbeat (B : Build) (s : Sniffer) (nowMs : UInt32) (space : Nat) : Sniffer :=
  if s.beatDue nowMs then { s.emitModeMarker B space with modeHbMs := nowMs + 1000 } else s

/-- `service()` from the read of `ringCount()` to the heartbeat. -/
def finish (B : Build) (s : Sniffer) (nowMs : UInt32) (sawActivity room : Bool) (space : Nat) :
    Sniffer :=
  ((s.trackActivity nowMs sawActivity).separate nowMs room).heartbeat B nowMs space

/-- The telemetry block is due: once a second, in a diagnostic build. -/
def reportDue (B : Build) (s : Sniffer) (nowMs : UInt32) : Bool :=
  B.diag ∧ nowMs - s.lastT ≥ 1000

/-- The counters are read and cleared, and reported where USB has the space. -/
def report (B : Build) (s : Sniffer) (nowMs : UInt32) (d : TelemetryBlock) (space : Nat) : Sniffer :=
  if s.reportDue B nowMs then
    { s with
      lastT := nowMs, ramDrop := 0, ovfPioc := 0
      wire := if d.bytes.length ≤ space then s.wire ++ d.bytes else s.wire }
  else s

-- ---------------------------------------------------------------------------
-- What the pieces leave alone
-- ---------------------------------------------------------------------------

theorem emitModeMarker_frame (B : Build) (s : Sniffer) (space : Nat) :
    s.emitModeMarker B space = { s with wire := (s.emitModeMarker B space).wire } := by
  unfold emitModeMarker
  split <;> rfl

theorem begin_frame (B : Build) (mem : Nat → UInt8) (lastT nowMs : UInt32) (space printed : Nat) :
    begin B mem lastT nowMs space printed =
      { ram := { mem, head := 0, tail := 0 }
        ovfPioc := 0
        sniffTail := 0
        sniffSlot := 0
        sniffLastMs := nowMs
        sniffActive := false
        ramDrop := 0
        lossSeen := 0
        squelch := { capRun := 0, capPiped := false }
        modeHbMs := nowMs + 1000
        lastT
        wire := (if markerFits B space then 0xFF :: frameMeta (marker B.fcpu) else []) ++
          if B.diag then banner.take printed else [] } := by
  unfold begin emitModeMarker
  cases hfits : markerFits B space <;> cases hdiag : B.diag <;> simp

/-- Behind the drop count `service()` only tracks activity and writes markers. -/
theorem finish_frame (B : Build) (s : Sniffer) (nowMs : UInt32) (saw room : Bool) (space : Nat) :
    s.finish B nowMs saw room space =
      { s with
        sniffLastMs := (s.finish B nowMs saw room space).sniffLastMs
        sniffActive := (s.finish B nowMs saw room space).sniffActive
        modeHbMs := (s.finish B nowMs saw room space).modeHbMs
        wire := (s.finish B nowMs saw room space).wire } := by
  have htrack : ∀ s : Sniffer, s.trackActivity nowMs saw =
      { s with
        sniffLastMs := (s.trackActivity nowMs saw).sniffLastMs
        sniffActive := (s.trackActivity nowMs saw).sniffActive } := by
    intro s
    unfold trackActivity
    split <;> rfl
  have hseparate : ∀ s : Sniffer, s.separate nowMs room =
      { s with
        sniffActive := (s.separate nowMs room).sniffActive
        wire := (s.separate nowMs room).wire } := by
    intro s
    unfold separate
    split <;> rfl
  have hbeat : ∀ s : Sniffer, s.heartbeat B nowMs space =
      { s with
        modeHbMs := (s.heartbeat B nowMs space).modeHbMs
        wire := (s.heartbeat B nowMs space).wire } := by
    intro s
    unfold heartbeat
    split
    · rw [emitModeMarker_frame]
    · rfl
  rw [finish, hbeat, hseparate, htrack]

theorem markLoss_frame (s : Sniffer) (rd : UInt32) (room : Bool) :
    s.markLoss rd room =
      { s with lossSeen := (s.markLoss rd room).lossSeen, wire := (s.markLoss rd room).wire } := by
  unfold markLoss
  split <;> rfl

theorem report_frame (B : Build) (s : Sniffer) (nowMs : UInt32) (d : TelemetryBlock) (space : Nat) :
    s.report B nowMs d space =
      { s with
        lastT := (s.report B nowMs d space).lastT
        ramDrop := (s.report B nowMs d space).ramDrop
        ovfPioc := (s.report B nowMs d space).ovfPioc
        wire := (s.report B nowMs d space).wire } := by
  unfold report
  split <;> rfl

end Sniffer

end Tapioca.RleSniffer

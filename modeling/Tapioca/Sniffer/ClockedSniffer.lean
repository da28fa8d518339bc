-- SUMMARY: The clocked datapath `sniffer/clocked_sniffer.cpp`: FIFO drain, burst records, idle finalisation and the USB stage.
import Tapioca.Lib.Bits
import Tapioca.Pioc.Fifo
import Tapioca.Util.Ring
import Tapioca.Sniffer.RecordFramer

/-!
# The clocked sniffer

`ClockedSniffer` without its DIAG build. `service()` is cut where it reads the
PIOC registers, so that the eMCU can be run between the reads; `service` puts
the pieces together again. Every call of `Time::micros()` gets a reading of its
own. `log` is a history variable: nothing reads it, it remembers overruns,
records and markers in the order they happened, newest first.
-/

namespace Tapioca.ClockedSniffer

open Pioc RecordFramer

def RING_SLOTS : UInt8 := 16
def RING_HEAD : UInt8 := 0x3F
def RING_SZ : Nat := 2048
def BURST_MAX : Nat := 768
def BURST_TCAP_US : UInt32 := 50000
def ONSET_N : Nat := 8
def DRAIN_MAX : Nat := 192

/-- `burstBuf_[0 .. burstN_)`, which never exceeds the payload cap. -/
@[ext]
structure Burst where
  bytes : List UInt8
  bound : bytes.length ≤ BURST_MAX

namespace Burst

def empty : Burst := ⟨[], Nat.zero_le _⟩

/-- `if (burstN_ < BURST_MAX) burstBuf_[burstN_++] = b`. -/
def push (buf : Burst) (b : UInt8) : Burst :=
  if h : buf.bytes.length < BURST_MAX then
    ⟨buf.bytes ++ [b], by rw [List.length_append]; exact h⟩
  else buf

@[simp] theorem bytes_empty : empty.bytes = [] := rfl

theorem bytes_push {buf : Burst} (b : UInt8) (h : buf.bytes.length < BURST_MAX) :
    (buf.push b).bytes = buf.bytes ++ [b] := by
  rw [push, dif_pos h]

end Burst

/-- What happened to the capture. -/
inductive Entry where
  | overrun
  | dropped (r : DataRecord)
  | delivered (r : DataRecord)
  | marker

structure Sniffer where
  modeHbMs : UInt32
  ring : Ring RING_SZ UInt8
  ovfRam : UInt16
  ovfPioc : UInt16
  sniffTail : UInt8
  sniffLastMs : UInt32
  partialSeenMs : UInt32
  partialSeenBits : Nat
  burstBuf : Burst
  burstT0 : UInt32
  burstLast : UInt32
  burstOnset : UInt16
  burstOpen : Bool
  burstNeedTerminal : Bool
  tailBits : Nat
  /-- The bytes committed to the USB transmit ring. -/
  wire : List UInt8
  log : List Entry

/-- A staging ring that has never been used. -/
def freshRing : Ring RING_SZ UInt8 where
  head := 0
  tail := 0
  buf := fun _ => 0
  size_le := by decide

/-- A duration in a `u16` field, capped at `0xFFFF`. -/
def capped (d : UInt32) : UInt16 := if d > 0xFFFF then 0xFFFF else d.toUInt16

-- ---------------------------------------------------------------------------
-- Records and markers
-- ---------------------------------------------------------------------------

namespace Sniffer

def ringPush (s : Sniffer) (p : List UInt8) : Sniffer :=
  let (ok, ring) := s.ring.pushAll p
  if ok then { s with ring } else { s with ovfRam := s.ovfRam + 1 }

def MARKER : List UInt8 := ascii "[MODE clocked wire=2]"

def emitModeMarker (s : Sniffer) : Sniffer :=
  let out := frameMeta MARKER
  if 0 < out.length ∧ out.length ≤ s.ring.free then
    { s.ringPush out with log := .marker :: s.log }
  else s

/-- The flags byte: bit 0 PIOC overflow, bit 1 RAM overflow, bit 2 continued,
bits 3..5 the valid bits of the last byte. -/
def recordFlags (s : Sniffer) (continued : Bool) : UInt8 :=
  (if s.ovfPioc ≠ 0 then FLAG_OVF_PIOC else 0) ||| (if s.ovfRam ≠ 0 then FLAG_OVF_RAM else 0) |||
    (if continued then FLAG_CONTINUED else 0) ||| (UInt8.ofNat s.tailBits &&& 7) <<< 3

/-- The open burst as a record. -/
def openRecord (s : Sniffer) (continued : Bool) : DataRecord where
  tUs := s.burstT0
  durUs := capped (s.burstLast - s.burstT0)
  onsetUs := s.burstOnset
  flags := s.recordFlags continued
  payload := s.burstBuf.bytes
  fits := s.burstBuf.bound.trans_lt (by decide)

/-- Stage the open burst into the RAM ring, whole or not at all. The overflow
counters are cleared only once it is staged. -/
def emitRecord (s : Sniffer) (continued : Bool) : Sniffer :=
  if ¬ s.burstOpen ∧ ¬ (s.burstNeedTerminal ∧ ¬ continued) then s
  else
    let r := s.openRecord continued
    let enc := frameRecord r.raw
    let s :=
      if enc.length ≤ s.ring.free then
        { s.ringPush enc with
          ovfPioc := 0, ovfRam := 0, burstNeedTerminal := continued, log := .delivered r :: s.log }
      else { s with ovfRam := s.ovfRam + 1, log := .dropped r :: s.log }
    { s with burstOpen := false, burstBuf := .empty }

/-- The fields as `begin()` resets them, with what HEAD then reads. -/
def cleared (ring : Ring RING_SZ UInt8) (nowMs : UInt32) (head : UInt8) : Sniffer where
  modeHbMs := 0
  ring := ring.clear
  ovfRam := 0
  ovfPioc := 0
  sniffTail := head
  sniffLastMs := nowMs
  partialSeenMs := nowMs
  partialSeenBits := 0
  burstBuf := .empty
  burstT0 := 0
  burstLast := 0
  burstOnset := 0
  burstOpen := false
  burstNeedTerminal := false
  tailBits := 0
  wire := []
  log := []

/-- `begin()` behind `loadRingBlob()`: a boundary, so that boot text becomes a
segment of its own, then the mode. -/
def begin (ring : Ring RING_SZ UInt8) (nowMs : UInt32) (head : UInt8) : Sniffer :=
  { ((cleared ring nowMs head).ringPush [0xFF]).emitModeMarker with modeHbMs := nowMs + 1000 }

-- ---------------------------------------------------------------------------
-- Stage 1
-- ---------------------------------------------------------------------------

/-- The heartbeat at the top of `service()`. The comparison is the sign of the
`int32_t` difference. -/
def heartbeat (s : Sniffer) (nowMs : UInt32) : Sniffer :=
  if nowMs - s.modeHbMs < 0x80000000 then { s.emitModeMarker with modeHbMs := nowMs + 1000 } else s

/-- `service()` from the read of HEAD to the drain loop: an overrun skips to
the oldest slot still valid. -/
def readHead (s : Sniffer) (h : UInt8) : Sniffer :=
  if h - s.sniffTail > RING_SLOTS then
    { s with ovfPioc := s.ovfPioc + 1, sniffTail := h - RING_SLOTS, log := .overrun :: s.log }
  else s

/-- The register the drain loop reads next. -/
def slotAddr (s : Sniffer) : UInt8 := 0x20 + (s.sniffTail &&& (RING_SLOTS - 1))

/-- The drain loop's body up to the payload cap: the byte joins the open burst,
or opens one. `t0` and `t1` are the readings at `burstT0_` and at the onset. -/
def appendByte (s : Sniffer) (b : UInt8) (t0 t1 : UInt32) : Sniffer :=
  let s := { s with sniffTail := s.sniffTail + 1 }
  let s :=
    if s.burstOpen then s
    else { s with burstOpen := true, burstBuf := .empty, burstOnset := 0, burstT0 := t0 }
  let s := { s with burstBuf := s.burstBuf.push b }
  if s.burstBuf.bytes.length = ONSET_N then { s with burstOnset := capped (t1 - s.burstT0) } else s

/-- One round of the drain loop, with the byte it read; at the payload cap, at
`t2`, the burst is split. -/
def drainByte (s : Sniffer) (b : UInt8) (t0 t1 t2 : UInt32) : Sniffer :=
  let s := s.appendByte b t0 t1
  if BURST_MAX ≤ s.burstBuf.bytes.length then ({ s with burstLast := t2 }).emitRecord true else s

/-- `if (got) …`, behind the loop. -/
def afterDrain (s : Sniffer) (got : Bool) (nowMs t : UInt32) : Sniffer :=
  if got then { s with burstLast := t, sniffLastMs := nowMs } else s

-- ---------------------------------------------------------------------------
-- Finalisation
-- ---------------------------------------------------------------------------

/-- How often `v` shifts right before it is 0, at most `n` times. -/
def shiftCount : Nat → UInt8 → Nat
  | 0, _ => 0
  | n + 1, v => if v >>> 1 = 0 then 0 else shiftCount n (v >>> 1) + 1

/-- The position of the sentinel in ACC: `for (v = acc; v >>= 1;) kbits++`. A
byte is 0 after eight shifts. -/
def kbits (acc : UInt8) : Nat := shiftCount 8 acc

/-- Watch the partial in ACC. -/
def watchPartial (s : Sniffer) (nowMs : UInt32) (acc : UInt8) : Sniffer :=
  if kbits acc ≠ 0 then
    { s with
      partialSeenMs := if s.partialSeenBits = 0 then nowMs else s.partialSeenMs
      partialSeenBits := kbits acc }
  else { s with partialSeenBits := 0 }

def partialOnlyIdle (s : Sniffer) (nowMs : UInt32) (acc : UInt8) : Bool :=
  kbits acc ≠ 0 ∧ ¬ s.burstOpen ∧ ¬ s.burstNeedTerminal ∧ nowMs - s.partialSeenMs > 3

/-- The branch that closes the burst, and with it a partial in ACC, is taken. -/
def closes (s : Sniffer) (nowMs : UInt32) (acc : UInt8) : Bool :=
  (s.burstOpen ∨ s.burstNeedTerminal ∨ s.partialOnlyIdle nowMs acc) ∧
    (nowMs - s.sniffLastMs > 3 ∨ s.partialOnlyIdle nowMs acc)

/-- The bits of ACC below the sentinel, at the top of a byte. -/
def partialByte (acc : UInt8) : UInt8 :=
  UInt8.ofNat ((acc.toNat &&& ((1 <<< kbits acc) - 1)) <<< (8 - kbits acc))

/-- What is closed: the open burst with the partial appended, or an empty
terminal record where none is open. -/
def withPartial (s : Sniffer) (acc : UInt8) (t : UInt32) : Sniffer :=
  let s :=
    if kbits acc ≠ 0 ∧ s.burstBuf.bytes.length < BURST_MAX then
      { s with burstBuf := s.burstBuf.push (partialByte acc), tailBits := kbits acc }
    else s
  if s.burstOpen then s
  else { s with burstOpen := true, burstLast := t, burstT0 := t, burstOnset := 0 }

/-- Close the burst. The flag says that `restartPioc()` was called, to discard
the flushed partial in the eMCU. -/
def closeBurst (s : Sniffer) (acc : UInt8) (t : UInt32) : Sniffer × Bool :=
  let s := { (s.withPartial acc t).emitRecord false with tailBits := 0 }
  if kbits acc ≠ 0 then ({ s with sniffTail := 0, partialSeenBits := 0 }, true) else (s, false)

/-- An idle gap or the time cap ends the open burst. `tcap` and `t` are the
readings at the time cap and at an empty terminal record. -/
def finalizeBurst (s : Sniffer) (nowMs : UInt32) (acc : UInt8) (tcap t : UInt32) : Sniffer × Bool :=
  if s.closes nowMs acc then s.closeBurst acc t
  else if s.burstOpen ∧ tcap - s.burstT0 > BURST_TCAP_US then (s.emitRecord false, false)
  else (s, false)

/-- `service()` from the read of ACC to stage 2. -/
def finalize (s : Sniffer) (nowMs : UInt32) (acc : UInt8) (tcap t : UInt32) : Sniffer × Bool :=
  (s.watchPartial nowMs acc).finalizeBurst nowMs acc tcap t

-- ---------------------------------------------------------------------------
-- Stage 2
-- ---------------------------------------------------------------------------

/-- How many bytes stage 2 ships, given the transmit ring's free space and
contiguous capacity. -/
def shipCount (s : Sniffer) (writeSpace cap : Nat) : Nat :=
  min (min (min s.ring.size (min writeSpace DRAIN_MAX)) s.ring.readContig) cap

theorem shipCount_le_readContig (s : Sniffer) (writeSpace cap : Nat) :
    s.shipCount writeSpace cap ≤ s.ring.readContig :=
  (min_le_left _ _).trans (min_le_right _ _)

/-- Ship ring bytes verbatim. -/
def ship (s : Sniffer) (writeSpace cap : Nat) : Sniffer :=
  let n := s.shipCount writeSpace cap
  { s with
    wire := s.wire ++ s.ring.readPtr n
    ring := s.ring.readCommit n ((s.shipCount_le_readContig _ _).trans (min_le_left _ _)) }

end Sniffer

-- ---------------------------------------------------------------------------
-- One call
-- ---------------------------------------------------------------------------

/-- What one round of the drain loop reads besides its slot. -/
structure DrainTimes where
  t0 : UInt32
  t1 : UInt32
  t2 : UInt32

/-- What `service()` reads behind the drain loop. -/
structure TailReadings where
  last : UInt32
  tcap : UInt32
  close : UInt32
  writeSpace : Nat
  cap : Nat

/-- `service()` behind the drain loop. -/
def Sniffer.finish (s : Sniffer) (got : Bool) (nowMs : UInt32) (acc : UInt8) (r : TailReadings) :
    Sniffer × Bool :=
  let fin := (s.afterDrain got nowMs r.last).finalize nowMs acc r.tcap r.close
  (fin.1.ship r.writeSpace r.cap, fin.2)

/-- The drain loop over the reads it makes. -/
def Sniffer.drainLoop (s : Sniffer) (reads : List (UInt8 × DrainTimes)) : Sniffer :=
  reads.foldl (fun s rd => s.drainByte rd.1 rd.2.t0 rd.2.t1 rd.2.t2) s

/-- What one call reads: HEAD, then for each round of the drain loop a slot and
the clock, then ACC and the rest. -/
structure Readings where
  nowMs : UInt32
  head : UInt8
  slots : Nat → UInt8 × DrainTimes
  acc : UInt8
  tail : TailReadings

/-- `service()`: the state it leaves, and whether it restarted the eMCU. -/
def Sniffer.service (s : Sniffer) (r : Readings) : Sniffer × Bool :=
  let s := (s.heartbeat r.nowMs).readHead r.head
  let n := (r.head - s.sniffTail).toNat
  (s.drainLoop ((List.range n).map r.slots)).finish (0 < n) r.nowMs r.acc r.tail

-- ---------------------------------------------------------------------------
-- What the pieces do
-- ---------------------------------------------------------------------------

/-- The bits of a flags byte put together as `recordFlags` does. -/
theorem flags_bits (pioc ram continued : Bool) (v : Fin 8) :
    let flags := (if pioc then FLAG_OVF_PIOC else 0) ||| (if ram then FLAG_OVF_RAM else 0) |||
      (if continued then FLAG_CONTINUED else 0) ||| UInt8.ofNat v.val <<< 3
    (flags &&& FLAG_OVF_PIOC ≠ 0 ↔ pioc) ∧ (flags &&& FLAG_OVF_RAM ≠ 0 ↔ ram) ∧
      (flags &&& FLAG_CONTINUED ≠ 0 ↔ continued) ∧ (flags >>> 3 &&& 7).toNat = v ∧
      (flags &&& (FLAG_OVF_PIOC ||| FLAG_OVF_RAM) ≠ 0 ↔ pioc ∨ ram) := by
  revert v
  cases pioc <;> cases ram <;> cases continued <;> decide

theorem and_seven (n : Nat) : UInt8.ofNat n &&& 7 = UInt8.ofNat (n % 8) :=
  Lib.Bits.and_mask (k := 3) (by decide) n

namespace Sniffer

variable (s : Sniffer) (continued : Bool)

theorem recordFlags_spec :
    (s.recordFlags continued &&& FLAG_OVF_PIOC ≠ 0 ↔ s.ovfPioc ≠ 0) ∧
    (s.recordFlags continued &&& FLAG_OVF_RAM ≠ 0 ↔ s.ovfRam ≠ 0) ∧
    (s.recordFlags continued &&& FLAG_CONTINUED ≠ 0 ↔ continued) ∧
    (s.recordFlags continued >>> 3 &&& 7).toNat = s.tailBits % 8 ∧
    (s.recordFlags continued &&& (FLAG_OVF_PIOC ||| FLAG_OVF_RAM) ≠ 0 ↔
      s.ovfPioc ≠ 0 ∨ s.ovfRam ≠ 0) := by
  have h := flags_bits (s.ovfPioc ≠ 0) (s.ovfRam ≠ 0) continued
    ⟨s.tailBits % 8, Nat.mod_lt _ (by decide)⟩
  simpa only [recordFlags, and_seven, decide_eq_true_eq] using h

theorem ringPush_of_le {p : List UInt8} (h : p.length ≤ s.ring.free) :
    s.ringPush p = { s with ring := (s.ring.pushAll p).2 } := by
  have hok := (s.ring.contents_pushAll (by decide) (by decide) p h).1
  rw [ringPush]
  simp only [hok, if_true]

theorem cleared_fits (ring : Ring RING_SZ UInt8) (nowMs : UInt32) (head : UInt8) :
    ([0xFF] : List UInt8).length ≤ (cleared ring nowMs head).ring.free := by
  rw [Ring.free_eq, cleared, Ring.contents_clear]
  decide

/-- The bytes `emitRecord` stages. -/
def encoded : List UInt8 := frameRecord (s.openRecord continued).raw

/-- A burst is open, or a continued chain is to be terminated: `emitRecord`
does something. -/
def Emits : Prop := s.burstOpen ∨ s.burstNeedTerminal ∧ ¬ continued

instance : Decidable (s.Emits continued) := inferInstanceAs (Decidable (_ ∨ _))

theorem emitRecord_idle (h : ¬ s.Emits continued) : s.emitRecord continued = s := by
  simp only [Emits, not_or] at h
  exact if_pos h

theorem emitRecord_delivered (h : s.Emits continued)
    (hfit : (s.encoded continued).length ≤ s.ring.free) :
    s.emitRecord continued =
      { s with
        ring := (s.ring.pushAll (s.encoded continued)).2
        ovfPioc := 0, ovfRam := 0, burstNeedTerminal := continued
        log := .delivered (s.openRecord continued) :: s.log
        burstOpen := false, burstBuf := .empty } := by
  have hcond : ¬ (¬ s.burstOpen ∧ ¬ (s.burstNeedTerminal ∧ ¬ continued)) :=
    fun hnot => h.elim hnot.1 hnot.2
  have hpush := s.ringPush_of_le hfit
  rw [encoded] at hfit hpush ⊢
  rw [emitRecord, if_neg hcond]
  simp only [if_pos hfit, hpush]

theorem emitRecord_dropped (h : s.Emits continued)
    (hfull : ¬ (s.encoded continued).length ≤ s.ring.free) :
    s.emitRecord continued =
      { s with
        ovfRam := s.ovfRam + 1, log := .dropped (s.openRecord continued) :: s.log
        burstOpen := false, burstBuf := .empty } := by
  have hcond : ¬ (¬ s.burstOpen ∧ ¬ (s.burstNeedTerminal ∧ ¬ continued)) :=
    fun hnot => h.elim hnot.1 hnot.2
  rw [encoded] at hfull
  rw [emitRecord, if_neg hcond]
  simp only [if_neg hfull]

/-- What a byte joins. -/
def buffered : Burst := if s.burstOpen then s.burstBuf else .empty

theorem buffered_eq (hclosed : s.burstOpen = false → s.burstBuf.bytes = []) :
    s.buffered = s.burstBuf := by
  unfold buffered
  split
  · rfl
  · rename_i hopen
    exact Burst.ext (hclosed (Bool.eq_false_iff.mpr hopen)).symm

/-- An appended byte changes the open burst and the cursor. -/
theorem appendByte_frame (b : UInt8) (t0 t1 : UInt32) :
    s.appendByte b t0 t1 =
      { s with
        sniffTail := s.sniffTail + 1, burstOpen := true, burstBuf := s.buffered.push b
        burstOnset := (s.appendByte b t0 t1).burstOnset
        burstT0 := if s.burstOpen then s.burstT0 else t0 } := by
  unfold appendByte buffered
  by_cases hopen : s.burstOpen
  · simp only [hopen, if_true]
    split <;> rfl
  · simp only [hopen, Bool.false_eq_true, if_false]
    split <;> rfl

/-- Preparing a burst for its end changes the burst alone. -/
theorem withPartial_frame (acc : UInt8) (t : UInt32) :
    s.withPartial acc t =
      { s with
        burstOpen := true
        burstBuf := if kbits acc ≠ 0 then s.burstBuf.push (partialByte acc) else s.burstBuf
        tailBits := (s.withPartial acc t).tailBits
        burstOnset := (s.withPartial acc t).burstOnset
        burstLast := (s.withPartial acc t).burstLast
        burstT0 := (s.withPartial acc t).burstT0 } := by
  have hfull : ¬ s.burstBuf.bytes.length < BURST_MAX →
      s.burstBuf.push (partialByte acc) = s.burstBuf := fun h => dif_neg h
  unfold withPartial
  by_cases hopen : s.burstOpen
  · have hself : s = { s with burstOpen := true } := by rw [← hopen]
    by_cases hk : kbits acc ≠ 0
    · by_cases hroom : s.burstBuf.bytes.length < BURST_MAX
      · simp [hopen, hk, hroom]
      · simpa [hopen, hk, hroom, hfull hroom] using hself
    · simpa [hopen, hk] using hself
  · by_cases hk : kbits acc ≠ 0
    · by_cases hroom : s.burstBuf.bytes.length < BURST_MAX
      · simp [hopen, hk, hroom]
      · simp [hopen, hk, hroom, hfull hroom]
    · simp [hopen, hk]

/-- The number of valid bits a partial leaves in the flags. -/
theorem withPartial_tailBits (acc : UInt8) (t : UInt32) (hroom : s.burstBuf.bytes.length < BURST_MAX) :
    (s.withPartial acc t).tailBits = if kbits acc ≠ 0 then kbits acc else s.tailBits := by
  have hopened : ∀ u : Sniffer, (if u.burstOpen then u
      else { u with burstOpen := true, burstLast := t, burstT0 := t, burstOnset := 0 }).tailBits =
        u.tailBits := by
    intro u
    split <;> rfl
  refine (hopened _).trans ?_
  by_cases hk : kbits acc ≠ 0
  · rw [if_pos ⟨hk, hroom⟩, if_pos hk]
  · rw [if_neg fun h => hk h.1, if_neg hk]

/-- A marker is staged whole or not at all. -/
theorem emitModeMarker_eq :
    s.emitModeMarker =
      if (frameMeta MARKER).length ≤ s.ring.free then
        { s with ring := (s.ring.pushAll (frameMeta MARKER)).2, log := .marker :: s.log }
      else s := by
  have hpos : 0 < (frameMeta MARKER).length := by decide
  rw [emitModeMarker]
  simp only [hpos, true_and]
  split
  · rename_i h
    rw [s.ringPush_of_le h]
  · rfl

/-- An emission touches the output side and ends the burst. -/
theorem emitRecord_frame :
    s.emitRecord continued =
      { s with
        ring := (s.emitRecord continued).ring, ovfRam := (s.emitRecord continued).ovfRam
        ovfPioc := (s.emitRecord continued).ovfPioc, log := (s.emitRecord continued).log
        burstNeedTerminal := (s.emitRecord continued).burstNeedTerminal
        burstOpen := (s.emitRecord continued).burstOpen
        burstBuf := (s.emitRecord continued).burstBuf } := by
  by_cases hemits : s.Emits continued
  · by_cases hfit : (s.encoded continued).length ≤ s.ring.free
    · rw [s.emitRecord_delivered continued hemits hfit]
    · rw [s.emitRecord_dropped continued hemits hfit]
  · rw [s.emitRecord_idle continued hemits]

theorem drainByte_sniffTail (b : UInt8) (t0 t1 t2 : UInt32) :
    (s.drainByte b t0 t1 t2).sniffTail = s.sniffTail + 1 := by
  have happ : (s.appendByte b t0 t1).sniffTail = s.sniffTail + 1 := by rw [appendByte_frame]
  simp only [drainByte]
  split
  · rw [emitRecord_frame]
    exact happ
  · exact happ

theorem closeBurst_sniffTail (acc : UInt8) (t : UInt32) :
    (s.closeBurst acc t).1.sniffTail = if (s.closeBurst acc t).2 then 0 else s.sniffTail := by
  have hprep : (s.withPartial acc t).sniffTail = s.sniffTail := by rw [withPartial_frame]
  have hemit : ((s.withPartial acc t).emitRecord false).sniffTail = s.sniffTail := by
    rw [emitRecord_frame]
    exact hprep
  simp only [closeBurst]
  by_cases hk : kbits acc ≠ 0
  · simp only [if_pos hk, if_true]
  · simp only [if_neg hk, Bool.false_eq_true, if_false]
    exact hemit

theorem finalizeBurst_sniffTail (nowMs : UInt32) (acc : UInt8) (tcap t : UInt32) :
    (s.finalizeBurst nowMs acc tcap t).1.sniffTail =
      if (s.finalizeBurst nowMs acc tcap t).2 then 0 else s.sniffTail := by
  unfold finalizeBurst
  by_cases hcloses : s.closes nowMs acc
  · simp only [if_pos hcloses]
    exact s.closeBurst_sniffTail acc t
  · simp only [if_neg hcloses]
    by_cases hcap : s.burstOpen ∧ tcap - s.burstT0 > BURST_TCAP_US
    · simp only [if_pos hcap, Bool.false_eq_true, if_false]
      rw [emitRecord_frame]
    · simp only [if_neg hcap, Bool.false_eq_true, if_false]

/-- What comes before the idle tests leaves the burst alone. -/
theorem watched_burstOpen (got : Bool) (nowMs : UInt32) (acc : UInt8) (t : UInt32) :
    ((s.afterDrain got nowMs t).watchPartial nowMs acc).burstOpen = s.burstOpen := by
  unfold watchPartial afterDrain
  split <;> split <;> rfl

theorem watched_burstNeedTerminal (got : Bool) (nowMs : UInt32) (acc : UInt8) (t : UInt32) :
    ((s.afterDrain got nowMs t).watchPartial nowMs acc).burstNeedTerminal = s.burstNeedTerminal := by
  unfold watchPartial afterDrain
  split <;> split <;> rfl

theorem finish_fst (got : Bool) (nowMs : UInt32) (acc : UInt8) (r : TailReadings) :
    (s.finish got nowMs acc r).1 =
      ((s.afterDrain got nowMs r.last).finalize nowMs acc r.tcap r.close).1.ship
        r.writeSpace r.cap := by
  rw [finish]

theorem finish_snd (got : Bool) (nowMs : UInt32) (acc : UInt8) (r : TailReadings) :
    (s.finish got nowMs acc r).2 =
      ((s.afterDrain got nowMs r.last).finalize nowMs acc r.tcap r.close).2 := by
  rw [finish]

/-- The call is about to flush a partial and restart the eMCU. -/
def FlushesPartial (got : Bool) (nowMs : UInt32) (acc : UInt8) (r : TailReadings) : Prop :=
  ((s.afterDrain got nowMs r.last).watchPartial nowMs acc).closes nowMs acc ∧ kbits acc ≠ 0

instance (got : Bool) (nowMs : UInt32) (acc : UInt8) (r : TailReadings) :
    Decidable (s.FlushesPartial got nowMs acc r) := inferInstanceAs (Decidable (_ ∧ _))

/-- The eMCU is restarted exactly where a partial is flushed. -/
theorem finish_restarts (got : Bool) (nowMs : UInt32) (acc : UInt8) (r : TailReadings) :
    (s.finish got nowMs acc r).2 = true ↔ s.FlushesPartial got nowMs acc r := by
  rw [finish_snd, finalize, finalizeBurst, FlushesPartial]
  generalize (s.afterDrain got nowMs r.last).watchPartial nowMs acc = u
  by_cases hcloses : u.closes nowMs acc
  · by_cases hk : kbits acc ≠ 0
    · simp only [hcloses, if_true, closeBurst, hk, ne_eq, not_false_eq_true, and_self]
    · simp [hcloses, closeBurst, hk]
  · by_cases hcap : u.burstOpen ∧ r.tcap - u.burstT0 > BURST_TCAP_US
    · simp [hcloses, hcap]
    · simp [hcloses, hcap]

theorem ship_sniffTail (writeSpace cap : Nat) : (s.ship writeSpace cap).sniffTail = s.sniffTail := rfl

theorem ship_log (writeSpace cap : Nat) : (s.ship writeSpace cap).log = s.log := rfl

/-- The rest of a call moves the cursor only where it restarts the eMCU. -/
theorem finish_sniffTail (got : Bool) (nowMs : UInt32) (acc : UInt8) (r : TailReadings) :
    (s.finish got nowMs acc r).1.sniffTail =
      if (s.finish got nowMs acc r).2 then 0 else s.sniffTail := by
  have hdrained : (s.afterDrain got nowMs r.last).sniffTail = s.sniffTail := by
    unfold afterDrain
    split <;> rfl
  have hwatch : ((s.afterDrain got nowMs r.last).watchPartial nowMs acc).sniffTail = s.sniffTail := by
    unfold watchPartial
    split <;> exact hdrained
  have hfin := ((s.afterDrain got nowMs r.last).watchPartial nowMs acc).finalizeBurst_sniffTail
    nowMs acc r.tcap r.close
  rw [hwatch] at hfin
  rw [finish_fst, finish_snd, ship_sniffTail, finalize]
  exact hfin

theorem length_marker : (frameMeta MARKER).length = 24 := by decide

/-- What `begin()` stages fits into the empty ring. -/
theorem begin_eq (ring : Ring RING_SZ UInt8) (nowMs : UInt32) (head : UInt8) :
    begin ring nowMs head =
      { cleared ring nowMs head with
        ring := ((ring.clear.pushAll [0xFF]).2.pushAll (frameMeta MARKER)).2
        log := [.marker], modeHbMs := nowMs + 1000 } := by
  have hfirst : ([0xFF] : List UInt8).length ≤ ring.clear.free := cleared_fits ring nowMs head
  have hfree := Ring.free_pushAll (by decide) (by decide) ring.clear [0xFF] hfirst
  have hclear : ring.clear.free = 2048 := by
    rw [Ring.free_eq, Ring.contents_clear]
    rfl
  have hfit : (frameMeta MARKER).length ≤ (ring.clear.pushAll [0xFF]).2.free := by
    rw [hfree, hclear, length_marker]
    decide
  rw [begin, ringPush_of_le _ (cleared_fits ring nowMs head), emitModeMarker_eq]
  exact congrArg (fun s : Sniffer => { s with modeHbMs := nowMs + 1000 }) (if_pos hfit)

/-- The room `begin()` leaves in the staging ring. -/
theorem free_begin (ring : Ring RING_SZ UInt8) (nowMs : UInt32) (head : UInt8) :
    (begin ring nowMs head).ring.free = 2023 := by
  have hfirst : ([0xFF] : List UInt8).length ≤ ring.clear.free := cleared_fits ring nowMs head
  have hfree := Ring.free_pushAll (by decide) (by decide) ring.clear [0xFF] hfirst
  have hclear : ring.clear.free = 2048 := by
    rw [Ring.free_eq, Ring.contents_clear]
    rfl
  have hfree' := Ring.free_pushAll (by decide) (by decide) (ring.clear.pushAll [0xFF]).2
    (frameMeta MARKER) (by rw [hfree, hclear, length_marker]; decide)
  rw [begin_eq]
  simp only [hfree', hfree, hclear, length_marker]
  rfl

theorem emitModeMarker_frame :
    s.emitModeMarker = { s with ring := s.emitModeMarker.ring, log := s.emitModeMarker.log } := by
  rw [emitModeMarker_eq]
  by_cases hfit : (frameMeta MARKER).length ≤ s.ring.free
  · simp only [if_pos hfit]
  · simp only [if_neg hfit]

/-- A heartbeat touches the staged output alone. -/
theorem heartbeat_frame (nowMs : UInt32) :
    s.heartbeat nowMs =
      { s with
        modeHbMs := (s.heartbeat nowMs).modeHbMs, ring := (s.heartbeat nowMs).ring
        log := (s.heartbeat nowMs).log } := by
  unfold heartbeat
  by_cases hdue : nowMs - s.modeHbMs < 0x80000000
  · simp only [if_pos hdue]
    rw [emitModeMarker_frame]
  · simp only [if_neg hdue]

theorem readHead_of_le (head : UInt8) (h : head - s.sniffTail ≤ RING_SLOTS) :
    s.readHead head = s :=
  if_neg (UInt8.not_lt.mpr h)

theorem ship_zero (cap : Nat) : s.ship 0 cap = s := by
  have hcount : s.shipCount 0 cap = 0 := by simp [shipCount]
  have hcommit : ∀ h, s.ring.readCommit 0 h = s.ring := by
    intro h
    have htail : s.ring.tail + UInt32.ofNat 0 = s.ring.tail := UInt32.add_zero _
    simp only [Ring.readCommit, htail]
  simp only [ship, hcount, hcommit, Ring.readPtr, List.range_zero, List.map_nil, List.append_nil]

/-- Below the payload cap the drain loop extends the open burst. -/
theorem drainLoop_open (reads : List (UInt8 × DrainTimes)) (hopen : s.burstOpen = true)
    (hroom : s.burstBuf.bytes.length + reads.length < BURST_MAX) :
    ∃ buf onset, buf.bytes = s.burstBuf.bytes ++ reads.map (·.1) ∧
      s.drainLoop reads =
        { s with
          sniffTail := s.sniffTail + UInt8.ofNat reads.length, burstBuf := buf
          burstOnset := onset } := by
  induction reads generalizing s with
  | nil =>
    refine ⟨s.burstBuf, s.burstOnset, by simp, ?_⟩
    have htail : s.sniffTail + UInt8.ofNat 0 = s.sniffTail := UInt8.add_zero _
    simp only [drainLoop, List.foldl_nil, List.length_nil, htail]
  | cons rd reads ih =>
    rw [List.length_cons] at hroom
    have hbuf : (s.burstBuf.push rd.1).bytes = s.burstBuf.bytes ++ [rd.1] :=
      Burst.bytes_push rd.1 (by omega)
    have hbyte : s.drainByte rd.1 rd.2.t0 rd.2.t1 rd.2.t2 =
        { s with
          sniffTail := s.sniffTail + 1, burstBuf := s.burstBuf.push rd.1
          burstOnset := (s.appendByte rd.1 rd.2.t0 rd.2.t1).burstOnset } := by
      simp only [drainByte]
      rw [appendByte_frame]
      simp only [buffered, hopen, if_true, hbuf, List.length_append, List.length_singleton]
      rw [if_neg (by omega)]
    have hlen : (s.burstBuf.push rd.1).bytes.length + reads.length < BURST_MAX := by
      rw [hbuf, List.length_append, List.length_singleton]
      omega
    obtain ⟨buf, onset, hbytes, hloop⟩ := ih
      { s with
        sniffTail := s.sniffTail + 1, burstBuf := s.burstBuf.push rd.1
        burstOnset := (s.appendByte rd.1 rd.2.t0 rd.2.t1).burstOnset } hopen hlen
    refine ⟨buf, onset, ?_, ?_⟩
    · rw [hbytes, hbuf, List.map_cons, List.append_assoc]
      rfl
    · have hcount : s.sniffTail + 1 + UInt8.ofNat reads.length =
          s.sniffTail + UInt8.ofNat (rd :: reads).length := by
        rw [List.length_cons, Nat.add_comm, UInt8.ofNat_add, ← UInt8.add_assoc]
        rfl
      have hstep : s.drainLoop (rd :: reads) =
          (s.drainByte rd.1 rd.2.t0 rd.2.t1 rd.2.t2).drainLoop reads := rfl
      rw [hstep, hbyte, hloop, ← hcount]

end Sniffer

end Tapioca.ClockedSniffer

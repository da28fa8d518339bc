-- SUMMARY: The Python MDIO library `scripts/mdio_lib.py` and the pipeline `mdio_decode.py` builds from it.
import Tapioca.Host.Wire

/-!
# The Python library

`mdio_lib.py` in Python's terms: slices where the source slices, generators as
the lists they yield; and `run_binary` of `mdio_decode.py` over it.
-/

namespace Tapioca.MdioLib

open Host

/-- `xs[lo:hi]`. -/
def slice {α : Type*} (xs : List α) (lo hi : Nat) : List α := (xs.take hi).drop lo

def bval (bits : List Bool) : Nat :=
  bits.foldl (fun v b => v <<< 1 ||| b.toNat) 0

/-- The frame in the 32 bits `f`. -/
def frameOf (f : List Bool) (ones : Nat) : Frame :=
  let op := bval (slice f 2 4)
  let ta := bval (slice f 14 16)
  let data := bval (slice f 16 32)
  { op, phyad := bval (slice f 4 9), regad := bval (slice f 9 14), ta, data, preamble := ones,
    noResponse := op = OP_R ∧ ta = 0b11 ∧ data = 0xFFFF }

/-- The loop of `decode_bits_pos` from offset `i`: each frame with the offset
just past it. -/
def decodeBitsPosLoop (bits : List Bool) (i ones : Nat) : List (Frame × Nat) :=
  if h : i < bits.length then
    if bits[i] then decodeBitsPosLoop bits (i + 1) (ones + 1)
    else
      let f := slice bits i (i + 32)
      if (32 ≤ ones ∧ i + 32 ≤ bits.length) ∧ bval (slice f 0 2) = 0b01 then
        (frameOf f ones, i + 32) :: decodeBitsPosLoop bits (i + 32) 0
      else decodeBitsPosLoop bits (i + 1) 0
  else []
termination_by bits.length - i

def decodeBitsPos (bits : List Bool) : List (Frame × Nat) := decodeBitsPosLoop bits 0 0

def decodeBits (bits : List Bool) : List Frame := (decodeBitsPos bits).map (·.1)

structure BitStream where
  carry : List Bool
  deriving DecidableEq, Repr

namespace BitStream

def CARRY_MAX : Nat := 80

def new : BitStream := ⟨[]⟩
def reset (_ : BitStream) : BitStream := ⟨[]⟩

/-- `feed`, run to the end of the generator. -/
def feed (s : BitStream) (bits : List Bool) : List Frame × BitStream :=
  let buf := s.carry ++ bits
  let found := decodeBitsPos buf
  let fin := found.foldl (fun _ fe => fe.2) 0
  (found.map (·.1), ⟨(buf.drop fin).rtake CARRY_MAX⟩)

/-- The frames of successive feeds, and the stream after them. -/
def feedAll (s : BitStream) : List (List Bool) → List Frame × BitStream
  | [] => ([], s)
  | bits :: bursts =>
    let (frames, s) := s.feed bits
    let (more, s) := s.feedAll bursts
    (frames ++ more, s)

end BitStream

/-- The loop of `cobs_ff_decode` from offset `i`. -/
def cobsFfDecodeLoop (buf : List UInt8) (i : Nat) (out : List UInt8) : Option (List UInt8) :=
  if h : i < buf.length then
    let code := buf[i]
    if code = 0xFF ∨ code = 0x00 then none
    else if i + 1 + (code.toNat - 1) > buf.length then none
    else
      let out := out ++ slice buf (i + 1) (i + 1 + code.toNat - 1)
      let i := i + 1 + (code.toNat - 1)
      cobsFfDecodeLoop buf i (if code ≠ 0xFE ∧ i < buf.length then out ++ [0xFF] else out)
  else some out
termination_by buf.length - i

def cobsFfDecode (buf : List UInt8) : Option (List UInt8) := cobsFfDecodeLoop buf 0 []

/-- The integer `struct.unpack` reads from little-endian bytes. -/
def unpackLE (bs : List UInt8) : Nat := bs.foldr (fun b v => b.toNat + 2 ^ 8 * v) 0

def parseRecord (rec : List UInt8) : Option Record :=
  if rec.length < 12 then none
  else
    let n := unpackLE (slice rec 10 12)
    let payload := slice rec 12 (12 + n)
    if payload.length ≠ n then none
    else
      some
        { type := rec.getD 0 0, tUs := unpackLE (slice rec 1 5), durUs := unpackLE (slice rec 5 7),
          onsetUs := unpackLE (slice rec 7 9), flags := rec.getD 9 0, n, payload }

/-! ## Records and bursts -/

def BIN_BOUNDARY : UInt8 := 0xFF
def BIN_LOSS : UInt8 := 0xFD
def BIN_DIAG : UInt8 := 0xFE

def isMeta (seg : List UInt8) : Bool :=
  seg.length ≥ 3 && seg.head? == some BIN_DIAG && seg.getLast? == some BIN_DIAG &&
    seg[1]? == some 0x5B && (slice seg 1 (seg.length - 1)).all fun c => 0x20 ≤ c && c ≤ 0x7E

/-- One round of `records_from_binary`. -/
def recordOfSegment (seg : List UInt8) : Option Record :=
  if seg = [] ∨ seg.length = 1 ∧ seg.head? = some BIN_LOSS ∨ isMeta seg then none
  else
    match cobsFfDecode seg with
    | none => none
    | some dec =>
      match parseRecord dec with
      | some r => if r.type = 0x01 then some r else none
      | none => none

def recordsFromBinary (data : List UInt8) : List Record :=
  (data.splitOn BIN_BOUNDARY).filterMap recordOfSegment

def bytesToBits (bs : List UInt8) : List Bool :=
  bs.flatMap fun v => [7, 6, 5, 4, 3, 2, 1, 0].map fun k => v.toNat.testBit k

def burstToBits (payload : List UInt8) (validBits : Nat) : List Bool :=
  if payload = [] ∨ validBits = 0 then bytesToBits payload
  else
    let bits := bytesToBits (slice payload 0 (payload.length - 1))
    let last := payload.getLastD 0
    bits ++ (List.range validBits).map fun i => last.toNat.testBit (7 - i)

structure BurstJoiner where
  pay : List UInt8 := []
  t0 : Option Nat := none
  onset : Nat := 0
  dur : Nat := 0
  flags : UInt8 := 0
  deriving DecidableEq, Repr

/-- The joiner after one more record, and the burst that record completed. -/
def BurstJoiner.feed (j : BurstJoiner) (rec : Record) : BurstJoiner × Option LBurst :=
  let j := if j.t0 = none then { j with t0 := some rec.tUs, onset := rec.onsetUs } else j
  let j := { j with
    pay := j.pay ++ rec.payload, dur := j.dur + rec.durUs, flags := j.flags ||| rec.flags }
  if rec.flags &&& FLAG_CONTINUED ≠ 0 then (j, none)
  else
    let vbits := (rec.flags >>> VALIDBITS_SHIFT) &&& VALIDBITS_MASK
    ({}, some
      { tUs := j.t0.getD 0, durUs := j.dur, onsetUs := j.onset, flags := j.flags &&& ~~~FLAG_CONTINUED,
        payload := j.pay, validBits := vbits.toNat })

/-- `logical_bursts` from the joiner `j` on. -/
def logicalBurstsFrom (j : BurstJoiner) : List Record → List LBurst
  | [] => []
  | r :: records =>
    let j := if r.flags &&& (FLAG_OVF_PIOC ||| FLAG_OVF_RAM) ≠ 0 then {} else j
    let (j, lb) := j.feed r
    match lb with
    | some lb => lb :: logicalBurstsFrom j records
    | none => logicalBurstsFrom j records

def logicalBursts (records : List Record) : List LBurst := logicalBurstsFrom {} records

/-! ## MMD folding -/

/-- What the REG13/REG14 writes seen so far say about each PHY. -/
structure MmdFolder where
  func : Nat → Option Nat := fun _ => none
  devad : Nat → Option Nat := fun _ => none
  addr : Nat × Nat → Option Nat := fun _ => none

namespace MmdFolder

def reset (_ : MmdFolder) : MmdFolder := {}

def event (fr : Frame) : Event where
  phy := fr.phyad
  devad := none
  addr := some fr.regad
  op := fr.op
  data := if fr.noResponse then none else some fr.data
  noResponse := fr.noResponse

/-- The event of `feed`; the display text that goes with it is left out. -/
def feed (m : MmdFolder) (fr : Frame) : MmdFolder × Option Event :=
  let { op, phyad := phy, regad := reg, data, .. } := fr
  if reg = REG_MMD_CTRL ∧ op = OP_W then
    ({ m with
        func := Function.update m.func phy (some (data >>> 14 &&& 0b11))
        devad := Function.update m.devad phy (some (data &&& 0x1F)) }, none)
  else if reg = REG_MMD_DATA then
    match m.devad phy, m.func phy with
    | some devad, some func =>
      if func = 0b00 then
        if op = OP_W then
          ({ m with addr := Function.update m.addr (phy, devad) (some data) }, none)
        else (m, if fr.noResponse then some (event fr) else none)
      else
        let addr := m.addr (phy, devad)
        if fr.noResponse then (m, some ⟨phy, some devad, addr, op, none, true⟩)
        else
          let ev : Event := ⟨phy, some devad, addr, op, some data, false⟩
          let inc := func = 0b10 ∨ func = 0b11 ∧ op = OP_W
          match addr with
          | some a =>
            if inc then
              ({ m with addr := Function.update m.addr (phy, devad) (some ((a + 1) &&& 0xFFFF)) }, some ev)
            else (m, some ev)
          | none => (m, some ev)
    | _, _ => (m, if fr.noResponse then some (event fr) else none)
  else (m, some (event fr))

/-- The events of successive frames, and the folder after them. -/
def feedAll (m : MmdFolder) : List Frame → MmdFolder × List Event
  | [] => (m, [])
  | fr :: frames =>
    let (m, ev) := m.feed fr
    let (m, events) := m.feedAll frames
    (m, ev.toList ++ events)

end MmdFolder

/-! ## `mdio_decode.py` -/

structure Decoded where
  stream : BitStream := .new
  folder : MmdFolder := {}
  frames : List Frame := []
  events : List Event := []

/-- One round of the loop of `run_binary`. -/
def decodeBurst (d : Decoded) (lb : LBurst) : Decoded :=
  let lost := lb.flags &&& (FLAG_OVF_PIOC ||| FLAG_OVF_RAM) ≠ 0
  let folder := if lost then d.folder.reset else d.folder
  let stream := if lost then d.stream.reset else d.stream
  let (found, stream) := stream.feed (burstToBits lb.payload lb.validBits)
  let (folder, events) := folder.feedAll found
  { stream := if lb.validBits ≠ 0 then stream.reset else stream
    folder
    frames := d.frames ++ found
    events := d.events ++ events }

def runBinary (data : List UInt8) : Decoded :=
  (logicalBursts (recordsFromBinary data)).foldl decodeBurst {}

end Tapioca.MdioLib

-- SUMMARY: The browser's MDIO codec `app/test/mdio_codec.js`: envelope demultiplexing, record parsing, burst joining, the bit-level frame hunt and MMD folding.
import Tapioca.Host.Wire
import Tapioca.Util.Cobs

/-!
# The JavaScript codec

The wire=2 path of `mdio_codec.js`, function by function. Arrays are lists; a
`while` loop over an index is a recursion on that index. A bit of the line is a
`Bool`. A metadata string is the list of its character codes.
-/

namespace Tapioca.MdioCodec

open Host

/-! ## Bits -/

def bytesToBits (bs : List UInt8) : List Bool :=
  bs.flatMap fun v => [7, 6, 5, 4, 3, 2, 1, 0].map fun k => v.toNat.testBit k

/-- Like `bytesToBits`, but the last byte gives only its `validBits` top bits
when that is not 0. -/
def burstToBits (payload : List UInt8) (validBits : Nat) : List Bool :=
  if payload = [] ∨ validBits = 0 then bytesToBits payload
  else
    bytesToBits payload.dropLast ++
      (List.range validBits).map fun i => (payload.getLastD 0).toNat.testBit (7 - i)

def bval (bits : List Bool) (lo hi : Nat) : Nat :=
  ((bits.take hi).drop lo).foldl (fun v b => v <<< 1 ||| b.toNat) 0

/-- The frame whose 32 bits start at `f`. -/
def frameAt (bits : List Bool) (f ones : Nat) : Frame :=
  let op := bval bits (f + 2) (f + 4)
  let ta := bval bits (f + 14) (f + 16)
  let data := bval bits (f + 16) (f + 32)
  { op, phyad := bval bits (f + 4) (f + 9), regad := bval bits (f + 9) (f + 14), ta, data,
    preamble := ones, noResponse := op = OP_R ∧ ta = 0b11 ∧ data = 0xFFFF }

/-- The loop of `decodeBits` from index `i`, with `ones` ones counted. -/
def decodeBitsLoop (bits : List Bool) (i ones : Nat) : List Frame :=
  if h : i < bits.length then
    if bits[i] then decodeBitsLoop bits (i + 1) (ones + 1)
    else if 32 ≤ ones ∧ i + 32 ≤ bits.length ∧ bval bits i (i + 2) = 0b01 then
      frameAt bits i ones :: decodeBitsLoop bits (i + 32) 0
    else decodeBitsLoop bits (i + 1) 0
  else []
termination_by bits.length - i

def decodeBits (bits : List Bool) : List Frame := decodeBitsLoop bits 0 0

def BITSTREAM_CARRY_MAX : Nat := 80

structure BitStream where
  carry : List Bool
  deriving DecidableEq, Repr

namespace BitStream

def new : BitStream := ⟨[]⟩
def reset (_ : BitStream) : BitStream := ⟨[]⟩

/-- The loop of `feed`: the frames found and the index behind the last one. -/
def feedLoop (buf : List Bool) (i ones fin : Nat) : List Frame × Nat :=
  if h : i < buf.length then
    if buf[i] then feedLoop buf (i + 1) (ones + 1) fin
    else if 32 ≤ ones ∧ i + 32 ≤ buf.length ∧ bval buf i (i + 2) = 0b01 then
      let (out, fin) := feedLoop buf (i + 32) 0 (i + 32)
      (frameAt buf i ones :: out, fin)
    else feedLoop buf (i + 1) 0 fin
  else ([], fin)
termination_by buf.length - i

def feed (s : BitStream) (bits : List Bool) : List Frame × BitStream :=
  let buf := s.carry ++ bits
  let (out, fin) := feedLoop buf 0 0 0
  (out, ⟨buf.drop (max fin (buf.length - BITSTREAM_CARRY_MAX))⟩)

/-- The frames of successive feeds, and the stream after them. -/
def feedAll (s : BitStream) : List (List Bool) → List Frame × BitStream
  | [] => ([], s)
  | bits :: bursts =>
    let (frames, s) := s.feed bits
    let (more, s) := s.feedAll bursts
    (frames ++ more, s)

end BitStream

/-! ## Envelope -/

/-- Decided along the text, not over all characters. -/
instance decidableUnprintable (text : List UInt8) : Decidable (∃ c ∈ text, c < 0x20 ∨ c > 0x7E) :=
  List.decidableBEx _ text

/-- The text of a segment that is a metadata block. -/
def metaText (seg : List UInt8) : Option (List UInt8) :=
  if seg.length < 3 ∨ seg.head? ≠ some 0xFE ∨ seg.getLast? ≠ some 0xFE then none
  else if seg[1]? ≠ some 0x5B then none
  else if ∃ c ∈ (seg.drop 1).dropLast, c < 0x20 ∨ c > 0x7E then none
  else some (seg.drop 1).dropLast

structure Demux where
  recs : List (List UInt8) := []
  metas : List (List UInt8) := []
  losses : Nat := 0
  deriving DecidableEq, Repr

/-- Dispatch one 0xFF-delimited segment. -/
def flush (d : Demux) (seg : List UInt8) : Demux :=
  if seg = [] then d
  else if seg = [0xFD] then { d with losses := d.losses + 1 }
  else
    match metaText seg with
    | some m => { d with metas := d.metas ++ [m] }
    | none =>
      match Cobs.cobsFfDecode seg with
      | some rec => { d with recs := d.recs ++ [rec] }
      | none => d

def demuxLoop (d : Demux) (seg : List UInt8) : List UInt8 → Demux
  | [] => flush d seg
  | b :: data => if b = 0xFF then demuxLoop (flush d seg) [] data else demuxLoop d (seg ++ [b]) data

def demuxV2 (data : List UInt8) : Demux := demuxLoop {} [] data

/-! ## Records -/

/-- Little-endian fields, as a `DataView` reads them. -/
def getUint16 (u : List UInt8) (i : Nat) : Nat :=
  (u.getD i 0).toNat + 2 ^ 8 * (u.getD (i + 1) 0).toNat

def getUint32 (u : List UInt8) (i : Nat) : Nat :=
  getUint16 u i + 2 ^ 16 * getUint16 u (i + 2)

def parseRecord (rec : List UInt8) : Option Record :=
  if rec.length < 12 then none
  else
    let n := getUint16 rec 10
    let payload := (rec.drop 12).take n
    if payload.length ≠ n then none
    else
      some
        { type := rec.getD 0 0, tUs := getUint32 rec 1, durUs := getUint16 rec 5,
          onsetUs := getUint16 rec 7, flags := rec.getD 9 0, n, payload }

structure Capture where
  records : List Record
  metas : List (List UInt8)
  losses : Nat
  deriving DecidableEq, Repr

/-- `recordsFromBinary(data, 2)`: the records of type `0x01`, the metadata and
the number of losses. -/
def recordsFromBinary (data : List UInt8) : Capture :=
  let d := demuxV2 data
  { records := (d.recs.filterMap parseRecord).filter (·.type = 0x01), metas := d.metas,
    losses := d.losses }

/-! ## Bursts -/

structure BurstJoiner where
  pay : List UInt8 := []
  t0 : Option Nat := none
  onset : Nat := 0
  dur : Nat := 0
  flags : UInt8 := 0
  deriving DecidableEq, Repr

/-- The joiner after one more record, and the burst that record completed. -/
def BurstJoiner.feed (j : BurstJoiner) (rec : Record) : BurstJoiner × Option LBurst :=
  let t0 := j.t0.getD rec.tUs
  let onset := if j.t0 = none then rec.onsetUs else j.onset
  let pay := j.pay ++ rec.payload
  let dur := j.dur + rec.durUs
  let flags := j.flags ||| rec.flags
  if rec.flags &&& FLAG_CONTINUED ≠ 0 then ({ pay, t0 := some t0, onset, dur, flags }, none)
  else
    ({}, some
      { tUs := t0, durUs := dur, onsetUs := onset, flags := flags &&& ~~~FLAG_CONTINUED,
        payload := pay, validBits := ((rec.flags >>> VALIDBITS_SHIFT) &&& VALIDBITS_MASK).toNat })

/-- One round of `logicalBursts`: a record with an overflow flag starts from a
fresh joiner. -/
def joinStep (acc : BurstJoiner × List LBurst) (r : Record) : BurstJoiner × List LBurst :=
  let j := if r.flags &&& (FLAG_OVF_PIOC ||| FLAG_OVF_RAM) ≠ 0 then {} else acc.1
  let (j, lb) := j.feed r
  (j, acc.2 ++ lb.toList)

def logicalBursts (records : List Record) : List LBurst :=
  (records.foldl joinStep ({}, [])).2

/-! ## MMD folding -/

/-- What the REG13/REG14 writes seen so far say about each PHY. The address map's
key, `phy + "_" + devad`, is the pair of the two numbers. -/
structure MmdFolder where
  func : Nat → Option Nat := fun _ => none
  devad : Nat → Option Nat := fun _ => none
  addr : Nat × Nat → Option Nat := fun _ => none

namespace MmdFolder

def reset (_ : MmdFolder) : MmdFolder := {}

def event (fr : Frame) : Event where
  phy := fr.phyad
  devad := none
  addr := some fr.regad
  op := fr.op
  data := if fr.noResponse then none else some fr.data
  noResponse := fr.noResponse

/-- The event of `feed`; the display text that goes with it is left out. -/
def feed (m : MmdFolder) (fr : Frame) : MmdFolder × Option Event :=
  let { op, phyad := phy, regad := reg, data, .. } := fr
  if reg = REG_MMD_CTRL ∧ op = OP_W then
    ({ m with
        func := Function.update m.func phy (some (data >>> 14 &&& 0b11))
        devad := Function.update m.devad phy (some (data &&& 0x1F)) }, none)
  else if reg = REG_MMD_DATA then
    match m.devad phy, m.func phy with
    | some devad, some func =>
      if func = 0b00 then
        if op = OP_W then
          ({ m with addr := Function.update m.addr (phy, devad) (some data) }, none)
        else (m, if fr.noResponse then some (event fr) else none)
      else
        let addr := m.addr (phy, devad)
        if fr.noResponse then (m, some ⟨phy, some devad, addr, op, none, true⟩)
        else
          let inc := func = 0b10 ∨ func = 0b11 ∧ op = OP_W
          let next :=
            match addr with
            | some a => if inc then Function.update m.addr (phy, devad) (some ((a + 1) &&& 0xFFFF)) else m.addr
            | none => m.addr
          ({ m with addr := next }, some ⟨phy, some devad, addr, op, some data, false⟩)
    | _, _ => (m, if fr.noResponse then some (event fr) else none)
  else (m, some (event fr))

/-- The events of successive frames, and the folder after them. -/
def feedAll (m : MmdFolder) : List Frame → MmdFolder × List Event
  | [] => (m, [])
  | fr :: frames =>
    let (m, ev) := m.feed fr
    let (m, events) := m.feedAll frames
    (m, ev.toList ++ events)

end MmdFolder

/-! ## Captures -/

structure Decoded where
  stream : BitStream := .new
  folder : MmdFolder := {}
  frames : List Frame := []
  events : List Event := []

/-- One round of the loop of `decodeCapture`. -/
def decodeBurst (d : Decoded) (lb : LBurst) : Decoded :=
  let lost := lb.flags &&& (FLAG_OVF_PIOC ||| FLAG_OVF_RAM) ≠ 0
  let stream := if lost then d.stream.reset else d.stream
  let folder := if lost then d.folder.reset else d.folder
  let (found, stream) := stream.feed (burstToBits lb.payload lb.validBits)
  let (folder, events) := folder.feedAll found
  { stream := if lb.validBits ≠ 0 then stream.reset else stream
    folder
    frames := d.frames ++ found
    events := d.events ++ events }

def decodeCapture (data : List UInt8) : Decoded :=
  (logicalBursts (recordsFromBinary data).records).foldl decodeBurst {}

end Tapioca.MdioCodec

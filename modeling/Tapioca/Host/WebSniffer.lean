-- SUMMARY: The browser's live MDIO view of `app/web-sniffer/index.html`: read chunks in, register table out.
import Tapioca.Host.MdioCodec

/-!
# The live MDIO view

`mdioFeed` decodes what the serial port delivers, chunk by chunk. It drops what
comes before the first boundary, decodes up to the last one and keeps the rest
for the next chunk. Times and rates, which only the display reads, are left
out; the frames and events decoded so far are kept as lists.
-/

namespace Tapioca.WebSniffer

open Host MdioCodec

/-- The key of a row: the register a frame or an MMD access is about. -/
structure Key where
  phy : Nat
  devad : Option Nat
  addr : Option Nat
  deriving DecidableEq, Repr

structure Row where
  op : Nat
  data : Option Nat
  noResponse : Bool
  count : Nat
  deriving DecidableEq, Repr

structure Mdio where
  regs : Key → Option Row := fun _ => none
  folder : MmdFolder := {}
  mmdAcc : Nat := 0
  loss : Nat := 0
  leftover : List UInt8 := []
  synced : Bool := false
  joiner : BurstJoiner := {}
  stream : BitStream := .new
  frames : List Frame := []
  events : List Event := []

def mdioTargetOf (ev : Event) : Key := ⟨ev.phy, ev.devad, ev.addr⟩

def indexOf (b : UInt8) : List UInt8 → Option Nat
  | [] => none
  | x :: xs => if x = b then some 0 else (indexOf b xs).map (· + 1)

def lastIndexOf (b : UInt8) : List UInt8 → Option Nat
  | [] => none
  | x :: xs =>
    match lastIndexOf b xs with
    | some i => some (i + 1)
    | none => if x = b then some 0 else none

namespace Mdio

def onEvent (m : Mdio) (ev : Event) : Mdio :=
  let t := mdioTargetOf ev
  let e := (m.regs t).getD { op := ev.op, data := ev.data, noResponse := ev.noResponse, count := 0 }
  let e := { e with op := ev.op, data := ev.data, noResponse := ev.noResponse, count := e.count + 1 }
  { m with
    regs := Function.update m.regs t (some e)
    mmdAcc := if ev.devad ≠ none ∧ ¬ ev.noResponse then m.mmdAcc + 1 else m.mmdAcc
    events := m.events ++ [ev] }

def onFrame (m : Mdio) (fr : Frame) : Mdio :=
  let m := { m with frames := m.frames ++ [fr] }
  let (folder, ev) := m.folder.feed fr
  let m := { m with folder }
  match ev with
  | some ev => m.onEvent ev
  | none => m

/-- A discontinuity drops the half-stitched burst, the bit carry and the MMD state. -/
def discontinuity (m : Mdio) : Mdio :=
  { m with joiner := {}, stream := m.stream.reset, folder := {} }

/-- One round of the loop over the records. -/
def onRecord (m : Mdio) (rec : Record) : Mdio :=
  let m :=
    if rec.flags &&& (FLAG_OVF_PIOC ||| FLAG_OVF_RAM) ≠ 0 then { m with loss := m.loss + 1 }.discontinuity
    else m
  let (joiner, lb) := m.joiner.feed rec
  let m := { m with joiner }
  match lb with
  | none => m
  | some lb =>
    let (found, stream) := m.stream.feed (burstToBits lb.payload lb.validBits)
    let m := found.foldl onFrame { m with stream }
    if lb.validBits ≠ 0 then { m with stream := m.stream.reset } else m

/-- Decode a stretch of whole segments. -/
def decode (m : Mdio) (seg : List UInt8) : Mdio :=
  let { records, losses, .. } := recordsFromBinary seg
  let m := if losses ≠ 0 then { m with loss := m.loss + losses }.discontinuity else m
  records.foldl onRecord m

/-- A synchronised buffer, cut behind its last boundary. -/
def cut (m : Mdio) (buf : List UInt8) : Mdio × List UInt8 :=
  match lastIndexOf 0xFF buf with
  | none => ({ m with leftover := buf }, [])
  | some last => ({ m with leftover := buf.drop (last + 1) }, buf.take (last + 1))

/-- What a chunk makes decodable, and the state with the rest kept. -/
def intake (m : Mdio) (bytes : List UInt8) : Mdio × List UInt8 :=
  let buf := m.leftover ++ bytes
  if m.synced then m.cut buf
  else
    match indexOf 0xFF buf with
    | none => ({ m with leftover := buf }, [])
    | some first => { m with synced := true }.cut (buf.drop (first + 1))

def mdioFeed (m : Mdio) (bytes : List UInt8) : Mdio :=
  let (m, seg) := m.intake bytes
  m.decode seg

end Mdio

end Tapioca.WebSniffer

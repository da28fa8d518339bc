-- SUMMARY: The data the two host decoders share: records, logical bursts and decoded Clause-22 frames.
import Mathlib.Tactic
import Mathlib.Data.List.DropRight

/-!
# Host data

The record, burst and frame types of `mdio_codec.js` and `mdio_lib.py`, which
have the same fields in both languages. Python and JavaScript numbers are
natural numbers here; bytes whose bits are tested stay bytes.
-/

namespace Tapioca.Host

/-- A decoded Clause-22 frame. `preamble` is the number of ones counted in
front of it. -/
structure Frame where
  op : Nat
  phyad : Nat
  regad : Nat
  ta : Nat
  data : Nat
  preamble : Nat
  noResponse : Bool
  deriving DecidableEq, Repr

/-- A frame without its preamble count, which depends on how much of the line
before the frame a decoder still remembers. -/
def Frame.fields (fr : Frame) : Frame := { fr with preamble := 0 }

/-- A parsed record of the wire. -/
structure Record where
  type : UInt8
  tUs : Nat
  durUs : Nat
  onsetUs : Nat
  flags : UInt8
  n : Nat
  payload : List UInt8
  deriving DecidableEq, Repr

/-- A burst after the records of a continued chain have been joined. -/
structure LBurst where
  tUs : Nat
  durUs : Nat
  onsetUs : Nat
  flags : UInt8
  payload : List UInt8
  validBits : Nat
  deriving DecidableEq, Repr

/-- A register access a folder resolved: an MMD access when `devad` is known, a
plain Clause-22 one otherwise. -/
structure Event where
  phy : Nat
  devad : Option Nat
  addr : Option Nat
  op : Nat
  data : Option Nat
  noResponse : Bool
  deriving DecidableEq, Repr

def OP_R : Nat := 0b10
def OP_W : Nat := 0b01

/-- MACR: function in bits 15:14, device address in bits 4:0. -/
def REG_MMD_CTRL : Nat := 13

/-- MAADR: address or data, per the last function. -/
def REG_MMD_DATA : Nat := 14

def FLAG_OVF_PIOC : UInt8 := 1
def FLAG_OVF_RAM : UInt8 := 2
def FLAG_CONTINUED : UInt8 := 4
def VALIDBITS_SHIFT : UInt8 := 3
def VALIDBITS_MASK : UInt8 := 0x7

end Tapioca.Host

-- SUMMARY: The device-side emitter of the wire envelope: record headers, framed records, metadata and loss markers.
import Tapioca.Util.Cobs

/-!
# Record framing

The emitters of `sniffer/record_framer.hpp`. The source writes into a buffer of
the caller and returns a length; here each emitter returns the bytes it wrote.
-/

namespace Tapioca.RecordFramer

def HEADER_LEN : Nat := 12
def TYPE_MDIO : UInt8 := 0x01

def FLAG_OVF_PIOC : UInt8 := 0x01
def FLAG_OVF_RAM : UInt8 := 0x02
def FLAG_CONTINUED : UInt8 := 0x04

def putU16 (v : UInt16) : List UInt8 := [v.toUInt8, (v >>> 8).toUInt8]

def putU32 (v : UInt32) : List UInt8 :=
  [v.toUInt8, (v >>> 8).toUInt8, (v >>> 16).toUInt8, (v >>> 24).toUInt8]

/-- The 12-byte little-endian record header. -/
def putHeader (type : UInt8) (tUs : UInt32) (durUs onsetUs : UInt16) (flags : UInt8)
    (n : UInt16) : List UInt8 :=
  [type] ++ putU32 tUs ++ putU16 durUs ++ putU16 onsetUs ++ [flags] ++ putU16 n

@[simp] theorem length_putHeader (type : UInt8) (tUs : UInt32) (durUs onsetUs : UInt16)
    (flags : UInt8) (n : UInt16) :
    (putHeader type tUs durUs onsetUs flags n).length = HEADER_LEN := rfl

def frameRecord (raw : List UInt8) : List UInt8 := Cobs.ffEncode raw ++ [0xFF]

/-- A framed record is longer than its raw bytes, and less than twice as long. -/
theorem length_frameRecord (raw : List UInt8) :
    raw.length + 2 ≤ (frameRecord raw).length ∧ (frameRecord raw).length ≤ 2 * raw.length + 2 := by
  have hlt := Lib.Cobs.length_lt_length_encodeFrom (K := Cobs.ffKeying) [] raw
  have hle := Lib.Cobs.length_encodeFrom_le (K := Cobs.ffKeying) [] raw
  rw [frameRecord, Cobs.ffEncode_eq, Lib.Cobs.encode, List.length_append, List.length_singleton]
  simp only [List.length_nil] at hlt hle
  omega

/-- A character a metadata block may carry. -/
def Printable (c : UInt8) : Prop := 0x20 ≤ c ∧ c ≤ 0x7E

instance (c : UInt8) : Decidable (Printable c) := inferInstanceAs (Decidable (_ ∧ _))

/-- Decided along the text, not over all characters. -/
instance decidablePrintable (text : List UInt8) : Decidable (∀ c ∈ text, Printable c) := List.decidableBAll _ text

/-- A metadata block, or nothing when `ascii` does not start with `[` or holds
a byte that is not printable. -/
def frameMeta (ascii : List UInt8) : List UInt8 :=
  if ascii.head? ≠ some 0x5B then []
  else if ∀ c ∈ ascii, Printable c then [0xFE] ++ ascii ++ [0xFE, 0xFF]
  else []

def frameLoss : List UInt8 := [0xFD, 0xFF]

def ascii (s : String) : List UInt8 := s.toList.map fun c => UInt8.ofNat c.toNat

-- ---------------------------------------------------------------------------
-- Frames
-- ---------------------------------------------------------------------------

/-- A data record as the device serialises it. -/
structure DataRecord where
  tUs : UInt32
  durUs : UInt16
  onsetUs : UInt16
  flags : UInt8
  payload : List UInt8
  fits : payload.length < 2 ^ 16

/-- The raw bytes: a header of type `0x01` with `n` the payload length, then the
payload. -/
def DataRecord.raw (r : DataRecord) : List UInt8 :=
  putHeader TYPE_MDIO r.tUs r.durUs r.onsetUs r.flags (UInt16.ofNat r.payload.length) ++ r.payload

theorem DataRecord.length_raw (r : DataRecord) : r.raw.length = HEADER_LEN + r.payload.length := by
  rw [DataRecord.raw, List.length_append, length_putHeader]

theorem DataRecord.toNat_length (r : DataRecord) :
    (UInt16.ofNat r.payload.length).toNat = r.payload.length := by
  rw [UInt16.toNat_ofNat', Nat.mod_eq_of_lt r.fits]

/-- A printable text that starts with `[`. -/
structure MetaText where
  ascii : List UInt8
  bracket : ascii.head? = some 0x5B
  printable : ∀ c ∈ ascii, Printable c

/-- One frame of the envelope. -/
inductive WireFrame where
  | record (r : DataRecord)
  | metadata (m : MetaText)
  | loss

def WireFrame.emit : WireFrame → List UInt8
  | .record r => frameRecord r.raw
  | .metadata m => frameMeta m.ascii
  | .loss => frameLoss

end Tapioca.RecordFramer

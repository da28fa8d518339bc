-- SUMMARY: The CAN layer of `scripts/can_rle_decode.py`: stuffing, CRC-15, the frame fields, and what they parse to.
import Mathlib.Tactic
import Tapioca.Lib.Bits
import Tapioca.Lib.Stuffing

/-!
# CAN frames

`build_frame_bits` lays a standard data frame out as bits, `parse_frame` reads the
fields of an unstuffed one. A frame is read by position: everything up to the data
length code has a fixed place, and that code gives the rest. A capture can end in
front of the last recessive bits, which the parser puts back.
-/

namespace Tapioca.Host.CanRle

open Lib.Bits (ofBits toBits)

abbrev RECESSIVE : Bool := true

abbrev DOMINANT : Bool := false

/-! ## CRC and stuffing -/

/-- One bit of `can_crc15`. -/
def crcStep (crc : Nat) (b : Bool) : Nat :=
  let inb := b ^^ crc.testBit 14
  let crc := (crc <<< 1) &&& 0x7FFF
  if inb then crc ^^^ 0x4599 else crc

def canCrc15 (bits : List Bool) : Nat := bits.foldl crcStep 0

/-- The loop of `stuff`. -/
def stuffLoop (run : Nat) (last : Option Bool) : List Bool → List Bool
  | [] => []
  | b :: bits =>
    let run := if some b = last then run + 1 else 1
    if run = 5 then b :: (!b) :: stuffLoop 1 (some (!b)) bits else b :: stuffLoop run (some b) bits

def stuff (bits : List Bool) : List Bool := stuffLoop 0 none bits

/-- The loop of `unstuff`, behind the first bit. -/
def unstuffLoop (run : Nat) (last : Bool) : List Bool → List Bool
  | [] => []
  | b :: bits =>
    if run = 5 then unstuffLoop 1 b bits
    else b :: unstuffLoop (if b = last then run + 1 else 1) b bits

def unstuff : List Bool → List Bool
  | [] => []
  | b :: bits => b :: unstuffLoop 1 b bits

/-! ## Fields -/

/-- What `parse_frame` returns of a standard frame. -/
structure Frame where
  id : Nat
  rtr : Nat
  dlc : Nat
  data : List Nat
  crc : Nat
  crcCalc : Nat
  crcOk : Bool
  deriving DecidableEq, Repr

inductive Parsed where
  | extended (id : Nat)
  | standard (f : Frame)
  deriving DecidableEq, Repr

/-- `take(n)` with `pos` bits read. -/
def take (bits : List Bool) (pos n : Nat) : Nat := ofBits ((bits.drop pos).take n)

def parseFrame (bits : List Bool) : Option Parsed :=
  if bits.length < 1 + 11 + 3 + 4 + 15 ∨ bits.head? ≠ some DOMINANT then none
  else
    let canId := take bits 1 11
    let rtr := take bits 12 1
    let ide := take bits 13 1
    if ide = 1 then some (.extended canId)
    else
      let dlc := take bits 15 4
      let ndata := min dlc 8
      let need := 19 + ndata * 8 + 15
      -- no bits where there are enough
      let bits := bits ++ List.replicate (need - bits.length) RECESSIVE
      let data := (List.range ndata).map fun i => take bits (19 + i * 8) 8
      let pos := 19 + ndata * 8
      let crcInput := bits.take pos
      let crc := take bits pos 15
      some (.standard ⟨canId, rtr, dlc, data, crc, canCrc15 crcInput, crc == canCrc15 crcInput⟩)

/-- SOF to DLC of a standard frame. -/
def header (canId : Nat) (rtr r0 : Bool) (dlc : Nat) : List Bool :=
  DOMINANT :: toBits 11 canId ++ [rtr, false, r0] ++ toBits 4 dlc

/-- The bits of `core` in front of the CRC. -/
def coreBits (canId : Nat) (data : List Nat) : List Bool :=
  [DOMINANT] ++ toBits 11 canId ++ [false, false, false] ++ toBits 4 data.length ++
    data.flatMap (toBits 8)

/-- `core` with its CRC. -/
def crcBits (core : List Bool) : List Bool := core ++ toBits 15 (canCrc15 core)

def buildFrameBits (canId : Nat) (data : List Nat) : List Bool :=
  stuff (crcBits (coreBits canId data)) ++ List.replicate 13 RECESSIVE

/-! ## The stuffing is that of limit 5 -/

theorem stuffLoop_eq (run : Nat) (last : Option Bool) (bits : List Bool) :
    stuffLoop run last bits = Lib.Stuffing.stuffFrom 5 run last bits := by
  induction bits generalizing run last with
  | nil => rfl
  | cons b bits ih =>
    rw [stuffLoop, Lib.Stuffing.stuffFrom, ih, ih]
    rfl

theorem stuff_eq (bits : List Bool) : stuff bits = Lib.Stuffing.stuff 5 bits := stuffLoop_eq 0 none bits

theorem stuff_concat (bits : List Bool) (b : Bool) :
    stuff (bits ++ [b]) = stuff bits ++ [b] ∨ stuff (bits ++ [b]) = stuff bits ++ [b, !b] := by
  rw [stuff_eq, stuff_eq]
  exact Lib.Stuffing.stuffFrom_concat 5 0 none bits b

theorem unstuffLoop_eq (run : Nat) (last : Bool) (bits : List Bool) :
    unstuffLoop run last bits = Lib.Stuffing.unstuffFrom 5 run (some last) bits := by
  induction bits generalizing run last with
  | nil => rfl
  | cons b bits ih =>
    rw [unstuffLoop, Lib.Stuffing.unstuffFrom, ih, ih, Lib.Stuffing.count]
    simp only [Option.some.injEq]

theorem unstuff_eq (bits : List Bool) : unstuff bits = Lib.Stuffing.unstuff 5 bits := by
  cases bits with
  | nil => rfl
  | cons b bits =>
    rw [unstuff, unstuffLoop_eq]
    rfl

/-! ## Reading fields -/

/-- A field reads back, wherever it stands. -/
theorem take_field (front field back : List Bool) {pos n : Nat} (hpos : front.length = pos)
    (hn : field.length = n) : take (front ++ field ++ back) pos n = ofBits field := by
  subst hpos hn
  rw [take, List.append_assoc, List.drop_left, List.take_left]

theorem take_prefix {xs ys : List Bool} {pos n : Nat} (h : pos + n ≤ xs.length) :
    take (xs ++ ys) pos n = take xs pos n := by
  rw [take, take, List.drop_append_of_le_length (by omega), List.take_append_of_le_length]
  rw [List.length_drop]
  omega

theorem length_flatMap_toBits (data : List Nat) : (data.flatMap (toBits 8)).length = data.length * 8 := by
  simp [List.length_flatMap]

/-- Bytes read back. -/
theorem map_take_bytes {data : List Nat} (hbyte : ∀ b ∈ data, b < 256) (front back : List Bool) :
    ((List.range data.length).map fun i =>
      take (front ++ data.flatMap (toBits 8) ++ back) (front.length + i * 8) 8) = data := by
  induction data generalizing front with
  | nil => rfl
  | cons b data ih =>
    have hhead : ofBits (toBits 8 b) = b := by
      rw [Lib.Bits.ofBits_toBits]
      exact Nat.mod_eq_of_lt (hbyte b List.mem_cons_self)
    have hrest := ih (fun c hc => hbyte c (List.mem_cons_of_mem _ hc)) (front ++ toBits 8 b)
    rw [List.length_cons, List.range_succ_eq_map, List.map_cons, List.map_map, List.flatMap_cons]
    congr 1
    · rw [← List.append_assoc, List.append_assoc (front ++ _)]
      exact (take_field _ _ _ (by simp) (Lib.Bits.length_toBits _ _)).trans hhead
    · refine Eq.trans (List.map_congr_left fun i _ => ?_) hrest
      have hpos : front.length + (i + 1) * 8 = front.length + 8 + i * 8 := by ring
      simp only [Function.comp_apply, Nat.succ_eq_add_one, List.length_append, Lib.Bits.length_toBits,
        List.append_assoc, hpos]

theorem length_header (canId : Nat) (rtr r0 : Bool) (dlc : Nat) : (header canId rtr r0 dlc).length = 19 := by
  simp [header]

theorem coreBits_eq (canId : Nat) (data : List Nat) :
    coreBits canId data = header canId false false data.length ++ data.flatMap (toBits 8) := by
  simp [coreBits, header]

/-! ## What parses -/

section Header

variable {canId dlc : Nat} (rtr r0 : Bool) (rest : List Bool)

theorem take_id (hid : canId < 2 ^ 11) : take (header canId rtr r0 dlc ++ rest) 1 11 = canId := by
  have hfield := take_field [DOMINANT] (toBits 11 canId) ([rtr, false, r0] ++ toBits 4 dlc ++ rest) rfl
    (Lib.Bits.length_toBits _ _)
  rw [Lib.Bits.ofBits_toBits, Nat.mod_eq_of_lt hid] at hfield
  simpa [header] using hfield

theorem take_rtr : take (header canId rtr r0 dlc ++ rest) 12 1 = rtr.toNat := by
  have hpos : (DOMINANT :: toBits 11 canId).length = 12 := by simp
  have hfield := take_field _ [rtr] ([false, r0] ++ toBits 4 dlc ++ rest) hpos rfl
  simpa [header, ofBits] using hfield

theorem take_ide : take (header canId rtr r0 dlc ++ rest) 13 1 = 0 := by
  have hpos : (DOMINANT :: toBits 11 canId ++ [rtr]).length = 13 := by simp
  have hfield := take_field _ [false] ([r0] ++ toBits 4 dlc ++ rest) hpos rfl
  simpa [header, ofBits] using hfield

theorem take_dlc (hdlc : dlc < 2 ^ 4) : take (header canId rtr r0 dlc ++ rest) 15 4 = dlc := by
  have hpos : (DOMINANT :: toBits 11 canId ++ [rtr, false, r0]).length = 15 := by simp
  have hfield := take_field _ (toBits 4 dlc) rest hpos (Lib.Bits.length_toBits _ _)
  rw [Lib.Bits.ofBits_toBits, Nat.mod_eq_of_lt hdlc] at hfield
  simpa [header] using hfield

end Header

/-- A standard frame parses as soon as its bits, filled up with recessive ones, hold it. -/
theorem parseFrame_fields {bits crcField tail : List Bool} {canId dlc : Nat} {rtr r0 : Bool} {data : List Nat}
    (hid : canId < 2 ^ 11) (hdlc : dlc < 2 ^ 4) (hdata : data.length = min dlc 8) (hbyte : ∀ b ∈ data, b < 256)
    (hcrc : crcField.length = 15) (hlen : 34 ≤ bits.length)
    (hbits : bits ++ List.replicate (19 + min dlc 8 * 8 + 15 - bits.length) RECESSIVE =
      header canId rtr r0 dlc ++ data.flatMap (toBits 8) ++ crcField ++ tail) :
    parseFrame bits = some (.standard ⟨canId, rtr.toNat, dlc, data, ofBits crcField,
      canCrc15 (header canId rtr r0 dlc ++ data.flatMap (toBits 8)),
      ofBits crcField == canCrc15 (header canId rtr r0 dlc ++ data.flatMap (toBits 8))⟩) := by
  have hsof : bits.head? = some DOMINANT := by
    rw [← List.head?_append_of_ne_nil bits (List.ne_nil_of_length_pos (by omega)), hbits]
    rfl
  have hstd : ¬ (bits.length < 1 + 11 + 3 + 4 + 15 ∨ bits.head? ≠ some DOMINANT) := by
    rintro (hshort | hne)
    · exact absurd hlen (Nat.not_le_of_lt hshort)
    · exact hne hsof
  -- the header is in the bits there are, data and CRC in the filled ones
  have hhead : ∀ pos n, pos + n ≤ 34 →
      take bits pos n = take (header canId rtr r0 dlc ++ (data.flatMap (toBits 8) ++ (crcField ++ tail))) pos n := by
    intro pos n hin
    rw [← take_prefix (by omega), hbits, List.append_assoc, List.append_assoc]
  have hdataf := map_take_bytes hbyte (header canId rtr r0 dlc) (crcField ++ tail)
  rw [length_header, hdata, ← List.append_assoc] at hdataf
  have hpos : (header canId rtr r0 dlc ++ data.flatMap (toBits 8)).length = 19 + min dlc 8 * 8 := by
    rw [List.length_append, length_header, length_flatMap_toBits, hdata]
  have hcrcIn : (header canId rtr r0 dlc ++ data.flatMap (toBits 8) ++ crcField ++ tail).take (19 + min dlc 8 * 8) =
      header canId rtr r0 dlc ++ data.flatMap (toBits 8) := by
    rw [List.append_assoc, ← hpos, List.take_left]
  rw [parseFrame, if_neg hstd]
  simp only [hhead 1 11 (by omega), hhead 12 1 (by omega), hhead 13 1 (by omega), hhead 15 4 (by omega),
    take_id _ _ _ hid, take_rtr, take_ide, take_dlc _ _ _ hdlc, hbits, hdataf, hcrcIn, take_field _ _ _ hpos hcrc,
    Nat.zero_ne_one, if_false]

/-- As many bytes as the DLC says, eight at most. -/
theorem parseFrame_data_length {bits : List Bool} {f : Frame} (h : parseFrame bits = some (.standard f)) :
    f.data.length = min f.dlc 8 := by
  rw [parseFrame] at h
  split at h
  · cases h
  · dsimp only at h
    split at h
    · cases h
    · cases h
      simp only [List.length_map, List.length_range]

end Tapioca.Host.CanRle

-- SUMMARY: The instruction words of the eMCU: formats, a disassembler, and which operands of the opcode table fit their fields.
import Tapioca.Lib.Fields
import Tapioca.Pioc.Assembler

/-!
# Instruction words

The functions of the opcode table put operands of any size below their opcodes. A word
reads as its instruction exactly if every operand fits its field.
-/

namespace Tapioca.Assembler

open Lib.Fields

namespace Mnemonic

def bare (opcode : Nat) : Format := ⟨opcode, 0, [], one_dvd _, by simp, .nil⟩

/-- One operand below the opcode. -/
def operand (opcode width : Nat) (h : 2 ^ width ∣ opcode) : Format := ⟨opcode, width, [⟨0, width⟩], h, by simp, by simp⟩

/-- A register, and a bit of it above. -/
def bitOf (opcode : Nat) (h : 2 ^ 11 ∣ opcode) : Format := ⟨opcode, 11, [⟨0, 8⟩, ⟨8, 3⟩], h, by simp, by simp⟩

/-- A port, and a bit of the data below. -/
def portBit (opcode : Nat) (h : 2 ^ 5 ∣ opcode) : Format := ⟨opcode, 5, [⟨3, 2⟩, ⟨0, 3⟩], h, by simp, by simp⟩

/-- The opcodes and the fields of the eMCU. A destination has 12 bits, a register or a
constant 8, and the accumulator that `MOV F, A` names none. -/
def format : Mnemonic → Format
  | dw => operand 0 16 (by decide)
  | jmp => operand 0x6000 12 (by decide)
  | jnz => operand 0x3000 12 (by decide)
  | call => operand 0x7000 12 (by decide)
  | ret => bare 0x0030
  | clr => operand 0x0100 8 (by decide)
  | inc => operand 0x1400 8 (by decide)
  | dec => operand 0x1500 8 (by decide)
  | rcl => operand 0x1E00 8 (by decide)
  | mov => ⟨0x0200, 8, [⟨0, 8⟩, ⟨0, 0⟩], by decide, by simp, by simp⟩
  | mova => operand 0x1000 8 (by decide)
  | movia => operand 0x2400 8 (by decide)
  | movl => operand 0x2800 8 (by decide)
  | waitb => operand 0x0010 3 (by decide)
  | bctc => operand 0x001C 2 (by decide)
  | btsc => bitOf 0x5000 (by decide)
  | btss => bitOf 0x5800 (by decide)
  | bs => bitOf 0x4800 (by decide)
  | nop => bare 0x0000
  | clra => bare 0x0004
  | addl => operand 0x2C00 8 (by decide)
  | bc => bitOf 0x4000 (by decide)
  | bp2f => portBit 0x00A0 (by decide)
  | bg2f => portBit 0x00E0 (by decide)

/-- All but `DW`, whose words are no instructions. -/
def instructions : List Mnemonic := all.filter (· ≠ dw)

def disassemble (w : Nat) : Option (Mnemonic × List Nat) := decode format instructions w

/-- What a word says of its mnemonic and its operands. -/
def Reads (m : Mnemonic) (w : Nat) (a : List ℤ) : Prop :=
  if m = dw then a = [(w : ℤ)] else ∃ vs, disassemble w = some (m, vs) ∧ a = vs.map Nat.cast

def Fits (m : Mnemonic) (a : List ℤ) : Prop := List.Forall₂ (fun f v => 0 ≤ v ∧ v < 2 ^ f.width) m.format.fields a

theorem forall₂_natCast {fs : List Field} {a : List ℤ} :
    List.Forall₂ (fun f (v : ℤ) => 0 ≤ v ∧ v < 2 ^ f.width) fs a ↔ ∃ vs, Lib.Fields.Fits fs vs ∧ a = vs.map Nat.cast := by
  constructor
  · intro h
    induction h with
    | nil => exact ⟨[], .nil, rfl⟩
    | cons hv _ ih =>
      obtain ⟨v, rfl⟩ := Int.eq_ofNat_of_zero_le hv.1
      obtain ⟨vs, hfits, rfl⟩ := ih
      exact ⟨v :: vs, .cons (by exact_mod_cast hv.2) hfits, rfl⟩
  · rintro ⟨vs, hfits, rfl⟩
    rw [List.forall₂_map_right_iff]
    exact hfits.imp fun f v hv => ⟨Int.natCast_nonneg v, by exact_mod_cast hv⟩

theorem encode_operand {opcode width : Nat} (h : 2 ^ width ∣ opcode) (v : Nat) :
    (operand opcode width h).encode [v] = opcode ||| v := by
  simp [Format.encode, operand, payload]

theorem encode_mov (v : Nat) : (format mov).encode [v, 0] = 0x0200 ||| v := by
  simp [Format.encode, format, payload]

theorem encode_bitOf {opcode : Nat} (h : 2 ^ 11 ∣ opcode) (f b : Nat) :
    (bitOf opcode h).encode [f, b] = opcode ||| b <<< 8 ||| f := by
  simp [Format.encode, bitOf, payload, Nat.or_assoc, Nat.or_comm f]

theorem encode_portBit {opcode : Nat} (h : 2 ^ 5 ∣ opcode) (o b : Nat) :
    (portBit opcode h).encode [o, b] = opcode ||| o <<< 3 ||| b := by
  simp [Format.encode, portBit, payload, Nat.or_assoc]

/-- Within the fields the functions of the table are the encodings. -/
theorem encode_natCast (m : Mnemonic) {vs : List Nat} (hfits : Lib.Fields.Fits m.format.fields vs) :
    m.encode (vs.map Nat.cast) = (m.format.encode vs : Nat) := by
  cases m with
  | ret | nop | clra =>
    cases hfits
    rfl
  | mov =>
    obtain _ | ⟨-, _ | ⟨hv, _ | _⟩⟩ := hfits
    obtain rfl := Nat.lt_one_iff.mp hv
    rw [encode_mov]
    rfl
  | btsc | btss | bs | bc =>
    obtain _ | ⟨-, _ | ⟨-, _ | _⟩⟩ := hfits
    rw [format, encode_bitOf]
    rfl
  | bp2f | bg2f =>
    obtain _ | ⟨-, _ | ⟨-, _ | _⟩⟩ := hfits
    rw [format, encode_portBit]
    rfl
  | dw =>
    obtain _ | ⟨-, _ | _⟩ := hfits
    rw [format, encode_operand, Nat.zero_or]
    rfl
  | _ =>
    obtain _ | ⟨-, _ | _⟩ := hfits
    rw [format, encode_operand]
    rfl

theorem encode_lt (m : Mnemonic) {vs : List Nat} (hfits : Lib.Fields.Fits m.format.fields vs) :
    m.format.encode vs < 0x10000 := by
  have hroom : m.format.opcode + 2 ^ m.format.size ≤ 0x10000 := by cases m <;> decide
  exact (holds_encode hfits).2.trans_le hroom

theorem instructions_apart : instructions.Pairwise fun a b => a.format.Apart b.format := by
  decide

theorem mem_all (m : Mnemonic) : m ∈ all := by
  cases m <;> decide

/-- A word of the table reads as its instruction exactly if the operands fit. -/
theorem reads_encode_iff (m : Mnemonic) (a : List ℤ) :
    m.Reads (m.encode a % 0x10000).toNat a ↔ m.Fits a := by
  rw [Fits, forall₂_natCast]
  constructor
  · intro h
    rw [Reads] at h
    split at h
    · rename_i hdw
      subst hdw
      refine ⟨[((dw.encode a) % 0x10000).toNat], .cons ?_ .nil, h⟩
      have hmod := Int.emod_lt_of_pos (dw.encode a) (by norm_num : (0 : ℤ) < 0x10000)
      have hnonneg := Int.emod_nonneg (dw.encode a) (by norm_num : (0x10000 : ℤ) ≠ 0)
      have hlt : ((dw.encode a) % 0x10000).toNat < 0x10000 := by omega
      exact hlt
    · obtain ⟨vs, hw, ha⟩ := h
      exact ⟨vs, fits_of_decode hw, ha⟩
  · rintro ⟨vs, hfits, rfl⟩
    have hlt := m.encode_lt hfits
    have hword : (m.encode (vs.map Nat.cast) % 0x10000).toNat = m.format.encode vs := by
      rw [m.encode_natCast hfits]
      omega
    rw [hword, Reads]
    split
    · rename_i hdw
      subst hdw
      obtain _ | ⟨-, _ | _⟩ := hfits
      rw [format, encode_operand, Nat.zero_or]
      rfl
    · rename_i hdw
      refine ⟨vs, decode_encode instructions_apart ?_ hfits, rfl⟩
      exact List.mem_filter.mpr ⟨m.mem_all, decide_eq_true hdw⟩

end Mnemonic

end Tapioca.Assembler

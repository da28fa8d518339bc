-- SUMMARY: The host tool `app/mdioctl/mdioctl`: the command lines it sends are the bridge's commands.
import Tapioca.Lib.Numeral
import Tapioca.Mdio.CommandGrammar

/-!
# The command lines of mdioctl

`mdioctl` prints a Clause-22 register in decimal and an MMD register in four
hexadecimal digits of lower case. The bridge reads either.
-/

namespace Tapioca.Host.Mdioctl

open Mdio.UsbBridge RecordFramer
open Lib.Numeral (CharDigit Spells)

/-- `(phy, mmd, reg)` as `split_path` checks them. -/
structure Target where
  phy : Nat
  mmd : Option Nat
  reg : Nat
  phy_le : phy ≤ 31
  mmd_le : ∀ m ∈ mmd, m ≤ 31
  reg_le : reg ≤ if mmd.isSome then 0xFFFF else 31

/-- `%04x` -/
def hex04x (n : Nat) : String := String.ofList ((Nat.toDigits 16 n).leftpad 4 '0')

def pathText (t : Target) : String :=
  match t.mmd with
  | some mmd => toString t.phy ++ ":" ++ toString mmd ++ "/0x" ++ hex04x t.reg
  | none => toString t.phy ++ "/" ++ toString t.reg

/-- The line of `do_read`. -/
def readLine (t : Target) : String := "!read " ++ pathText t

/-- The line of `do_write`. -/
def writeLine (t : Target) (val : UInt16) : String := "!write " ++ pathText t ++ " 0x" ++ hex04x val.toNat

/-- The line of `do_print`. -/
def printLine (phy : Nat) : String := "!print " ++ toString phy

/-- The command a line stands for. -/
def Target.command (t : Target) (op : Op) (val : UInt16) : Command :=
  ⟨true, op, UInt8.ofNat t.phy, t.mmd.isSome, UInt8.ofNat (t.mmd.getD 0), UInt16.ofNat t.reg, val⟩

/-! ## Numbers on the wire -/

theorem ascii_append (s t : String) : ascii (s ++ t) = ascii s ++ ascii t := by
  rw [ascii, String.toList_append, List.map_append]
  rfl

theorem ascii_ofList (cs : List Char) : ascii (String.ofList cs) = cs.map fun c => UInt8.ofNat c.toNat := by
  rw [ascii, String.toList_ofList]

theorem digit_byte : ∀ d < 16, Digit 16 (UInt8.ofNat d.digitChar.toNat) d ∧
    Digit 16 (UInt8.ofNat d.digitChar.toUpper.toNat) d := by
  unfold Digit
  decide

/-- What a string spells as text its bytes spell on the wire. -/
theorem digits_of_spells {b n : Nat} {cs : List Char} (hb : b ≤ 16) (h : Spells b cs n) :
    ∃ ds, List.Forall₂ (Digit b) (cs.map fun c => UInt8.ofNat c.toNat) ds ∧ ds ≠ [] ∧ Nat.ofDigits b ds.reverse = n := by
  obtain ⟨ds, hds, hne, hn⟩ := h
  refine ⟨ds, ?_, hne, hn⟩
  rw [List.forall₂_map_left_iff]
  refine hds.imp fun c d hd => ?_
  obtain ⟨hlt, rfl | rfl⟩ := hd
  · exact ⟨hlt, (digit_byte d (hlt.trans_le hb)).1.2⟩
  · exact ⟨hlt, (digit_byte d (hlt.trans_le hb)).2.2⟩

theorem number_decimal {limit n : Nat} (h : n ≤ limit) : Number limit (ascii (toString n)) n := by
  have hspells : Spells 10 (Nat.toDigits 10 n) n := Lib.Numeral.spells_toDigits (by omega) n
  obtain ⟨ds, hds, hne, rfl⟩ := digits_of_spells (by omega) hspells
  rw [Nat.toString_eq_ofList_toDigits, ascii_ofList]
  exact .dec hds hne h

theorem number_hex {limit n : Nat} (h : n ≤ limit) : Number limit (ascii ("0x" ++ hex04x n)) n := by
  have hspells : Spells 16 ((Nat.toDigits 16 n).leftpad 4 '0') n :=
    (Lib.Numeral.spells_toDigits (by omega) n).leftpad (by omega) 4
  have htext : ascii ("0x" ++ hex04x n) =
      0x30 :: 0x78 :: ((Nat.toDigits 16 n).leftpad 4 '0').map fun c => UInt8.ofNat c.toNat := by
    rw [ascii_append, hex04x, ascii_ofList ((Nat.toDigits 16 n).leftpad 4 '0')]
    rfl
  obtain ⟨ds, hds, hne, hn⟩ := digits_of_spells le_rfl hspells
  rw [htext]
  subst hn
  exact .hex (.inl rfl) hds hne h

/-! ## Lines -/

theorem address_pathText (t : Target) :
    Address (ascii (pathText t)) t.mmd.isSome t.phy (t.mmd.getD 0) t.reg := by
  obtain ⟨phy, mmd, reg, hphy, hmmd, hreg⟩ := t
  cases mmd with
  | none =>
    have htext : ascii (toString phy ++ "/" ++ toString reg) = ascii (toString phy) ++ 0x2F :: ascii (toString reg) := by
      rw [ascii_append, ascii_append, List.append_assoc]
      rfl
    rw [pathText, htext]
    exact .clause22 (number_decimal hphy) (number_decimal hreg)
  | some mmd =>
    have htext : ascii (toString phy ++ ":" ++ toString mmd ++ "/0x" ++ hex04x reg) =
        ascii (toString phy) ++ 0x3A :: (ascii (toString mmd) ++ 0x2F :: ascii ("0x" ++ hex04x reg)) := by
      simp only [ascii_append, List.append_assoc]
      rfl
    rw [pathText, htext]
    exact .clause45 (number_decimal hphy) (number_decimal (hmmd mmd rfl)) (number_hex hreg)

/-- `!`, a verb, a blank and its arguments are parsed into what they denote. -/
theorem parse_line {m : Meaning} {line args : List UInt8} (hline : line = 0x21 :: (ascii m.op.verb ++ 0x20 :: args))
    (hargs : Args args m) :
    parse line = ⟨true, m.op, UInt8.ofNat m.phy, m.mmdAccess, UInt8.ofNat m.mmd, UInt16.ofNat m.reg,
      UInt16.ofNat m.val⟩ := by
  have hgap : Blank [0x20] := by simp [Blank, isWs]
  have hdenotes : Denotes line m := by
    have h := @Denotes.line [] [0x20] args [] _ (by simp [Blank]) hgap (List.cons_ne_nil _ _) hargs (by simp)
    rwa [List.append_nil, List.nil_append, List.singleton_append, ← hline] at h
  obtain ⟨c, hc, rfl⟩ := parse?_complete hdenotes
  obtain ⟨hvalid, -⟩ := parse?_sound hc
  obtain ⟨valid, op, phy, mmdAccess, mmd, reg, val⟩ := c
  obtain rfl : valid = true := hvalid
  rw [parse, hc, Option.getD_some]
  simp only [Command.meaning, UInt8.ofNat_toNat, UInt16.ofNat_toNat]

theorem parse_readLine (t : Target) : parse (ascii (readLine t)) = t.command .read 0 := by
  have hword : ascii "!read " = 0x21 :: (ascii Op.read.verb ++ [0x20]) := by decide
  refine parse_line (m := ⟨.read, t.mmd.isSome, t.phy, t.mmd.getD 0, t.reg, 0⟩) ?_ (.read (address_pathText t))
  rw [readLine, ascii_append, hword, List.cons_append, List.append_assoc, List.singleton_append]

theorem parse_writeLine (t : Target) (val : UInt16) : parse (ascii (writeLine t val)) = t.command .write val := by
  have hword : ascii "!write " = 0x21 :: (ascii Op.write.verb ++ [0x20]) := by decide
  have hmark : ascii " 0x" = [0x20] ++ ascii "0x" := by decide
  have hval : Number 0xFFFF (ascii ("0x" ++ hex04x val.toNat)) val.toNat := number_hex (Nat.le_of_lt_succ val.toNat_lt)
  have hblank : Blank [0x20] := by simp [Blank, isWs]
  have hargs := Args.write (address_pathText t) hblank (List.cons_ne_nil _ _) hval
  rw [parse_line ?_ hargs, UInt16.ofNat_toNat, Target.command]
  simp only [writeLine, ascii_append, hword, hmark, List.cons_append, List.append_assoc, List.nil_append]

theorem parse_printLine {phy : Nat} (hphy : phy ≤ 31) :
    parse (ascii (printLine phy)) = { valid := true, op := .print, phy := UInt8.ofNat phy } := by
  have hword : ascii "!print " = 0x21 :: (ascii Op.print.verb ++ [0x20]) := by decide
  refine parse_line (m := ⟨.print, false, phy, 0, 0, 0⟩) ?_ (.print (number_decimal hphy))
  rw [printLine, ascii_append, hword, List.cons_append, List.append_assoc, List.singleton_append]

end Tapioca.Host.Mdioctl

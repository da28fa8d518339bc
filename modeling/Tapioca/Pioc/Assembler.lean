-- SUMMARY: The assembler `pioc/assemble.py`: lines, symbols, the address pass, operands, and the opcode table.
import Tapioca.Lib.Numeral
import Tapioca.Lib.Pattern
import Mathlib.Data.Int.Bitwise
import Mathlib.Data.List.DropRight

/-!
# The assembler

The symbol pass collects the constants of `INCLUDE`d files and `EQU` lines. Pass 1 keeps
an address beside the list of instructions: `ORG` sets the address, a label takes it, and
an instruction counts it up. Pass 2 resolves the operands and encodes the words, one
behind the other.
-/

namespace Tapioca.Assembler

open Lib (Pattern)
open Lib.Pattern (Groups)

abbrev Token := List Char

/-- What the Python interpreter knows of characters, and its limit on decimal numerals, 0 for none. -/
structure Python where
  /-- `\s` and `str.isspace` -/
  space : Char → Bool
  /-- `\w` -/
  word : Char → Bool
  /-- `\d`, with its value -/
  digit : Char → Option Nat
  upper : Char → List Char
  /-- The characters that are a letter under `re.I`. -/
  folds : Char → List Char
  /-- `str.splitlines` -/
  breaks : Char → Bool
  maxStrDigits : Nat

/-- Text of ASCII. -/
def Python.ascii : Python where
  space c := c = ' ' ∨ 9 ≤ c.toNat ∧ c.toNat ≤ 13 ∨ 28 ≤ c.toNat ∧ c.toNat ≤ 31
  word c := c.isAlphanum || c = '_'
  digit c := if c.isDigit then some (c.toNat - 48) else none
  upper c := [c.toUpper]
  folds c := [c.toUpper, c.toLower]
  breaks c := 10 ≤ c.toNat ∧ c.toNat ≤ 13 ∨ 28 ≤ c.toNat ∧ c.toNat ≤ 30
  maxStrDigits := 4300

inductive Error where
  /-- `SystemExit` with its text. -/
  | exit (text : String)
  | fileNotFound (path : Token)
  | keyError (name : Token)
  | valueError (tok : Token)
  deriving DecidableEq

/-! ## Patterns -/

namespace Python

variable (py : Python)

def star (p : Char → Bool) : Pattern := .opt (.plus p)

def oneOf (cs : List Char) : Pattern := cs.foldr (fun c p => .alt (.str [c]) p) (.plus fun _ => false)

/-- A word under `re.I`. -/
def nocase (word : String) : Pattern := word.toList.foldr (fun c p => .seq (oneOf (py.folds c)) p) (.str [])

/-- `\s*INCLUDE` -/
def includeWord : Pattern := .seq (star py.space) (py.nocase "INCLUDE")

/-- `\s*INCLUDE\s+(\S+)` -/
def includeFile : Pattern :=
  .seq (star py.space) (.seq (py.nocase "INCLUDE") (.seq (.plus py.space) (.group 1 (.plus (!py.space ·)))))

/-- `\s*\w+\s+EQU` -/
def equWord : Pattern := .seq (star py.space) (.seq (.plus py.word) (.seq (.plus py.space) (.str "EQU".toList)))

/-- `\s*(\w+)\s+EQU\s+(\S+)\s*$` -/
def equ : Pattern :=
  .seq (star py.space) (.seq (.group 1 (.plus py.word)) (.seq (.plus py.space) (.seq (.str "EQU".toList)
    (.seq (.plus py.space) (.seq (.group 2 (.plus (!py.space ·))) (.seq (star py.space) .atEnd))))))

/-- `\s*ORG\s+(\S+)` -/
def org : Pattern :=
  .seq (star py.space) (.seq (py.nocase "ORG") (.seq (.plus py.space) (.group 1 (.plus (!py.space ·)))))

/-- `\s*(\w+):\s*(.*)$` -/
def labelled : Pattern :=
  .seq (star py.space) (.seq (.group 1 (.plus py.word)) (.seq (.str [':']) (.seq (star py.space)
    (.seq (.group 2 (star (· ≠ '\n'))) .atEnd))))

/-- `0[xX]|\d` -/
def numberStart : Pattern := .alt (.seq (.str ['0']) (oneOf ['x', 'X'])) (.plus fun c => (py.digit c).isSome)

/-- `[-+]?(0[xX][0-9a-fA-F]+|\d+)$` -/
def number : Pattern :=
  .seq (.opt (oneOf ['-', '+']))
    (.seq (.alt (.seq (.str ['0']) (.seq (oneOf ['x', 'X']) (.plus fun c => (Lib.Numeral.digitValue c).isSome)))
      (.plus fun c => (py.digit c).isSome)) .atEnd)

/-- Whether a line begins with a pattern and the end of a word, `\b`. -/
def beginsWith (p : Pattern) (s : List Char) : Bool :=
  (p.run [] s fun g rest => if rest.head?.any py.word then none else some g).isSome

/-! ## Strings -/

def rstrip (s : List Char) : List Char := s.rdropWhile py.space

def strip (s : List Char) : List Char := py.rstrip (s.dropWhile py.space)

/-- `s.split(None, 1)` of a string that is not blank. -/
def splitWord (s : List Char) : Token × Option (List Char) :=
  let s := s.dropWhile py.space
  let rest := (s.dropWhile (!py.space ·)).dropWhile py.space
  (s.takeWhile (!py.space ·), if rest = [] then none else some rest)

/-- `int(s, 0)` behind the prefix: digits, and single underscores between them. -/
def digits (base : Nat) (s : List Char) : Option Nat :=
  let parts := s.splitOn '_'
  if parts.all (· ≠ []) then Lib.Numeral.read base parts.flatten else none

/-- Decimal digits, as many as the interpreter converts. -/
def decimal (s : List Char) : Option Nat :=
  if py.maxStrDigits ≠ 0 ∧ py.maxStrDigits < s.countP (· ≠ '_') then none else digits 10 s

/-- `int(s, 0)` without a sign. A decimal numeral begins with 0 only if it is zero. -/
def natural : List Char → Option Nat
  | '0' :: 'x' :: s | '0' :: 'X' :: s => digits 16 (if s.head? = some '_' then s.tail else s)
  | '0' :: 'o' :: s | '0' :: 'O' :: s => digits 8 (if s.head? = some '_' then s.tail else s)
  | '0' :: 'b' :: s | '0' :: 'B' :: s => digits 2 (if s.head? = some '_' then s.tail else s)
  | '0' :: s => (py.decimal ('0' :: s)).filter (· = 0)
  | s => py.decimal s

/-- `int(s, 0)` -/
def int (s : List Char) : Except Error ℤ :=
  let plain := s.map fun c => ((py.digit c).map Nat.digitChar).getD c
  let value := match plain with
    | '+' :: digits => (py.natural digits).map Int.ofNat
    | '-' :: digits => (py.natural digits).map fun n => -(n : ℤ)
    | digits => (py.natural digits).map Int.ofNat
  match value with
  | some v => .ok v
  | none => .error (.valueError s)

end Python

/-- The lines of a text, with their ends or without. -/
def splitLines (breaks : Char → Bool) (keepends : Bool) : List Char → List (List Char)
  | [] => []
  | c :: s =>
    if breaks c then (if keepends then [c] else []) :: splitLines breaks keepends s
    else
      match splitLines breaks keepends s with
      | [] => [[c]]
      | l :: ls => (c :: l) :: ls

/-- `ln.split(";", 1)[0]` -/
def uncomment (ln : List Char) : List Char := ln.takeWhile (· ≠ ';')

/-! ## The opcode table -/

inductive Mnemonic where
  | dw | jmp | jnz | call | ret | clr | inc | dec | rcl | mov | mova | movia | movl | waitb | bctc
  | btsc | btss | bs | nop | clra | addl | bc | bp2f | bg2f
  deriving DecidableEq

namespace Mnemonic

def all : List Mnemonic :=
  [dw, jmp, jnz, call, ret, clr, inc, dec, rcl, mov, mova, movia, movl, waitb, bctc, btsc, btss, bs, nop, clra, addl,
    bc, bp2f, bg2f]

def name : Mnemonic → String
  | dw => "DW" | jmp => "JMP" | jnz => "JNZ" | call => "CALL" | ret => "RET" | clr => "CLR" | inc => "INC"
  | dec => "DEC" | rcl => "RCL" | mov => "MOV" | mova => "MOVA" | movia => "MOVIA" | movl => "MOVL"
  | waitb => "WAITB" | bctc => "BCTC" | btsc => "BTSC" | btss => "BTSS" | bs => "BS" | nop => "NOP"
  | clra => "CLRA" | addl => "ADDL" | bc => "BC" | bp2f => "BP2F" | bg2f => "BG2F"

def arity : Mnemonic → Nat
  | ret | nop | clra => 0
  | mov | btsc | btss | bs | bc | bp2f | bg2f => 2
  | _ => 1

/-- The functions of `ENC`. -/
def encode (m : Mnemonic) (a : List ℤ) : ℤ :=
  let a0 := a.getD 0 0
  let a1 := a.getD 1 0
  match m with
  | dw => a0
  | jmp => Int.lor 0x6000 a0
  | jnz => Int.lor 0x3000 a0
  | call => Int.lor 0x7000 a0
  | ret => 0x0030
  | clr => Int.lor 0x0100 a0
  | inc => Int.lor 0x1400 a0
  | dec => Int.lor 0x1500 a0
  | rcl => Int.lor 0x1E00 a0
  | mov => Int.lor 0x0200 a0
  | mova => Int.lor 0x1000 a0
  | movia => Int.lor 0x2400 a0
  | movl => Int.lor 0x2800 a0
  | waitb => Int.lor 0x0010 a0
  | bctc => Int.lor 0x001C a0
  | btsc => Int.lor (Int.lor 0x5000 (a1 <<< 8)) a0
  | btss => Int.lor (Int.lor 0x5800 (a1 <<< 8)) a0
  | bs => Int.lor (Int.lor 0x4800 (a1 <<< 8)) a0
  | nop => 0x0000
  | clra => 0x0004
  | addl => Int.lor 0x2C00 a0
  | bc => Int.lor (Int.lor 0x4000 (a1 <<< 8)) a0
  | bp2f => Int.lor (Int.lor 0x00A0 (a0 <<< 3)) a1
  | bg2f => Int.lor (Int.lor 0x00E0 (a0 <<< 3)) a1

end Mnemonic

/-- `ENC[mn]` -/
def enc (mn : Token) : Option Mnemonic := Mnemonic.all.find? fun m => m.name.toList = mn

/-! ## Symbols -/

abbrev Symbols := List (Token × ℤ)

/-- An `EQU` line adds its constant, a number or another one's; other lines add nothing. -/
def equLine (py : Python) (sym : Symbols) (ln : List Char) : Except Error Symbols :=
  match py.equ.groups (uncomment ln) with
  | none => .ok sym
  | some g => do
    let name := (g.lookup 1).getD []
    let v := (g.lookup 2).getD []
    let value ←
      if (py.numberStart.groups v).isSome then py.int v
      else
        match sym.lookup v with
        | some value => .ok value
        | none => .error (.keyError v)
    return (name, value) :: sym

def loadEqus (py : Python) (text : List Char) (sym : Symbols) : Except Error Symbols :=
  (splitLines (· = '\n') true text).foldlM (equLine py) sym

/-- The constants of the file that an `INCLUDE` line names. -/
def includeLine (py : Python) (files : Token → Option (List Char)) (sym : Symbols) (ln : List Char) :
    Except Error Symbols :=
  match py.includeFile.groups (uncomment ln) with
  | none => .ok sym
  | some g =>
    let path := (g.lookup 1).getD []
    match files path with
    | some text => loadEqus py text sym
    | none => .error (.fileNotFound path)

/-! ## Pass 1 -/

structure Insn where
  mn : Token
  args : List Token
  deriving DecidableEq

inductive Line where
  /-- Blank, `INCLUDE` or `EQU`. -/
  | skip
  | org (tok : Token)
  | code (label : Option Token) (insn : Option Insn)

def parseInsn (py : Python) (l : List Char) : Insn :=
  let (mn, rest) := py.splitWord l
  ⟨mn.flatMap py.upper, rest.elim [] fun rest => (rest.splitOn ',').map py.strip⟩

/-- The tests of pass 1 on a line. -/
def parseLine (py : Python) (ln : List Char) : Line :=
  let l := py.rstrip (uncomment ln)
  if py.strip l = [] then .skip
  else if py.beginsWith py.includeWord l then .skip
  else if py.beginsWith py.equWord l then .skip
  else
    match py.org.groups l with
    | some g => .org ((g.lookup 1).getD [])
    | none =>
      match py.labelled.groups l with
      | some g =>
        let rest := py.strip ((g.lookup 2).getD [])
        .code (some ((g.lookup 1).getD []))
          (if rest = [] then none else some (parseInsn py ("    ".toList ++ rest)))
      | none => .code none (some (parseInsn py l))

structure Pass1 where
  labels : Symbols := []
  insns : List Insn := []
  addr : ℤ := 0

def Pass1.step (py : Python) (st : Pass1) : Line → Except Error Pass1
  | .skip => .ok st
  | .org tok => do return { st with addr := ← py.int tok }
  | .code label insn =>
    .ok ⟨label.elim st.labels fun name => (name, st.addr) :: st.labels, st.insns ++ insn.toList,
      st.addr + insn.toList.length⟩

/-! ## Pass 2 -/

def resolve (py : Python) (labels sym : Symbols) (tok : Token) : Except Error ℤ :=
  match labels.lookup tok with
  | some a => .ok a
  | none =>
    match sym.lookup tok with
    | some v => .ok v
    | none =>
      if (py.number.groups tok).isSome then py.int tok
      else if tok.flatMap py.upper = ['A'] then .ok 0
      else .error (.exit ("error: unresolved operand '" ++ String.ofList tok ++ "'"))

def encodeInsn (py : Python) (labels sym : Symbols) (insn : Insn) : Except Error Nat :=
  match enc insn.mn with
  | none =>
    .error (.exit ("error: opcode '" ++ String.ofList insn.mn ++ "' not in the verified table.\n" ++
      "       Confirm its C=xxxx in a verified .LST and add it to ENC."))
  | some m =>
    if insn.args.length ≠ m.arity then
      .error (.exit ("error: " ++ String.ofList insn.mn ++ " expects " ++ toString m.arity ++ " operand(s), got " ++
        toString insn.args.length))
    else do
      let a ← insn.args.mapM (resolve py labels sym)
      return (m.encode a % 0x10000).toNat

def wordBytes (w : Nat) : List UInt8 := [UInt8.ofNat (w % 0x100), UInt8.ofNat (w / 0x100 % 0x100)]

/-! ## The program -/

/-- A source file, and what its `INCLUDE`s find. -/
structure Source where
  py : Python
  files : Token → Option (List Char)
  text : List Char

namespace Source

def rawLines (src : Source) : List (List Char) := splitLines src.py.breaks false src.text

def lines (src : Source) : List Line := src.rawLines.map (parseLine src.py)

def symbols (src : Source) : Except Error Symbols := do
  let sym ← src.rawLines.foldlM (includeLine src.py src.files) []
  src.rawLines.foldlM (equLine src.py) sym

def pass1 (src : Source) : Except Error Pass1 := src.lines.foldlM (Pass1.step src.py) {}

def assemble (src : Source) : Except Error (List UInt8) := do
  let sym ← src.symbols
  let st ← src.pass1
  let words ← st.insns.mapM (encodeInsn src.py st.labels sym)
  return words.flatMap wordBytes

end Source

end Tapioca.Assembler

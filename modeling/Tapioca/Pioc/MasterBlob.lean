-- SUMMARY: The MDIO master blob `pioc/mdio_master.ASM`, instruction by instruction, and what it does to its pins and its mailbox.
import Tapioca.Lib.Bits
import Tapioca.Lib.Within
import Tapioca.Mdio.Master

/-!
# The MDIO master blob

The eMCU program of `mdio_master.ASM`. As for the capture blobs a step executes
one instruction and the program counter is the rest of the code; `CALL` puts it
on a stack. MDC and MDIO are what the port registers make of them: a pin is
driven, at the level of its latch, while its direction bit is set. The level of
the MDIO line is an input of every step, and the sampling instructions read it.
-/

namespace Tapioca.MasterBlob

open Lib.Lts Lib.Bits

def SFR_STATUS_REG : UInt8 := 0x03
def SFR_PORT_DIR : UInt8 := 0x0A
def SFR_PORT_IO : UInt8 := 0x0B
def SFR_DATA_EXCH : UInt8 := 0x1F
def CMD0 : UInt8 := 0x22
def CMD1 : UInt8 := 0x23
def CMD2 : UInt8 := 0x24
def CMD3 : UInt8 := 0x25
def CTRL : UInt8 := 0x26
def STATUS : UInt8 := 0x27
def RES_H : UInt8 := 0x28
def RES_L : UInt8 := 0x29
def SB_GP_BIT_X : Nat := 1
def SB_FLAG_C : Nat := 0
def SB_PORT_PU1 : Nat := 3
def SB_PORT_DIR1 : Nat := 1
def SB_PORT_DIR0 : Nat := 0
def SB_PORT_OUT1 : Nat := 1
def SB_PORT_OUT0 : Nat := 0

inductive Label where
  | waitGo
  | rdPath
  | doneOk
  | doneErr
  | stopClk
  | drive8
  | sample8
  | half
  deriving DecidableEq

/-- `BS` and `BC` set and clear a bit, `BTSS` and `BTSC` skip the next
instruction if it is set or clear. `MOVL k` loads the accumulator with a
constant, `MOV F, A` with a register, and `MOVA F` stores it. `BP2F` puts a bit
of the exchange register on OUT1, `BG2F` samples IN1 into one, and `BCTC` samples
IN1 into the carry. -/
inductive Instr where
  | clr (f : UInt8)
  | bs (f : UInt8) (bit : Nat)
  | bc (f : UInt8) (bit : Nat)
  | btss (f : UInt8) (bit : Nat)
  | btsc (f : UInt8) (bit : Nat)
  | jmp (l : Label)
  | call (l : Label)
  | ret
  | movl (k : UInt8)
  | mov (f : UInt8)
  | mova (f : UInt8)
  | bp2f (bit : Nat)
  | bg2f (bit : Nat)
  | bctc
  | nop
  deriving DecidableEq

open Instr

/-- `DONE_OK`. -/
def doneOk : List Instr :=
  [call .stopClk, movl 0x01, mova STATUS, bc SFR_STATUS_REG SB_GP_BIT_X, jmp .waitGo]

/-- The instructions from a label on, to the jump or return that ends them. -/
def code : Label → List Instr
  | .waitGo =>
    [btss CTRL 7, jmp .waitGo, bc CTRL 7, clr STATUS,
      bs SFR_PORT_IO SB_PORT_OUT0, bs SFR_PORT_IO SB_PORT_OUT1,
      bs SFR_PORT_DIR SB_PORT_DIR0, bs SFR_PORT_DIR SB_PORT_DIR1,
      -- preamble
      movl 0xFF, mova SFR_DATA_EXCH, call .drive8, call .drive8, call .drive8, call .drive8,
      mov CMD0, mova SFR_DATA_EXCH, call .drive8,
      btsc CTRL 0, jmp .rdPath,
      -- write
      mov CMD1, mova SFR_DATA_EXCH, call .drive8,
      mov CMD2, mova SFR_DATA_EXCH, call .drive8,
      mov CMD3, mova SFR_DATA_EXCH, call .drive8,
      jmp .doneOk]
  | .rdPath =>
    [mov CMD1, mova SFR_DATA_EXCH,
      bc SFR_PORT_IO SB_PORT_OUT0, bp2f 7, call .half, bs SFR_PORT_IO SB_PORT_OUT0, call .half,
      bc SFR_PORT_IO SB_PORT_OUT0, bp2f 6, call .half, bs SFR_PORT_IO SB_PORT_OUT0, call .half,
      bc SFR_PORT_IO SB_PORT_OUT0, bp2f 5, call .half, bs SFR_PORT_IO SB_PORT_OUT0, call .half,
      bc SFR_PORT_IO SB_PORT_OUT0, bp2f 4, call .half, bs SFR_PORT_IO SB_PORT_OUT0, call .half,
      bc SFR_PORT_IO SB_PORT_OUT0, bp2f 3, call .half, bs SFR_PORT_IO SB_PORT_OUT0, call .half,
      bc SFR_PORT_IO SB_PORT_OUT0, bp2f 2, call .half, bs SFR_PORT_IO SB_PORT_OUT0, call .half,
      -- TA1
      bc SFR_PORT_DIR SB_PORT_DIR1,
      bc SFR_PORT_IO SB_PORT_OUT0, call .half, bs SFR_PORT_IO SB_PORT_OUT0, call .half,
      -- TA0
      bc SFR_PORT_IO SB_PORT_OUT0, call .half, bctc,
      btsc SFR_STATUS_REG SB_FLAG_C, bs SFR_STATUS_REG SB_GP_BIT_X,
      bs SFR_PORT_IO SB_PORT_OUT0, call .half,
      call .sample8, mov SFR_DATA_EXCH, mova RES_H,
      call .sample8, mov SFR_DATA_EXCH, mova RES_L,
      btsc SFR_STATUS_REG SB_GP_BIT_X, jmp .doneErr] ++ doneOk
  | .doneOk => doneOk
  | .doneErr =>
    [call .stopClk, movl 0x80, mova STATUS, bc SFR_STATUS_REG SB_GP_BIT_X, jmp .waitGo]
  | .stopClk =>
    [bs SFR_PORT_IO SB_PORT_OUT1, bs SFR_PORT_DIR SB_PORT_DIR1, bs SFR_PORT_IO SB_PORT_OUT0, ret]
  | .drive8 =>
    [bc SFR_PORT_IO SB_PORT_OUT0, bp2f 7, call .half, bs SFR_PORT_IO SB_PORT_OUT0, call .half,
      bc SFR_PORT_IO SB_PORT_OUT0, bp2f 6, call .half, bs SFR_PORT_IO SB_PORT_OUT0, call .half,
      bc SFR_PORT_IO SB_PORT_OUT0, bp2f 5, call .half, bs SFR_PORT_IO SB_PORT_OUT0, call .half,
      bc SFR_PORT_IO SB_PORT_OUT0, bp2f 4, call .half, bs SFR_PORT_IO SB_PORT_OUT0, call .half,
      bc SFR_PORT_IO SB_PORT_OUT0, bp2f 3, call .half, bs SFR_PORT_IO SB_PORT_OUT0, call .half,
      bc SFR_PORT_IO SB_PORT_OUT0, bp2f 2, call .half, bs SFR_PORT_IO SB_PORT_OUT0, call .half,
      bc SFR_PORT_IO SB_PORT_OUT0, bp2f 1, call .half, bs SFR_PORT_IO SB_PORT_OUT0, call .half,
      bc SFR_PORT_IO SB_PORT_OUT0, bp2f 0, call .half, bs SFR_PORT_IO SB_PORT_OUT0, call .half, ret]
  | .sample8 =>
    [bc SFR_PORT_IO SB_PORT_OUT0, call .half, bg2f 7, bs SFR_PORT_IO SB_PORT_OUT0, call .half,
      bc SFR_PORT_IO SB_PORT_OUT0, call .half, bg2f 6, bs SFR_PORT_IO SB_PORT_OUT0, call .half,
      bc SFR_PORT_IO SB_PORT_OUT0, call .half, bg2f 5, bs SFR_PORT_IO SB_PORT_OUT0, call .half,
      bc SFR_PORT_IO SB_PORT_OUT0, call .half, bg2f 4, bs SFR_PORT_IO SB_PORT_OUT0, call .half,
      bc SFR_PORT_IO SB_PORT_OUT0, call .half, bg2f 3, bs SFR_PORT_IO SB_PORT_OUT0, call .half,
      bc SFR_PORT_IO SB_PORT_OUT0, call .half, bg2f 2, bs SFR_PORT_IO SB_PORT_OUT0, call .half,
      bc SFR_PORT_IO SB_PORT_OUT0, call .half, bg2f 1, bs SFR_PORT_IO SB_PORT_OUT0, call .half,
      bc SFR_PORT_IO SB_PORT_OUT0, call .half, bg2f 0, bs SFR_PORT_IO SB_PORT_OUT0, call .half, ret]
  | .half =>
    [nop, nop, nop, nop, nop, nop, nop, nop, nop, nop, nop, nop, nop, nop, nop, nop, ret]

/-- `MCU_START`, up to where it runs into `WAIT_GO`. -/
def mcuStart : List Instr := [clr SFR_PORT_DIR, bs SFR_PORT_DIR SB_PORT_PU1]

-- ---------------------------------------------------------------------------
-- The machine
-- ---------------------------------------------------------------------------

/-- The registers the host has access to. -/
def Shared (f : UInt8) : Prop := CMD0 ≤ f ∧ f ≤ RES_L

instance (f : UInt8) : Decidable (Shared f) := inferInstanceAs (Decidable (_ ∧ _))

/-- A byte with one bit replaced. -/
def setBit (v : UInt8) (bit : Nat) (b : Bool) : UInt8 :=
  if b then v ||| UInt8.ofNat (2 ^ bit) else v &&& ~~~ UInt8.ofNat (2 ^ bit)

structure Emcu where
  regs : UInt8 → UInt8
  /-- The accumulator. -/
  a : UInt8
  pc : List Instr
  stack : List (List Instr)

namespace Emcu

def bit (m : Emcu) (f : UInt8) (i : Nat) : Bool := (m.regs f).toNat.testBit i

def setReg (m : Emcu) (f v : UInt8) (pc : List Instr) : Emcu :=
  { m with regs := Function.update m.regs f v, pc }

/-- One instruction, with the level of the MDIO line. -/
def exec (m : Emcu) (line : Bool) : Emcu :=
  match m.pc with
  | [] => m
  | .clr f :: pc => m.setReg f 0 pc
  | .bs f i :: pc => m.setReg f (setBit (m.regs f) i true) pc
  | .bc f i :: pc => m.setReg f (setBit (m.regs f) i false) pc
  | .btss f i :: pc => { m with pc := if m.bit f i then pc.drop 1 else pc }
  | .btsc f i :: pc => { m with pc := if m.bit f i then pc else pc.drop 1 }
  | .jmp l :: _ => { m with pc := code l }
  | .call l :: pc => { m with pc := code l, stack := pc :: m.stack }
  | .ret :: _ => { m with pc := m.stack.headD [], stack := m.stack.tail }
  | .movl k :: pc => { m with a := k, pc }
  | .mov f :: pc => { m with a := m.regs f, pc }
  | .mova f :: pc => m.setReg f m.a pc
  | .bp2f i :: pc =>
    m.setReg SFR_PORT_IO (setBit (m.regs SFR_PORT_IO) SB_PORT_OUT1 (m.bit SFR_DATA_EXCH i)) pc
  | .bg2f i :: pc => m.setReg SFR_DATA_EXCH (setBit (m.regs SFR_DATA_EXCH) i line) pc
  | .bctc :: pc => m.setReg SFR_STATUS_REG (setBit (m.regs SFR_STATUS_REG) SB_FLAG_C line) pc
  | .nop :: pc => { m with pc }

/-- The registers cleared, at the reset vector's jump. -/
def start : Emcu where
  regs _ := 0
  a := 0
  pc := mcuStart ++ code .waitGo
  stack := []

end Emcu

/-- What the host writes in front of an instruction, and the level of MDIO during it. -/
structure Turn where
  writes : List ({f : UInt8 // Shared f} × UInt8)
  line : Bool

namespace Emcu

def write (m : Emcu) (w : {f : UInt8 // Shared f} × UInt8) : Emcu :=
  { m with regs := Function.update m.regs w.1 w.2 }

def served (m : Emcu) (t : Turn) : Emcu := t.writes.foldl write m

def step (m : Emcu) (t : Turn) : Emcu := (m.served t).exec t.line

end Emcu

-- ---------------------------------------------------------------------------
-- What is seen of it
-- ---------------------------------------------------------------------------

/-- What the program keeps where the host does not write: the direction and the
latch of both pins, the no-response flag, the carry, the exchange register and
the accumulator. -/
structure Own where
  dir0 : Bool
  dir1 : Bool
  out0 : Bool
  out1 : Bool
  noResp : Bool
  carry : Bool
  exch : UInt8
  a : UInt8

/-- The level MDC is driven at. -/
def Own.mdc (p : Own) : Option Bool := if p.dir0 then some p.out0 else none

/-- The level MDIO is driven at. -/
def Own.mdio (p : Own) : Option Bool := if p.dir1 then some p.out1 else none

def Emcu.own (m : Emcu) : Own where
  dir0 := m.bit SFR_PORT_DIR SB_PORT_DIR0
  dir1 := m.bit SFR_PORT_DIR SB_PORT_DIR1
  out0 := m.bit SFR_PORT_IO SB_PORT_OUT0
  out1 := m.bit SFR_PORT_IO SB_PORT_OUT1
  noResp := m.bit SFR_STATUS_REG SB_GP_BIT_X
  carry := m.bit SFR_STATUS_REG SB_FLAG_C
  exch := m.regs SFR_DATA_EXCH
  a := m.a

/-- What goes on between the blob, its pins and the host. -/
inductive Act
  /-- The host writes a register of the mailbox. -/
  | host (f v : UInt8)
  /-- The poll finds GO set. -/
  | seesGo
  /-- GO is cleared. -/
  | takesGo
  /-- The op bit is tested. -/
  | op (read : Bool)
  | load (f v : UInt8)
  | store (f v : UInt8)
  /-- A pin becomes an output, with its latch at this level. -/
  | mdcOut (level : Bool)
  | mdioOut (level : Bool)
  /-- MDIO becomes an input. -/
  | mdioIn
  /-- MDC falls. -/
  | fall
  /-- MDC rises, with MDIO driven at a level or not at all. -/
  | rise (mdio : Option Bool)
  /-- MDIO is sampled. -/
  | sample (b : Bool)
  deriving DecidableEq

def Act.ofBlob : Act → Bool
  | .host _ _ => false
  | _ => true

/-- What an instruction reads from outside: the level of MDIO, and the register it
names. -/
structure Reads where
  line : Bool
  mail : UInt8

/-- The register an instruction reads or tests. -/
def Instr.source : Instr → UInt8
  | .mov f | .btss f _ | .btsc f _ => f
  | _ => CTRL

def Emcu.reads (m : Emcu) (line : Bool) : Reads where
  line := line
  mail := m.regs (m.pc.headD .nop).source

/-- An instruction's dealings with the mailbox and with MDIO. -/
def Instr.acts (p : Own) (r : Reads) : Instr → List Act
  | .btss f i => if f = CTRL ∧ r.mail.toNat.testBit i then [.seesGo] else []
  | .btsc f i => if f = CTRL then [.op (r.mail.toNat.testBit i)] else []
  | .mov f => if Shared f then [.load f r.mail] else []
  | .mova f => if Shared f then [.store f p.a] else []
  | .clr f => if Shared f then [.store f 0] else []
  | .bs f i =>
    if f = SFR_PORT_DIR then
      if i = SB_PORT_DIR0 then [.mdcOut p.out0] else if i = SB_PORT_DIR1 then [.mdioOut p.out1] else []
    else []
  | .bc f i =>
    if f = CTRL then [.takesGo] else if f = SFR_PORT_DIR ∧ i = SB_PORT_DIR1 then [.mdioIn] else []
  | .bg2f _ | .bctc => [.sample r.line]
  | _ => []

section
variable (p : Own) (r : Reads) (f : UInt8) (i : Nat)

@[simp] theorem Instr.acts_btss :
    (Instr.btss f i).acts p r = if f = CTRL ∧ r.mail.toNat.testBit i then [.seesGo] else [] := rfl

@[simp] theorem Instr.acts_btsc :
    (Instr.btsc f i).acts p r = if f = CTRL then [.op (r.mail.toNat.testBit i)] else [] := rfl

@[simp] theorem Instr.acts_mov : (Instr.mov f).acts p r = if Shared f then [.load f r.mail] else [] := rfl

@[simp] theorem Instr.acts_mova : (Instr.mova f).acts p r = if Shared f then [.store f p.a] else [] := rfl

@[simp] theorem Instr.acts_clr : (Instr.clr f).acts p r = if Shared f then [.store f 0] else [] := rfl

@[simp] theorem Instr.acts_bs : (Instr.bs f i).acts p r =
    if f = SFR_PORT_DIR then
      if i = SB_PORT_DIR0 then [.mdcOut p.out0] else if i = SB_PORT_DIR1 then [.mdioOut p.out1] else []
    else [] := rfl

@[simp] theorem Instr.acts_bc : (Instr.bc f i).acts p r =
    if f = CTRL then [.takesGo] else if f = SFR_PORT_DIR ∧ i = SB_PORT_DIR1 then [.mdioIn] else [] := rfl

end

/-- The edge of MDC between two states. -/
def edge (p q : Own) : List Act :=
  match p.mdc, q.mdc with
  | some true, some false => [.fall]
  | some false, some true => [.rise q.mdio]
  | _, _ => []

/-- What the blob does in a turn. -/
def Emcu.acts (m : Emcu) (t : Turn) : List Act :=
  let m := m.served t
  (m.pc.headD .nop).acts m.own (m.reads t.line) ++ edge m.own (m.exec t.line).own

/-- What the host and the blob do in a turn. -/
def Emcu.trace (m : Emcu) (t : Turn) : List Act :=
  t.writes.map (fun w => .host w.1 w.2) ++ m.acts t

-- ---------------------------------------------------------------------------
-- The blob with the mailbox as an input
-- ---------------------------------------------------------------------------

/-- The blob, less the registers the host may change under it. -/
structure Core where
  own : Own
  pc : List Instr
  stack : List (List Instr)

def Emcu.core (m : Emcu) : Core := ⟨m.own, m.pc, m.stack⟩

def Own.setBit (p : Own) (f : UInt8) (i : Nat) (b : Bool) : Own :=
  { p with
    dir0 := if f = SFR_PORT_DIR ∧ i = SB_PORT_DIR0 then b else p.dir0
    dir1 := if f = SFR_PORT_DIR ∧ i = SB_PORT_DIR1 then b else p.dir1
    out0 := if f = SFR_PORT_IO ∧ i = SB_PORT_OUT0 then b else p.out0
    out1 := if f = SFR_PORT_IO ∧ i = SB_PORT_OUT1 then b else p.out1
    noResp := if f = SFR_STATUS_REG ∧ i = SB_GP_BIT_X then b else p.noResp
    carry := if f = SFR_STATUS_REG ∧ i = SB_FLAG_C then b else p.carry }

/-- The bit `BTSC` tests. -/
def Own.tested (p : Own) (r : Reads) (f : UInt8) (i : Nat) : Bool :=
  if f = CTRL then r.mail.toNat.testBit i else if i = SB_GP_BIT_X then p.noResp else p.carry

def Core.step (c : Core) (r : Reads) : Core :=
  match c.pc with
  | [] => c
  | .clr f :: pc =>
    { c with own := if f = SFR_PORT_DIR then { c.own with dir0 := false, dir1 := false } else c.own, pc }
  | .bs f i :: pc => { c with own := c.own.setBit f i true, pc }
  | .bc f i :: pc => { c with own := c.own.setBit f i false, pc }
  | .btss _ i :: pc => { c with pc := if r.mail.toNat.testBit i then pc.drop 1 else pc }
  | .btsc f i :: pc => { c with pc := if c.own.tested r f i then pc else pc.drop 1 }
  | .jmp l :: _ => { c with pc := code l }
  | .call l :: pc => { c with pc := code l, stack := pc :: c.stack }
  | .ret :: _ => { c with pc := c.stack.headD [], stack := c.stack.tail }
  | .movl k :: pc => { c with own := { c.own with a := k }, pc }
  | .mov f :: pc => { c with own := { c.own with a := if f = SFR_DATA_EXCH then c.own.exch else r.mail }, pc }
  | .mova f :: pc =>
    { c with own := if f = SFR_DATA_EXCH then { c.own with exch := c.own.a } else c.own, pc }
  | .bp2f i :: pc => { c with own := { c.own with out1 := c.own.exch.toNat.testBit i }, pc }
  | .bg2f i :: pc => { c with own := { c.own with exch := MasterBlob.setBit c.own.exch i r.line }, pc }
  | .bctc :: pc => { c with own := { c.own with carry := r.line }, pc }
  | .nop :: pc => { c with pc }

def Core.acts (c : Core) (r : Reads) : List Act :=
  (c.pc.headD .nop).acts c.own r ++ edge c.own (c.step r).own

/-- The registers and bits the program uses. It writes none of CMD0..3, and of CTRL
only GO. -/
def Instr.Known : Instr → Prop
  | .clr f => f = SFR_PORT_DIR ∨ f = STATUS
  | .bs f i => (f = SFR_PORT_IO ∨ f = SFR_PORT_DIR ∨ f = SFR_STATUS_REG) ∧ i < 8
  | .bc f i => (f = SFR_PORT_IO ∨ f = SFR_PORT_DIR ∨ f = SFR_STATUS_REG) ∧ i < 8 ∨ f = CTRL ∧ i = 7
  | .btss f i => f = CTRL ∧ i = 7
  | .btsc f i => f = CTRL ∧ i = 0 ∨ f = SFR_STATUS_REG ∧ (i = SB_FLAG_C ∨ i = SB_GP_BIT_X)
  | .mov f => f = SFR_DATA_EXCH ∨ f = CMD0 ∨ f = CMD1 ∨ f = CMD2 ∨ f = CMD3
  | .mova f => f = SFR_DATA_EXCH ∨ f = STATUS ∨ f = RES_H ∨ f = RES_L
  | .bp2f i | .bg2f i => i < 8
  | .jmp _ | .call _ | .ret | .movl _ | .bctc | .nop => True

instance Instr.decidableKnown : ∀ i : Instr, Decidable i.Known
  | .clr _ => inferInstanceAs (Decidable (_ ∨ _))
  | .bs _ _ => inferInstanceAs (Decidable (_ ∧ _))
  | .bc _ _ => inferInstanceAs (Decidable (_ ∨ _))
  | .btss _ _ => inferInstanceAs (Decidable (_ ∧ _))
  | .btsc _ _ => inferInstanceAs (Decidable (_ ∨ _))
  | .mov _ => inferInstanceAs (Decidable (_ ∨ _))
  | .mova _ => inferInstanceAs (Decidable (_ ∨ _))
  | .bp2f _ | .bg2f _ => inferInstanceAs (Decidable (_ < _))
  | .jmp _ | .call _ | .ret | .movl _ | .bctc | .nop => inferInstanceAs (Decidable True)

/-- The blob runs nothing but its program. -/
structure Emcu.Sound (m : Emcu) : Prop where
  pc : ∀ i ∈ m.pc, i.Known
  stack : ∀ pc ∈ m.stack, ∀ i ∈ pc, i.Known

theorem code_known (l : Label) : ∀ i ∈ code l, i.Known := by
  cases l <;> decide

-- ---------------------------------------------------------------------------
-- Registers and bits
-- ---------------------------------------------------------------------------

theorem testBit_setBit (v : UInt8) {i j : Nat} (hi : i < 8) (hj : j < 8) (b : Bool) :
    (setBit v j b).toNat.testBit i = if j = i then b else v.toNat.testBit i := by
  have hlt : 2 ^ j < 2 ^ 8 := Nat.pow_lt_pow_right (by decide) hj
  have hpow : (UInt8.ofNat (2 ^ j)).toNat = 2 ^ j := Nat.mod_eq_of_lt hlt
  cases b with
  | true =>
    rw [setBit, if_pos rfl, UInt8.toNat_or, hpow, Nat.testBit_or, Nat.testBit_two_pow]
    by_cases hij : j = i <;> simp [hij]
  | false =>
    have hnot : (~~~ UInt8.ofNat (2 ^ j)).toNat = 2 ^ 8 - (2 ^ j + 1) := by
      have hsize : UInt8.size = 2 ^ 8 := rfl
      rw [UInt8.toNat_not, hpow, hsize]
      omega
    rw [setBit, if_neg Bool.false_ne_true, UInt8.toNat_and, hnot, Nat.testBit_and,
      Nat.testBit_two_pow_sub_succ hlt, Nat.testBit_two_pow, decide_eq_true hi]
    by_cases hij : j = i <;> simp [hij]

@[simp] theorem regs_setReg (m : Emcu) (f v : UInt8) (pc : List Instr) :
    (m.setReg f v pc).regs = Function.update m.regs f v := rfl

theorem bit_setReg (m : Emcu) (f v : UInt8) (pc : List Instr) (g : UInt8) (i : Nat) :
    (m.setReg f v pc).bit g i = if g = f then v.toNat.testBit i else m.bit g i := by
  rw [Emcu.bit, regs_setReg]
  by_cases hg : g = f
  · rw [if_pos hg, hg, Function.update_self]
  · rw [if_neg hg, Function.update_of_ne hg, Emcu.bit]

theorem own_setReg_bit (m : Emcu) {f : UInt8} {i : Nat} (hf : f ≠ SFR_DATA_EXCH) (hi : i < 8) (b : Bool)
    (pc : List Instr) : (m.setReg f (setBit (m.regs f) i b) pc).own = m.own.setBit f i b := by
  have hexch : (m.setReg f (setBit (m.regs f) i b) pc).regs SFR_DATA_EXCH = m.regs SFR_DATA_EXCH :=
    Function.update_of_ne hf.symm _ _
  have hbit : ∀ g j, j < 8 → (m.setReg f (setBit (m.regs f) i b) pc).bit g j =
      if f = g ∧ i = j then b else m.bit g j := by
    intro g j hj
    rw [bit_setReg, testBit_setBit _ hj hi]
    by_cases hg : g = f
    · subst hg
      by_cases hij : i = j <;> simp [hij, Emcu.bit]
    · simp [hg, Ne.symm hg]
  simp only [Emcu.own, hexch, Own.setBit]
  congr 1 <;> exact hbit _ _ (by decide)

/-- A register that is neither a port nor the status nor the exchange register. -/
theorem own_setReg_other (m : Emcu) {f : UInt8} (hdir : f ≠ SFR_PORT_DIR) (hio : f ≠ SFR_PORT_IO)
    (hstatus : f ≠ SFR_STATUS_REG) (hexch : f ≠ SFR_DATA_EXCH) (v : UInt8) (pc : List Instr) :
    (m.setReg f v pc).own = m.own := by
  simp only [Emcu.own, bit_setReg, regs_setReg, if_neg hdir.symm, if_neg hio.symm, if_neg hstatus.symm,
    Function.update_of_ne hexch.symm]
  rfl

theorem own_setReg_exch (m : Emcu) (v : UInt8) (pc : List Instr) :
    (m.setReg SFR_DATA_EXCH v pc).own = { m.own with exch := v } := rfl

theorem own_setReg_dir (m : Emcu) (pc : List Instr) :
    (m.setReg SFR_PORT_DIR 0 pc).own = { m.own with dir0 := false, dir1 := false } := by
  simp only [Emcu.own, bit_setReg, regs_setReg]
  rfl

-- ---------------------------------------------------------------------------
-- The simulation
-- ---------------------------------------------------------------------------

/-- The instruction-by-instruction simulation: the program does to its own state
what `Core` says, given what it reads. -/
theorem core_exec {m : Emcu} (hm : m.Sound) (line : Bool) :
    (m.exec line).core = m.core.step (m.reads line) := by
  obtain ⟨regs, a, pc, stack⟩ := m
  cases pc with
  | nil => rfl
  | cons i pc =>
    have hi : i.Known := hm.pc i (.head _)
    -- a write lands in the part of the state it names; only btsc and mov depend on what is read
    cases i with
    | clr f =>
      rcases hi with rfl | rfl
      · exact congrArg (Core.mk · pc stack) (own_setReg_dir _ pc)
      · exact congrArg (Core.mk · pc stack) (own_setReg_other _ (by decide) (by decide) (by decide) (by decide) 0 pc)
    | bs f i =>
      have hne : f ≠ SFR_DATA_EXCH := by
        rcases hi.1 with rfl | rfl | rfl <;> decide
      exact congrArg (Core.mk · pc stack) (own_setReg_bit _ hne hi.2 true pc)
    | bc f i =>
      have hne : f ≠ SFR_DATA_EXCH ∧ i < 8 := by
        rcases hi with ⟨rfl | rfl | rfl, hlt⟩ | ⟨rfl, rfl⟩
        · exact ⟨by decide, hlt⟩
        · exact ⟨by decide, hlt⟩
        · exact ⟨by decide, hlt⟩
        · decide
      exact congrArg (Core.mk · pc stack) (own_setReg_bit _ hne.1 hne.2 false pc)
    | btss f i => rfl
    | btsc f i =>
      have htest : (Emcu.mk regs a (.btsc f i :: pc) stack).bit f i =
          (Emcu.mk regs a (.btsc f i :: pc) stack).own.tested
            ((Emcu.mk regs a (.btsc f i :: pc) stack).reads line) f i := by
        rcases hi with ⟨rfl, rfl⟩ | ⟨rfl, rfl | rfl⟩ <;> rfl
      exact congrArg (fun b => Core.mk _ (if b then pc else pc.drop 1) stack) htest
    | jmp l => rfl
    | call l => rfl
    | ret => rfl
    | movl k => rfl
    | mov f =>
      have hread : regs f = if f = SFR_DATA_EXCH then regs SFR_DATA_EXCH else regs f := by
        split
        · rename_i heq
          rw [heq]
        · rfl
      exact congrArg (fun v => Core.mk { (Emcu.mk regs a (.mov f :: pc) stack).own with a := v } pc stack) hread
    | mova f =>
      rcases hi with rfl | rfl | rfl | rfl
      · exact congrArg (Core.mk · pc stack) (own_setReg_exch _ a pc)
      · exact congrArg (Core.mk · pc stack) (own_setReg_other _ (by decide) (by decide) (by decide) (by decide) a pc)
      · exact congrArg (Core.mk · pc stack) (own_setReg_other _ (by decide) (by decide) (by decide) (by decide) a pc)
      · exact congrArg (Core.mk · pc stack) (own_setReg_other _ (by decide) (by decide) (by decide) (by decide) a pc)
    | bp2f i =>
      exact congrArg (Core.mk · pc stack) (own_setReg_bit _ (by decide) (by decide) (regs SFR_DATA_EXCH |>.toNat.testBit i) pc)
    | bg2f i => exact congrArg (Core.mk · pc stack) (own_setReg_exch _ _ pc)
    | bctc => exact congrArg (Core.mk · pc stack) (own_setReg_bit _ (by decide) (by decide) line pc)
    | nop => rfl

theorem Emcu.Sound.exec {m : Emcu} (hm : m.Sound) (line : Bool) : (m.exec line).Sound := by
  obtain ⟨regs, a, pc, stack⟩ := m
  obtain ⟨hpc, hstack⟩ := hm
  cases pc with
  | nil => exact ⟨hpc, hstack⟩
  | cons i pc =>
    have htail : ∀ i ∈ pc, i.Known := fun i hi => hpc i (.tail _ hi)
    have hskip : ∀ b : Bool, ∀ i ∈ if b then pc.drop 1 else pc, i.Known
      | true => fun i hi => htail i (List.mem_of_mem_drop hi)
      | false => htail
    have hnoskip : ∀ b : Bool, ∀ i ∈ if b then pc else pc.drop 1, i.Known
      | true => htail
      | false => fun i hi => htail i (List.mem_of_mem_drop hi)
    cases i with
    | jmp l => exact ⟨code_known l, hstack⟩
    | call l => exact ⟨code_known l, List.forall_mem_cons.mpr ⟨htail, hstack⟩⟩
    | ret =>
      cases stack with
      | nil => exact ⟨List.forall_mem_nil _, hstack⟩
      | cons back stack => exact List.forall_mem_cons.mp hstack |>.elim fun hback hrest => ⟨hback, hrest⟩
    | btss f i => exact ⟨hskip _, hstack⟩
    | btsc f i => exact ⟨hnoskip _, hstack⟩
    | clr _ | bs _ _ | bc _ _ | movl _ | mov _ | mova _ | bp2f _ | bg2f _ | bctc | nop => exact ⟨htail, hstack⟩

theorem core_write (m : Emcu) (w : {f : UInt8 // Shared f} × UInt8) : (m.write w).core = m.core := by
  have hne : ∀ f, ¬ Shared f → (m.write w).regs f = m.regs f := fun f hf =>
    Function.update_of_ne (fun heq : f = w.1.1 => hf (heq ▸ w.1.2)) _ _
  have hdir := hne SFR_PORT_DIR (by decide)
  have hio := hne SFR_PORT_IO (by decide)
  have hstatus := hne SFR_STATUS_REG (by decide)
  have hexch := hne SFR_DATA_EXCH (by decide)
  have hown : (m.write w).own = m.own := by
    simp only [Emcu.own, Emcu.bit, hdir, hio, hstatus, hexch]
    rfl
  exact congrArg (Core.mk · m.pc m.stack) hown

/-- The host does not reach what the program keeps to itself. -/
theorem core_served (m : Emcu) (t : Turn) : (m.served t).core = m.core := by
  have hfold : ∀ ws : List ({f : UInt8 // Shared f} × UInt8), (ws.foldl Emcu.write m).core = m.core := by
    intro ws
    induction ws using List.reverseRecOn with
    | nil => rfl
    | append_singleton ws w ih => rw [List.foldl_append, List.foldl_cons, List.foldl_nil, core_write, ih]
  exact hfold t.writes

theorem Emcu.Sound.served {m : Emcu} (hm : m.Sound) (t : Turn) : (m.served t).Sound := by
  have hpc : (m.served t).pc = m.pc := congrArg Core.pc (core_served m t)
  have hstack : (m.served t).stack = m.stack := congrArg Core.stack (core_served m t)
  exact ⟨hpc ▸ hm.pc, hstack ▸ hm.stack⟩

theorem Emcu.Sound.step {m : Emcu} (hm : m.Sound) (t : Turn) : (m.step t).Sound := (hm.served t).exec t.line

/-- A turn of the blob is a step of its core that does the same. -/
theorem core_step {m : Emcu} (hm : m.Sound) (t : Turn) :
    ∃ r, (m.step t).core = m.core.step r ∧ m.acts t = m.core.acts r := by
  refine ⟨(m.served t).reads t.line, ?_, ?_⟩
  · rw [Emcu.step, core_exec (hm.served t), core_served]
  · have hexec := core_exec (hm.served t) t.line
    rw [core_served] at hexec
    have hown : ((m.served t).exec t.line).own = (m.core.step ((m.served t).reads t.line)).own :=
      congrArg Core.own hexec
    have hpc : (m.served t).pc = m.core.pc := congrArg Core.pc (core_served m t)
    have hsame : (m.served t).own = m.core.own := congrArg Core.own (core_served m t)
    simp only [Emcu.acts, Core.acts, hown, hpc, hsame]

theorem sound_start : Emcu.start.Sound := by
  refine ⟨?_, List.forall_mem_nil _⟩
  decide

end Tapioca.MasterBlob

-- SUMMARY: The run-length capture blob `pioc/rle_sniffer.ASM`, instruction by instruction, and the run lengths it stores.
import Tapioca.Lib.Lts
import Tapioca.Sniffer.RleSystem

/-!
# The run-length capture blob

The eMCU program of `rle_sniffer.ASM` over the few RISC8B instructions it uses.
A step executes one instruction; the level of the data line matters to `BCTC`
alone. The program counter is the rest of the code: a jump replaces it, a skip
drops its front.
-/

namespace Tapioca.RleBlob

open Pioc Lib.Lts

def SFR_INDIR_PORT2 : UInt8 := 0x01
def SFR_STATUS_REG : UInt8 := 0x03
def SFR_INDIR_ADDR2 : UInt8 := 0x09
def SFR_PORT_DIR : UInt8 := 0x0A
def SB_FLAG_C : Nat := 0
def CNT : UInt8 := 0x20
def HEAD : UInt8 := 0x21
def RING_BASE : UInt8 := 0x22
def CAP_BIT : Nat := 7

inductive Label where
  | high
  | hiRun
  | hiCap
  | low
  | rise
  | loCap
  deriving DecidableEq

/-- `BCTC` loads the carry from the data line, `MOV F, A` loads the accumulator,
`MOVA F` stores it, `MOVIA k` loads the indirect pointer, `BTSC` skips the next
instruction if the bit is clear. -/
inductive Instr where
  | clr (f : UInt8)
  | bctc
  | btsc (f : UInt8) (bit : Nat)
  | jmp (l : Label)
  | mov (f : UInt8)
  | mova (f : UInt8)
  | inc (f : UInt8)
  | movia (k : UInt8)
  deriving DecidableEq

open Instr

/-- The instructions from a label on, to the jump that ends them. -/
def code : Label → List Instr
  | .high =>
    [bctc, btsc SFR_STATUS_REG SB_FLAG_C, jmp .hiRun, mov CNT, mova SFR_INDIR_PORT2, inc HEAD,
      btsc SFR_INDIR_ADDR2 6, movia RING_BASE, clr CNT, jmp .low]
  | .hiRun => [inc CNT, btsc CNT CAP_BIT, jmp .hiCap, jmp .high]
  | .hiCap =>
    [mov CNT, mova SFR_INDIR_PORT2, inc HEAD, btsc SFR_INDIR_ADDR2 6, movia RING_BASE, clr CNT,
      jmp .high]
  | .low =>
    [bctc, btsc SFR_STATUS_REG SB_FLAG_C, jmp .rise, inc CNT, btsc CNT CAP_BIT, jmp .loCap, jmp .low]
  | .rise =>
    [mov CNT, mova SFR_INDIR_PORT2, inc HEAD, btsc SFR_INDIR_ADDR2 6, movia RING_BASE, clr CNT,
      jmp .high]
  | .loCap =>
    [mov CNT, mova SFR_INDIR_PORT2, inc HEAD, btsc SFR_INDIR_ADDR2 6, movia RING_BASE, clr CNT,
      jmp .low]

/-- `MCU_START`, up to where it runs into `HIGH`. -/
def mcuStart : List Instr := [clr SFR_PORT_DIR, clr HEAD, clr CNT, movia RING_BASE]

structure Emcu where
  regs : Regs
  /-- The accumulator. -/
  a : UInt8
  pc : List Instr

/-- The carry flag, bit 0 of the status register. -/
def setCarry (status : UInt8) (c : Bool) : UInt8 := if c then status ||| 1 else status &&& 0xFE

def Emcu.step (m : Emcu) (line : Bool) : Emcu :=
  match m.pc with
  | [] => m
  | .clr f :: pc => { m with regs := Function.update m.regs f 0, pc }
  | .bctc :: pc =>
    { m with regs := Function.update m.regs SFR_STATUS_REG (setCarry (m.regs SFR_STATUS_REG) line), pc }
  | .btsc f bit :: pc => { m with pc := if (m.regs f).toNat.testBit bit then pc else pc.drop 1 }
  | .jmp l :: _ => { m with pc := code l }
  | .mov f :: pc => { m with a := m.regs f, pc }
  | .mova f :: pc =>
    -- a store through the port goes where the pointer points, and moves it on
    if f = SFR_INDIR_PORT2 then
      let p := m.regs SFR_INDIR_ADDR2
      { m with regs := Function.update (Function.update m.regs p m.a) SFR_INDIR_ADDR2 (p + 1), pc }
    else { m with regs := Function.update m.regs f m.a, pc }
  | .inc f :: pc => { m with regs := Function.update m.regs f (m.regs f + 1), pc }
  | .movia k :: pc => { m with regs := Function.update m.regs SFR_INDIR_ADDR2 k, pc }

/-- The sample a step reads. -/
def Emcu.samples (m : Emcu) (line : Bool) : List Bool :=
  match m.pc with
  | .bctc :: _ => [line]
  | _ => []

/-- The byte a step stores in the FIFO. -/
def Emcu.puts (m : Emcu) : List UInt8 :=
  match m.pc with
  | .mova _ :: _ => [m.a]
  | _ => []

/-- Behind `MCU_START`, in front of the first sample. -/
def Emcu.start (regs : Regs) (a : UInt8) : Emcu :=
  run Emcu.step ⟨regs, a, mcuStart ++ code .high⟩ (mcuStart.map fun _ => false)

-- ---------------------------------------------------------------------------
-- Run lengths
-- ---------------------------------------------------------------------------

/-- The line as the samples tell it: the lengths of the runs that have ended, and
the level and length of the open one. The sample that detects an edge counts for
neither run. -/
structure Line where
  level : Bool
  runs : List Nat
  length : Nat

namespace Line

def idle : Line where
  level := true
  runs := []
  length := 0

def sample (line : Line) (s : Bool) : Line :=
  if s = line.level then { line with length := line.length + 1 }
  else { level := s, runs := line.runs ++ [line.length], length := 0 }

/-- The continuation bytes of a run of `n` samples. -/
def caps (n : Nat) : List UInt8 := List.replicate (n / 128) 0x80

def runBytes (n : Nat) : List UInt8 := caps n ++ [UInt8.ofNat (n % 128)]

/-- An open run has left its continuation bytes only. -/
def bytes (line : Line) : List UInt8 := line.runs.flatMap runBytes ++ caps line.length

theorem caps_succ (n : Nat) :
    caps (n + 1) = caps n ++ if (n + 1) % 128 = 0 then [0x80] else [] := by
  rw [caps, caps]
  split
  · have hdiv : (n + 1) / 128 = n / 128 + 1 := by omega
    rw [hdiv, List.replicate_succ']
  · have hdiv : (n + 1) / 128 = n / 128 := by omega
    rw [hdiv, List.append_nil]

theorem bytes_same (line : Line) :
    (line.sample line.level).bytes =
      line.bytes ++ if (line.length + 1) % 128 = 0 then [0x80] else [] := by
  rw [sample, if_pos rfl, bytes, bytes, caps_succ, List.append_assoc]

theorem bytes_edge {line : Line} {s : Bool} (h : s ≠ line.level) :
    (line.sample s).bytes = line.bytes ++ [UInt8.ofNat (line.length % 128)] := by
  rw [sample, if_neg h, bytes, bytes, List.flatMap_append, List.flatMap_singleton, runBytes]
  simp [caps]

/-- A sample ends at most one byte. -/
theorem bytes_sample (line : Line) (s : Bool) :
    ∃ t, (line.sample s).bytes = line.bytes ++ t ∧ t.length ≤ 1 := by
  by_cases hs : s = line.level
  · subst hs
    exact ⟨_, line.bytes_same, by split <;> simp⟩
  · exact ⟨_, bytes_edge hs, le_refl 1⟩

end Line

/-- The bytes that a sequence of samples stands for. -/
def encode (samples : List Bool) : List UInt8 := (samples.foldl Line.sample .idle).bytes

/-- Samples with runs of the given lengths, the first one at level `l`, and an open
one at the end. -/
def waves (l : Bool) : List Nat → Nat → List Bool
  | [], n => List.replicate n l
  | k :: ks, n => List.replicate k l ++ (!l) :: waves (!l) ks n

theorem Line.foldl_replicate (line : Line) (n : Nat) :
    (List.replicate n line.level).foldl Line.sample line =
      { line with length := line.length + n } := by
  induction n generalizing line with
  | zero => rfl
  | succ n ih =>
    have hnext := ih (line.sample line.level)
    rw [Line.sample, if_pos rfl] at hnext
    rw [List.replicate_succ, List.foldl_cons, Line.sample, if_pos rfl, hnext, Nat.add_right_comm]
    rfl

theorem Line.foldl_waves {line : Line} (h : line.length = 0) (ks : List Nat) (n : Nat) :
    ((waves line.level ks n).foldl Line.sample line).bytes =
      line.runs.flatMap runBytes ++ (ks.flatMap runBytes ++ caps n) := by
  induction ks generalizing line with
  | nil =>
    rw [waves, Line.foldl_replicate, Line.bytes, h, Nat.zero_add]
    rfl
  | cons k ks ih =>
    have hnext := @ih ⟨!line.level, line.runs ++ [k], 0⟩ rfl
    rw [waves, List.foldl_append, Line.foldl_replicate, List.foldl_cons, Line.sample,
      if_neg (Bool.not_ne_self line.level), h, Nat.zero_add, hnext, List.flatMap_append,
      List.flatMap_singleton, List.flatMap_cons]
    simp only [List.append_assoc]

/-- What `encode` makes of the runs of a line that starts high. -/
theorem encode_waves (ks : List Nat) (n : Nat) :
    encode (waves true ks n) = ks.flatMap Line.runBytes ++ Line.caps n :=
  @Line.foldl_waves .idle rfl ks n

-- ---------------------------------------------------------------------------
-- Where the program stands
-- ---------------------------------------------------------------------------

/-- A place in the program, for a run at level `l`. The last seven are the
instructions of a store site: of the terminal byte that ends the run (`e`), or of
a continuation byte. -/
inductive Point where
  | sample (l : Bool)
  | test (l s : Bool)
  | branch (l : Bool)
  | count (l : Bool)
  | full (l : Bool)
  | toCap (l : Bool)
  | again (l : Bool)
  | load (l e : Bool)
  | put (l e : Bool)
  | publish (l e : Bool)
  | check (l e : Bool)
  | reload (l e : Bool)
  | clear (l e : Bool)
  | back (l e : Bool)

/-- The store sites. -/
def site : Bool → Bool → List Instr
  | true, true => (code .high).drop 3
  | true, false => code .hiCap
  | false, true => code .rise
  | false, false => code .loCap

/-- Where a run that goes on is counted. -/
def counting : Bool → List Instr
  | true => code .hiRun
  | false => (code .low).drop 3

def loopHead : Bool → List Instr
  | true => code .high
  | false => code .low

def Point.code : Point → List Instr
  | .sample l => loopHead l
  | .test l _ => (loopHead l).drop 1
  | .branch l => (loopHead l).drop 2
  | .count l => counting l
  | .full l => (counting l).drop 1
  | .toCap l => (counting l).drop 2
  | .again l => (counting l).drop 3
  | .load l e => site l e
  | .put l e => (site l e).drop 1
  | .publish l e => (site l e).drop 2
  | .check l e => (site l e).drop 3
  | .reload l e => (site l e).drop 4
  | .clear l e => (site l e).drop 5
  | .back l e => (site l e).drop 6

-- ---------------------------------------------------------------------------
-- What the registers hold there
-- ---------------------------------------------------------------------------

abbrev Ring := Fifo RleSniffer.layout

/-- The samples of the line are in the counter and the stored bytes. -/
structure Counted (m : Emcu) (f : Ring) (line : Line) (l : Bool) : Prop where
  level : line.level = l
  cnt : m.regs CNT = UInt8.ofNat (line.length % 128)
  stored : line.bytes = f.stored

theorem Counted.of_regs {m m' : Emcu} {f : Ring} {line : Line} {l : Bool} (h : Counted m f line l)
    (hregs : m'.regs = m.regs) : Counted m' f line l where
  level := h.level
  cnt := hregs ▸ h.cnt
  stored := h.stored

/-- One byte is still to be stored, at a run boundary or a whole cap. -/
structure Pending (v : UInt8) (f : Ring) (line : Line) (l : Bool) : Prop where
  level : line.level = l
  length : line.length % 128 = 0
  stored : line.bytes = f.stored ++ [v]

/-- The byte has been stored. -/
structure Stored (f : Ring) (line : Line) (l : Bool) : Prop where
  level : line.level = l
  length : line.length % 128 = 0
  stored : line.bytes = f.stored

/-- The level behind a store site. -/
def next (l e : Bool) : Bool := if e then !l else l

theorem Pending.of_edge {m m' : Emcu} {f : Ring} {before line : Line} {l s : Bool}
    (h : Counted m f before l) (hs : s = !l) (hregs : m'.regs = m.regs)
    (hline : line = before.sample s) : Pending (m'.regs CNT) f line (next l true) := by
  have hne : s ≠ before.level := by rw [hs, h.level]; exact Bool.not_ne_self l
  refine ⟨?_, ?_, ?_⟩
  · rw [hline, Line.sample, if_neg hne, hs]
    rfl
  · rw [hline, Line.sample, if_neg hne, Nat.zero_mod]
  · rw [hline, Line.bytes_edge hne, h.stored, hregs, h.cnt]

namespace Point

/-- How the line and the registers go together. -/
def Holds (m : Emcu) (f : Ring) (line : Line) : Point → Prop
  | .sample l | .again l => Counted m f line l
  | .test l s =>
    ∃ before : Line, Counted m f before l ∧ line = before.sample s ∧
      (m.regs SFR_STATUS_REG).toNat.testBit SB_FLAG_C = s
  | .branch l => ∃ before : Line, Counted m f before l ∧ line = before.sample true
  | .count l => ∃ before : Line, Counted m f before l ∧ line = before.sample l
  | .full l =>
    ∃ n, m.regs CNT = UInt8.ofNat (n % 128 + 1) ∧ line.length = n + 1 ∧ line.level = l ∧
      line.bytes = f.stored ++ if (n + 1) % 128 = 0 then [0x80] else []
  | .toCap l => m.regs CNT = 0x80 ∧ Pending 0x80 f line l
  | .load l e => Pending (m.regs CNT) f line (next l e)
  | .put l e => Pending m.a f line (next l e)
  | .publish l e | .check l e | .reload l e | .clear l e => Stored f line (next l e)
  | .back l e => Stored f line (next l e) ∧ m.regs CNT = 0

/-- The bytes that HEAD has not counted. -/
def uncounted : Point → Nat
  | .publish .. => 1
  | _ => 0

/-- Where the store pointer stands when `n` bytes have been stored: in front of
the software wrap it may be one behind the last slot. -/
def Aims (n : Nat) (ptr : UInt8) : Point → Prop
  | .publish .. | .check .. => ∃ k, n = k + 1 ∧ ptr = RleSniffer.layout.slot (k % 30) + 1
  | .reload .. => n % 30 = 0
  | _ => ptr = RleSniffer.layout.slot (n % 30)

end Point

structure Tracks (m : Emcu) (f : Ring) (line : Line) (p : Point) : Prop where
  pc : m.pc = p.code
  regs : f.regs = m.regs
  published : f.published + p.uncounted = f.stored.length
  aims : p.Aims f.stored.length (m.regs SFR_INDIR_ADDR2)
  holds : p.Holds m f line

/-- The registers the program writes besides its ring and HEAD. -/
theorem outside {r : UInt8} (h : r = CNT ∨ r = SFR_STATUS_REG ∨ r = SFR_INDIR_ADDR2) :
    (∀ i < RleSniffer.layout.slots, RleSniffer.layout.slot i ≠ r) ∧ RleSniffer.layout.head ≠ r := by
  rcases h with rfl | rfl | rfl <;> decide

/-- What a write to one of them leaves of the FIFO. -/
theorem exists_scratch {f : Ring} {r : UInt8} (v : UInt8)
    (h : r = CNT ∨ r = SFR_STATUS_REG ∨ r = SFR_INDIR_ADDR2) :
    ∃ f' : Ring, f'.regs = Function.update f.regs r v ∧ f'.stored = f.stored ∧
      f'.published = f.published :=
  ⟨f.scratch r v (outside h).1 (outside h).2, rfl, rfl, rfl⟩

theorem testBit_setCarry (status : UInt8) (c : Bool) :
    (setCarry status c).toNat.testBit SB_FLAG_C = c := by
  cases c <;> simp [setCarry, SB_FLAG_C]

/-- The cap bit is set by the 128th sample. -/
theorem testBit_cap {k : Nat} (h : k < 128) :
    (UInt8.ofNat (k + 1)).toNat.testBit CAP_BIT = true ↔ k = 127 := by
  revert k
  decide

/-- Bit 6 of the pointer tells the end of the ring. -/
theorem testBit_wrap {k : Nat} (h : k < 30) :
    (RleSniffer.layout.slot k + 1).toNat.testBit 6 = true ↔ k = 29 := by
  revert k
  decide

theorem slot_succ {k : Nat} (h : k % 30 ≠ 29) :
    RleSniffer.layout.slot (k % 30) + 1 = RleSniffer.layout.slot ((k + 1) % 30) := by
  have hmod : (k + 1) % 30 = k % 30 + 1 := by omega
  rw [hmod, Layout.slot, Layout.slot, UInt8.ofNat_add, ← UInt8.add_assoc]
  rfl

-- ---------------------------------------------------------------------------
-- One instruction
-- ---------------------------------------------------------------------------

section

variable {m m' : Emcu} {f : Ring} {line line' : Line} {p p' : Point} {pc : List Instr}

theorem Emcu.step_clr {r : UInt8} (h : m.pc = .clr r :: pc) (s : Bool) :
    (m.step s).regs = Function.update m.regs r 0 ∧ (m.step s).pc = pc := by
  simp only [Emcu.step, h, and_self]

theorem Emcu.step_bctc (h : m.pc = .bctc :: pc) (s : Bool) :
    (m.step s).regs =
      Function.update m.regs SFR_STATUS_REG (setCarry (m.regs SFR_STATUS_REG) s) ∧
    (m.step s).pc = pc := by
  simp only [Emcu.step, h, and_self]

theorem Emcu.step_btsc {r : UInt8} {bit : Nat} (h : m.pc = .btsc r bit :: pc) (s : Bool) :
    (m.step s).regs = m.regs ∧
    (m.step s).pc = if (m.regs r).toNat.testBit bit then pc else pc.drop 1 := by
  simp only [Emcu.step, h, and_self]

theorem Emcu.step_jmp {l : Label} (h : m.pc = .jmp l :: pc) (s : Bool) :
    (m.step s).regs = m.regs ∧ (m.step s).pc = code l := by
  simp only [Emcu.step, h, and_self]

theorem Emcu.step_mov {r : UInt8} (h : m.pc = .mov r :: pc) (s : Bool) :
    (m.step s).regs = m.regs ∧ (m.step s).pc = pc ∧ (m.step s).a = m.regs r := by
  simp only [Emcu.step, h, and_self]

theorem Emcu.step_port (h : m.pc = .mova SFR_INDIR_PORT2 :: pc) (s : Bool) :
    (m.step s).regs =
      Function.update (Function.update m.regs (m.regs SFR_INDIR_ADDR2) m.a) SFR_INDIR_ADDR2
        (m.regs SFR_INDIR_ADDR2 + 1) ∧
    (m.step s).pc = pc := by
  simp only [Emcu.step, h, if_true, and_self]

theorem Emcu.step_inc {r : UInt8} (h : m.pc = .inc r :: pc) (s : Bool) :
    (m.step s).regs = Function.update m.regs r (m.regs r + 1) ∧ (m.step s).pc = pc := by
  simp only [Emcu.step, h, and_self]

theorem Emcu.step_movia {k : UInt8} (h : m.pc = .movia k :: pc) (s : Bool) :
    (m.step s).regs = Function.update m.regs SFR_INDIR_ADDR2 k ∧ (m.step s).pc = pc := by
  simp only [Emcu.step, h, and_self]

/-- What one step of the program does for the line and the stored bytes. -/
def Advances (m : Emcu) (s : Bool) (f : Ring) (line : Line) : Prop :=
  ∃ f' p', Tracks (m.step s) f' ((m.samples s).foldl Line.sample line) p' ∧
    f'.stored = f.stored ++ m.puts

/-- A step that only moves the program counter or loads the accumulator. -/
theorem Tracks.moves (h : Tracks m f line p) (hregs : m'.regs = m.regs) (hpc : m'.pc = p'.code)
    (hcount : p'.uncounted = p.uncounted) (haims : p'.Aims f.stored.length (m.regs SFR_INDIR_ADDR2))
    (hholds : p'.Holds m' f line) : Tracks m' f line p' where
  pc := hpc
  regs := h.regs.trans hregs.symm
  published := hcount ▸ h.published
  aims := hregs ▸ haims
  holds := hholds

/-- A step that writes the counter or the carry. -/
theorem Tracks.writes {r v : UInt8} (h : Tracks m f line p) (hr : r = CNT ∨ r = SFR_STATUS_REG)
    (hregs : m'.regs = Function.update m.regs r v) (hpc : m'.pc = p'.code)
    (hcount : p'.uncounted = p.uncounted) (haims : p'.Aims f.stored.length (m.regs SFR_INDIR_ADDR2))
    (hholds : ∀ f' : Ring, f'.stored = f.stored → p'.Holds m' f' line') :
    ∃ f' : Ring, Tracks m' f' line' p' ∧ f'.stored = f.stored := by
  have hne : SFR_INDIR_ADDR2 ≠ r := by rcases hr with rfl | rfl <;> decide
  obtain ⟨f', hf, hstored, hpublished⟩ :=
    exists_scratch (f := f) v (hr.imp_right Or.inl)
  refine ⟨f', ⟨hpc, ?_, ?_, ?_, hholds f' hstored⟩, hstored⟩
  · rw [hf, h.regs, hregs]
  · rw [hcount, hpublished, hstored, h.published]
  · rw [hregs, Function.update_of_ne hne, hstored]
    exact haims

theorem Tracks.step_sample {l : Bool} (h : Tracks m f line (.sample l)) (s : Bool) :
    Advances m s f line := by
  have hpc : m.pc = .bctc :: (Point.test l s).code := h.pc.trans (by cases l <;> rfl)
  obtain ⟨hregs, hcode⟩ := Emcu.step_bctc hpc s
  have hholds (f' : Ring) (hf' : f'.stored = f.stored) :
      (Point.test l s).Holds (m.step s) f' (line.sample s) := by
    refine ⟨line, ⟨h.holds.level, ?_, h.holds.stored.trans hf'.symm⟩, rfl, ?_⟩
    · rw [hregs, Function.update_of_ne (by decide)]
      exact h.holds.cnt
    · rw [hregs, Function.update_self, testBit_setCarry]
  obtain ⟨f', htracks, hstored⟩ :=
    h.writes (.inr rfl) hregs hcode rfl h.aims hholds
  have hsamples : m.samples s = [s] := by simp only [Emcu.samples, hpc]
  have hputs : m.puts = [] := by simp only [Emcu.puts, hpc]
  refine ⟨f', .test l s, ?_, by rw [hputs, hstored, List.append_nil]⟩
  rw [hsamples]
  exact htracks

/-- No sample, no byte. -/
theorem Advances.of_silent {i : Instr} {s : Bool} (hpc : m.pc = i :: pc) (hread : i ≠ .bctc)
    (hput : ∀ r, i ≠ .mova r)
    (h : ∃ f' : Ring, ∃ p', Tracks (m.step s) f' line p' ∧ f'.stored = f.stored) :
    Advances m s f line := by
  obtain ⟨f', p', htracks, hstored⟩ := h
  have hsamples : m.samples s = [] := by cases i <;> simp_all [Emcu.samples]
  have hputs : m.puts = [] := by cases i <;> simp_all [Emcu.puts]
  refine ⟨f', p', ?_, ?_⟩
  · rw [hsamples]
    exact htracks
  · rw [hputs, hstored, List.append_nil]

theorem Tracks.step_test {l c : Bool} (h : Tracks m f line (.test l c)) (s : Bool) :
    Advances m s f line := by
  obtain ⟨before, hbefore, hline, hcarry⟩ := h.holds
  have hpc : m.pc = .btsc SFR_STATUS_REG SB_FLAG_C :: (Point.branch l).code :=
    h.pc.trans (by cases l <;> rfl)
  obtain ⟨hregs, hcode⟩ := Emcu.step_btsc hpc s
  refine .of_silent hpc (by simp) (by simp) ⟨f, ?_⟩
  cases c with
  | true =>
    rw [if_pos hcarry] at hcode
    exact ⟨.branch l, h.moves hregs hcode rfl h.aims ⟨before, hbefore.of_regs hregs, hline⟩, rfl⟩
  | false =>
    rw [if_neg (by rw [hcarry]; decide)] at hcode
    cases l with
    | true =>
      -- the line has fallen: the high run is stored
      refine ⟨.load true true, h.moves hregs hcode rfl h.aims ?_, rfl⟩
      exact .of_edge hbefore rfl hregs hline
    | false => exact ⟨.count false, h.moves hregs hcode rfl h.aims ⟨before, hbefore.of_regs hregs, hline⟩, rfl⟩

theorem Tracks.step_branch {l : Bool} (h : Tracks m f line (.branch l)) (s : Bool) :
    Advances m s f line := by
  obtain ⟨before, hbefore, hline⟩ := h.holds
  cases l with
  | true =>
    have hpc : m.pc = .jmp .hiRun :: (code .high).drop 3 := h.pc
    obtain ⟨hregs, hcode⟩ := Emcu.step_jmp hpc s
    refine .of_silent hpc (by simp) (by simp) ⟨f, .count true, ?_, rfl⟩
    exact h.moves hregs hcode rfl h.aims ⟨before, hbefore.of_regs hregs, hline⟩
  | false =>
    have hpc : m.pc = .jmp .rise :: (code .low).drop 3 := h.pc
    obtain ⟨hregs, hcode⟩ := Emcu.step_jmp hpc s
    refine .of_silent hpc (by simp) (by simp) ⟨f, .load false true, ?_, rfl⟩
    exact h.moves hregs hcode rfl h.aims (.of_edge hbefore rfl hregs hline)

theorem Tracks.step_count {l : Bool} (h : Tracks m f line (.count l)) (s : Bool) :
    Advances m s f line := by
  obtain ⟨before, hbefore, hline⟩ := h.holds
  have hpc : m.pc = .inc CNT :: (Point.full l).code := h.pc.trans (by cases l <;> rfl)
  obtain ⟨hregs, hcode⟩ := Emcu.step_inc hpc s
  obtain ⟨hlevel, hcnt, hstored⟩ := hbefore
  subst hlevel
  have hholds (f' : Ring) (hf' : f'.stored = f.stored) :
      (Point.full before.level).Holds (m.step s) f' line := by
    refine ⟨before.length, ?_, ?_, ?_, ?_⟩
    · rw [hregs, Function.update_self, hcnt, UInt8.ofNat_add]
      rfl
    · rw [hline, Line.sample, if_pos rfl]
    · rw [hline, Line.sample, if_pos rfl]
    · rw [hline, Line.bytes_same, hstored, hf']
  obtain ⟨f', htracks, hf'⟩ := h.writes (.inl rfl) hregs hcode rfl h.aims hholds
  exact .of_silent hpc (by simp) (by simp) ⟨f', _, htracks, hf'⟩

theorem Tracks.step_full {l : Bool} (h : Tracks m f line (.full l)) (s : Bool) :
    Advances m s f line := by
  obtain ⟨n, hcnt, hlen, hlevel, hstored⟩ := h.holds
  have hpc : m.pc = .btsc CNT CAP_BIT :: (Point.toCap l).code := h.pc.trans (by cases l <;> rfl)
  obtain ⟨hregs, hcode⟩ := Emcu.step_btsc hpc s
  refine .of_silent hpc (by simp) (by simp) ⟨f, ?_⟩
  have hcap := testBit_cap (Nat.mod_lt n (by decide : 0 < 128))
  by_cases hfull : n % 128 = 127
  · rw [hcnt, if_pos (hcap.mpr hfull)] at hcode
    rw [if_pos (by omega)] at hstored
    refine ⟨.toCap l, h.moves hregs hcode rfl h.aims ⟨?_, hlevel, by omega, hstored⟩, rfl⟩
    rw [hregs, hcnt, hfull]
    rfl
  · rw [hcnt, if_neg (mt hcap.mp hfull)] at hcode
    rw [if_neg (by omega), List.append_nil] at hstored
    refine ⟨.again l, h.moves hregs (hcode.trans (by cases l <;> rfl)) rfl h.aims
      ⟨hlevel, ?_, hstored⟩, rfl⟩
    rw [hregs, hcnt, hlen]
    congr 1
    omega

theorem Tracks.step_toCap {l : Bool} (h : Tracks m f line (.toCap l)) (s : Bool) :
    Advances m s f line := by
  obtain ⟨hcnt, hpending⟩ := h.holds
  have hpc : m.pc = .jmp (if l then .hiCap else .loCap) :: (Point.again l).code :=
    h.pc.trans (by cases l <;> rfl)
  obtain ⟨hregs, hcode⟩ := Emcu.step_jmp hpc s
  refine .of_silent hpc (by simp) (by simp) ⟨f, .load l false, ?_, rfl⟩
  refine h.moves hregs (hcode.trans (by cases l <;> rfl)) rfl h.aims ?_
  rw [Point.Holds, hregs, hcnt]
  exact hpending

theorem Tracks.step_again {l : Bool} (h : Tracks m f line (.again l)) (s : Bool) :
    Advances m s f line := by
  have hpc : m.pc = .jmp (if l then .high else .low) :: [] := h.pc.trans (by cases l <;> rfl)
  obtain ⟨hregs, hcode⟩ := Emcu.step_jmp hpc s
  refine .of_silent hpc (by simp) (by simp) ⟨f, .sample l, ?_, rfl⟩
  exact h.moves hregs (hcode.trans (by cases l <;> rfl)) rfl h.aims (h.holds.of_regs hregs)

theorem Tracks.step_load {l e : Bool} (h : Tracks m f line (.load l e)) (s : Bool) :
    Advances m s f line := by
  have hpc : m.pc = .mov CNT :: (Point.put l e).code := h.pc.trans (by cases l <;> cases e <;> rfl)
  obtain ⟨hregs, hcode, hacc⟩ := Emcu.step_mov hpc s
  refine .of_silent hpc (by simp) (by simp) ⟨f, .put l e, ?_, rfl⟩
  refine h.moves hregs hcode rfl h.aims ?_
  rw [Point.Holds, hacc]
  exact h.holds

/-- The byte goes where the pointer points, which is the next slot of the ring. -/
theorem Tracks.step_put {l e : Bool} (h : Tracks m f line (.put l e)) (s : Bool) :
    Advances m s f line := by
  obtain ⟨hlevel, hlen, hstored⟩ := h.holds
  have hpc : m.pc = .mova SFR_INDIR_PORT2 :: (Point.publish l e).code :=
    h.pc.trans (by cases l <;> cases e <;> rfl)
  obtain ⟨hregs, hcode⟩ := Emcu.step_port hpc s
  have haims : m.regs SFR_INDIR_ADDR2 = RleSniffer.layout.slot (f.stored.length % 30) := h.aims
  have hpublished : f.published = f.stored.length := h.published
  have hfile : (f.store m.a hpublished).regs =
      Function.update m.regs (m.regs SFR_INDIR_ADDR2) m.a := by
    rw [Fifo.store_regs, h.regs, haims]
    rfl
  obtain ⟨f', hf, hstored', hpublished'⟩ := exists_scratch (f := f.store m.a hpublished)
    (m.regs SFR_INDIR_ADDR2 + 1) (.inr (.inr rfl))
  rw [Fifo.store_stored] at hstored'
  have hputs : m.puts = [m.a] := by simp only [Emcu.puts, hpc]
  have hsamples : m.samples s = [] := by simp only [Emcu.samples, hpc]
  refine ⟨f', .publish l e, ?_, by rw [hstored', hputs]⟩
  rw [hsamples]
  refine ⟨hcode, by rw [hf, hfile, hregs], ?_, ?_, hlevel, hlen, hstored.trans hstored'.symm⟩
  · rw [hpublished', hstored', Fifo.store_published, hpublished, List.length_append]
    rfl
  · refine ⟨f.stored.length, by rw [hstored', List.length_append]; rfl, ?_⟩
    rw [hregs, Function.update_self, haims]

/-- HEAD counts the byte, which is in its slot. -/
theorem Tracks.step_publish {l e : Bool} (h : Tracks m f line (.publish l e)) (s : Bool) :
    Advances m s f line := by
  have hpc : m.pc = .inc HEAD :: (Point.check l e).code :=
    h.pc.trans (by cases l <;> cases e <;> rfl)
  obtain ⟨hregs, hcode⟩ := Emcu.step_inc hpc s
  have hpublished : f.published + 1 = f.stored.length := h.published
  refine .of_silent hpc (by simp) (by simp)
    ⟨f.publish (by omega), .check l e, ⟨hcode, ?_, hpublished, ?_, ?_⟩, rfl⟩
  · rw [hregs, Fifo.publish_regs, h.regs]
    rfl
  · rw [hregs, Function.update_of_ne (by decide)]
    exact h.aims
  · exact ⟨h.holds.level, h.holds.length, h.holds.stored⟩

theorem Tracks.step_check {l e : Bool} (h : Tracks m f line (.check l e)) (s : Bool) :
    Advances m s f line := by
  obtain ⟨k, hk, haims⟩ := h.aims
  have hpc : m.pc = .btsc SFR_INDIR_ADDR2 6 :: (Point.reload l e).code :=
    h.pc.trans (by cases l <;> cases e <;> rfl)
  obtain ⟨hregs, hcode⟩ := Emcu.step_btsc hpc s
  have hwrap := testBit_wrap (Nat.mod_lt k (by decide : 0 < 30))
  rw [haims] at hcode
  refine .of_silent hpc (by simp) (by simp) ⟨f, ?_⟩
  by_cases hend : k % 30 = 29
  · rw [if_pos (hwrap.mpr hend)] at hcode
    have haims' : (Point.reload l e).Aims f.stored.length (m.regs SFR_INDIR_ADDR2) := by
      rw [Point.Aims, hk]
      omega
    exact ⟨.reload l e, h.moves hregs hcode rfl haims' h.holds, rfl⟩
  · rw [if_neg (mt hwrap.mp hend)] at hcode
    refine ⟨.clear l e, h.moves hregs (hcode.trans (by cases l <;> cases e <;> rfl)) rfl ?_ h.holds,
      rfl⟩
    rw [haims, hk]
    exact slot_succ hend

theorem Tracks.step_reload {l e : Bool} (h : Tracks m f line (.reload l e)) (s : Bool) :
    Advances m s f line := by
  have hpc : m.pc = .movia RING_BASE :: (Point.clear l e).code :=
    h.pc.trans (by cases l <;> cases e <;> rfl)
  obtain ⟨hregs, hcode⟩ := Emcu.step_movia hpc s
  have haims : f.stored.length % 30 = 0 := h.aims
  obtain ⟨f', hf, hstored, hpublished⟩ := exists_scratch (f := f) RING_BASE (.inr (.inr rfl))
  refine .of_silent hpc (by simp) (by simp) ⟨f', .clear l e, ⟨hcode, ?_, ?_, ?_, ?_⟩, hstored⟩
  · rw [hf, h.regs, hregs]
  · rw [hpublished, hstored]
    exact h.published
  · rw [hregs, Function.update_self, hstored]
    exact congrArg RleSniffer.layout.slot haims.symm
  · exact ⟨h.holds.level, h.holds.length, h.holds.stored.trans hstored.symm⟩

theorem Tracks.step_clear {l e : Bool} (h : Tracks m f line (.clear l e)) (s : Bool) :
    Advances m s f line := by
  have hpc : m.pc = .clr CNT :: (Point.back l e).code :=
    h.pc.trans (by cases l <;> cases e <;> rfl)
  obtain ⟨hregs, hcode⟩ := Emcu.step_clr hpc s
  have hholds (f' : Ring) (hf' : f'.stored = f.stored) :
      (Point.back l e).Holds (m.step s) f' line :=
    ⟨⟨h.holds.level, h.holds.length, h.holds.stored.trans hf'.symm⟩,
      by rw [hregs, Function.update_self]⟩
  obtain ⟨f', htracks, hf'⟩ := h.writes (.inl rfl) hregs hcode rfl h.aims hholds
  exact .of_silent hpc (by simp) (by simp) ⟨f', _, htracks, hf'⟩

theorem Tracks.step_back {l e : Bool} (h : Tracks m f line (.back l e)) (s : Bool) :
    Advances m s f line := by
  obtain ⟨⟨hlevel, hlen, hstored⟩, hcnt⟩ := h.holds
  have hpc : m.pc = .jmp (if next l e then .high else .low) :: [] :=
    h.pc.trans (by cases l <;> cases e <;> rfl)
  obtain ⟨hregs, hcode⟩ := Emcu.step_jmp hpc s
  refine .of_silent hpc (by simp) (by simp) ⟨f, .sample (next l e), ?_, rfl⟩
  refine h.moves hregs (hcode.trans (by cases l <;> cases e <;> rfl)) rfl h.aims
    ⟨hlevel, ?_, hstored⟩
  rw [hregs, hcnt, hlen]
  rfl

theorem Tracks.step (h : Tracks m f line p) (s : Bool) : Advances m s f line := by
  cases p with
  | sample l => exact h.step_sample s
  | test l c => exact h.step_test s
  | branch l => exact h.step_branch s
  | count l => exact h.step_count s
  | full l => exact h.step_full s
  | toCap l => exact h.step_toCap s
  | again l => exact h.step_again s
  | load l e => exact h.step_load s
  | put l e => exact h.step_put s
  | publish l e => exact h.step_publish s
  | check l e => exact h.step_check s
  | reload l e => exact h.step_reload s
  | clear l e => exact h.step_clear s
  | back l e => exact h.step_back s

theorem Tracks.run (h : Tracks m f line p) (evs : List Bool) :
    ∃ f' p',
      Tracks (run Emcu.step m evs) f'
        ((outputs Emcu.step Emcu.samples m evs).foldl Line.sample line) p' ∧
      f'.stored = f.stored ++ outputs Emcu.step (fun m _ => m.puts) m evs := by
  induction evs generalizing m f line p with
  | nil => exact ⟨f, p, h, (List.append_nil _).symm⟩
  | cons s evs ih =>
    obtain ⟨f', p', hstep, hstored⟩ := h.step s
    obtain ⟨f'', p'', hrun, hstored'⟩ := ih hstep
    refine ⟨f'', p'', ?_, ?_⟩
    · rw [outputs_cons, List.foldl_append]
      exact hrun
    · rw [hstored', hstored, outputs_cons, List.append_assoc]

/-- `MCU_START` leaves an empty ring and an idle line. -/
theorem Tracks.start (regs : Regs) (a : UInt8) :
    ∃ f : Ring, Tracks (Emcu.start regs a) f .idle (.sample true) ∧ f.stored = [] := by
  obtain ⟨f, hf, hstored, hpublished⟩ := exists_scratch
    (f := Fifo.start RleSniffer.layout (Function.update regs SFR_PORT_DIR 0)) 0 (.inl rfl)
  obtain ⟨f', hf', hstored', hpublished'⟩ := exists_scratch (f := f) RING_BASE (.inr (.inr rfl))
  have hnil : f'.stored = [] := hstored'.trans hstored
  refine ⟨f', ⟨rfl, ?_, ?_, ?_, rfl, ?_, ?_⟩, hnil⟩
  · rw [hf', hf]
    rfl
  · rw [hnil, hpublished', hpublished]
    rfl
  · rw [hnil]
    rfl
  · rfl
  · rw [hnil]
    rfl

/-- Only a byte that is still on its way to its slot is missing. -/
theorem Tracks.missing (h : Tracks m f line p) :
    ∃ t : List UInt8, line.bytes = f.stored ++ t ∧ t.length ≤ 1 := by
  have of_eq (heq : line.bytes = f.stored) : ∃ t : List UInt8, line.bytes = f.stored ++ t ∧ t.length ≤ 1 :=
    ⟨[], by rw [heq, List.append_nil], Nat.zero_le _⟩
  have of_sample {before : Line} {l c : Bool} (hbefore : Counted m f before l)
      (hline : line = before.sample c) :
      ∃ t : List UInt8, line.bytes = f.stored ++ t ∧ t.length ≤ 1 := by
    rw [hline, ← hbefore.stored]
    exact before.bytes_sample c
  cases p with
  | sample l => exact of_eq h.holds.stored
  | test l c =>
    obtain ⟨before, hbefore, hline, -⟩ := h.holds
    exact of_sample hbefore hline
  | branch l =>
    obtain ⟨before, hbefore, hline⟩ := h.holds
    exact of_sample hbefore hline
  | count l =>
    obtain ⟨before, hbefore, hline⟩ := h.holds
    exact of_sample hbefore hline
  | full l =>
    obtain ⟨n, -, -, -, hstored⟩ := h.holds
    exact ⟨_, hstored, by split <;> simp⟩
  | toCap l => exact ⟨_, h.holds.2.stored, le_refl 1⟩
  | again l => exact of_eq h.holds.stored
  | load l e => exact ⟨_, h.holds.stored, le_refl 1⟩
  | put l e => exact ⟨_, h.holds.stored, le_refl 1⟩
  | publish l e => exact of_eq h.holds.stored
  | check l e => exact of_eq h.holds.stored
  | reload l e => exact of_eq h.holds.stored
  | clear l e => exact of_eq h.holds.stored
  | back l e => exact of_eq h.holds.1.stored

/-- At the top of a loop every sample is accounted for. -/
theorem Tracks.at_head {l : Bool} (h : Tracks m f line p) (hpc : m.pc = loopHead l) :
    line.bytes = f.stored := by
  have hcode : p.code = loopHead l := h.pc.symm.trans hpc
  cases p with
  | sample l' => exact h.holds.stored
  | test l' c => cases l <;> cases l' <;> cases hcode
  | branch l' => cases l <;> cases l' <;> cases hcode
  | count l' => cases l <;> cases l' <;> cases hcode
  | full l' => cases l <;> cases l' <;> cases hcode
  | toCap l' => cases l <;> cases l' <;> cases hcode
  | again l' => exact h.holds.stored
  | load l' e => cases l <;> cases l' <;> cases e <;> cases hcode
  | put l' e => cases l <;> cases l' <;> cases e <;> cases hcode
  | publish l' e => exact h.holds.stored
  | check l' e => exact h.holds.stored
  | reload l' e => exact h.holds.stored
  | clear l' e => exact h.holds.stored
  | back l' e => exact h.holds.1.stored

/-- Where HEAD is one behind. -/
theorem Point.uncounted_eq (p : Point) :
    p.uncounted = if p.code.head? = some (.inc HEAD) then 1 else 0 := by
  cases p with
  | sample l | branch l | count l | full l | toCap l | again l => cases l <;> rfl
  | test l c => cases l <;> rfl
  | load l e | put l e | publish l e | check l e | reload l e | clear l e | back l e =>
    cases l <;> cases e <;> rfl

/-- The blob run-length encodes what it samples. -/
theorem blob_encodes (regs : Regs) (a : UInt8) (evs : List Bool) :
    let start := Emcu.start regs a
    let m := Lib.Lts.run Emcu.step start evs
    let samples := outputs Emcu.step Emcu.samples start evs
    let stored := outputs Emcu.step (fun m _ => m.puts) start evs
    (m.pc = code .high ∨ m.pc = code .low → stored = encode samples) ∧
    (∃ t : List UInt8, encode samples = stored ++ t ∧ t.length ≤ 1) ∧
    (∀ k v, stored[k]? = some v → stored.length ≤ k + 30 →
      m.regs (RING_BASE + UInt8.ofNat (k % 30)) = v) ∧
    m.regs HEAD =
      UInt8.ofNat (if m.pc.head? = some (.inc HEAD) then stored.length - 1 else stored.length) := by
  intro start m samples stored
  obtain ⟨f₀, hstart, hnil⟩ := Tracks.start regs a
  obtain ⟨f, p, htracks, hstored⟩ := hstart.run evs
  rw [hnil, List.nil_append] at hstored
  -- one relation to the FIFO and its encoder, read off in four ways
  refine ⟨?_, ?_, ?_, ?_⟩
  · rintro (hpc | hpc)
    · exact ((htracks.at_head (l := true) hpc).trans hstored).symm
    · exact ((htracks.at_head (l := false) hpc).trans hstored).symm
  · obtain ⟨t, ht, hlen⟩ := htracks.missing
    rw [hstored] at ht
    exact ⟨t, ht, hlen⟩
  · intro k v hk hlap
    have hslot := f.recorded k v (by rw [hstored]; exact hk) (by rw [hstored]; exact hlap)
    rw [htracks.regs] at hslot
    exact hslot
  · have hhead := f.head_eq
    have hcount := htracks.published
    rw [Point.uncounted_eq, ← htracks.pc, hstored] at hcount
    rw [htracks.regs] at hhead
    refine hhead.trans (congrArg UInt8.ofNat ?_)
    split
    · rw [if_pos ‹_›] at hcount
      exact Nat.eq_sub_of_add_eq hcount
    · rw [if_neg ‹_›] at hcount
      exact hcount

-- ---------------------------------------------------------------------------
-- The loop goes on
-- ---------------------------------------------------------------------------

/-- The instructions ahead of the next sample, at most. -/
def Point.ahead : Point → Nat
  | .sample _ => 0
  | .test .. => 12
  | .branch _ => 11
  | .count _ => 10
  | .full _ => 9
  | .toCap _ => 8
  | .again _ | .back .. => 1
  | .load .. => 7
  | .put .. => 6
  | .publish .. => 5
  | .check .. => 4
  | .reload .. => 3
  | .clear .. => 2

/-- Every instruction but the sample is one less. -/
theorem Point.step_ahead (hpc : m.pc = p.code) (s : Bool) :
    (∃ l, p = .sample l) ∨ ∃ p' : Point, (m.step s).pc = p'.code ∧ p'.ahead < p.ahead := by
  have straight (next : Point) (hcode : (m.step s).pc = next.code) (hless : next.ahead < p.ahead) :
      (∃ l, p = .sample l) ∨ ∃ p' : Point, (m.step s).pc = p'.code ∧ p'.ahead < p.ahead :=
    .inr ⟨next, hcode, hless⟩
  cases p with
  | sample l => exact .inl ⟨l, rfl⟩
  | test l c =>
    -- the skip leads past the jump: to the store site of a high run, to the count of a low one
    have hpc : m.pc = .btsc SFR_STATUS_REG SB_FLAG_C :: (Point.branch l).code :=
      hpc.trans (by cases l <;> rfl)
    have hcode := (Emcu.step_btsc hpc s).2
    split at hcode
    · exact straight (.branch l) hcode (by simp [Point.ahead])
    · cases l with
      | true => exact straight (.load true true) hcode (by simp [Point.ahead])
      | false => exact straight (.count false) hcode (by simp [Point.ahead])
  | branch l =>
    cases l with
    | true => exact straight (.count true) (Emcu.step_jmp hpc s).2 (by simp [Point.ahead])
    | false => exact straight (.load false true) (Emcu.step_jmp hpc s).2 (by simp [Point.ahead])
  | count l =>
    refine straight (.full l) ?_ (by simp [Point.ahead])
    cases l <;> exact (Emcu.step_inc hpc s).2
  | full l =>
    have hpc : m.pc = .btsc CNT CAP_BIT :: (Point.toCap l).code := hpc.trans (by cases l <;> rfl)
    have hcode := (Emcu.step_btsc hpc s).2
    split at hcode
    · exact straight (.toCap l) hcode (by simp [Point.ahead])
    · exact straight (.again l) (hcode.trans (by cases l <;> rfl)) (by simp [Point.ahead])
  | toCap l =>
    refine straight (.load l false) ?_ (by simp [Point.ahead])
    cases l <;> exact (Emcu.step_jmp hpc s).2
  | again l =>
    refine straight (.sample l) ?_ (by simp [Point.ahead])
    cases l <;> exact (Emcu.step_jmp hpc s).2
  | load l e =>
    refine straight (.put l e) ?_ (by simp [Point.ahead])
    cases l <;> cases e <;> exact (Emcu.step_mov hpc s).2.1
  | put l e =>
    refine straight (.publish l e) ?_ (by simp [Point.ahead])
    cases l <;> cases e <;> exact (Emcu.step_port hpc s).2
  | publish l e =>
    refine straight (.check l e) ?_ (by simp [Point.ahead])
    cases l <;> cases e <;> exact (Emcu.step_inc hpc s).2
  | check l e =>
    have hpc : m.pc = .btsc SFR_INDIR_ADDR2 6 :: (Point.reload l e).code :=
      hpc.trans (by cases l <;> cases e <;> rfl)
    have hcode := (Emcu.step_btsc hpc s).2
    split at hcode
    · exact straight (.reload l e) hcode (by simp [Point.ahead])
    · exact straight (.clear l e) (hcode.trans (by cases l <;> cases e <;> rfl)) (by simp [Point.ahead])
  | reload l e =>
    refine straight (.clear l e) ?_ (by simp [Point.ahead])
    cases l <;> cases e <;> exact (Emcu.step_movia hpc s).2
  | clear l e =>
    refine straight (.back l e) ?_ (by simp [Point.ahead])
    cases l <;> cases e <;> exact (Emcu.step_clr hpc s).2
  | back l e =>
    refine straight (.sample (next l e)) ?_ (by simp [Point.ahead])
    cases l <;> cases e <;> exact (Emcu.step_jmp hpc s).2

theorem Point.samples_within (hpc : m.pc = p.code) {evs : List Bool} (hmore : p.ahead < evs.length) :
    outputs Emcu.step Emcu.samples m evs ≠ [] := by
  induction evs generalizing m p with
  | nil => cases hmore
  | cons s evs ih =>
    rw [outputs_cons]
    rcases Point.step_ahead hpc s with ⟨l, rfl⟩ | ⟨p', hcode, hless⟩
    · have hsample : m.samples s = [s] := by
        rw [Emcu.samples, hpc]
        cases l <;> rfl
      simp [hsample]
    · rw [List.length_cons] at hmore
      exact List.append_ne_nil_of_right_ne_nil _ (ih hcode (by omega))

/-- Whatever the line does, thirteen instructions of the blob hold a sample. -/
theorem blob_samples (regs : Regs) (a : UInt8) (evs : List Bool) {more : List Bool} (h : 13 ≤ more.length) :
    outputs Emcu.step Emcu.samples (Lib.Lts.run Emcu.step (Emcu.start regs a) evs) more ≠ [] := by
  obtain ⟨f₀, hstart, -⟩ := Tracks.start regs a
  obtain ⟨f, p, htracks, -⟩ := hstart.run evs
  have hmost : p.ahead ≤ 12 := by cases p <;> simp [Point.ahead]
  exact Point.samples_within htracks.pc (by omega)

end

end Tapioca.RleBlob

-- SUMMARY: One transaction of the MDIO master blob: the rules of its instructions and subroutines, and the frame they add up to.
import Tapioca.Pioc.MasterBlob

/-!
# A frame of the MDIO master blob

`Leads n c acc G` says that from `c`, whatever the mailbox and the line hold, the
blob gets within `n` instructions to a state that satisfies `G` together with
all acts, `acc` being those so far. There is a rule for every instruction and
subroutine, and they put the frame together backwards, from STATUS to the
doorbell.
-/

namespace Tapioca.MasterBlob

open Lib.Lts Lib.Bits

-- ---------------------------------------------------------------------------
-- Instructions
-- ---------------------------------------------------------------------------

def Leads (n : Nat) (c : Core) (acc : List Act) (G : Core → List Act → Prop) : Prop :=
  Within Core.step Core.acts n c fun d ys => G d (acc ++ ys)

section Rules

variable {n : Nat} {c d : Core} {acc ys : List Act} {G : Core → List Act → Prop}
  {p : Own} {pc : List Instr} {stack : List (List Instr)}

theorem Leads.done (h : G c acc) : Leads n c acc G :=
  Within.done (by rwa [List.append_nil])

theorem Leads.weaken {k : Nat} (h : Leads n c acc G) (hle : n ≤ k) : Leads k c acc G := Within.weaken h hle

theorem Leads.reads (h : ∀ r, Leads n (c.step r) (acc ++ c.acts r) G) : Leads (n + 1) c acc G :=
  Within.next fun r => (h r).mono fun _ _ hG => by rwa [← List.append_assoc]

theorem Leads.step (hstep : ∀ r, c.step r = d) (hacts : ∀ r, c.acts r = ys)
    (h : Leads n d (acc ++ ys) G) : Leads (n + 1) c acc G := by
  refine .reads fun r => ?_
  rw [hstep, hacts]
  exact h

theorem Leads.silent (hstep : ∀ r, c.step r = d) (hacts : ∀ r, c.acts r = []) (h : Leads n d acc G) :
    Leads (n + 1) c acc G := .step hstep hacts (by rwa [List.append_nil])

theorem edge_eq_nil {p q : Own} (h : p.mdc = q.mdc) : edge p q = [] := by
  rw [edge, h]
  cases q.mdc with
  | none => rfl
  | some b => cases b <;> rfl

theorem Leads.nop (h : Leads n ⟨p, pc, stack⟩ acc G) : Leads (n + 1) ⟨p, .nop :: pc, stack⟩ acc G :=
  .silent (fun _ => rfl) (fun _ => edge_eq_nil rfl) h

theorem Leads.nops {k : Nat} (h : Leads n ⟨p, pc, stack⟩ acc G) :
    Leads (n + k) ⟨p, List.replicate k .nop ++ pc, stack⟩ acc G := by
  induction k with
  | zero => exact h
  | succ k ih => exact .nop ih

theorem Leads.call {l : Label} (h : Leads n ⟨p, code l, pc :: stack⟩ acc G) :
    Leads (n + 1) ⟨p, .call l :: pc, stack⟩ acc G :=
  .silent (fun _ => rfl) (fun _ => edge_eq_nil rfl) h

theorem Leads.ret {back : List Instr} (h : Leads n ⟨p, back, stack⟩ acc G) :
    Leads (n + 1) ⟨p, .ret :: pc, back :: stack⟩ acc G :=
  .silent (fun _ => rfl) (fun _ => edge_eq_nil rfl) h

theorem Leads.jmp {l : Label} (h : Leads n ⟨p, code l, stack⟩ acc G) :
    Leads (n + 1) ⟨p, .jmp l :: pc, stack⟩ acc G :=
  .silent (fun _ => rfl) (fun _ => edge_eq_nil rfl) h

theorem Leads.mov {f : UInt8} (hf : Shared f) (hexch : f ≠ SFR_DATA_EXCH)
    (h : ∀ v, Leads n ⟨{ p with a := v }, pc, stack⟩ (acc ++ [.load f v]) G) :
    Leads (n + 1) ⟨p, .mov f :: pc, stack⟩ acc G := by
  refine .reads fun r => ?_
  have hstep : Core.step ⟨p, .mov f :: pc, stack⟩ r = ⟨{ p with a := r.mail }, pc, stack⟩ := by
    simp only [Core.step, if_neg hexch]
  have hacts : Core.acts ⟨p, .mov f :: pc, stack⟩ r = [.load f r.mail] := by
    rw [Core.acts, hstep]
    simp only [List.headD_cons, Instr.acts_mov, if_pos hf]
    exact congrArg (Act.load f r.mail :: ·) (edge_eq_nil rfl)
  rw [hstep, hacts]
  exact h r.mail

theorem Leads.mova_exch (h : Leads n ⟨{ p with exch := p.a }, pc, stack⟩ acc G) :
    Leads (n + 1) ⟨p, .mova SFR_DATA_EXCH :: pc, stack⟩ acc G :=
  .silent (fun _ => rfl) (fun _ => edge_eq_nil rfl) h

theorem Leads.mov_exch (h : Leads n ⟨{ p with a := p.exch }, pc, stack⟩ acc G) :
    Leads (n + 1) ⟨p, .mov SFR_DATA_EXCH :: pc, stack⟩ acc G :=
  .silent (fun _ => rfl) (fun _ => edge_eq_nil rfl) h

theorem Leads.movl (k : UInt8) (h : Leads n ⟨{ p with a := k }, pc, stack⟩ acc G) :
    Leads (n + 1) ⟨p, .movl k :: pc, stack⟩ acc G :=
  .silent (fun _ => rfl) (fun _ => edge_eq_nil rfl) h

theorem Leads.mova {f : UInt8} (hf : Shared f) (hexch : f ≠ SFR_DATA_EXCH)
    (h : Leads n ⟨p, pc, stack⟩ (acc ++ [.store f p.a]) G) :
    Leads (n + 1) ⟨p, .mova f :: pc, stack⟩ acc G := by
  have hstep : ∀ r, Core.step ⟨p, .mova f :: pc, stack⟩ r = ⟨p, pc, stack⟩ := by
    intro r
    simp only [Core.step, if_neg hexch]
  refine .step hstep (fun r => ?_) h
  rw [Core.acts, hstep]
  simp only [List.headD_cons, Instr.acts_mova, if_pos hf]
  exact congrArg (Act.store f p.a :: ·) (edge_eq_nil rfl)

theorem Leads.testOp (hread : Leads n ⟨p, pc, stack⟩ (acc ++ [.op true]) G)
    (hwrite : Leads n ⟨p, pc.drop 1, stack⟩ (acc ++ [.op false]) G) :
    Leads (n + 1) ⟨p, .btsc CTRL 0 :: pc, stack⟩ acc G := by
  refine .reads fun r => ?_
  have hstep : Core.step ⟨p, .btsc CTRL 0 :: pc, stack⟩ r =
      ⟨p, if r.mail.toNat.testBit 0 then pc else pc.drop 1, stack⟩ := rfl
  have hacts : Core.acts ⟨p, .btsc CTRL 0 :: pc, stack⟩ r = [.op (r.mail.toNat.testBit 0)] := by
    rw [Core.acts, hstep]
    exact congrArg (Act.op (r.mail.toNat.testBit 0) :: ·) (edge_eq_nil rfl)
  rw [hstep, hacts]
  cases r.mail.toNat.testBit 0 with
  | true => exact hread
  | false => exact hwrite

variable {dir1 out1 noResp carry : Bool} {exch a : UInt8}

theorem Leads.fall (h : Leads n ⟨⟨true, dir1, false, out1, noResp, carry, exch, a⟩, pc, stack⟩ (acc ++ [.fall]) G) :
    Leads (n + 1) ⟨⟨true, dir1, true, out1, noResp, carry, exch, a⟩, .bc SFR_PORT_IO SB_PORT_OUT0 :: pc, stack⟩
      acc G :=
  .step (fun _ => rfl) (fun _ => rfl) h

theorem Leads.rise
    (h : Leads n ⟨⟨true, dir1, true, out1, noResp, carry, exch, a⟩, pc, stack⟩
      (acc ++ [.rise (if dir1 then some out1 else none)]) G) :
    Leads (n + 1) ⟨⟨true, dir1, false, out1, noResp, carry, exch, a⟩, .bs SFR_PORT_IO SB_PORT_OUT0 :: pc, stack⟩
      acc G :=
  .step (fun _ => rfl) (fun _ => rfl) h

theorem Leads.bp2f {out0 : Bool} (i : Nat)
    (h : Leads n ⟨⟨true, dir1, out0, exch.toNat.testBit i, noResp, carry, exch, a⟩, pc, stack⟩ acc G) :
    Leads (n + 1) ⟨⟨true, dir1, out0, out1, noResp, carry, exch, a⟩, .bp2f i :: pc, stack⟩ acc G :=
  .silent (fun _ => rfl) (fun _ => edge_eq_nil rfl) h

theorem Leads.bg2f {out0 : Bool} (i : Nat)
    (h : ∀ b, Leads n ⟨⟨true, dir1, out0, out1, noResp, carry, setBit exch i b, a⟩, pc, stack⟩
      (acc ++ [.sample b]) G) :
    Leads (n + 1) ⟨⟨true, dir1, out0, out1, noResp, carry, exch, a⟩, .bg2f i :: pc, stack⟩ acc G := by
  refine .reads fun r => ?_
  have hacts : Core.acts ⟨⟨true, dir1, out0, out1, noResp, carry, exch, a⟩, .bg2f i :: pc, stack⟩ r =
      [.sample r.line] := congrArg (Act.sample r.line :: ·) (edge_eq_nil rfl)
  rw [hacts]
  exact h r.line

-- ---------------------------------------------------------------------------
-- Subroutines
-- ---------------------------------------------------------------------------

theorem Leads.half (h : Leads n ⟨p, pc, stack⟩ acc G) : Leads (n + 18) ⟨p, .call .half :: pc, stack⟩ acc G := by
  have hcode : code .half = List.replicate 16 .nop ++ [.ret] := rfl
  have hret : Leads (n + 1) ⟨p, .ret :: [], pc :: stack⟩ acc G := .ret h
  have hnops : Leads (n + 1 + 16) ⟨p, code .half, pc :: stack⟩ acc G := hcode ▸ .nops hret
  exact .call hnops

/-- The acts of a clock with the level of MDIO driven. -/
def clock (b : Bool) : List Act := [.fall, .rise (some b)]

/-- A bit of the exchange register on MDIO, for a whole clock. -/
theorem Leads.driveBit (i : Nat)
    (h : Leads n ⟨⟨true, true, true, exch.toNat.testBit i, noResp, carry, exch, a⟩, pc, stack⟩
      (acc ++ clock (exch.toNat.testBit i)) G) :
    Leads (n + 39) ⟨⟨true, true, true, out1, noResp, carry, exch, a⟩,
      .bc SFR_PORT_IO SB_PORT_OUT0 :: .bp2f i :: .call .half :: .bs SFR_PORT_IO SB_PORT_OUT0 ::
        .call .half :: pc, stack⟩ acc G := by
  refine .fall (.bp2f i (.half (.rise (.half ?_))))
  rw [List.append_assoc]
  exact h

theorem toBits_eight (v : UInt8) : toBits 8 v.toNat =
    [v.toNat.testBit 7, v.toNat.testBit 6, v.toNat.testBit 5, v.toNat.testBit 4, v.toNat.testBit 3,
      v.toNat.testBit 2, v.toNat.testBit 1, v.toNat.testBit 0] := rfl

theorem Leads.drive8
    (h : Leads n ⟨⟨true, true, true, exch.toNat.testBit 0, noResp, carry, exch, a⟩, pc, stack⟩
      (acc ++ (toBits 8 exch.toNat).flatMap clock) G) :
    Leads (n + 314) ⟨⟨true, true, true, out1, noResp, carry, exch, a⟩, .call .drive8 :: pc, stack⟩ acc G := by
  rw [toBits_eight] at h
  simp only [List.flatMap_cons, List.flatMap_nil, List.append_nil, ← List.append_assoc] at h
  refine .call ?_
  refine .driveBit 7 (.driveBit 6 (.driveBit 5 (.driveBit 4 (.driveBit 3 (.driveBit 2 (.driveBit 1 ?_))))))
  exact .driveBit 0 (.ret h)

/-- The acts of a clock with MDIO released and sampled. -/
def sampled (b : Bool) : List Act := [.fall, .sample b, .rise none]

theorem Leads.sampleBit (i : Nat)
    (h : ∀ b, Leads n ⟨⟨true, false, true, out1, noResp, carry, setBit exch i b, a⟩, pc, stack⟩
      (acc ++ sampled b) G) :
    Leads (n + 39) ⟨⟨true, false, true, out1, noResp, carry, exch, a⟩,
      .bc SFR_PORT_IO SB_PORT_OUT0 :: .call .half :: .bg2f i :: .bs SFR_PORT_IO SB_PORT_OUT0 ::
        .call .half :: pc, stack⟩ acc G := by
  refine .fall (.half (.bg2f i fun b => .rise (.half ?_)))
  rw [List.append_assoc, List.append_assoc]
  exact h b

/-- Eight samples fill the exchange register. -/
theorem toBits_samples (v : UInt8) (b7 b6 b5 b4 b3 b2 b1 b0 : Bool) :
    toBits 8 (setBit (setBit (setBit (setBit (setBit (setBit (setBit (setBit v 7 b7) 6 b6) 5 b5) 4 b4) 3 b3) 2 b2)
      1 b1) 0 b0).toNat = [b7, b6, b5, b4, b3, b2, b1, b0] := by
  simp [toBits_eight, testBit_setBit, -Nat.testBit_zero]

theorem Leads.sample8
    (h : ∀ v : UInt8, Leads n ⟨⟨true, false, true, out1, noResp, carry, v, a⟩, pc, stack⟩
      (acc ++ (toBits 8 v.toNat).flatMap sampled) G) :
    Leads (n + 314) ⟨⟨true, false, true, out1, noResp, carry, exch, a⟩, .call .sample8 :: pc, stack⟩ acc G := by
  refine .call ?_
  refine .sampleBit 7 fun b7 => .sampleBit 6 fun b6 => .sampleBit 5 fun b5 => .sampleBit 4 fun b4 => ?_
  refine .sampleBit 3 fun b3 => .sampleBit 2 fun b2 => .sampleBit 1 fun b1 => .sampleBit 0 fun b0 => .ret ?_
  have hlast := h (setBit (setBit (setBit (setBit (setBit (setBit (setBit (setBit exch 7 b7) 6 b6) 5 b5) 4 b4)
    3 b3) 2 b2) 1 b1) 0 b0)
  rw [toBits_samples] at hlast
  simpa only [List.flatMap_cons, List.flatMap_nil, List.append_nil, ← List.append_assoc] using hlast

/-- The acts of a byte of the mailbox driven onto MDIO. -/
def driven (f v : UInt8) : List Act := .load f v :: (toBits 8 v.toNat).flatMap clock

theorem Leads.driveByte {f : UInt8} (hf : Shared f) (hexch : f ≠ SFR_DATA_EXCH)
    (h : ∀ v : UInt8, Leads n ⟨⟨true, true, true, v.toNat.testBit 0, noResp, carry, v, v⟩, pc, stack⟩
      (acc ++ driven f v) G) :
    Leads (n + 316) ⟨⟨true, true, true, out1, noResp, carry, exch, a⟩,
      .mov f :: .mova SFR_DATA_EXCH :: .call .drive8 :: pc, stack⟩ acc G := by
  refine .mov hf hexch fun v => .mova_exch (.drive8 ?_)
  rw [List.append_assoc]
  exact h v

/-- The way back to the idle bus, and STATUS. -/
theorem Leads.publish (k : UInt8)
    (h : Leads n ⟨⟨true, true, true, true, noResp, carry, exch, k⟩, pc, stack⟩
      (acc ++ [.mdioOut true, .store STATUS k]) G) :
    Leads (n + 7) ⟨⟨true, dir1, true, out1, noResp, carry, exch, a⟩,
      .call .stopClk :: .movl k :: .mova STATUS :: pc, stack⟩ acc G := by
  have hstatus : Leads (n + 1) ⟨⟨true, true, true, true, noResp, carry, exch, k⟩, .mova STATUS :: pc, stack⟩
      (acc ++ [.mdioOut true]) G := by
    refine .mova (by decide) (by decide) ?_
    rw [List.append_assoc]
    exact h
  have hback : Leads (n + 3) ⟨⟨true, true, true, true, noResp, carry, exch, a⟩, [.ret],
      (.movl k :: .mova STATUS :: pc) :: stack⟩ (acc ++ [.mdioOut true]) G := .ret (.movl k hstatus)
  have hout0 : Leads (n + 4) ⟨⟨true, true, true, true, noResp, carry, exch, a⟩,
      [.bs SFR_PORT_IO SB_PORT_OUT0, .ret], (.movl k :: .mova STATUS :: pc) :: stack⟩
      (acc ++ [.mdioOut true]) G := .silent (fun _ => rfl) (fun _ => rfl) hback
  have hdir1 : Leads (n + 5) ⟨⟨true, dir1, true, true, noResp, carry, exch, a⟩,
      [.bs SFR_PORT_DIR SB_PORT_DIR1, .bs SFR_PORT_IO SB_PORT_OUT0, .ret],
      (.movl k :: .mova STATUS :: pc) :: stack⟩ acc G := .step (fun _ => rfl) (fun _ => rfl) hout0
  have hout1 : Leads (n + 6) ⟨⟨true, dir1, true, out1, noResp, carry, exch, a⟩, code .stopClk,
      (.movl k :: .mova STATUS :: pc) :: stack⟩ acc G := .silent (fun _ => rfl) (fun _ => rfl) hdir1
  exact .call hout1

end Rules

-- ---------------------------------------------------------------------------
-- A frame
-- ---------------------------------------------------------------------------

/-- What a transaction takes from the mailbox and from the line. -/
inductive Transaction
  | write (cmd0 cmd1 cmd2 cmd3 : UInt8)
  | read (cmd0 cmd1 : UInt8) (ta0 : Bool) (resH resL : UInt8)

/-- The doorbell, the pins brought up, and the preamble. -/
def opening : List Act :=
  [.seesGo, .takesGo, .store STATUS 0, .mdcOut true, .mdioOut true] ++ (List.replicate 32 true).flatMap clock

def closing (status : UInt8) : List Act := [.mdioOut true, .store STATUS status]

/-- The acts of a transaction, from the poll that finds GO to STATUS. -/
def Transaction.acts : Transaction → List Act
  | .write cmd0 cmd1 cmd2 cmd3 =>
    opening ++ driven CMD0 cmd0 ++ [.op false] ++ driven CMD1 cmd1 ++ driven CMD2 cmd2 ++ driven CMD3 cmd3 ++
      closing 0x01
  | .read cmd0 cmd1 ta0 resH resL =>
    opening ++ driven CMD0 cmd0 ++ [.op true, .load CMD1 cmd1] ++ ((toBits 8 cmd1.toNat).take 6).flatMap clock ++
      [.mdioIn, .fall, .rise none] ++ sampled ta0 ++
      (toBits 8 resH.toNat).flatMap sampled ++ [.store RES_H resH] ++
      (toBits 8 resL.toNat).flatMap sampled ++ [.store RES_L resL] ++ closing (if ta0 then 0x80 else 0x01)

section Frame

variable {n : Nat} {acc : List Act} {G : Core → List Act → Prop} {out1 carry : Bool} {exch a : UInt8}

/-- The write path, behind the test of the op bit. -/
theorem Leads.writePath
    (h : ∀ cmd1 cmd2 cmd3 : UInt8, Leads n
      ⟨⟨true, true, true, true, false, carry, cmd3, 0x01⟩, [.bc SFR_STATUS_REG SB_GP_BIT_X, .jmp .waitGo], []⟩
      (acc ++ driven CMD1 cmd1 ++ driven CMD2 cmd2 ++ driven CMD3 cmd3 ++ closing 0x01) G) :
    Leads (n + 956) ⟨⟨true, true, true, out1, false, carry, exch, a⟩, (code .waitGo).drop 19, []⟩ acc G := by
  refine .driveByte (by decide) (by decide) fun cmd1 => ?_
  refine .driveByte (by decide) (by decide) fun cmd2 => ?_
  refine .driveByte (by decide) (by decide) fun cmd3 => ?_
  exact .jmp (.publish 0x01 (h cmd1 cmd2 cmd3))

/-- The turnaround: a clock with MDIO released, then one that samples the
no-response flag. -/
theorem Leads.turnaround {pc : List Instr}
    (h : ∀ ta0, Leads n ⟨⟨true, false, true, out1, ta0, ta0, exch, a⟩, pc, []⟩
      (acc ++ [.mdioIn, .fall, .rise none] ++ sampled ta0) G) :
    Leads (n + 80) ⟨⟨true, true, true, out1, false, carry, exch, a⟩,
      .bc SFR_PORT_DIR SB_PORT_DIR1 ::
        .bc SFR_PORT_IO SB_PORT_OUT0 :: .call .half :: .bs SFR_PORT_IO SB_PORT_OUT0 :: .call .half ::
        .bc SFR_PORT_IO SB_PORT_OUT0 :: .call .half :: .bctc ::
        .btsc SFR_STATUS_REG SB_FLAG_C :: .bs SFR_STATUS_REG SB_GP_BIT_X ::
        .bs SFR_PORT_IO SB_PORT_OUT0 :: .call .half :: pc, []⟩ acc G := by
  -- from the end backwards: the flag, the sample it is taken from, and the released clock before it
  have hflag : ∀ ta0, Leads (n + 21) ⟨⟨true, false, false, out1, false, ta0, exch, a⟩,
      .btsc SFR_STATUS_REG SB_FLAG_C :: .bs SFR_STATUS_REG SB_GP_BIT_X ::
        .bs SFR_PORT_IO SB_PORT_OUT0 :: .call .half :: pc, []⟩
      (acc ++ [.mdioIn, .fall, .rise none, .fall, .sample ta0]) G := by
    intro ta0
    have hrise : Leads (n + 19) ⟨⟨true, false, false, out1, ta0, ta0, exch, a⟩,
        .bs SFR_PORT_IO SB_PORT_OUT0 :: .call .half :: pc, []⟩
        (acc ++ [.mdioIn, .fall, .rise none, .fall, .sample ta0]) G := by
      have hta0 := h ta0
      rw [List.append_assoc] at hta0
      refine .rise (.half ?_)
      rw [List.append_assoc]
      exact hta0
    cases ta0 with
    | true =>
      have hset : Leads (n + 20) ⟨⟨true, false, false, out1, false, true, exch, a⟩,
          .bs SFR_STATUS_REG SB_GP_BIT_X :: .bs SFR_PORT_IO SB_PORT_OUT0 :: .call .half :: pc, []⟩
          (acc ++ [.mdioIn, .fall, .rise none, .fall, .sample true]) G :=
        .silent (fun _ => rfl) (fun _ => rfl) hrise
      exact .silent (fun _ => rfl) (fun _ => rfl) hset
    | false => exact .silent (fun _ => rfl) (fun _ => rfl) (hrise.weaken (Nat.le_succ _))
  have hsample : Leads (n + 22) ⟨⟨true, false, false, out1, false, carry, exch, a⟩,
      .bctc :: .btsc SFR_STATUS_REG SB_FLAG_C :: .bs SFR_STATUS_REG SB_GP_BIT_X ::
        .bs SFR_PORT_IO SB_PORT_OUT0 :: .call .half :: pc, []⟩
      (acc ++ [.mdioIn, .fall, .rise none, .fall]) G := by
    refine .reads fun r => ?_
    rw [List.append_assoc]
    exact hflag r.line
  have hrelease : Leads (n + 79) ⟨⟨true, false, true, out1, false, carry, exch, a⟩,
      .bc SFR_PORT_IO SB_PORT_OUT0 :: .call .half :: .bs SFR_PORT_IO SB_PORT_OUT0 :: .call .half ::
        .bc SFR_PORT_IO SB_PORT_OUT0 :: .call .half :: .bctc ::
        .btsc SFR_STATUS_REG SB_FLAG_C :: .bs SFR_STATUS_REG SB_GP_BIT_X ::
        .bs SFR_PORT_IO SB_PORT_OUT0 :: .call .half :: pc, []⟩ (acc ++ [.mdioIn]) G := by
    refine .fall (.half (.rise (.half (.fall (.half ?_)))))
    rw [List.append_assoc, List.append_assoc, List.append_assoc]
    exact hsample
  exact .step (fun _ => rfl) (fun _ => rfl) hrelease

/-- A byte sampled and stored. -/
theorem Leads.sampleByte {f : UInt8} (hf : Shared f) (hexch : f ≠ SFR_DATA_EXCH) {noResp : Bool} {pc : List Instr}
    (h : ∀ v : UInt8, Leads n ⟨⟨true, false, true, out1, noResp, carry, v, v⟩, pc, []⟩
      (acc ++ (toBits 8 v.toNat).flatMap sampled ++ [.store f v]) G) :
    Leads (n + 316) ⟨⟨true, false, true, out1, noResp, carry, exch, a⟩,
      .call .sample8 :: .mov SFR_DATA_EXCH :: .mova f :: pc, []⟩ acc G := by
  refine .sample8 fun v => ?_
  have hstore : Leads (n + 1) ⟨⟨true, false, true, out1, noResp, carry, v, v⟩, .mova f :: pc, []⟩
      (acc ++ (toBits 8 v.toNat).flatMap sampled) G := .mova hf hexch (h v)
  exact .mov_exch hstore

/-- The register address, and no more of the second byte. -/
theorem Leads.driveSix {noResp : Bool} {pc : List Instr}
    (h : Leads n ⟨⟨true, true, true, exch.toNat.testBit 2, noResp, carry, exch, a⟩, pc, []⟩
      (acc ++ ((toBits 8 exch.toNat).take 6).flatMap clock) G) :
    Leads (n + 234) ⟨⟨true, true, true, out1, noResp, carry, exch, a⟩, ((code .rdPath).drop 2).take 30 ++ pc, []⟩
      acc G := by
  rw [toBits_eight] at h
  simp only [List.take_succ_cons, List.take_zero, List.flatMap_cons, List.flatMap_nil, List.append_nil,
    ← List.append_assoc] at h
  exact .driveBit 7 (.driveBit 6 (.driveBit 5 (.driveBit 4 (.driveBit 3 (.driveBit 2 h)))))

/-- The branch on the no-response flag. -/
theorem Leads.answer {noResp : Bool}
    (h : Leads n ⟨⟨true, true, true, true, noResp, carry, exch, if noResp then 0x80 else 0x01⟩,
      [.bc SFR_STATUS_REG SB_GP_BIT_X, .jmp .waitGo], []⟩
      (acc ++ closing (if noResp then 0x80 else 0x01)) G) :
    Leads (n + 9) ⟨⟨true, false, true, out1, noResp, carry, exch, a⟩,
      .btsc SFR_STATUS_REG SB_GP_BIT_X :: .jmp .doneErr :: doneOk, []⟩ acc G := by
  cases noResp with
  | true =>
    have herr : Leads (n + 8) ⟨⟨true, false, true, out1, true, carry, exch, a⟩, .jmp .doneErr :: doneOk, []⟩
        acc G := .jmp (.publish 0x80 h)
    exact .silent (fun _ => rfl) (fun _ => rfl) herr
  | false =>
    have hok : Leads (n + 7) ⟨⟨true, false, true, out1, false, carry, exch, a⟩, doneOk, []⟩ acc G :=
      .publish 0x01 h
    exact .silent (fun _ => rfl) (fun _ => rfl) (hok.weaken (Nat.le_succ _))

/-- The read path. -/
theorem Leads.readPath
    (h : ∀ (cmd1 : UInt8) (ta0 : Bool) (resH resL : UInt8), Leads n
      ⟨⟨true, true, true, true, ta0, ta0, resL, if ta0 then 0x80 else 0x01⟩,
        [.bc SFR_STATUS_REG SB_GP_BIT_X, .jmp .waitGo], []⟩
      (acc ++ [.load CMD1 cmd1] ++ ((toBits 8 cmd1.toNat).take 6).flatMap clock ++
        [.mdioIn, .fall, .rise none] ++ sampled ta0 ++
        (toBits 8 resH.toNat).flatMap sampled ++ [.store RES_H resH] ++
        (toBits 8 resL.toNat).flatMap sampled ++ [.store RES_L resL] ++
        closing (if ta0 then 0x80 else 0x01)) G) :
    Leads (n + 957) ⟨⟨true, true, true, out1, false, carry, exch, a⟩, code .rdPath, []⟩ acc G := by
  refine .mov (by decide) (by decide) fun cmd1 => .mova_exch (.driveSix (.turnaround fun ta0 => ?_))
  refine .sampleByte (by decide) (by decide) fun resH => .sampleByte (by decide) (by decide) fun resL => ?_
  exact .answer (h cmd1 ta0 resH resL)

/-- The pins are brought up without an edge of MDC, whether they idle or have not
been driven before. -/
theorem Leads.bringUp {driving : Bool} {pc : List Instr}
    (h : Leads n ⟨⟨true, true, true, true, false, carry, exch, a⟩, pc, []⟩
      (acc ++ [.takesGo] ++ [.store STATUS 0] ++ [.mdcOut true] ++ [.mdioOut true]) G) :
    Leads (n + 6) ⟨⟨driving, driving, driving, driving, false, carry, exch, a⟩,
      .bc CTRL 7 :: .clr STATUS :: .bs SFR_PORT_IO SB_PORT_OUT0 :: .bs SFR_PORT_IO SB_PORT_OUT1 ::
        .bs SFR_PORT_DIR SB_PORT_DIR0 :: .bs SFR_PORT_DIR SB_PORT_DIR1 :: pc, []⟩ acc G := by
  have hdir1 : Leads (n + 1) ⟨⟨true, driving, true, true, false, carry, exch, a⟩,
      .bs SFR_PORT_DIR SB_PORT_DIR1 :: pc, []⟩
      (acc ++ [.takesGo] ++ [.store STATUS 0] ++ [.mdcOut true]) G := .step (fun _ => rfl) (fun _ => rfl) h
  have hdir0 : Leads (n + 2) ⟨⟨driving, driving, true, true, false, carry, exch, a⟩,
      .bs SFR_PORT_DIR SB_PORT_DIR0 :: .bs SFR_PORT_DIR SB_PORT_DIR1 :: pc, []⟩
      (acc ++ [.takesGo] ++ [.store STATUS 0]) G := by
    cases driving with
    | true => exact .step (fun _ => rfl) (fun _ => rfl) hdir1
    | false => exact .step (fun _ => rfl) (fun _ => rfl) hdir1
  have hout1 : Leads (n + 3) ⟨⟨driving, driving, true, driving, false, carry, exch, a⟩,
      .bs SFR_PORT_IO SB_PORT_OUT1 :: .bs SFR_PORT_DIR SB_PORT_DIR0 :: .bs SFR_PORT_DIR SB_PORT_DIR1 :: pc, []⟩
      (acc ++ [.takesGo] ++ [.store STATUS 0]) G := .silent (fun _ => rfl) (fun _ => edge_eq_nil rfl) hdir0
  have hout0 : Leads (n + 4) ⟨⟨driving, driving, driving, driving, false, carry, exch, a⟩,
      .bs SFR_PORT_IO SB_PORT_OUT0 :: .bs SFR_PORT_IO SB_PORT_OUT1 :: .bs SFR_PORT_DIR SB_PORT_DIR0 ::
        .bs SFR_PORT_DIR SB_PORT_DIR1 :: pc, []⟩ (acc ++ [.takesGo] ++ [.store STATUS 0]) G := by
    cases driving with
    | true => exact .silent (fun _ => rfl) (fun _ => rfl) hout1
    | false => exact .silent (fun _ => rfl) (fun _ => rfl) hout1
  have hclr : Leads (n + 5) ⟨⟨driving, driving, driving, driving, false, carry, exch, a⟩,
      .clr STATUS :: .bs SFR_PORT_IO SB_PORT_OUT0 :: .bs SFR_PORT_IO SB_PORT_OUT1 ::
        .bs SFR_PORT_DIR SB_PORT_DIR0 :: .bs SFR_PORT_DIR SB_PORT_DIR1 :: pc, []⟩ (acc ++ [.takesGo]) G :=
    .step (fun _ => rfl) (fun _ => congrArg (Act.store STATUS 0 :: ·) (edge_eq_nil rfl)) hout0
  exact .step (fun _ => rfl) (fun _ => congrArg (Act.takesGo :: ·) (edge_eq_nil rfl)) hclr

/-- Four bytes of ones. -/
theorem Leads.preamble {pc : List Instr}
    (h : Leads n ⟨⟨true, true, true, true, false, carry, 0xFF, 0xFF⟩, pc, []⟩
      (acc ++ (List.replicate 32 true).flatMap clock) G) :
    Leads (n + 1258) ⟨⟨true, true, true, true, false, carry, exch, a⟩,
      .movl 0xFF :: .mova SFR_DATA_EXCH :: .call .drive8 :: .call .drive8 :: .call .drive8 ::
        .call .drive8 :: pc, []⟩ acc G := by
  have hones : (List.replicate 32 true).flatMap clock = (toBits 8 (0xFF : UInt8).toNat).flatMap clock ++
      (toBits 8 (0xFF : UInt8).toNat).flatMap clock ++ (toBits 8 (0xFF : UInt8).toNat).flatMap clock ++
      (toBits 8 (0xFF : UInt8).toNat).flatMap clock := by decide
  rw [hones, ← List.append_assoc, ← List.append_assoc, ← List.append_assoc] at h
  have hbit : (0xFF : UInt8).toNat.testBit 0 = true := by decide
  have hlast : Leads (n + 314) ⟨⟨true, true, true, true, false, carry, 0xFF, 0xFF⟩, .call .drive8 :: pc, []⟩ _ G :=
    .drive8 (hbit.symm ▸ h)
  have hall : Leads (n + 1256) ⟨⟨true, true, true, true, false, carry, 0xFF, 0xFF⟩,
      .call .drive8 :: .call .drive8 :: .call .drive8 :: .call .drive8 :: pc, []⟩ acc G :=
    .drive8 (hbit.symm ▸ .drive8 (hbit.symm ▸ .drive8 (hbit.symm ▸ hlast)))
  exact .movl 0xFF (.mova_exch hall)

/-- A doorbell that has been seen leads to the transaction, whatever the mailbox
and the line hold, and to the tail of `WAIT_GO` with the bus idle. -/
theorem leads_transaction (driving carry : Bool) (exch a : UInt8) :
    Leads 2539 ⟨⟨driving, driving, driving, driving, false, carry, exch, a⟩, (code .waitGo).drop 2, []⟩ [.seesGo]
      fun c ys => (∃ noResp carry exch a, c = ⟨⟨true, true, true, true, noResp, carry, exch, a⟩,
        [.bc SFR_STATUS_REG SB_GP_BIT_X, .jmp .waitGo], []⟩) ∧ ∃ t : Transaction, ys = t.acts := by
  refine .bringUp (.preamble (.driveByte (by decide) (by decide) fun cmd0 => .testOp (.jmp ?_) ?_))
  · refine .readPath fun cmd1 ta0 resH resL => .done ⟨⟨_, _, _, _, rfl⟩, .read cmd0 cmd1 ta0 resH resL, ?_⟩
    simp only [Transaction.acts, opening, List.append_assoc, List.cons_append, List.nil_append]
  · refine Leads.weaken (Leads.writePath fun cmd1 cmd2 cmd3 => .done ?_) (Nat.le_add_right 956 2)
    refine ⟨⟨_, _, _, _, rfl⟩, .write cmd0 cmd1 cmd2 cmd3, ?_⟩
    simp only [Transaction.acts, opening, List.append_assoc, List.cons_append, List.nil_append]
end Frame
end Tapioca.MasterBlob

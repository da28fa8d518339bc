-- SUMMARY: Runs of the MDIO master blob against any host and any line: one frame for every doorbell.
import Tapioca.Pioc.MasterFrame

/-!
# Runs of the MDIO master blob

The host writes the mailbox whenever it likes. A run is one transaction after
the other, the last one perhaps unfinished, and an unfinished one is finished by
going on. `Posted` is what the host has put into the mailbox, told from the acts
alone: the bytes a transaction takes are the ones last posted, and it starts only
for a doorbell rung since the last one.
-/

namespace Tapioca.MasterBlob

open Lib.Lts Lib.Bits

-- ---------------------------------------------------------------------------
-- Between transactions
-- ---------------------------------------------------------------------------

/-- Where the blob stands between two transactions. Both pins are driven high, or
not driven at all in front of the first. -/
inductive Idle : Bool → Core → Prop
  | boot (carry exch a) :
    Idle false ⟨⟨false, false, false, false, false, carry, exch, a⟩, mcuStart ++ code .waitGo, []⟩
  | pullUp (carry exch a) :
    Idle false ⟨⟨false, false, false, false, false, carry, exch, a⟩, .bs SFR_PORT_DIR SB_PORT_PU1 :: code .waitGo, []⟩
  | poll (driving carry exch a) :
    Idle driving ⟨⟨driving, driving, driving, driving, false, carry, exch, a⟩, code .waitGo, []⟩
  | again (driving carry exch a) :
    Idle driving ⟨⟨driving, driving, driving, driving, false, carry, exch, a⟩, (code .waitGo).drop 1, []⟩
  | rearm (driving noResp carry exch a) :
    Idle driving ⟨⟨driving, driving, driving, driving, noResp, carry, exch, a⟩,
      [.bc SFR_STATUS_REG SB_GP_BIT_X, .jmp .waitGo], []⟩
  | back (driving carry exch a) :
    Idle driving ⟨⟨driving, driving, driving, driving, false, carry, exch, a⟩, [.jmp .waitGo], []⟩

theorem idle_start : Idle false Emcu.start.core := .boot false 0 0

theorem Idle.mdc {driving : Bool} {m : Emcu} (h : Idle driving m.core) :
    m.own.mdc = if driving then some true else none := by
  have hlevel : ∀ b : Bool, (if b then some b else none) = if b then some true else none := by decide
  have hown : m.own = m.core.own := rfl
  rw [hown]
  generalize m.core = c at h
  cases h <;> exact hlevel _

/-- An idle blob stays idle and does nothing, or finds GO. -/
theorem Idle.step {driving : Bool} {c : Core} (h : Idle driving c) (r : Reads) :
    c.acts r = [] ∧ Idle driving (c.step r) ∨
      c.acts r = [.seesGo] ∧ ∃ carry exch a,
        c.step r = ⟨⟨driving, driving, driving, driving, false, carry, exch, a⟩, (code .waitGo).drop 2, []⟩ := by
  cases h with
  | boot carry exch a => exact .inl ⟨rfl, .pullUp carry exch a⟩
  | pullUp carry exch a => exact .inl ⟨rfl, .poll false carry exch a⟩
  | again driving carry exch a => exact .inl ⟨edge_eq_nil rfl, .poll driving carry exch a⟩
  | rearm driving noResp carry exch a => exact .inl ⟨edge_eq_nil rfl, .back driving carry exch a⟩
  | back driving carry exch a => exact .inl ⟨edge_eq_nil rfl, .poll driving carry exch a⟩
  | poll driving carry exch a =>
    have hstep : Core.step ⟨⟨driving, driving, driving, driving, false, carry, exch, a⟩, code .waitGo, []⟩ r =
        ⟨⟨driving, driving, driving, driving, false, carry, exch, a⟩,
          if r.mail.toNat.testBit 7 then (code .waitGo).drop 2 else (code .waitGo).drop 1, []⟩ := rfl
    have hacts : Core.acts ⟨⟨driving, driving, driving, driving, false, carry, exch, a⟩, code .waitGo, []⟩ r =
        if r.mail.toNat.testBit 7 then [.seesGo] else [] := by
      rw [Core.acts, hstep, edge_eq_nil rfl, List.append_nil]
      exact if_congr (and_iff_right rfl) rfl rfl
    rw [hstep, hacts]
    cases r.mail.toNat.testBit 7 with
    | true => exact .inr ⟨rfl, carry, exch, a, rfl⟩
    | false => exact .inl ⟨rfl, .again driving carry exch a⟩

-- ---------------------------------------------------------------------------
-- One transaction after the other
-- ---------------------------------------------------------------------------

/-- An upper bound on the instructions from finding GO to STATUS. -/
def FRAME_INSTRS : Nat := 2539

/-- Within a frame's time the acts are those of complete transactions. -/
def Settles (c : Core) (acc : List Act) : Prop :=
  Leads FRAME_INSTRS c acc fun d ys =>
    ∃ ts : List Transaction, ys = ts.flatMap Transaction.acts ∧ Idle (!ts.isEmpty) d

theorem Idle.settles (ts : List Transaction) {c : Core} (h : Idle (!ts.isEmpty) c) :
    Settles c (ts.flatMap Transaction.acts) := .done ⟨ts, rfl, h⟩

theorem Settles.step {c : Core} {acc : List Act} (h : Settles c acc) (r : Reads) :
    Settles (c.step r) (acc ++ c.acts r) := by
  by_cases hnow : ∃ ts : List Transaction, acc ++ [] = ts.flatMap Transaction.acts ∧ Idle (!ts.isEmpty) c
  · obtain ⟨ts, hacc, hidle⟩ := hnow
    rw [List.append_nil] at hacc
    subst hacc
    rcases hidle.step r with ⟨hacts, hnext⟩ | ⟨hacts, carry, exch, a, hnext⟩
    · rw [hacts, List.append_nil]
      exact hnext.settles ts
    · rw [hacts, hnext]
      refine (leads_transaction _ carry exch a).mono fun d ys hdone => ?_
      obtain ⟨⟨noResp, carry, exch, a, rfl⟩, t, ht⟩ := hdone
      refine ⟨ts ++ [t], ?_, ?_⟩
      · rw [List.flatMap_append, List.flatMap_singleton, ← ht, List.append_assoc]
      · have hsome : (ts ++ [t]).isEmpty = false := by simp
        rw [hsome]
        exact .rearm true noResp carry exch a
  · exact (Within.after h hnow r).mono fun d ys hdone => by rwa [List.append_assoc]

/-- The blob and its acts so far: sound code, and complete transactions within a
frame's time. -/
structure OnTrack (m : Emcu) (acc : List Act) : Prop where
  sound : m.Sound
  settles : Settles m.core acc

theorem onTrack_start : OnTrack .start [] := ⟨sound_start, Idle.settles [] idle_start⟩

theorem OnTrack.step {m : Emcu} {acc : List Act} (h : OnTrack m acc) (t : Turn) :
    OnTrack (m.step t) (acc ++ m.acts t) := by
  obtain ⟨r, hcore, hacts⟩ := core_step h.sound t
  refine ⟨h.sound.step t, ?_⟩
  rw [hcore, hacts]
  exact h.settles.step r

theorem OnTrack.after {m : Emcu} {acc : List Act} (h : OnTrack m acc) (turns : List Turn) :
    OnTrack (run Emcu.step m turns) (acc ++ outputs Emcu.step Emcu.acts m turns) := by
  induction turns generalizing m acc with
  | nil =>
    rw [outputs_nil, List.append_nil]
    exact h
  | cons t turns ih =>
    rw [outputs_cons, ← List.append_assoc]
    exact ih (h.step t)

/-- The acts so far are a prefix of those of transactions. -/
theorem OnTrack.of_transactions {m : Emcu} {acc : List Act} (h : OnTrack m acc) :
    ∃ ts : List Transaction, acc <+: ts.flatMap Transaction.acts := by
  have hlen : FRAME_INSTRS ≤ (List.replicate FRAME_INSTRS (⟨true, 0⟩ : Reads)).length := by
    rw [List.length_replicate]
  obtain ⟨pre, post, -, -, ts, hts, -⟩ := Within.exists_prefix h.settles hlen
  exact ⟨ts, hts ▸ List.prefix_append acc _⟩

theorem OnTrack.finishes {m : Emcu} {acc : List Act} (h : OnTrack m acc) {more : List Turn}
    (hlen : FRAME_INSTRS ≤ more.length) :
    ∃ pre post, more = pre ++ post ∧ pre.length ≤ FRAME_INSTRS ∧ ∃ ts : List Transaction,
      acc ++ outputs Emcu.step Emcu.acts m pre = ts.flatMap Transaction.acts ∧
        (run Emcu.step m pre).Sound ∧ Idle (!ts.isEmpty) (run Emcu.step m pre).core := by
  have hstep : ∀ (m : Emcu) (c : Core) (t : Turn), m.Sound ∧ m.core = c →
      ∃ r, ((m.step t).Sound ∧ (m.step t).core = c.step r) ∧ m.acts t = c.acts r := by
    rintro m c t ⟨hsound, rfl⟩
    obtain ⟨r, hcore, hacts⟩ := core_step hsound t
    exact ⟨r, ⟨hsound.step t, hcore⟩, hacts⟩
  have hsim := Within.of_simulation hstep ⟨h.sound, rfl⟩ h.settles
  obtain ⟨pre, post, hmore, hpre, c, ⟨hsound, rfl⟩, ts, hts, hidle⟩ := hsim.exists_prefix hlen
  exact ⟨pre, post, hmore, hpre, ts, hts, hsound, hidle⟩

-- ---------------------------------------------------------------------------
-- What the host has posted
-- ---------------------------------------------------------------------------

/-- The mailbox as the host has left it, and whether it has rung since GO was last
taken. -/
structure Posted where
  mail : UInt8 → UInt8
  rung : Bool

def Posted.after (p : Posted) : Act → Posted
  | .host f v =>
    { mail := Function.update p.mail f v, rung := if f = CTRL then v.toNat.testBit 7 else p.rung }
  | .takesGo => { p with rung := false }
  | _ => p

/-- What is taken is what has been posted. -/
def Posted.Explains (p : Posted) : Act → Prop
  | .load f v => v = p.mail f
  | .op read => read = (p.mail CTRL).toNat.testBit 0
  | .seesGo => p.rung = true
  | _ => True

/-- The registers the blob reads are as posted, less the GO it has taken. -/
structure Emcu.Agrees (m : Emcu) (p : Posted) : Prop where
  cmd : ∀ f, f = CMD0 ∨ f = CMD1 ∨ f = CMD2 ∨ f = CMD3 → m.regs f = p.mail f
  op : m.bit CTRL 0 = (p.mail CTRL).toNat.testBit 0
  go : m.bit CTRL 7 = p.rung

theorem agrees_start : Emcu.start.Agrees ⟨fun _ => 0, false⟩ := ⟨fun _ _ => rfl, by decide, by decide⟩

theorem Emcu.Agrees.write {m : Emcu} {p : Posted} (h : m.Agrees p) (w : {f : UInt8 // Shared f} × UInt8) :
    (m.write w).Agrees (p.after (.host w.1 w.2)) := by
  obtain ⟨⟨f, hf⟩, v⟩ := w
  have hregs : (m.write ⟨⟨f, hf⟩, v⟩).regs = Function.update m.regs f v := rfl
  have hmail : (p.after (.host f v)).mail = Function.update p.mail f v := rfl
  have hrung : (p.after (.host f v)).rung = if f = CTRL then v.toNat.testBit 7 else p.rung := rfl
  refine ⟨fun g hg => ?_, ?_, ?_⟩
  · rw [hregs, hmail]
    by_cases heq : g = f
    · rw [heq, Function.update_self, Function.update_self]
    · rw [Function.update_of_ne heq, Function.update_of_ne heq, h.cmd g hg]
  · rw [Emcu.bit, hregs, hmail]
    by_cases heq : CTRL = f
    · rw [heq, Function.update_self, Function.update_self]
    · rw [Function.update_of_ne heq, Function.update_of_ne heq]
      exact h.op
  · rw [Emcu.bit, hregs, hrung]
    by_cases heq : CTRL = f
    · rw [heq, Function.update_self, if_pos rfl]
    · rw [if_neg (Ne.symm heq), Function.update_of_ne heq]
      exact h.go

/-- The registers the host alone writes, and CTRL but for GO. -/
theorem regs_exec {m : Emcu} (hm : m.Sound) (line : Bool) {g : UInt8}
    (hg : g = CMD0 ∨ g = CMD1 ∨ g = CMD2 ∨ g = CMD3 ∨ g = CTRL) (hgo : m.pc.head? ≠ some (.bc CTRL 7)) :
    (m.exec line).regs g = m.regs g := by
  obtain ⟨regs, a, pc, stack⟩ := m
  cases pc with
  | nil => rfl
  | cons i pc =>
    have hi : i.Known := hm.pc i (.head _)
    have hport : ∀ f, f = SFR_PORT_IO ∨ f = SFR_PORT_DIR ∨ f = SFR_STATUS_REG → g ≠ f := by
      rintro f (rfl | rfl | rfl) <;> rcases hg with rfl | rfl | rfl | rfl | rfl <;> decide
    have hrest : ∀ f, f = SFR_DATA_EXCH ∨ f = STATUS ∨ f = RES_H ∨ f = RES_L → g ≠ f := by
      rintro f (rfl | rfl | rfl | rfl) <;> rcases hg with rfl | rfl | rfl | rfl | rfl <;> decide
    cases i with
    | clr f => exact Function.update_of_ne (hi.elim (fun h => hport f (by simp [h])) fun h => hrest f (by simp [h])) _ _
    | bs f i => exact Function.update_of_ne (hport f hi.1) _ _
    | bc f i =>
      rcases hi with ⟨hf, -⟩ | ⟨rfl, rfl⟩
      · exact Function.update_of_ne (hport f hf) _ _
      · exact absurd rfl hgo
    | mova f => exact Function.update_of_ne (hrest f hi) _ _
    | bp2f i => exact Function.update_of_ne (hport _ (.inl rfl)) _ _
    | bg2f i => exact Function.update_of_ne (hrest _ (.inl rfl)) _ _
    | bctc => exact Function.update_of_ne (hport _ (.inr (.inr rfl))) _ _
    | jmp _ | call _ | ret | btss _ _ | btsc _ _ | movl _ | mov _ | nop => rfl

theorem run_edge (p : Posted) (q q' : Own) :
    AllSteps Posted.after Posted.Explains p (edge q q') ∧ run Posted.after p (edge q q') = p := by
  rw [edge]
  split
  · exact ⟨⟨trivial, trivial⟩, rfl⟩
  · exact ⟨⟨trivial, trivial⟩, rfl⟩
  · exact ⟨trivial, rfl⟩

/-- Every instruction but the one that takes GO. -/
theorem Instr.acts_explained {i : Instr} (hi : i.Known) {m : Emcu} {p : Posted} (h : m.Agrees p) (q : Own)
    (line : Bool) (hgo : i ≠ .bc CTRL 7) :
    AllSteps Posted.after Posted.Explains p (i.acts q ⟨line, m.regs i.source⟩) ∧
      run Posted.after p (i.acts q ⟨line, m.regs i.source⟩) = p := by
  -- only the reads of CTRL and CMD observe what was posted; all other acts explain themselves
  cases i with
  | btss f i =>
    obtain ⟨rfl, rfl⟩ := hi
    have hgo : (m.regs CTRL).toNat.testBit 7 = p.rung := h.go
    simp only [Instr.acts_btss, Instr.source, hgo, true_and]
    split
    · rename_i hrung
      exact ⟨⟨hrung, trivial⟩, rfl⟩
    · exact ⟨trivial, rfl⟩
  | btsc f i =>
    rcases hi with ⟨rfl, rfl⟩ | ⟨rfl, -⟩
    · exact ⟨⟨h.op, trivial⟩, rfl⟩
    · exact ⟨trivial, rfl⟩
  | mov f =>
    simp only [Instr.acts_mov, Instr.source]
    split
    · rename_i hf
      refine ⟨⟨h.cmd f (hi.resolve_left fun heq => ?_), trivial⟩, rfl⟩
      subst heq
      exact absurd hf (by decide)
    · exact ⟨trivial, rfl⟩
  | bc f i =>
    have hne : f ≠ CTRL := by
      rintro rfl
      rcases hi with ⟨hf, -⟩ | ⟨-, rfl⟩
      · exact absurd hf (by decide)
      · exact hgo rfl
    simp only [Instr.acts_bc, if_neg hne]
    split
    · exact ⟨⟨trivial, trivial⟩, rfl⟩
    · exact ⟨trivial, rfl⟩
  | mova f | clr f =>
    simp only [Instr.acts_mova, Instr.acts_clr]
    split
    · exact ⟨⟨trivial, trivial⟩, rfl⟩
    · exact ⟨trivial, rfl⟩
  | bs f i =>
    simp only [Instr.acts_bs]
    split_ifs
    · exact ⟨⟨trivial, trivial⟩, rfl⟩
    · exact ⟨⟨trivial, trivial⟩, rfl⟩
    · exact ⟨trivial, rfl⟩
    · exact ⟨trivial, rfl⟩
  | bg2f _ | bctc => exact ⟨⟨trivial, trivial⟩, rfl⟩
  | jmp _ | call _ | ret | movl _ | bp2f _ | nop => exact ⟨trivial, rfl⟩

theorem Emcu.Agrees.exec {m : Emcu} {p : Posted} (hm : m.Sound) (h : m.Agrees p) (line : Bool) :
    AllSteps Posted.after Posted.Explains p ((m.pc.headD .nop).acts m.own (m.reads line)) ∧
      (m.exec line).Agrees (run Posted.after p ((m.pc.headD .nop).acts m.own (m.reads line))) := by
  by_cases hgo : m.pc.head? = some (.bc CTRL 7)
  · obtain ⟨pc, hpc⟩ : ∃ pc, m.pc = .bc CTRL 7 :: pc := ⟨m.pc.tail, (List.cons_head?_tail hgo).symm⟩
    have hregs : (m.exec line).regs = Function.update m.regs CTRL (setBit (m.regs CTRL) 7 false) := by
      simp only [Emcu.exec, hpc, regs_setReg]
    have hbit : ∀ i < 8, (m.exec line).bit CTRL i = if 7 = i then false else m.bit CTRL i := by
      intro i hi
      rw [Emcu.bit, hregs, Function.update_self, testBit_setBit _ hi (by decide), Emcu.bit]
    have hacts : (m.pc.headD .nop).acts m.own (m.reads line) = [.takesGo] := by
      rw [hpc]
      rfl
    rw [hacts]
    refine ⟨⟨trivial, trivial⟩, fun f hf => ?_, ?_, ?_⟩
    · have hne : f ≠ CTRL := by rcases hf with rfl | rfl | rfl | rfl <;> decide
      rw [hregs, Function.update_of_ne hne]
      exact h.cmd f hf
    · exact (hbit 0 (by decide)).trans h.op
    · exact hbit 7 (by decide)
  · have hi : (m.pc.headD .nop).Known := by
      cases hpc : m.pc with
      | nil => trivial
      | cons i pc => exact hm.pc i (hpc ▸ .head _)
    have hne : m.pc.headD .nop ≠ .bc CTRL 7 := by
      cases hpc : m.pc with
      | nil => exact Instr.noConfusion
      | cons i pc =>
        rw [hpc] at hgo
        exact fun heq => hgo (congrArg some heq)
    obtain ⟨hexplained, hsame⟩ := Instr.acts_explained hi h m.own line hne
    have hreads : m.reads line = ⟨line, m.regs (m.pc.headD .nop).source⟩ := rfl
    rw [hreads, hsame]
    have hregs : ∀ g, g = CMD0 ∨ g = CMD1 ∨ g = CMD2 ∨ g = CMD3 ∨ g = CTRL →
        (m.exec line).regs g = m.regs g := fun g hg => regs_exec hm line hg hgo
    refine ⟨hexplained, fun f hf => ?_, ?_, ?_⟩
    · rw [hregs f (by tauto)]
      exact h.cmd f hf
    · rw [Emcu.bit, hregs CTRL (by simp)]
      exact h.op
    · rw [Emcu.bit, hregs CTRL (by simp)]
      exact h.go

theorem Emcu.Agrees.served {m : Emcu} {p : Posted} (h : m.Agrees p) (t : Turn) :
    AllSteps Posted.after Posted.Explains p (t.writes.map fun w => .host w.1 w.2) ∧
      (m.served t).Agrees (run Posted.after p (t.writes.map fun w => .host w.1 w.2)) := by
  obtain ⟨writes, line⟩ := t
  induction writes generalizing m p with
  | nil => exact ⟨trivial, h⟩
  | cons w writes ih =>
    obtain ⟨hrest, hagrees⟩ := ih (h.write w)
    exact ⟨⟨trivial, hrest⟩, hagrees⟩

/-- Every act of a turn is explained by what has been posted before it. -/
theorem Emcu.Agrees.step {m : Emcu} {p : Posted} (hm : m.Sound) (h : m.Agrees p) (t : Turn) :
    AllSteps Posted.after Posted.Explains p (m.trace t) ∧ (m.step t).Agrees (run Posted.after p (m.trace t)) := by
  obtain ⟨hwrites, hserved⟩ := h.served t
  obtain ⟨hinstr, hexec⟩ := hserved.exec (hm.served t) t.line
  obtain ⟨hedge, hsame⟩ := run_edge (run Posted.after (run Posted.after p (t.writes.map fun w => .host w.1 w.2))
    (((m.served t).pc.headD .nop).acts (m.served t).own ((m.served t).reads t.line))) (m.served t).own
    ((m.served t).exec t.line).own
  have htrace : m.trace t = (t.writes.map fun w => .host w.1 w.2) ++
      (((m.served t).pc.headD .nop).acts (m.served t).own ((m.served t).reads t.line) ++
        edge (m.served t).own ((m.served t).exec t.line).own) := rfl
  rw [htrace, allSteps_append, allSteps_append, run_append, run_append, hsame]
  exact ⟨⟨hwrites, hinstr, hedge⟩, hexec⟩

theorem Emcu.Agrees.after {m : Emcu} {p : Posted} (hm : m.Sound) (h : m.Agrees p) (turns : List Turn) :
    AllSteps Posted.after Posted.Explains p (outputs Emcu.step Emcu.trace m turns) := by
  induction turns generalizing m p with
  | nil => trivial
  | cons t turns ih =>
    obtain ⟨hnow, hnext⟩ := h.step hm t
    exact (allSteps_append _ _ _).mpr ⟨hnow, ih (hm.step t) hnext⟩

theorem acts_ofBlob (m : Emcu) (t : Turn) : ∀ act ∈ m.acts t, act.ofBlob = true := by
  have hedge : ∀ p q, ∀ act ∈ edge p q, act.ofBlob = true := by
    intro p q
    rw [edge]
    split <;> simp [Act.ofBlob]
  have hinstr : ∀ (i : Instr) (p : Own) (r : Reads), ∀ act ∈ i.acts p r, act.ofBlob = true := by
    intro i p r
    cases i with
    | clr _ | bs _ _ | bc _ _ | btss _ _ | btsc _ _ | mov _ | mova _ =>
      simp only [Instr.acts_clr, Instr.acts_bs, Instr.acts_bc, Instr.acts_btss, Instr.acts_btsc, Instr.acts_mov,
        Instr.acts_mova]
      split_ifs <;> simp [Act.ofBlob]
    | bg2f _ | bctc => exact List.forall_mem_singleton.mpr rfl
    | jmp _ | call _ | ret | movl _ | bp2f _ | nop => exact List.forall_mem_nil _
  intro act hact
  rcases List.mem_append.mp hact with h | h
  · exact hinstr _ _ _ act h
  · exact hedge _ _ act h

/-- The trace without the host's writes. -/
theorem filter_trace (m : Emcu) (turns : List Turn) :
    (outputs Emcu.step Emcu.trace m turns).filter Act.ofBlob = outputs Emcu.step Emcu.acts m turns := by
  induction turns generalizing m with
  | nil => rfl
  | cons t turns ih =>
    have hhost : (t.writes.map fun w => Act.host w.1 w.2).filter Act.ofBlob = [] := by
      refine List.filter_eq_nil_iff.mpr fun act hact => ?_
      obtain ⟨w, -, rfl⟩ := List.mem_map.mp hact
      exact Bool.false_ne_true
    rw [outputs_cons, outputs_cons, List.filter_append, ih, Emcu.trace, List.filter_append, hhost, List.nil_append,
      List.filter_eq_self.mpr (acts_ofBlob m t)]

-- ---------------------------------------------------------------------------
-- The doorbell
-- ---------------------------------------------------------------------------

/-- The host leaves CTRL alone. -/
def Turn.SparesCtrl (t : Turn) : Prop := ∀ w ∈ t.writes, w.1.1 ≠ CTRL

theorem served_ctrl (m : Emcu) {t : Turn} (ht : t.SparesCtrl) : (m.served t).regs CTRL = m.regs CTRL := by
  obtain ⟨writes, line⟩ := t
  induction writes generalizing m with
  | nil => rfl
  | cons w writes ih =>
    have hw : (m.write w).regs CTRL = m.regs CTRL := Function.update_of_ne (Ne.symm (ht w (.head _))) _ _
    exact (ih (m.write w) fun w' hw' => ht w' (.tail _ hw')).trans hw

theorem served_pc (m : Emcu) (t : Turn) : (m.served t).pc = m.pc := congrArg Core.pc (core_served m t)

/-- A doorbell that is not taken stays. -/
theorem go_step {m : Emcu} (hm : m.Sound) (hgo : m.bit CTRL 7 = true) {t : Turn} (ht : t.SparesCtrl) :
    .takesGo ∈ m.acts t ∨ (m.step t).bit CTRL 7 = true := by
  by_cases htakes : m.pc.head? = some (.bc CTRL 7)
  · obtain ⟨pc, hpc⟩ : ∃ pc, m.pc = .bc CTRL 7 :: pc := ⟨m.pc.tail, (List.cons_head?_tail htakes).symm⟩
    refine .inl (List.mem_append_left _ ?_)
    rw [served_pc, hpc]
    exact .head _
  · rw [← served_pc m t] at htakes
    have hkept : (m.step t).regs CTRL = m.regs CTRL :=
      (regs_exec (hm.served t) t.line (by simp) htakes).trans (served_ctrl m ht)
    rw [Emcu.bit, hkept]
    exact .inr hgo

theorem go_run {m : Emcu} (hm : m.Sound) (hgo : m.bit CTRL 7 = true) {turns : List Turn}
    (hspares : ∀ t ∈ turns, t.SparesCtrl) :
    .takesGo ∈ outputs Emcu.step Emcu.acts m turns ∨ (run Emcu.step m turns).bit CTRL 7 = true := by
  induction turns generalizing m with
  | nil => exact .inr hgo
  | cons t turns ih =>
    rw [outputs_cons, List.mem_append]
    rcases go_step hm hgo (hspares t (.head _)) with htaken | hstays
    · exact .inl (.inl htaken)
    · exact (ih (hm.step t) hstays fun t' ht' => hspares t' (.tail _ ht')).imp .inr id

/-- A doorbell is taken within `k` turns, if the host leaves it alone. -/
def TakesGo (k : Nat) (m : Emcu) : Prop :=
  ∀ turns : List Turn, (∀ t ∈ turns, t.SparesCtrl) → k ≤ turns.length → .takesGo ∈ outputs Emcu.step Emcu.acts m turns

theorem TakesGo.step {k : Nat} {m : Emcu} (hm : m.Sound) (hgo : m.bit CTRL 7 = true)
    (h : ∀ t : Turn, t.SparesCtrl → (m.step t).Sound → (m.step t).bit CTRL 7 = true → TakesGo k (m.step t)) :
    TakesGo (k + 1) m := by
  intro turns hspares hlen
  cases turns with
  | nil => simp at hlen
  | cons t turns =>
    have ht := hspares t (.head _)
    rw [outputs_cons, List.mem_append]
    rcases go_step hm hgo ht with htaken | hkept
    · exact .inl htaken
    · exact .inr (h t ht (hm.step t) hkept turns (fun t' ht' => hspares t' (.tail _ ht')) (by simpa using hlen))

theorem takesGo_seen {m : Emcu} (hpc : m.pc = (code .waitGo).drop 2) : TakesGo 1 m := by
  intro turns _ hlen
  cases turns with
  | nil => simp at hlen
  | cons t turns =>
    refine List.mem_append_left _ (List.mem_append_left _ ?_)
    rw [served_pc, hpc]
    exact .head _

theorem takesGo_poll {m : Emcu} (hm : m.Sound) (hgo : m.bit CTRL 7 = true) (hpc : m.pc = code .waitGo) :
    TakesGo 2 m := by
  refine .step hm hgo fun t ht _ _ => takesGo_seen ?_
  have hbit : (m.served t).bit CTRL 7 = true := by
    rw [Emcu.bit, served_ctrl m ht]
    exact hgo
  have hserved : (m.served t).pc = code .waitGo := (served_pc m t).trans hpc
  simp only [Emcu.step, Emcu.exec, hserved, code, hbit, if_true]
  rfl

theorem TakesGo.mono {k k' : Nat} {m : Emcu} (h : TakesGo k m) (hle : k ≤ k') : TakesGo k' m :=
  fun turns hspares hlen => h turns hspares (hle.trans hlen)

/-- From an instruction in front of the poll. -/
theorem takesGo_next {k : Nat} {m : Emcu} (hm : m.Sound) (hgo : m.bit CTRL 7 = true) {pc pc' : List Instr}
    (hpc : m.pc = pc) (hnext : ∀ own stack r, (Core.step ⟨own, pc, stack⟩ r).pc = pc')
    (h : ∀ {m' : Emcu}, m'.Sound → m'.bit CTRL 7 = true → m'.pc = pc' → TakesGo k m') : TakesGo (k + 1) m := by
  refine .step hm hgo fun t _ hsound hkept => h hsound hkept ?_
  obtain ⟨r, hcore, -⟩ := core_step hm t
  rw [Emcu.core, Emcu.core, hpc] at hcore
  exact (congrArg Core.pc hcore).trans (hnext m.own m.stack r)

theorem takesGo_back {m : Emcu} (hm : m.Sound) (hgo : m.bit CTRL 7 = true) (hpc : m.pc = [.jmp .waitGo]) :
    TakesGo 3 m := takesGo_next hm hgo hpc (fun _ _ _ => rfl) takesGo_poll

theorem takesGo_pullUp {m : Emcu} (hm : m.Sound) (hgo : m.bit CTRL 7 = true)
    (hpc : m.pc = .bs SFR_PORT_DIR SB_PORT_PU1 :: code .waitGo) : TakesGo 3 m :=
  takesGo_next hm hgo hpc (fun _ _ _ => rfl) takesGo_poll

theorem Idle.takesGo {driving : Bool} {m : Emcu} (h : Idle driving m.core) (hm : m.Sound)
    (hgo : m.bit CTRL 7 = true) : TakesGo 4 m := by
  generalize hcore : m.core = c at h
  have hpc : m.pc = c.pc := congrArg Core.pc hcore
  cases h with
  | boot carry exch a => exact takesGo_next hm hgo hpc (fun _ _ _ => rfl) takesGo_pullUp
  | pullUp carry exch a => exact (takesGo_pullUp hm hgo hpc).mono (by decide)
  | poll driving carry exch a => exact (takesGo_poll hm hgo hpc).mono (by decide)
  | again driving carry exch a =>
    exact (takesGo_next hm hgo hpc (fun _ _ _ => rfl) takesGo_poll).mono (by decide)
  | rearm driving noResp carry exch a => exact takesGo_next hm hgo hpc (fun _ _ _ => rfl) takesGo_back
  | back driving carry exch a => exact (takesGo_back hm hgo hpc).mono (by decide)

/-- Whatever the blob is doing, a doorbell that is left alone is taken within a
frame's time. -/
theorem OnTrack.takesGo {m : Emcu} {acc : List Act} (h : OnTrack m acc) (hgo : m.bit CTRL 7 = true) :
    TakesGo (FRAME_INSTRS + 4) m := by
  intro turns hspares hlen
  obtain ⟨pre, post, rfl, hpre, ts, -, hsound, hidle⟩ := h.finishes (le_trans (Nat.le_add_right _ 4) hlen)
  rw [outputs_append, List.mem_append]
  rcases go_run h.sound hgo fun t ht => hspares t (List.mem_append_left _ ht) with htaken | hstays
  · exact .inl htaken
  · refine .inr (hidle.takesGo hsound hstays post (fun t ht => hspares t (List.mem_append_right _ ht)) ?_)
    rw [List.length_append] at hlen
    omega

-- ---------------------------------------------------------------------------
-- The frame
-- ---------------------------------------------------------------------------

/-- The edges of MDC, `true` for a rise. -/
def Act.edge : Act → Option Bool
  | .fall => some false
  | .rise _ => some true
  | _ => none

/-- MDIO at a rising edge of MDC. -/
def Act.level : Act → Option (Option Bool)
  | .rise mdio => some mdio
  | _ => none

/-- What a transaction puts on MDIO, clock by clock, and where it lets go of it. -/
def Transaction.levels : Transaction → List (Option Bool)
  | .write cmd0 cmd1 cmd2 cmd3 =>
    (List.replicate 32 true ++ toBits 8 cmd0.toNat ++ toBits 8 cmd1.toNat ++ toBits 8 cmd2.toNat ++
      toBits 8 cmd3.toNat).map some
  | .read cmd0 cmd1 _ _ _ =>
    (List.replicate 32 true ++ toBits 8 cmd0.toNat ++ (toBits 8 cmd1.toNat).take 6).map some ++
      List.replicate 18 none

theorem filterMap_clocks (bs : List Bool) :
    (bs.flatMap clock).filterMap Act.edge = (List.replicate bs.length [false, true]).flatten ∧
      (bs.flatMap clock).filterMap Act.level = bs.map some := by
  induction bs with
  | nil => exact ⟨rfl, rfl⟩
  | cons b bs ih =>
    rw [List.flatMap_cons, List.filterMap_append, List.filterMap_append, ih.1, ih.2]
    exact ⟨rfl, rfl⟩

theorem filterMap_samples (bs : List Bool) :
    (bs.flatMap sampled).filterMap Act.edge = (List.replicate bs.length [false, true]).flatten ∧
      (bs.flatMap sampled).filterMap Act.level = List.replicate bs.length none := by
  induction bs with
  | nil => exact ⟨rfl, rfl⟩
  | cons b bs ih =>
    rw [List.flatMap_cons, List.filterMap_append, List.filterMap_append, ih.1, ih.2]
    exact ⟨rfl, rfl⟩

theorem Transaction.edges (t : Transaction) :
    t.acts.filterMap Act.edge = (List.replicate 64 [false, true]).flatten := by
  cases t with
  | write cmd0 cmd1 cmd2 cmd3 =>
    simp only [acts, opening, closing, driven, List.filterMap_append, List.filterMap_cons, (filterMap_clocks _).1,
      length_toBits, List.length_replicate, Act.edge]
    rfl
  | read cmd0 cmd1 ta0 resH resL =>
    simp only [acts, opening, closing, driven, sampled, List.filterMap_append, List.filterMap_cons,
      (filterMap_clocks _).1, (filterMap_samples _).1, length_toBits, List.length_replicate, List.length_take, Act.edge]
    rfl

theorem Transaction.levels_acts (t : Transaction) : t.acts.filterMap Act.level = t.levels := by
  cases t with
  | write cmd0 cmd1 cmd2 cmd3 =>
    simp only [acts, opening, closing, driven, List.filterMap_append, List.filterMap_cons, (filterMap_clocks _).2,
      Act.level, levels, List.map_append, List.filterMap_nil, List.nil_append, List.append_nil, List.append_assoc]
  | read cmd0 cmd1 ta0 resH resL =>
    simp only [acts, opening, closing, driven, sampled, List.filterMap_append, List.filterMap_cons,
      (filterMap_clocks _).2, (filterMap_samples _).2, length_toBits, Act.level, levels, List.map_append,
      List.filterMap_nil, List.nil_append, List.append_assoc]
    rfl

/-- Against any host and any line, a run's acts are those of one transaction after
the other, each taking what has last been posted, and each with 64 clocks and
the levels of its frame; within a frame's time an unfinished one ends, with MDC
high, and a doorbell left alone is taken. -/
theorem one_frame_per_doorbell (turns : List Turn) :
    let m := run Emcu.step Emcu.start turns
    let trace := outputs Emcu.step Emcu.trace Emcu.start turns
    (∃ ts : List Transaction, trace.filter Act.ofBlob <+: ts.flatMap Transaction.acts) ∧
      AllSteps Posted.after Posted.Explains ⟨fun _ => 0, false⟩ trace ∧
      (∀ more : List Turn, FRAME_INSTRS ≤ more.length → ∃ pre, pre <+: more ∧ ∃ ts : List Transaction,
        (outputs Emcu.step Emcu.trace Emcu.start (turns ++ pre)).filter Act.ofBlob = ts.flatMap Transaction.acts ∧
          (run Emcu.step m pre).own.mdc = if ts = [] then none else some true) ∧
      (m.bit CTRL 7 = true → ∀ more : List Turn, (∀ t ∈ more, t.SparesCtrl) → FRAME_INSTRS + 4 ≤ more.length →
        .takesGo ∈ outputs Emcu.step Emcu.trace m more) ∧
      ∀ t : Transaction, t.acts.filterMap Act.edge = (List.replicate 64 [false, true]).flatten ∧
        t.acts.filterMap Act.level = t.levels := by
  intro m trace
  have htrack : OnTrack m (outputs Emcu.step Emcu.acts Emcu.start turns) := onTrack_start.after turns
  refine ⟨?_, agrees_start.after sound_start turns, fun more hlen => ?_, fun hgo more hspares hlen => ?_,
    fun t => ⟨t.edges, t.levels_acts⟩⟩
  · rw [filter_trace]
    exact htrack.of_transactions
  · obtain ⟨pre, post, rfl, -, ts, hts, -, hidle⟩ := htrack.finishes hlen
    refine ⟨pre, List.prefix_append _ _, ts, ?_, ?_⟩
    · rw [filter_trace, outputs_append]
      exact hts
    · rw [hidle.mdc]
      cases ts <;> rfl
  · have htaken := htrack.takesGo hgo more hspares hlen
    rw [← filter_trace] at htaken
    exact List.mem_of_mem_filter htaken

end Tapioca.MasterBlob

-- SUMMARY: The run-length blob and the firmware side by side, from the level of the data line to the wire.
import Mathlib.Tactic
import Tapioca.Pioc.RleBlob
import Tapioca.Sniffer.RleRoundTrip

/-!
# From the line to the wire

The blob executes its instructions while the drain ISR and `service()` run beside it. A
store through the port and the count of HEAD are what the firmware sees of it. Whatever
the interleaving, the wire carries the runs that the blob has sampled.
-/

namespace Tapioca.RleBlob

open Pioc RleSniffer Lib.Lts

-- ---------------------------------------------------------------------------
-- What the firmware sees of an instruction
-- ---------------------------------------------------------------------------

/-- What an instruction does to the FIFO: a store through the port, or the count of HEAD. -/
def Emcu.events (m : Emcu) : List Event :=
  match m.pc with
  | .mova _ :: _ => if h : m.a ≤ 0x80 then [.store ⟨m.a, h⟩] else []
  | .inc f :: _ => if f = HEAD then [.publish] else []
  | _ => []

/-- A byte is in its slot and HEAD has not counted it. -/
def Emcu.owed (m : Emcu) : Nat := if m.pc.head? = some (.inc HEAD) then 1 else 0

theorem Line.bytes_le (line : Line) : ∀ b ∈ line.bytes, b ≤ 0x80 := by
  intro b hb
  rcases List.mem_append.mp hb with hb | hb
  · obtain ⟨t, -, hb⟩ := List.mem_flatMap.mp hb
    exact encodeRun_le t b hb
  · exact List.eq_of_mem_replicate hb ▸ UInt8.le_refl _

variable {m : Emcu} {f : Ring} {line : Line} {p : Point}

theorem Tracks.owed (h : Tracks m f line p) : m.owed = p.uncounted := by
  rw [Emcu.owed, h.pc, p.uncounted_eq]

/-- A byte is owed behind a store, and there alone. -/
theorem Tracks.owed_step (h : Tracks m f line p) (s : Bool) : (m.step s).owed = m.puts.length := by
  have hpc := h.pc
  have hne : CNT ≠ HEAD := by decide
  cases p with
  | sample l | branch l | count l | toCap l | again l =>
    cases l <;> simp [Emcu.owed, Emcu.step, Emcu.puts, hpc, Point.code, loopHead, counting, code, hne]
  | load l e | put l e | publish l e | reload l e | clear l e | back l e =>
    cases l <;> cases e <;> simp [Emcu.owed, Emcu.step, Emcu.puts, hpc, Point.code, site, code]
  -- a skip leads past one instruction or none
  | test l _ | full l =>
    cases l <;> simp only [Emcu.owed, Emcu.step, Emcu.puts, hpc, Point.code, loopHead, counting, code, List.drop] <;>
      split_ifs <;> simp_all
  | check l e =>
    cases l <;> cases e <;> simp only [Emcu.owed, Emcu.step, Emcu.puts, hpc, Point.code, site, code, List.drop] <;>
      split_ifs <;> simp_all

/-- What the blob stores is a run-byte. -/
theorem Tracks.puts_le (h : Tracks m f line p) : ∀ b ∈ m.puts, b ≤ 0x80 := by
  intro b hb
  obtain ⟨f', p', hnext, hstored⟩ := h.step true
  obtain ⟨t, ht, -⟩ := hnext.missing
  apply Line.bytes_le
  rw [ht, hstored]
  exact List.mem_append_left _ (List.mem_append_right _ hb)

end Tapioca.RleBlob

namespace Tapioca.RleSniffer

open Pioc RleBlob RecordFramer Lib.Lts Lib.SlotRing Host.CanRle

-- ---------------------------------------------------------------------------
-- Blob and firmware
-- ---------------------------------------------------------------------------

/-- The eMCU and the firmware that drains it. -/
structure Device where
  emcu : Emcu
  sys : System

/-- The eMCU executes an instruction with the data line at a level, or the firmware
takes a step. -/
inductive Act where
  | instr (line : Bool)
  | firmware (e : Event)

/-- The FIFO is the eMCU's. -/
def Event.eMcu : Event → Bool
  | .store _ | .publish => true
  | _ => false

namespace Device

def step (B : Build) (d : Device) : Act → Device
  | .instr line => ⟨d.emcu.step line, run (System.step B) d.sys d.emcu.events⟩
  | .firmware e => if e.eMcu then d else { d with sys := d.sys.step B e }

/-- The sample an act reads. -/
def samples (d : Device) : Act → List Bool
  | .instr line => d.emcu.samples line
  | .firmware _ => []

/-- `begin()` has started the eMCU, which has run `MCU_START`. -/
def begin (B : Build) (regs : Regs) (a : UInt8) (mem : Nat → UInt8) (lastT nowMs : UInt32)
    (space printed : Nat) : Device where
  emcu := Emcu.start regs a
  sys := System.begin B regs mem lastT nowMs space printed

/-- The firmware loses no byte and takes no idle gap by the clock. -/
def Calm (d : Device) : Act → Prop
  | .instr _ => True
  | .firmware e => d.sys.Calm e

instance decidableCalm (d : Device) : ∀ act, Decidable (d.Calm act)
  | .instr _ => .isTrue trivial
  | .firmware e => inferInstanceAs (Decidable (d.sys.Calm e))

/-- The eMCU is about to take a sample, and the firmware has put everything on the wire. -/
structure Settled (d : Device) : Prop where
  sampling : d.emcu.pc = code .high ∨ d.emcu.pc = code .low
  drained : d.sys.cursor = d.sys.fifo.stored.length
  passed : d.sys.queued = []
  returned : d.sys.pc = .idle

instance decidableSettled (d : Device) : Decidable d.Settled :=
  decidable_of_iff ((d.emcu.pc = code .high ∨ d.emcu.pc = code .low) ∧ d.sys.cursor = d.sys.fifo.stored.length ∧
      d.sys.queued = [] ∧ d.sys.pc = .idle)
    ⟨fun ⟨hsampling, hdrained, hpassed, hreturned⟩ => ⟨hsampling, hdrained, hpassed, hreturned⟩,
      fun h => ⟨h.sampling, h.drained, h.passed, h.returned⟩⟩

end Device

/-- The FIFO of the firmware's model and the eMCU's registers, behind the samples of a line. -/
structure Linked (d : Device) (line : Line) : Prop where
  tracks : ∃ (f : Ring) (p : Point), Tracks d.emcu f line p ∧ f.stored = d.sys.fifo.stored
  counted : d.sys.fifo.published + d.emcu.owed = d.sys.fifo.stored.length

theorem System.step_fifo {B : Build} {s : System} {e : Event} (he : e.eMcu = false) :
    (s.step B e).fifo = s.fifo := by
  have hto := s.stepTo B e
  generalize s.step B e = t at hto
  cases hto with
  | store v h | publish h => cases he
  | round nowMs l hpc hrun | commit nowMs l hpc hrun =>
    rw [System.round]
    split <;> rfl
  | stay | drain | enter | readDrop | mark | finish | report => rfl

namespace Linked

variable {B : Build} {d : Device} {line : Line}

/-- What the events of an instruction do to the FIFO. -/
theorem events (h : Linked d line) :
    (run (System.step B) d.sys d.emcu.events).fifo.stored = d.sys.fifo.stored ++ d.emcu.puts ∧
      (run (System.step B) d.sys d.emcu.events).fifo.published = d.sys.fifo.published + d.emcu.owed := by
  obtain ⟨⟨f, p, htracks, -⟩, hcounted⟩ := h
  obtain ⟨⟨regs, a, pc⟩, sys⟩ := d
  cases pc with
  | nil => simp [Emcu.events, Emcu.puts, Emcu.owed]
  | cons i pc =>
    cases i with
    | mova r =>
      have ha : a ≤ 0x80 := htracks.puts_le a (by simp [Emcu.puts])
      have hready : sys.fifo.published = sys.fifo.stored.length := by simpa [Emcu.owed] using hcounted
      simp only [Emcu.events, dif_pos ha, run_cons, run_nil, System.step, dif_pos hready]
      exact ⟨rfl, rfl⟩
    | inc r =>
      by_cases hr : r = HEAD
      · have hready : sys.fifo.published < sys.fifo.stored.length := by
          have howed : Emcu.owed ⟨regs, a, .inc r :: pc⟩ = 1 := if_pos (by rw [hr]; rfl)
          rw [← hcounted, howed]
          exact Nat.lt_succ_self _
        simp only [Emcu.events, if_pos hr, run_cons, run_nil, System.step, dif_pos hready]
        exact ⟨by simp [Emcu.puts], by simp [Emcu.owed, hr]⟩
      · simp [Emcu.events, Emcu.puts, Emcu.owed, hr]
    | clr | bctc | btsc | jmp | mov | movia => simp [Emcu.events, Emcu.puts, Emcu.owed]

theorem step (h : Linked d line) (act : Act) : Linked (d.step B act) ((d.samples act).foldl Line.sample line) := by
  cases act with
  | instr s =>
    obtain ⟨hstored, hpublished⟩ := h.events (B := B)
    obtain ⟨⟨f, p, htracks, hf⟩, hcounted⟩ := h
    obtain ⟨f', p', hnext, hf'⟩ := htracks.step s
    have howed := htracks.owed_step s
    refine ⟨⟨f', p', hnext, ?_⟩, ?_⟩
    · exact (hf'.trans (by rw [hf])).trans hstored.symm
    · simp only [Device.step]
      rw [hstored, hpublished, howed, List.length_append, ← hcounted]
  | firmware e =>
    rw [Device.step]
    split
    · exact h
    next he =>
      have hfifo := System.step_fifo (B := B) (s := d.sys) (Bool.eq_false_iff.mpr he)
      obtain ⟨⟨f, p, htracks, hf⟩, hcounted⟩ := h
      exact ⟨⟨f, p, htracks, by rw [hf, hfifo]⟩, by rw [hfifo]; exact hcounted⟩

theorem start (B : Build) (regs : Regs) (a : UInt8) (mem : Nat → UInt8) (lastT nowMs : UInt32)
    (space printed : Nat) : Linked (Device.begin B regs a mem lastT nowMs space printed) .idle := by
  obtain ⟨f, htracks, hnil⟩ := Tracks.start regs a
  exact ⟨⟨f, _, htracks, hnil⟩, rfl⟩

/-- What the firmware reads are the eMCU's registers: HEAD, and the slots of the last bytes. -/
theorem shared (h : Linked d line) :
    d.sys.fifo.regs HEAD = d.emcu.regs HEAD ∧ ∀ k v, d.sys.fifo.stored[k]? = some v →
      d.sys.fifo.stored.length ≤ k + 30 →
        d.sys.fifo.regs (layout.slot (k % 30)) = v ∧ d.emcu.regs (layout.slot (k % 30)) = v := by
  obtain ⟨⟨f, p, htracks, hf⟩, hcounted⟩ := h
  have hpublished : f.published = d.sys.fifo.published := by
    have hcount := htracks.published
    rw [← htracks.owed, hf] at hcount
    omega
  refine ⟨?_, fun k v hk hlap => ⟨d.sys.fifo.recorded k v hk hlap, ?_⟩⟩
  · have hhead := f.head_eq
    rw [htracks.regs, hpublished] at hhead
    exact d.sys.fifo.head_eq.trans hhead.symm
  · have hslot := f.recorded k v (by rw [hf]; exact hk) (by rw [hf]; exact hlap)
    rwa [htracks.regs] at hslot

end Linked

theorem Linked.run {B : Build} {d : Device} {line : Line} (h : Linked d line) (acts : List Act) :
    Linked (Lib.Lts.run (Device.step B) d acts)
      ((outputs (Device.step B) Device.samples d acts).foldl Line.sample line) := by
  induction acts generalizing d line with
  | nil => exact h
  | cons act acts ih =>
    rw [outputs_cons, List.foldl_append]
    exact ih (h.step act)

/-- Between any two steps of eMCU and firmware, what the firmware reads are the registers the blob writes: HEAD, and
the slots of the last 30 bytes. -/
theorem registers_shared (B : Build) (regs : Regs) (a : UInt8) (mem : Nat → UInt8) (lastT nowMs : UInt32)
    (space printed : Nat) (acts : List Act) :
    let d := run (Device.step B) (Device.begin B regs a mem lastT nowMs space printed) acts
    d.sys.fifo.regs HEAD = d.emcu.regs HEAD ∧ ∀ k v, d.sys.fifo.stored[k]? = some v →
      d.sys.fifo.stored.length ≤ k + 30 →
        d.sys.fifo.regs (layout.slot (k % 30)) = v ∧ d.emcu.regs (layout.slot (k % 30)) = v :=
  ((Linked.start B regs a mem lastT nowMs space printed).run acts).shared

-- ---------------------------------------------------------------------------
-- The runs on the wire
-- ---------------------------------------------------------------------------

/-- The runs of a line that the squelch has heard: the open one too, once it is idle. -/
def heard (K : Nat) (line : Line) : List Nat :=
  line.runs ++ if K ≠ 0 ∧ K ≤ line.length / 128 then [line.length] else []

namespace Squelch

variable {K : Nat}

/-- Continuation bytes that no terminal byte has followed yet. -/
theorem sift_open {n : Nat} (m : Nat) (hn : K = 0 ∨ n < K) :
    sift K ⟨n, false⟩ (List.replicate m 0x80) =
      if K ≠ 0 ∧ K ≤ n + m then List.replicate (K - 1 - n) (.byte 0x80) ++ [.idleBoundary]
      else List.replicate m (.byte 0x80) := by
  have hcont : (0x80 : UInt8) ≥ 128 := by decide
  have hpiped : ∀ n m, K ≠ 0 → sift K ⟨n, true⟩ (List.replicate m 0x80) = [] := by
    intro n m hK
    have hend := sift_piped hK n m (b := 0) (by decide) []
    rw [sift_append] at hend
    exact (List.append_eq_nil_iff.mp hend).1
  induction m generalizing n with
  | zero =>
    rw [if_neg (by omega)]
    rfl
  | succ m ih =>
    rw [List.replicate_succ, sift]
    by_cases hidle : K ≠ 0 ∧ n + 1 ≥ K
    · have hlong : K ≠ 0 ∧ K ≤ n + (m + 1) := ⟨hidle.1, by omega⟩
      have hzero : K - 1 - n = 0 := by omega
      rw [if_pos hlong, hzero]
      simp only [verdict, next, if_pos hcont, Bool.false_eq_true, and_false, if_false, hidle, ne_eq,
        not_false_eq_true, and_self, if_true, or_true, decide_true, Verdict.items]
      rw [hpiped _ _ hidle.1]
      rfl
    · simp only [verdict, next, if_pos hcont, Bool.false_eq_true, and_false, if_false, hidle, decide_false,
        or_self, Verdict.items, List.singleton_append]
      rw [ih (by omega)]
      by_cases hlong : K ≠ 0 ∧ K ≤ n + (m + 1)
      · have hone : K - 1 - n = K - 1 - (n + 1) + 1 := by omega
        rw [if_pos (by omega), if_pos hlong, hone, List.replicate_succ]
        rfl
      · rw [if_neg (by omega), if_neg hlong, List.replicate_succ]

end Squelch

/-- Squelch and host together, over the bytes of a line. -/
theorem reconstruct_sift_bytes (K : Nat) (line : Line) :
    reconstructContinuation 0 (Squelch.sift K ⟨0, false⟩ line.bytes) = (heard K line).flatMap (expectedRuns K) := by
  have hbytes : line.bytes = line.runs.flatMap encodeRun ++ List.replicate (line.length / 128) 0x80 := rfl
  rw [hbytes, reconstruct_sift_append, heard, List.flatMap_append, Squelch.sift_open _ (by omega), Nat.zero_add,
    Nat.sub_zero]
  split
  next hidle =>
    rw [List.flatMap_singleton, expectedRuns, if_neg (by omega), reconstruct_replicate, reconstructContinuation,
      reconstructContinuation]
    by_cases hone : K = 1
    · subst hone
      rfl
    · rw [if_neg hone, if_pos (by omega), Nat.zero_add]
  next =>
    rw [← List.append_nil (List.replicate _ _), reconstruct_replicate]
    rfl

/-- A settled device has its line on the wire. -/
theorem Sifted.settled {B : Build} {front body : List Tag} {bytes : List UInt8} {d : Device} {line : Line}
    (h : Sifted B front body bytes d.sys) (hlinked : Linked d line) (hsettled : d.Settled) :
    bytes = line.bytes ∧ d.sys.fifo.stored = line.bytes ∧ d.sys.host.wire = d.sys.trace.flatMap (Tag.bytes B) := by
  obtain ⟨⟨f, p, htracks, hf⟩, -⟩ := hlinked
  have hline : d.sys.fifo.stored = line.bytes := by
    rcases hsettled.sampling with hpc | hpc
    · exact hf.symm.trans (htracks.at_head (l := true) hpc).symm
    · exact hf.symm.trans (htracks.at_head (l := false) hpc).symm
  refine ⟨?_, hline, ?_⟩
  · have htook := h.took
    have hahead : d.sys.ahead = [] := by
      change (d.sys.queued.zip _).drop _ = []
      rw [hsettled.passed, List.zip_nil_left, List.drop_nil]
    rwa [hahead, List.map_nil, List.append_nil, hsettled.drained, List.take_length, hline] at htook
  · have hreserved : d.sys.reserved = [] := by rw [System.reserved, hsettled.returned]
    rw [← h.queued.wire, hreserved, List.append_nil]

/-- What the eMCU does to the FIFO is calm. -/
theorem System.calm_events {m : Emcu} {e : Event} (he : e ∈ m.events) (s : System) : s.Calm e := by
  obtain ⟨regs, a, pc⟩ := m
  cases pc with
  | nil => simp [Emcu.events] at he
  | cons i pc =>
    cases i with
    | mova r =>
      simp only [Emcu.events] at he
      split at he
      · rw [List.mem_singleton.mp he]
        trivial
      · simp at he
    | inc r =>
      simp only [Emcu.events] at he
      split at he
      · rw [List.mem_singleton.mp he]
        trivial
      · simp at he
    | clr | bctc | btsc | jmp | mov | movia => simp [Emcu.events] at he

theorem Sifted.run {B : Build} {front : List Tag} {d : Device} {acts : List Act}
    (hsifted : ∃ body bytes, Sifted B front body bytes d.sys)
    (hcalm : AllSteps (Device.step B) Device.Calm d acts) :
    ∃ body bytes, Sifted B front body bytes (Lib.Lts.run (Device.step B) d acts).sys := by
  refine hcalm.invariant (I := fun d => ∃ body bytes, Sifted B front body bytes d.sys) ?_ hsifted
  rintro d act ⟨body, bytes, h⟩ hact
  cases act with
  | instr s =>
    have hevents : AllSteps (System.step B) System.Calm d.sys d.emcu.events :=
      allSteps_of_mem (fun e he s => s.calm_events he) d.sys
    refine hevents.invariant (I := fun s => ∃ body bytes, Sifted B front body bytes s) ?_ ⟨body, bytes, h⟩
    rintro s e ⟨body, bytes, h⟩ he
    exact h.step he
  | firmware e =>
    rw [Device.step]
    split
    · exact ⟨body, bytes, h⟩
    · exact h.step hact

/-- A run of eMCU and firmware from `begin()` on: calm, and settled at the end. -/
structure Capture (B : Build) where
  first : Device
  acts : List Act
  begun : ∃ regs a mem lastT nowMs space printed, first = Device.begin B regs a mem lastT nowMs space printed
  calm : AllSteps (Device.step B) Device.Calm first acts
  settled : (run (Device.step B) first acts).Settled

namespace Capture

variable {B : Build} (c : Capture B)

def final : Device := Lib.Lts.run (Device.step B) c.first c.acts

/-- The data line as the blob has sampled it. -/
def line : Line := (outputs (Device.step B) Device.samples c.first c.acts).foldl Line.sample .idle

/-- Whatever the interleaving of the blob with the firmware, a host that reads the wire behind `begin()` recovers the
runs of the data line, up to repeated and leading boundaries: all that have ended, and the open one once it has been
idle long enough. -/
theorem wire_runs :
    ∃ body, c.final.sys.host.wire = c.first.sys.host.wire ++ body ∧
      collapse (BOUNDARY_RUN :: captureToRuns body) =
        collapse (BOUNDARY_RUN :: (heard B.capIdleK c.line).flatMap (expectedRuns B.capIdleK)) := by
  obtain ⟨regs, a, mem, lastT, nowMs, space, printed, hbegin⟩ := c.begun
  have hlinked : Linked c.final c.line := by
    have hstart := Linked.start B regs a mem lastT nowMs space printed
    rw [← hbegin] at hstart
    exact hstart.run c.acts
  have hbegun : Sifted B c.first.sys.trace [] [] c.first.sys := by
    rw [hbegin]
    exact sifted_begin B regs mem lastT nowMs space printed
  have hfront : c.first.sys.host.wire = c.first.sys.trace.flatMap (Tag.bytes B) := by
    rw [hbegin]
    exact (List.append_nil _).symm.trans (queued_begin B regs mem lastT nowMs space printed).wire
  obtain ⟨body, bytes, h⟩ := Sifted.run ⟨[], [], hbegun⟩ c.calm
  obtain ⟨hbytes, hstored, hwire⟩ := h.settled hlinked c.settled
  subst hbytes
  refine ⟨body.flatMap (Tag.bytes B), ?_, ?_⟩
  · rw [final, hwire, h.trace, List.flatMap_append, ← hfront]
  · rw [h.collapse_sift (fun b hb => c.line.bytes_le b (hstored ▸ hb)) rfl (fun k b hmem => ?_) h.banner,
      reconstruct_sift_bytes]
    rw [h.trace]
    exact List.mem_append_right _ hmem

end Capture

end Tapioca.RleSniffer

-- SUMMARY: The RAM ring between the drain ISR and the filter loop of `service()` as a queue.
import Tapioca.Sniffer.RleQueue

/-!
# The RAM staging ring

`drainPioc()` may run between any two steps of `service()`, which releases what
it has read only at the end of its loop. Whatever the FIFO holds, the ring hands
on what was copied into it, in order, and never writes over a byte that has not
been released.
-/

namespace Tapioca.RleSniffer

open Pioc Lib.Lts

namespace System

/-- The bytes a step copies into the RAM ring. -/
def copies (s : System) : Event → List UInt8
  | .drain => s.host.copied s.fifo.regs
  | _ => []

/-- The byte a step of the filter loop reads. -/
def reads (s : System) (e : Event) : List UInt8 :=
  match e, s.pc with
  | .round, .filter _ l => if l.running then [s.host.ram.peek l.i] else []
  | _, _ => []

/-- The bytes the end of the filter loop releases. -/
def releases (s : System) (e : Event) : List UInt8 :=
  match e, s.pc with
  | .round, .filter _ l => if l.running then [] else s.host.ram.contents.take l.i
  | _, _ => []

/-- The bytes in the RAM ring the filter loop has still to read. -/
def unread (s : System) : List UInt8 := s.host.ram.contents.drop s.taken

/-- The filter loop stays within what it found in the ring. -/
def Staging (s : System) : Prop :=
  ∀ nowMs l, s.pc = .filter nowMs l → l.i ≤ l.n ∧ l.n ≤ s.host.ram.count

variable {B : Build} {s : System}

theorem copied_fits (s : System) : (s.host.copied s.fifo.regs).length ≤ s.host.ram.space := by
  rw [length_copied]
  exact min_le_right _ _

theorem drain_contents (s : System) :
    s.drain.host.ram.contents = s.host.ram.contents ++ s.host.copied s.fifo.regs :=
  s.host.ram.contents_append s.copied_fits

theorem drain_count (s : System) :
    s.drain.host.ram.count = s.host.ram.count + (s.host.copied s.fifo.regs).length :=
  s.host.ram.count_append s.copied_fits

/-- A drain leaves the bytes that have not been released. -/
theorem drain_peek (s : System) {i : Nat} (h : i < s.host.ram.count) :
    s.drain.host.ram.peek i = s.host.ram.peek i := by
  have hold := s.host.ram.peek_eq h
  have hnew := s.drain.host.ram.peek_eq (i := i) (by rw [drain_count]; omega)
  rw [drain_contents, List.getElem?_append_left (by simpa using h), hold] at hnew
  exact (Option.some_inj.mp hnew).symm

namespace Staging

/-- Where a step leaves the ring alone and starts no loop. -/
theorem keep (h : s.Staging) {t : System} (hram : t.host.ram = s.host.ram)
    (hpc : ∀ nowMs l, t.pc = .filter nowMs l → s.pc = .filter nowMs l) : t.Staging := by
  intro nowMs l hloop
  rw [hram]
  exact h nowMs l (hpc nowMs l hloop)

theorem more {l : Loop} (hrun : l.running = true) : l.i < l.n := by
  simp only [Loop.running, Bool.decide_and, Bool.and_eq_true, decide_eq_true_eq] at hrun
  exact hrun.1

theorem step (h : s.Staging) (e : Event) : (s.step B e).Staging := by
  have hto := s.stepTo B e
  generalize s.step B e = t at hto
  cases hto with
  | stay => exact h
  | store => exact h
  | publish => exact h
  | drain =>
    intro nowMs l hpc
    rw [drain_pc] at hpc
    obtain ⟨hi, hcount⟩ := h nowMs l hpc
    rw [drain_count]
    exact ⟨hi, by omega⟩
  | enter nowMs writeSpace cap =>
    intro _ _ hpc
    obtain ⟨-, rfl⟩ := Pc.filter.inj hpc
    exact ⟨Nat.zero_le _, min_le_left _ _⟩
  | round nowMs l hpc hrun =>
    obtain ⟨-, hcount⟩ := h nowMs l hpc
    have hmore := more hrun
    rw [System.round, if_pos hrun]
    intro _ _ hpc'
    obtain ⟨-, rfl⟩ := Pc.filter.inj hpc'
    exact ⟨hmore, hcount⟩
  | commit nowMs l hpc hstop =>
    rw [System.round, hstop, if_neg Bool.false_ne_true]
    rintro _ _ ⟨⟩
  | readDrop => rintro _ _ ⟨⟩
  | mark => rintro _ _ ⟨⟩
  | finish => rintro _ _ ⟨⟩
  | report => rintro _ _ ⟨⟩

end Staging

/-- Only a drain and the filter loop touch the ring. -/
theorem step_ram (s : System) {e : Event} (hdrain : e ≠ .drain) (hround : e ≠ .round) :
    (s.step B e).host.ram = s.host.ram := by
  have hto := s.stepTo B e
  generalize s.step B e = t at hto
  cases hto with
  | stay | store | publish | enter | readDrop => rfl
  | drain => exact absurd rfl hdrain
  | round | commit => exact absurd rfl hround
  | mark => rw [System.mark, Sniffer.markLoss_frame]
  | finish => rw [System.finish, Sniffer.finish_frame]
  | report => rw [System.report, Sniffer.report_frame]

/-- Outside the filter loop nothing has been read that is not released. -/
theorem step_taken (s : System) {e : Event} (hround : e ≠ .round) : (s.step B e).taken = s.taken := by
  have hto := s.stepTo B e
  generalize s.step B e = t at hto
  cases hto with
  | stay | store | publish => rfl
  | drain => exact s.drain_taken
  | round | commit => exact absurd rfl hround
  | readDrop _ _ hpc => rw [taken, taken, hpc]
  | enter _ _ _ hpc | mark _ _ _ _ hpc | finish _ _ _ _ hpc | report _ _ _ hpc =>
    rw [taken, taken, hpc]
    rfl

/-- What is in the ring, with what a drain copies in, is released or stays. -/
theorem releases_flow (h : s.Staging) (e : Event) :
    s.host.ram.contents ++ s.copies e = s.releases e ++ (s.step B e).host.ram.contents := by
  cases e with
  | drain => exact s.drain_contents.symm
  | round =>
    cases hpc : s.pc with
    | filter nowMs l =>
      simp only [copies, releases, System.step, hpc, List.append_nil]
      by_cases hrun : l.running = true
      · rw [System.round, if_pos hrun, if_pos hrun]
        rfl
      · obtain ⟨hi, hcount⟩ := h nowMs l hpc
        have hleft := s.host.ram.contents_release (hi.trans hcount)
        rw [System.round, if_neg hrun, if_neg hrun]
        simp only [Sniffer.commitLoop, hleft, List.take_append_drop]
    | idle | readDrop _ _ | mark _ _ _ | finish _ _ | report _ =>
      simp only [copies, releases, System.step, hpc, List.append_nil, List.nil_append]
  | store _ | publish | enter _ _ _ | readDrop | mark _ | finish _ _ | report _ _ =>
    rw [step_ram s (by rintro ⟨⟩) (by rintro ⟨⟩)]
    exact List.append_nil _

/-- What is still to be read, with what a drain copies in, is read or stays. -/
theorem reads_flow (h : s.Staging) (e : Event) :
    s.unread ++ s.copies e = s.reads e ++ (s.step B e).unread := by
  cases e with
  | drain =>
    have hlen : s.taken ≤ s.host.ram.contents.length := by
      rw [RamRing.length_contents, taken]
      split
      · rename_i l hpc
        obtain ⟨hi, hcount⟩ := h _ l hpc
        exact hi.trans hcount
      all_goals exact Nat.zero_le _
    change _ = [] ++ s.drain.unread
    rw [unread, unread, drain_taken, drain_contents, List.drop_append_of_le_length hlen]
    rfl
  | round =>
    cases hpc : s.pc with
    | filter nowMs l =>
      obtain ⟨hi, hcount⟩ := h nowMs l hpc
      simp only [unread, copies, reads, taken, System.step, hpc, List.append_nil]
      by_cases hrun : l.running = true
      · have hlt : l.i < s.host.ram.contents.length := by
          have hmore := Staging.more hrun
          rw [RamRing.length_contents]
          omega
        have hbyte := s.host.ram.peek_eq (i := l.i) (by simpa using hlt)
        rw [List.getElem?_eq_getElem hlt, Option.some_inj] at hbyte
        rw [System.round, if_pos hrun, if_pos hrun, List.drop_eq_getElem_cons hlt, hbyte]
        rfl
      · have hleft := s.host.ram.contents_release (hi.trans hcount)
        rw [System.round, if_neg hrun, if_neg hrun]
        simp only [Sniffer.commitLoop, hleft, List.drop_zero, List.nil_append]
    | idle | readDrop _ _ | mark _ _ _ | finish _ _ | report _ =>
      simp only [copies, reads, System.step, hpc, List.append_nil, List.nil_append]
  | store _ | publish | enter _ _ _ | readDrop | mark _ | finish _ _ | report _ _ =>
    rw [unread, unread, step_ram s (by rintro ⟨⟩) (by rintro ⟨⟩), step_taken s (by rintro ⟨⟩)]
    exact List.append_nil _

theorem staging_begin (B : Build) (regs : Regs) (mem : Nat → UInt8) (lastT nowMs : UInt32)
    (space printed : Nat) : (System.begin B regs mem lastT nowMs space printed).Staging := by
  rintro _ _ ⟨⟩

theorem begin_contents (B : Build) (regs : Regs) (mem : Nat → UInt8) (lastT nowMs : UInt32)
    (space printed : Nat) :
    (System.begin B regs mem lastT nowMs space printed).host.ram.contents = [] := by
  rw [System.begin, Sniffer.begin_frame]
  exact RamRing.contents_clear { mem, head := 0, tail := 0 }

/-- The drop count moves where a drain has no room for what it takes, and where
the telemetry clears it. -/
theorem step_ramDrop (s : System) (e : Event) :
    (s.step B e).host.ramDrop =
      match e, s.pc with
      | .drain, _ => s.host.ramDrop + UInt32.ofNat (s.gap - (s.copies .drain).length)
      | .report _ _, .report nowMs => if s.host.reportDue B nowMs then 0 else s.host.ramDrop
      | _, _ => s.host.ramDrop := by
  cases e with
  | drain =>
    rw [copies, length_copied]
    exact s.drain_ramDrop
  | report d space =>
    -- only the due [T] block clears the count
    cases hpc : s.pc with
    | report nowMs =>
      simp only [System.step, hpc, System.report, Sniffer.report]
      split <;> rfl
    | idle | filter _ _ | readDrop _ _ | mark _ _ _ | finish _ _ => simp only [System.step, hpc]
  | round =>
    cases hpc : s.pc with
    | filter nowMs l =>
      simp only [System.step, hpc, System.round]
      split <;> rfl
    | idle | readDrop _ _ | mark _ _ _ | finish _ _ | report _ => simp only [System.step, hpc]
  | mark room =>
    cases hpc : s.pc with
    | mark nowMs saw rd =>
      simp only [System.step, hpc]
      rw [System.mark, Sniffer.markLoss_frame]
    | idle | filter _ _ | readDrop _ _ | finish _ _ | report _ => simp only [System.step, hpc]
  | finish room space =>
    cases hpc : s.pc with
    | finish nowMs saw =>
      simp only [System.step, hpc]
      rw [System.finish, Sniffer.finish_frame]
    | idle | filter _ _ | readDrop _ _ | mark _ _ _ | report _ => simp only [System.step, hpc]
  | store v =>
    simp only [System.step]
    split <;> rfl
  | publish =>
    simp only [System.step]
    split <;> rfl
  | enter _ _ _ | readDrop =>
    cases hpc : s.pc <;> simp only [System.step, hpc]

end System

/-- In every run the filter loop reads exactly the bytes the drains copied, in
order; the ring holds the copied bytes that have not been released, at most 2047
of them; a drain writes over none of these, and counts those it takes from the
FIFO and does not copy. -/
theorem staging_queue (B : Build) (regs : Regs) (mem : Nat → UInt8) (lastT nowMs : UInt32)
    (space printed : Nat) (evs : List Event) :
    let s := System.begin B regs mem lastT nowMs space printed
    let t := run (System.step B) s evs
    outputs (System.step B) System.copies s evs =
        outputs (System.step B) System.reads s evs ++ t.unread ∧
      outputs (System.step B) System.copies s evs =
        outputs (System.step B) System.releases s evs ++ t.host.ram.contents ∧
      t.host.ram.contents.length ≤ 2047 ∧
      (∀ i < t.host.ram.count, t.drain.host.ram.peek i = t.host.ram.peek i) ∧
      ∀ e, (t.step B e).host.ramDrop =
        match e, t.pc with
        | .drain, _ => t.host.ramDrop + UInt32.ofNat (t.gap - (t.copies .drain).length)
        | .report _ _, .report nowMs => if t.host.reportDue B nowMs then 0 else t.host.ramDrop
        | _, _ => t.host.ramDrop := by
  intro s t
  have hall : AllSteps (System.step B) (fun _ _ => True) s evs :=
    allSteps_of_forall (fun _ _ => trivial) s evs
  have hstart := System.begin_contents B regs mem lastT nowMs space printed
  have hread := hall.conserves (I := System.Staging) (H := System.unread)
    (fun _ e h _ => h.step e) (fun _ e h _ => System.reads_flow h e)
    (System.staging_begin B regs mem lastT nowMs space printed)
  have hreleased := hall.conserves (I := System.Staging) (H := fun s => s.host.ram.contents)
    (fun _ e h _ => h.step e) (fun _ e h _ => System.releases_flow h e)
    (System.staging_begin B regs mem lastT nowMs space printed)
  have hnone : s.unread = [] := by
    rw [System.unread, hstart, List.drop_nil]
  rw [hnone, List.nil_append] at hread
  simp only [hstart, List.nil_append] at hreleased
  refine ⟨hread, hreleased, ?_, fun i hi => t.drain_peek hi, fun e => t.step_ramDrop e⟩
  rw [RamRing.length_contents]
  exact t.host.ram.count_le

end Tapioca.RleSniffer

-- SUMMARY: One boundary per idle run: the squelch and the idle-gap timer both write `0xFF`, and when the second stays quiet behind the first.
import Tapioca.Sniffer.RleQueue

/-!
# Idle boundaries

A long run of continuation bytes ends in one `0xFF`, written by the squelch;
what follows is dropped until a terminal byte. A line that has gone quiet gets
its `0xFF` from a 3 ms timer. The timer starts on activity, and bytes waiting in
the RAM ring count as activity before the squelch has seen them.
-/

namespace Tapioca.RleSniffer

open Lib.Lts

namespace System

/-- The squelch has written its boundary, and no terminal byte has come since. -/
def piped (s : System) : Bool := s.squelch.capPiped

/-- Squelched bytes do not count as frame activity. -/
def Quiet (s : System) : Prop := s.piped = true → s.host.sniffActive = false

/-- The step writes an idle boundary. -/
def WritesBoundary (B : Build) (s : System) (e : Event) : Prop :=
  ∃ pre post, (s.step B e).trace = s.trace ++ pre ++ .boundary :: post

/-- The activity test of a call finds the RAM ring empty. -/
def FindsEmpty (s : System) (e : Event) : Prop :=
  match e, s.pc with
  | .finish _ _, .finish _ _ => s.piped = true → s.host.ram.count = 0
  | _, _ => True

/-- Behind its boundary the squelch has a bound, and the call has seen nothing
since. -/
def Silent (B : Build) (s : System) : Prop := s.piped = true → B.capIdleK ≠ 0 ∧ s.sawActivity = false

end System

-- ---------------------------------------------------------------------------
-- The filter
-- ---------------------------------------------------------------------------

/-- What a byte does to a squelch that has written its boundary, or writes it. -/
theorem Squelch.next_piped {K : Nat} {q : Squelch} {b : UInt8} (hK : q.capPiped = true → K ≠ 0)
    (h : (q.next K b).capPiped = true) :
    K ≠ 0 ∧ (q.verdict K b = .boundary ∨ q.verdict K b = .drop ∧ q.capPiped = true) := by
  unfold next at h
  unfold verdict
  split at h
  · rename_i hcap
    rw [if_pos hcap]
    split at h
    · rename_i hdrop
      rw [if_pos hdrop]
      exact ⟨hdrop.1, .inr ⟨rfl, hdrop.2⟩⟩
    · rename_i hgo
      rw [if_neg hgo]
      have hor : q.capPiped = true ∨ K ≠ 0 ∧ q.capRun + 1 ≥ K := by simpa using h
      have hbound := hor.resolve_left fun hpiped => hgo ⟨hK hpiped, hpiped⟩
      rw [if_pos hbound]
      exact ⟨hbound.1, .inl rfl⟩
  · cases h

theorem Squelch.verdict_piped {K : Nat} {q : Squelch} (hK : K ≠ 0) (h : q.capPiped = true) (b : UInt8) :
    q.verdict K b = .drop ∨ q.verdict K b = .dropTail := by
  unfold verdict
  split
  · exact .inl (if_pos ⟨hK, h⟩)
  · exact .inr rfl

namespace System

variable {B : Build} {s : System}

theorem Silent.step (h : s.Silent B) (e : Event) : (s.step B e).Silent B := by
  have hto := s.stepTo B e
  generalize s.step B e = t at hto
  cases hto with
  | stay | store | publish => exact h
  | drain =>
    intro hpiped
    rw [piped, drain_squelch] at hpiped
    refine ⟨(h hpiped).1, ?_⟩
    rw [← (h hpiped).2]
    simp only [sawActivity, drain]
  | enter nowMs writeSpace cap hpc =>
    intro hpiped
    have hbefore : s.piped = true := by
      rw [piped, squelch, hpc]
      exact hpiped
    exact ⟨(h hbefore).1, rfl⟩
  | round nowMs l hpc hrun =>
    have hbefore : l.squelch.capPiped = true → B.capIdleK ≠ 0 ∧ l.sawActivity = false := by
      simpa only [Silent, piped, squelch, sawActivity, hpc] using h
    rw [System.round, if_pos hrun]
    intro hpiped
    -- still piped: the byte was the boundary itself or one more that is dropped
    obtain ⟨hK, hverdict⟩ := Squelch.next_piped (fun hp => (hbefore hp).1) hpiped
    refine ⟨hK, ?_⟩
    simp only [sawActivity, Sniffer.loopRound]
    rcases hverdict with hwritten | ⟨hdropped, hp⟩
    · rw [hwritten]
    · rw [hdropped]
      exact (hbefore hp).2
  | commit nowMs l hpc hstop =>
    rw [System.round, hstop, if_neg Bool.false_ne_true]
    simpa only [Silent, piped, squelch, sawActivity, hpc, Sniffer.commitLoop] using h
  | readDrop nowMs saw hpc => simpa only [Silent, piped, squelch, System.sawActivity, hpc] using h
  | mark room nowMs saw rd hpc =>
    rw [System.mark, Sniffer.markLoss_frame]
    simpa only [Silent, piped, squelch, System.sawActivity, hpc] using h
  | finish room space nowMs saw hpc =>
    rw [System.finish, Sniffer.finish_frame]
    intro hpiped
    have hbefore : s.piped = true := by
      rw [piped, squelch, hpc]
      exact hpiped
    exact ⟨(h hbefore).1, rfl⟩
  | report d space nowMs hpc =>
    rw [System.report, Sniffer.report_frame]
    intro hpiped
    have hbefore : s.piped = true := by
      rw [piped, squelch, hpc]
      exact hpiped
    exact ⟨(h hbefore).1, rfl⟩

-- ---------------------------------------------------------------------------
-- The activity test
-- ---------------------------------------------------------------------------

/-- A call that has seen nothing and finds the RAM ring empty leaves activity as
it was; bytes that wait start it. -/
theorem sniffActive_finish (u : Sniffer) (h : u.sniffActive = false) (nowMs : UInt32) (room : Bool) (space : Nat) :
    (u.finish B nowMs false room space).sniffActive = true ↔ u.ram.count ≠ 0 := by
  have hbeat : ∀ v : Sniffer, (v.heartbeat B nowMs space).sniffActive = v.sniffActive := by
    intro v
    unfold Sniffer.heartbeat
    split
    · rw [Sniffer.emitModeMarker_frame]
    · rfl
  rw [Sniffer.finish, hbeat]
  by_cases hempty : u.ram.count = 0
  · have htrack : u.trackActivity nowMs false = u := if_neg (by simp [hempty])
    have hgap : ¬ (u.idleGap nowMs = true ∧ room = true) := by simp [Sniffer.idleGap, h]
    rw [htrack, Sniffer.separate, if_neg hgap, h]
    simp [hempty]
  · have htrack : u.trackActivity nowMs false = { u with sniffLastMs := nowMs, sniffActive := true } :=
      if_pos (.inr (Nat.pos_of_ne_zero hempty))
    have hgap : ¬ ((u.trackActivity nowMs false).idleGap nowMs = true ∧ room = true) := by
      rw [htrack]
      simp [Sniffer.idleGap, hempty]
    rw [Sniffer.separate, if_neg hgap, htrack]
    simp [hempty]

/-- Every step but an activity test keeps the squelch quiet behind its boundary. -/
theorem Quiet.step (h : s.Quiet) (hsilent : s.Silent B) {e : Event} (he : ∀ room space, e ≠ .finish room space) :
    (s.step B e).Quiet := by
  have hto := s.stepTo B e
  generalize s.step B e = t at hto
  cases hto with
  | stay | store | publish => exact h
  | drain =>
    intro hpiped
    rw [piped, drain_squelch] at hpiped
    have hkept : s.drain.host.sniffActive = s.host.sniffActive := by
      simp only [drain, Sniffer.drainPioc]
    exact hkept.trans (h hpiped)
  | enter nowMs writeSpace cap hpc =>
    simpa only [Quiet, piped, squelch, hpc, Sniffer.startLoop] using h
  | round nowMs l hpc hrun =>
    have hbefore : l.squelch.capPiped = true → B.capIdleK ≠ 0 ∧ l.sawActivity = false := by
      simpa only [Silent, piped, squelch, sawActivity, hpc] using hsilent
    have hquiet : l.squelch.capPiped = true → s.host.sniffActive = false := by
      simpa only [Quiet, piped, squelch, hpc] using h
    rw [System.round, if_pos hrun]
    intro hpiped
    obtain ⟨-, hverdict⟩ := Squelch.next_piped (fun hp => (hbefore hp).1) hpiped
    simp only [Sniffer.loopRound]
    rcases hverdict with hwritten | ⟨hdropped, hp⟩
    · rw [if_pos hwritten]
    · rw [if_neg (by rw [hdropped]; simp)]
      exact hquiet hp
  | commit nowMs l hpc hstop =>
    rw [System.round, hstop, if_neg Bool.false_ne_true]
    simpa only [Quiet, piped, squelch, hpc, Sniffer.commitLoop] using h
  | readDrop nowMs saw hpc => simpa only [Quiet, piped, squelch, hpc] using h
  | mark room nowMs saw rd hpc =>
    rw [System.mark, Sniffer.markLoss_frame]
    simpa only [Quiet, piped, squelch, hpc] using h
  | finish room space => exact absurd rfl (he room space)
  | report d space nowMs hpc =>
    rw [System.report, Sniffer.report_frame]
    simpa only [Quiet, piped, squelch, hpc] using h

theorem quiet_finish_iff (hsilent : s.Silent B) (h : s.Quiet) (room : Bool) (space : Nat) :
    (s.step B (.finish room space)).Quiet ↔ s.FindsEmpty (.finish room space) := by
  cases hpc : s.pc with
  | finish nowMs saw =>
    have hstep : s.step B (.finish room space) = s.finish B nowMs saw room space := by
      simp only [System.step, hpc]
    have hpiped : (s.finish B nowMs saw room space).piped = s.piped := by
      rw [System.finish, Sniffer.finish_frame]
      simp only [piped, squelch, hpc]
    have hactive : (s.finish B nowMs saw room space).host.sniffActive =
        (s.host.finish B nowMs saw room space).sniffActive := by
      simp only [System.finish]
    rw [hstep, Quiet, hpiped, hactive]
    simp only [FindsEmpty, hpc]
    refine forall_congr' fun hp => ?_
    have hsaw : saw = false := by
      simpa only [System.sawActivity, hpc] using (hsilent hp).2
    rw [hsaw, ← Bool.not_eq_true, sniffActive_finish s.host (h hp), not_not]
  | idle | filter _ _ | readDrop _ _ | mark _ _ _ | report _ =>
    have hstay : s.step B (.finish room space) = s := by simp only [System.step, hpc]
    rw [hstay]
    exact iff_of_true h (by simp only [FindsEmpty, hpc])

/-- The squelch stays quiet behind its boundary in every step but an activity test
that finds bytes waiting. -/
theorem quiet_step_iff (hsilent : s.Silent B) (h : s.Quiet) (e : Event) :
    (s.step B e).Quiet ↔ s.FindsEmpty e := by
  cases e with
  | finish room space => exact quiet_finish_iff hsilent h room space
  | store _ | publish | drain | enter _ _ _ | round | readDrop | mark _ | report _ _ =>
    exact iff_of_true (h.step hsilent (by simp)) trivial

-- ---------------------------------------------------------------------------
-- The second boundary
-- ---------------------------------------------------------------------------

theorem writesBoundary_iff {e : Event} {tags : List Tag} (h : (s.step B e).trace = s.trace ++ tags) :
    s.WritesBoundary B e ↔ .boundary ∈ tags := by
  rw [WritesBoundary, List.mem_iff_append, h]
  simp only [List.append_assoc, List.append_cancel_left_eq]

/-- While activity is off, a call that has seen nothing writes no boundary. -/
theorem boundary_notMem_finishTags (h : s.host.sniffActive = false) (nowMs : UInt32) (room : Bool)
    (space : Nat) : Tag.boundary ∉ s.finishTags B nowMs false room space := by
  have hgap : ¬ ((s.host.trackActivity nowMs false).idleGap nowMs = true ∧ room = true) := by
    by_cases hempty : s.host.ram.count = 0
    · have htrack : s.host.trackActivity nowMs false = s.host := if_neg (by simp [hempty])
      simp [htrack, Sniffer.idleGap, h]
    · have htrack : s.host.trackActivity nowMs false =
          { s.host with sniffLastMs := nowMs, sniffActive := true } :=
        if_pos (.inr (Nat.pos_of_ne_zero hempty))
      simp [htrack, Sniffer.idleGap, hempty]
  rw [finishTags, if_neg hgap, List.nil_append]
  split <;> simp

/-- A quiet squelch gets no second boundary. -/
theorem Quiet.not_writesBoundary (h : s.Quiet) (hsilent : s.Silent B) (hpiped : s.piped = true) (e : Event) :
    ¬ s.WritesBoundary B e := by
  obtain ⟨hK, hsaw⟩ := hsilent hpiped
  have hadds : ∃ tags, (s.step B e).trace = s.trace ++ tags ∧ .boundary ∉ tags := by
    have hto := s.stepTo B e
    generalize s.step B e = t at hto
    cases hto with
    | stay | store | publish | enter | readDrop =>
      exact ⟨[], (List.append_nil _).symm, List.not_mem_nil⟩
    | drain =>
      rw [drain_trace]
      exact ⟨[], (List.append_nil _).symm, List.not_mem_nil⟩
    | round nowMs l hpc hrun =>
      have hp : l.squelch.capPiped = true := by simpa only [piped, squelch, hpc] using hpiped
      rw [System.round, if_pos hrun]
      refine ⟨_, rfl, ?_⟩
      rcases Squelch.verdict_piped hK hp (s.host.ram.peek l.i) with hdropped | hdropped
      · rw [hdropped]
        exact List.not_mem_nil
      · rw [hdropped]
        exact List.not_mem_nil
    | commit nowMs l hpc hstop =>
      rw [System.round, hstop, if_neg Bool.false_ne_true]
      exact ⟨[], (List.append_nil _).symm, List.not_mem_nil⟩
    | mark room nowMs saw rd hpc =>
      refine ⟨_, s.mark_trace nowMs saw rd room, ?_⟩
      split <;> simp
    | finish room space nowMs saw hpc =>
      have hfalse : saw = false := by simpa only [System.sawActivity, hpc] using hsaw
      rw [hfalse]
      exact ⟨_, s.finish_trace B nowMs false room space, boundary_notMem_finishTags (h hpiped) nowMs room space⟩
    | report d space nowMs hpc =>
      refine ⟨_, rfl, ?_⟩
      split <;> simp
  obtain ⟨tags, htrace, hmem⟩ := hadds
  exact mt (writesBoundary_iff htrace).mp hmem

end System

/-- In every state of a run the squelch is quiet behind its boundary, and no step
from there writes another, if and only if every activity test behind the
boundary finds the RAM ring empty. -/
theorem one_boundary_iff (B : Build) (regs : Pioc.Regs) (mem : Nat → UInt8) (lastT nowMs : UInt32)
    (space printed : Nat) (evs : List Event) :
    let s := System.begin B regs mem lastT nowMs space printed
    ((∀ pre, pre <+: evs → (run (System.step B) s pre).Quiet) ∧
        AllSteps (System.step B) (fun s e => s.piped = true → ¬ s.WritesBoundary B e) s evs) ↔
      AllSteps (System.step B) System.FindsEmpty s evs := by
  intro s
  have hpiped : s.piped = false := by
    simp only [s, System.piped, System.squelch, System.begin, Sniffer.begin_frame]
  have hsilent : s.Silent B := fun hp => absurd hp (by simp [hpiped])
  have hquiet : s.Quiet := fun hp => absurd hp (by simp [hpiped])
  have hiff : (∀ pre, pre <+: evs → (run (System.step B) s pre).Quiet) ↔
      AllSteps (System.step B) System.FindsEmpty s evs := by
    rw [forall_prefix_iff, and_iff_right hquiet]
    exact allSteps_iff_of_invariant (I := fun s => s.Silent B ∧ s.Quiet)
      (fun _ e h => System.quiet_step_iff h.1 h.2 e)
      (fun _ e h he => ⟨h.1.step e, (System.quiet_step_iff h.1 h.2 e).mpr he⟩) ⟨hsilent, hquiet⟩ evs
  rw [hiff, and_iff_left_iff_imp]
  intro hempty
  exact hempty.mono_of_invariant (I := fun s => s.Silent B ∧ s.Quiet)
    (fun _ e h _ hp => h.2.not_writesBoundary h.1 hp e)
    (fun _ e h he => ⟨h.1.step e, (System.quiet_step_iff h.1 h.2 e).mpr he⟩) ⟨hsilent, hquiet⟩

theorem idleByte_le : (0x80 : UInt8) ≤ 0x80 := by decide

/-- A continuation byte is captured and drained. -/
def idleByte : List Event := [.store ⟨0x80, idleByte_le⟩, .publish, .drain]

/-- A call of `service()` from its filter loop on. -/
def leaveLoop : List Event := [.readDrop, .mark true, .finish true 0, .report noReadings 0]

/-- The line is idle. A call takes ten bytes, and one more comes between its filter
loop and its activity test. -/
def refilled : List Event :=
  (List.replicate 10 idleByte).flatten ++ .enter 0 200 200 :: List.replicate 11 .round ++ idleByte ++
    leaveLoop

/-- The next calls, 1 ms and 10 ms later. -/
def laterCalls : List Event :=
  .enter 1 200 200 :: List.replicate 2 .round ++ leaveLoop ++ .enter 10 200 200 :: .round :: leaveLoop

/-- In a build for 75 kbit/s and more the idle run counts as activity behind its
boundary, and gets a second one. -/
theorem boundary_twice :
    let B : Build := ⟨capIdleK 75, false, 48000000⟩
    let s := System.begin B (fun _ => 0) (fun _ => 0) 0 0 0 0
    ¬ (∀ pre, pre <+: refilled ++ laterCalls → (run (System.step B) s pre).Quiet) ∧
      (run (System.step B) s (refilled ++ laterCalls)).piped = true ∧
      (run (System.step B) s (refilled ++ laterCalls)).host.wire = List.replicate 9 0x80 ++ [0xFF, 0xFF] := by
  intro B s
  have hactive : (run (System.step B) s refilled).piped = true ∧
      (run (System.step B) s refilled).host.sniffActive = true := by decide +kernel
  refine ⟨fun hquiet => ?_, by decide +kernel⟩
  have hoff := hquiet refilled (List.prefix_append _ _) hactive.1
  rw [hactive.2] at hoff
  cases hoff

end Tapioca.RleSniffer

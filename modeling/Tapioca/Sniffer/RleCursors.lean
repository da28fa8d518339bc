-- SUMMARY: The double cursor of the run-length drain over whole runs: where it stands after every call, and what the call appends.
import Tapioca.Sniffer.RleDrain

/-!
# The double cursor

`sniffTail_` counts bytes modulo 256 and `sniffSlot_` modulo 30, each moved by
rules of its own: on a plain drain, behind an overrun, and where the RAM ring
is full. Over every run of drains the two count the same bytes, and a drain
appends the bytes they stand for.
-/

namespace Tapioca.RleSniffer

open Pioc Lib.Lts

/-- How many bytes were published between the previous drain and this one. -/
def System.advance (s : System) : Nat := s.fifo.published - s.cursor

/-- A drain finds every byte that HEAD counts stored and none beyond, and HEAD
less than 256 ahead. -/
def DrainSettled (s : System) : Event → Prop
  | .drain => s.fifo.published = s.fifo.stored.length ∧ Near s
  | _ => True

instance decidableDrainSettled (s : System) : ∀ e, Decidable (DrainSettled s e)
  | .drain => inferInstanceAs (Decidable (_ ∧ _ < _))
  | .store _ | .publish | .enter .. | .round | .readDrop | .mark _ | .finish .. | .report .. =>
    .isTrue trivial

theorem DrainSettled.near {s : System} {e : Event} (h : DrainSettled s e) : DrainNear s e := by
  cases e with
  | drain => exact h.2
  | store _ | publish | enter _ _ _ | round | readDrop | mark _ | finish _ _ | report _ _ => trivial

/-- The published bytes a drain takes: the last 30 of them at most, as many as
the RAM ring has room for. -/
def System.expected (s : System) : List UInt8 :=
  ((s.fifo.stored.take s.fifo.published).drop (s.fifo.published - min s.advance 30)).take
    (min s.host.ram.space (min s.advance 30))

/-- What a drain leaves behind. -/
structure DrainedRight (s t : System) : Prop where
  tail : t.host.sniffTail.toNat = t.fifo.published % 256
  slot : t.host.sniffSlot.toNat = t.fifo.published % 30
  appended : t.host.ram.contents = s.host.ram.contents ++ s.expected

/-- Every call of `drainPioc()` does. -/
def Drains (s : System) : Event → Prop
  | .drain => DrainedRight s s.drain
  | _ => True

/-- A drain appends the bytes it counts. -/
theorem Aligned.contents_drain {s : System} (h : Aligned s) (hnear : Near s)
    (hsettled : s.fifo.published = s.fifo.stored.length) :
    s.drain.host.ram.contents = s.host.ram.contents ++ s.expected := by
  have hgap : s.gap = min s.advance 30 := h.gap_eq hnear
  have hfirst : s.first = s.fifo.published - min s.advance 30 := by rw [System.first, hgap]
  have hcount : s.toCopy = min s.host.ram.space (min s.advance 30) := by
    rw [← hgap]
    exact min_comm _ _
  have hlap : s.fifo.stored.length ≤ s.first + 30 := by
    have hle : min s.advance 30 ≤ 30 := min_le_right _ _
    omega
  have hcopied := h.copied_eq hnear (.inr hlap)
  have hroom : (s.host.copied s.fifo.regs).length ≤ s.host.ram.space := by
    rw [length_copied]
    exact min_le_right _ _
  have happend := s.host.ram.contents_append hroom
  rw [hcopied, hfirst, hcount] at happend
  rw [System.expected, hsettled, List.take_length, ← hsettled]
  simp only [System.drain, Sniffer.drainPioc, hcopied, hfirst, hcount]
  exact happend

theorem Aligned.drains {s : System} (h : Aligned s) {e : Event} (he : DrainSettled s e) : Drains s e := by
  cases e with
  | drain =>
    have hdrained := h.drain he.2
    have hcursor : s.drain.cursor = s.drain.fifo.published := rfl
    refine ⟨?_, ?_, h.contents_drain he.2 he.1⟩
    · rw [hdrained.tail_eq, hcursor, UInt8.toNat_ofNat']
    · have hlt := Nat.mod_lt s.drain.fifo.published (by decide : 0 < 30)
      rw [hdrained.slot_eq, hcursor, UInt8.toNat_ofNat', Nat.mod_eq_of_lt (by omega)]
  | store _ | publish | enter _ _ _ | round | readDrop | mark _ | finish _ _ | report _ _ => trivial

/-- In every run whose drains find HEAD settled and less than 256 ahead, every
drain leaves both cursors on the number of bytes published, and appends the
bytes that were published last. -/
theorem cursors_stay_aligned (B : Build) (regs : Regs) (mem : Nat → UInt8) (lastT nowMs : UInt32)
    (space printed : Nat) (evs : List Event)
    (hrun : AllSteps (System.step B) DrainSettled (System.begin B regs mem lastT nowMs space printed) evs) :
    AllSteps (System.step B) Drains (System.begin B regs mem lastT nowMs space printed) evs :=
  hrun.mono_of_invariant (fun _ _ h he => h.drains he) (fun _ _ h he => h.step B he.near)
    (aligned_begin B regs mem lastT nowMs space printed)

/-- Two drains in line, and a third behind 33 bytes. -/
theorem cursors_aligned_overrun :
    AllSteps (System.step ⟨150, false, 48000000⟩) Drains
      (System.begin ⟨150, false, 48000000⟩ (fun _ => 0) (fun _ => 0) 0 0 0 0)
      ((List.replicate 2 [Event.store ⟨5, by decide⟩, .publish, .drain]).flatten ++
        (List.replicate 33 [Event.store ⟨7, by decide⟩, .publish]).flatten ++ [.drain]) :=
  cursors_stay_aligned _ _ _ _ _ _ _ _ (by decide +kernel)

end Tapioca.RleSniffer

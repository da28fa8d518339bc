-- SUMMARY: The cursors of the run-length drain: which bytes `drainPioc()` takes, from which slots.
import Tapioca.Sniffer.RleSystem

/-!
# The run-length drain

`drainPioc()` keeps two cursors: an 8-bit count, compared with HEAD, and a slot
number, because 30 slots do not divide 256 counts. As long as HEAD advances by
less than 256 between two drains both stand for the same byte, and the copy
loops read the slots of consecutive bytes.
-/

namespace Tapioca.RleSniffer

open Pioc Lib.Lts Lib.SlotRing
open Sniffer (wrapSlot)

-- ---------------------------------------------------------------------------
-- Slots
-- ---------------------------------------------------------------------------

theorem wrapSlot_add (p : Nat) {n : Nat} (hn : n ≤ 30) :
    wrapSlot (UInt8.ofNat (p % 30) + UInt8.ofNat n) = UInt8.ofNat ((p + n) % 30) := by
  have hp := Nat.mod_lt p (by decide : 0 < 30)
  have hslots : RING_SLOTS.toNat = 30 := rfl
  have hsum : (UInt8.ofNat (p % 30) + UInt8.ofNat n).toNat = p % 30 + n := by
    rw [← UInt8.ofNat_add, UInt8.toNat_ofNat']
    omega
  refine UInt8.toNat_inj.mp ?_
  rw [UInt8.toNat_ofNat', wrapSlot]
  by_cases hwrap : UInt8.ofNat (p % 30) + UInt8.ofNat n ≥ RING_SLOTS
  · rw [if_pos hwrap, UInt8.toNat_sub_of_le _ _ hwrap, hsum, hslots]
    have := UInt8.le_iff_toNat_le.mp hwrap
    omega
  · rw [if_neg hwrap, hsum]
    have := UInt8.lt_iff_toNat_lt.mp (UInt8.not_le.mp hwrap)
    omega

theorem gap_le (s : Sniffer) (h : UInt8) : (s.gap h).toNat ≤ 30 := by
  unfold Sniffer.gap
  split
  · exact le_refl 30
  · rename_i hgap
    exact UInt8.le_iff_toNat_le.mp (UInt8.not_lt.mp hgap)

theorem toCopy_le (s : Sniffer) (h : UInt8) : s.toCopy h ≤ (s.gap h).toNat := min_le_left _ _

@[simp] theorem length_copied (s : Sniffer) (DR : Regs) :
    (s.copied DR).length = s.toCopy (DR RING_HEAD) := by
  simp only [Sniffer.copied, List.length_append, List.length_map, List.length_range]
  omega

/-- The two copy loops read a window of the slots. -/
theorem copied_eq (s : Sniffer) (DR : Regs) {k : Nat}
    (hslot : s.firstSlot (DR RING_HEAD) = UInt8.ofNat (k % 30)) :
    s.copied DR = window 30 (layout.mem DR) k (s.toCopy (DR RING_HEAD)) := by
  have hk := Nat.mod_lt k (by decide : 0 < 30)
  have hcopy := (toCopy_le s (DR RING_HEAD)).trans (gap_le s _)
  have hfirst : (RING_SLOTS - s.firstSlot (DR RING_HEAD)).toNat = 30 - k % 30 := by
    have hle : UInt8.ofNat (k % 30) ≤ RING_SLOTS := by
      rw [UInt8.le_iff_toNat_le, UInt8.toNat_ofNat']
      have hslots : RING_SLOTS.toNat = 30 := rfl
      omega
    rw [hslot, UInt8.toNat_sub_of_le _ _ hle, UInt8.toNat_ofNat', Nat.mod_eq_of_lt (by omega)]
    rfl
  rw [hslot] at hfirst
  simp only [Sniffer.copied, hslot, hfirst]
  generalize s.toCopy (DR RING_HEAD) = c at hcopy ⊢
  obtain ⟨m, hm⟩ : ∃ m, m = min (30 - k % 30) c := ⟨_, rfl⟩
  have hsplit : window 30 (layout.mem DR) k c =
      window 30 (layout.mem DR) k m ++ window 30 (layout.mem DR) (k + m) (c - m) := by
    rw [← window_add]
    congr 1
    omega
  rw [← hm, hsplit]
  congr 1
  · refine List.map_congr_left fun i hi => ?_
    have hi : i < m := List.mem_range.mp hi
    have hidx : (k + i) % 30 = k % 30 + i := by omega
    rw [hidx, Layout.mem, Layout.slot, UInt8.ofNat_add, ← UInt8.add_assoc]
    rfl
  · refine List.map_congr_left fun i hi => ?_
    have hi : i < c - m := List.mem_range.mp hi
    have hidx : (k + m + i) % 30 = i := by omega
    rw [hidx]
    rfl

-- ---------------------------------------------------------------------------
-- Cursors
-- ---------------------------------------------------------------------------

/-- Both cursors of the drain stand for byte `cursor` of the stream. -/
structure Aligned (s : System) : Prop where
  cursor_le : s.cursor ≤ s.fifo.published
  tail_eq : s.host.sniffTail = UInt8.ofNat s.cursor
  slot_eq : s.host.sniffSlot = UInt8.ofNat (s.cursor % 30)

/-- HEAD has advanced by less than 256 since the last drain. -/
def Near (s : System) : Prop := s.fifo.published < s.cursor + 256

namespace Aligned

variable {s : System} (h : Aligned s) (hnear : Near s)

include h hnear

theorem toNat_rawGap : (s.host.rawGap (s.fifo.regs RING_HEAD)).toNat = s.fifo.published - s.cursor := by
  rw [Sniffer.rawGap, h.tail_eq]
  exact s.fifo.toNat_head_sub h.cursor_le hnear

/-- An overrun is found exactly when HEAD is more than 30 ahead. -/
theorem overrun_iff : s.overrun = true ↔ s.cursor + 30 < s.fifo.published := by
  have hgap := h.toNat_rawGap hnear
  have hslots : RING_SLOTS.toNat = 30 := rfl
  have hcursor := h.cursor_le
  rw [System.overrun, decide_eq_true_iff, gt_iff_lt, UInt8.lt_iff_toNat_lt, hgap]
  omega

theorem gap_eq : s.gap = min (s.fifo.published - s.cursor) 30 := by
  have hgap := h.toNat_rawGap hnear
  have hslots : RING_SLOTS.toNat = 30 := rfl
  rw [System.gap, Sniffer.gap]
  by_cases hover : s.host.rawGap (s.fifo.regs RING_HEAD) > RING_SLOTS
  · have := UInt8.lt_iff_toNat_lt.mp hover
    rw [if_pos hover]
    omega
  · have := UInt8.le_iff_toNat_le.mp (UInt8.not_lt.mp hover)
    rw [if_neg hover]
    omega

theorem firstSlot_eq : s.host.firstSlot (s.fifo.regs RING_HEAD) = UInt8.ofNat (s.first % 30) := by
  have hraw := h.toNat_rawGap hnear
  have hgap := h.gap_eq hnear
  have hcursor := h.cursor_le
  have hslots : RING_SLOTS.toNat = 30 := rfl
  rw [System.first, hgap, Sniffer.firstSlot, h.slot_eq]
  by_cases hover : s.host.rawGap (s.fifo.regs RING_HEAD) > RING_SLOTS
  · have hlt := UInt8.lt_iff_toNat_lt.mp hover
    have hmod : s.host.rawGap (s.fifo.regs RING_HEAD) % RING_SLOTS =
        UInt8.ofNat ((s.fifo.published - s.cursor) % 30) := by
      refine UInt8.toNat_inj.mp ?_
      rw [UInt8.toNat_mod, hraw, hslots, UInt8.toNat_ofNat']
      omega
    have hidx : (s.cursor + (s.fifo.published - s.cursor) % 30) % 30 =
        (s.fifo.published - min (s.fifo.published - s.cursor) 30) % 30 := by omega
    rw [if_pos hover, hmod, wrapSlot_add _ (by omega), hidx]
  · have hle := UInt8.le_iff_toNat_le.mp (UInt8.not_lt.mp hover)
    have hidx : s.fifo.published - min (s.fifo.published - s.cursor) 30 = s.cursor := by omega
    rw [if_neg hover, hidx]

/-- A drain leaves both cursors on HEAD. -/
theorem drain : Aligned s.drain := by
  have hraw := h.toNat_rawGap hnear
  have hfirst := h.firstSlot_eq hnear
  have hgap := h.gap_eq hnear
  have hcursor := h.cursor_le
  have hslots : RING_SLOTS.toNat = 30 := rfl
  refine ⟨le_refl _, ?_, ?_⟩
  · have hhead : s.fifo.regs RING_HEAD = UInt8.ofNat s.fifo.published := s.fifo.head_eq
    simp only [System.drain, Sniffer.drainPioc, Sniffer.gap, Sniffer.rawGap, hhead]
    split
    · grind
    · grind
  · simp only [System.drain, Sniffer.drainPioc, hfirst]
    by_cases hover : s.host.rawGap (s.fifo.regs RING_HEAD) ≤ RING_SLOTS
    · have hle := UInt8.le_iff_toNat_le.mp hover
      have hofNat : s.host.rawGap (s.fifo.regs RING_HEAD) =
          UInt8.ofNat (s.fifo.published - s.cursor) := by
        rw [← hraw, UInt8.ofNat_toNat]
      have hidx : s.first + (s.fifo.published - s.cursor) = s.fifo.published := by
        rw [System.first, hgap]
        omega
      rw [if_pos hover, hofNat, wrapSlot_add _ (by omega), hidx]
    · have hlt := UInt8.lt_iff_toNat_lt.mp (UInt8.not_le.mp hover)
      have hidx : s.first % 30 = s.fifo.published % 30 := by
        rw [System.first, hgap]
        omega
      rw [if_neg hover, hidx]

/-- A drain copies the bytes it counts, if none of them has been stored over. -/
theorem copied_eq (hlap : s.toCopy = 0 ∨ s.fifo.stored.length ≤ s.first + 30) :
    s.host.copied s.fifo.regs = (s.fifo.stored.drop s.first).take s.toCopy := by
  have hpub := s.fifo.published_le
  have hgap := h.gap_eq hnear
  have hcopy : s.toCopy ≤ s.gap := toCopy_le _ _
  have hwindow := RleSniffer.copied_eq s.host s.fifo.regs (h.firstSlot_eq hnear)
  rcases hlap with hzero | hlap
  · have hnil : (s.host.copied s.fifo.regs).length = 0 := (length_copied _ _).trans hzero
    rw [List.length_eq_zero_iff.mp hnil, hzero, List.take_zero]
  · refine hwindow.trans (s.fifo.recorded.window ?_ hlap)
    have hcount : s.host.toCopy (s.fifo.regs RING_HEAD) = s.toCopy := rfl
    have hcursor := h.cursor_le
    rw [hcount, System.first]
    omega

end Aligned

theorem aligned_begin (B : Build) (regs : Regs) (mem : Nat → UInt8) (lastT nowMs : UInt32)
    (space printed : Nat) : Aligned (System.begin B regs mem lastT nowMs space printed) := by
  rw [System.begin, Sniffer.begin_frame]
  exact ⟨le_refl _, rfl, rfl⟩

/-- HEAD advances by less than 256 between two drains. -/
def DrainNear (s : System) : Event → Prop
  | .drain => Near s
  | _ => True

instance decidableDrainNear (s : System) : ∀ e, Decidable (DrainNear s e)
  | .drain => inferInstanceAs (Decidable (_ < _))
  | .store _ | .publish | .enter .. | .round | .readDrop | .mark _ | .finish .. | .report .. =>
    .isTrue trivial

/-- Only a drain moves the cursors. -/
theorem Aligned.step {s : System} (h : Aligned s) (B : Build) {e : Event} (he : DrainNear s e) :
    Aligned (s.step B e) := by
  have hto := s.stepTo B e
  generalize s.step B e = t at hto
  cases hto with
  | stay => exact h
  | store => exact ⟨h.cursor_le, h.tail_eq, h.slot_eq⟩
  | publish => exact ⟨h.cursor_le.trans (Nat.le_succ _), h.tail_eq, h.slot_eq⟩
  | drain => exact h.drain he
  | enter => exact ⟨h.cursor_le, h.tail_eq, h.slot_eq⟩
  | round nowMs l hpc hrun =>
    rw [System.round, if_pos hrun]
    exact ⟨h.cursor_le, h.tail_eq, h.slot_eq⟩
  | commit nowMs l hpc hstop =>
    rw [System.round, hstop, if_neg Bool.false_ne_true]
    exact ⟨h.cursor_le, h.tail_eq, h.slot_eq⟩
  | readDrop => exact ⟨h.cursor_le, h.tail_eq, h.slot_eq⟩
  | mark =>
    rw [System.mark, Sniffer.markLoss_frame]
    exact ⟨h.cursor_le, h.tail_eq, h.slot_eq⟩
  | finish =>
    rw [System.finish, Sniffer.finish_frame]
    exact ⟨h.cursor_le, h.tail_eq, h.slot_eq⟩
  | report =>
    rw [System.report, Sniffer.report_frame]
    exact ⟨h.cursor_le, h.tail_eq, h.slot_eq⟩

end Tapioca.RleSniffer

-- SUMMARY: Torn reads: when a drain that runs between any two eMCU steps takes the bytes it counts.
import Tapioca.Sniffer.ClockedLossless
import Tapioca.Sniffer.RleDrain

/-!
# Torn reads

The eMCU stores a byte in its slot before it counts it in HEAD. With a ring's
worth of counted bytes unread, the slot of the next byte is the slot of the
oldest of them: between that store and its count the oldest byte is gone, and
HEAD does not show it. A drain there takes the newest byte for the oldest one
and counts no overrun. Everywhere else it takes what it counts.
-/

namespace Tapioca.RleSniffer

open Pioc Lib.Lts Lib.SlotRing

-- ---------------------------------------------------------------------------
-- The run-length drain
-- ---------------------------------------------------------------------------

/-- The bytes a drain takes are those of the stream from `first` on; the bytes in
front of them, if any, it skips and counts an overrun. -/
def TakesRight (s : System) : Event → Prop
  | .drain =>
    s.host.copied s.fifo.regs = (s.fifo.stored.drop s.first).take s.toCopy ∧
      s.cursor ≤ s.first ∧ (s.cursor < s.first → s.drain.host.ovfPioc = s.host.ovfPioc + 1)
  | _ => True

/-- No byte stands stored but not counted behind 30 unread ones, with room for
them in the RAM ring; or it is the byte it was stored over once more. -/
def SlotKept (s : System) : Event → Prop
  | .drain =>
    s.fifo.stored.length = s.fifo.published ∨ s.fifo.published < s.cursor + 30 ∨
      s.host.ram.space = 0 ∨
      s.fifo.stored[s.fifo.published]? = s.fifo.stored[s.fifo.published - 30]?
  | _ => True

instance decidableTakesRight (s : System) : ∀ e, Decidable (TakesRight s e)
  | .drain => inferInstanceAs (Decidable (_ ∧ _ ≤ _ ∧ (_ → _)))
  | .store _ | .publish | .enter .. | .round | .readDrop | .mark _ | .finish .. | .report .. =>
    .isTrue trivial

instance decidableSlotKept (s : System) : ∀ e, Decidable (SlotKept s e)
  | .drain => inferInstanceAs (Decidable (_ ∨ _ ∨ _ ∨ _))
  | .store _ | .publish | .enter .. | .round | .readDrop | .mark _ | .finish .. | .report .. =>
    .isTrue trivial

/-- A drain whose first slot has been stored over takes the newest byte for it. -/
theorem Aligned.copied_lapped_iff {s : System} (h : Aligned s) (hnear : Near s)
    (hstored : s.fifo.stored.length = s.fifo.published + 1)
    (hfull : s.cursor + 30 ≤ s.fifo.published) (hroom : 0 < s.host.ram.space) :
    s.host.copied s.fifo.regs = (s.fifo.stored.drop s.first).take s.toCopy ↔
      s.fifo.stored[s.fifo.published]? = s.fifo.stored[s.fifo.published - 30]? := by
  have hgap := h.gap_eq hnear
  have hfirst : s.first = s.fifo.published - 30 := by
    rw [System.first, hgap, Nat.min_eq_right (by omega)]
  obtain ⟨n, hn⟩ : ∃ n, s.toCopy = n + 1 := by
    refine Nat.exists_eq_add_one.mpr ?_
    have hcopy : s.toCopy = min s.gap s.host.ram.space := rfl
    rw [hcopy, hgap]
    omega
  have hcopy : s.toCopy ≤ s.gap := toCopy_le _ _
  have hlast : s.fifo.published < s.fifo.stored.length := by omega
  have holdest : s.fifo.published - 30 < s.fifo.stored.length := by omega
  have hidx : s.fifo.published - 30 + 30 = s.fifo.published := by omega
  have hwindow := RleSniffer.copied_eq s.host s.fifo.regs (h.firstSlot_eq hnear)
  have hcount : s.host.toCopy (s.fifo.regs RING_HEAD) = n + 1 := hn
  have hlapped := s.fifo.recorded.window_lapped (t := s.fifo.published - 30) (n := n)
    (v := s.fifo.stored[s.fifo.published]) (by change n < 30; omega)
    (by change _ = _ + 30 + 1; omega)
    (by change s.fifo.stored[_ + 30]? = _; rw [hidx]; exact List.getElem?_eq_getElem hlast)
  change window 30 _ _ _ = _ at hlapped
  rw [hwindow, hcount, hn, hfirst, hlapped, List.drop_eq_getElem_cons holdest, List.take_succ_cons,
    List.getElem?_eq_getElem hlast, List.getElem?_eq_getElem holdest, List.cons.injEq]
  simp only [and_true, Option.some.injEq]

theorem Aligned.takesRight_iff {s : System} (h : Aligned s) {e : Event} (he : DrainNear s e) :
    TakesRight s e ↔ SlotKept s e := by
  cases e with
  | drain =>
    have hnear : Near s := he
    have hgap := h.gap_eq hnear
    have hcursor := h.cursor_le
    have hpub := s.fifo.published_le
    have hstored := s.fifo.stored_le
    have hfirst : s.first = s.fifo.published - min (s.fifo.published - s.cursor) 30 := by
      rw [System.first, hgap]
    -- the cursor only skips bytes behind an overrun, and counts it
    have hskip : s.cursor ≤ s.first ∧
        (s.cursor < s.first → s.drain.host.ovfPioc = s.host.ovfPioc + 1) := by
      refine ⟨by omega, fun hlt => ?_⟩
      have hover : s.overrun = true := (h.overrun_iff hnear).mpr (by omega)
      simp only [System.drain, Sniffer.drainPioc]
      exact if_pos (of_decide_eq_true hover)
    rw [TakesRight, SlotKept, and_iff_left hskip]
    by_cases hlap : s.fifo.stored.length = s.fifo.published ∨ s.fifo.published < s.cursor + 30
    · refine iff_of_true (h.copied_eq hnear (.inr (by omega))) ?_
      exact hlap.elim .inl (.inr ∘ .inl)
    · by_cases hroom : s.host.ram.space = 0
      · have hzero : s.toCopy = 0 := by
          have hcopy : s.toCopy = min s.gap s.host.ram.space := rfl
          omega
        exact iff_of_true (h.copied_eq hnear (.inl hzero)) (.inr (.inr (.inl hroom)))
      · rw [h.copied_lapped_iff hnear (by omega) (by omega) (by omega)]
        have h1 : ¬ s.fifo.stored.length = s.fifo.published := fun heq => hlap (.inl heq)
        have h2 : ¬ s.fifo.published < s.cursor + 30 := fun hlt => hlap (.inr hlt)
        simp only [h1, h2, hroom, false_or]
  | _ => exact Iff.rfl

/-- A drain falls between the store and the count of the byte behind 30 unread
ones. -/
def storedOver : List Event :=
  (List.replicate 30 [.store ⟨1, by decide⟩, .publish]).flatten ++ [.store ⟨2, by decide⟩, .drain]

end Tapioca.RleSniffer

namespace Tapioca.ClockedSniffer

open Pioc ClockedBlob Lib.Lts Lib.SlotRing

-- ---------------------------------------------------------------------------
-- The clocked drain
-- ---------------------------------------------------------------------------

/-- HEAD advances by less than 256 between two drains, and not while one runs. -/
def DrainNear (s : System) : HostPc → Event → Prop
  | .idle, .enter _ => s.published < s.cursor + 256
  | .draining .., .mcu _ => False
  | _, _ => True

instance decidableDrainNear (s : System) : ∀ pc e, Decidable (DrainNear s pc e)
  | .idle, .enter _ => inferInstanceAs (Decidable (_ < _))
  | .draining .., .mcu _ => .isFalse not_false
  | .idle, .mcu _ | .idle, .take _ | .idle, .finish _ => .isTrue trivial
  | .draining .., .enter _ | .draining .., .take _ | .draining .., .finish _ => .isTrue trivial

/-- The read of HEAD only moves the cursor forward, behind an overrun it counts;
the drain loop reads the byte under the cursor. -/
def TakesRight (s : System) : HostPc → Event → Prop
  | .idle, .enter nowMs =>
    let t := s.step (.enter nowMs)
    s.cursor ≤ t.cursor ∧ (s.cursor < t.cursor → t.host.ovfPioc = s.host.ovfPioc + 1)
  | .draining _ h _, .take _ =>
    s.host.sniffTail = h ∨ s.bytes[s.cursor]? = some (s.emcu.regs s.host.slotAddr)
  | _, _ => True

/-- No byte stands stored but not counted behind 16 unread ones; or it is the
byte it was stored over once more. -/
def SlotKept (s : System) : HostPc → Event → Prop
  | .draining .., .take _ =>
    s.bytes.length = s.published ∨ s.published < s.cursor + 16 ∨
      s.bytes[s.published]? = s.bytes[s.cursor]?
  | _, _ => True

instance decidableTakesRight (s : System) : ∀ pc e, Decidable (TakesRight s pc e)
  | .idle, .enter _ => inferInstanceAs (Decidable (_ ≤ _ ∧ (_ → _)))
  | .draining .., .take _ => inferInstanceAs (Decidable (_ ∨ _))
  | .idle, .mcu _ | .idle, .take _ | .idle, .finish _ => .isTrue trivial
  | .draining .., .mcu _ | .draining .., .enter _ | .draining .., .finish _ => .isTrue trivial

instance decidableSlotKept (s : System) : ∀ pc e, Decidable (SlotKept s pc e)
  | .draining .., .take _ => inferInstanceAs (Decidable (_ ∨ _ ∨ _))
  | .idle, _ => .isTrue trivial
  | .draining .., .mcu _ | .draining .., .enter _ | .draining .., .finish _ => .isTrue trivial

/-- A drain loop that no eMCU step falls into goes up to HEAD. -/
structure Atomic (s : System) : Prop where
  aligned : Aligned s
  draining : ∀ nowMs h got, s.pc = .draining nowMs h got →
    h = UInt8.ofNat s.published ∧ s.published ≤ s.cursor + 16

theorem Atomic.step {s : System} (h : Atomic s) {e : Event} (he : DrainNear s s.pc e) :
    Atomic (s.step e) := by
  refine ⟨h.aligned.step e, ?_⟩
  cases hpc : s.pc with
  | idle =>
    cases e with
    | mcu bit =>
      intro _ _ _ hpc'
      change s.pc = _ at hpc'
      rw [hpc] at hpc'
      cases hpc'
    | enter nowMs =>
      have hbeat : (s.host.heartbeat nowMs).sniffTail = UInt8.ofNat s.cursor := by
        rw [s.host.heartbeat_frame]
        exact h.aligned.tail_eq
      obtain ⟨hgap, -, -, -⟩ := readHead_cursor _ h.aligned.cursor_le hbeat
      simp only [System.step, hpc, h.aligned.head]
      intro _ _ _ hpc'
      obtain ⟨-, rfl, -⟩ := HostPc.draining.inj hpc'
      exact ⟨rfl, by omega⟩
    | take t | finish r =>
      simp only [System.step, hpc]
      intro _ _ _ hpc'
      cases hpc'
  | draining nowMs head got =>
    obtain ⟨hhead, hnear⟩ := h.draining nowMs head got hpc
    cases e with
    | mcu bit =>
      -- the blob does not step while a drain is under way: this is what the hypothesis gives
      rw [hpc] at he
      exact he.elim
    | enter nowMs' =>
      simp only [System.step, hpc]
      intro _ _ _ hpc'
      obtain ⟨-, rfl, -⟩ := HostPc.draining.inj hpc'
      exact ⟨hhead, hnear⟩
    | take t =>
      simp only [System.step, hpc]
      split
      · exact h.draining
      · intro _ _ _ hpc'
        obtain ⟨-, rfl, -⟩ := HostPc.draining.inj hpc'
        exact ⟨hhead, by simp only; omega⟩
    | finish r =>
      simp only [System.step, hpc]
      split
      · exact h.draining
      · split <;> intro _ _ _ hpc' <;> cases hpc'

/-- The read of HEAD moves the cursor only behind an overrun. -/
theorem Aligned.enter_right {s : System} (h : Aligned s) (hpc : s.pc = .idle) {nowMs : UInt32}
    (hnear : s.published < s.cursor + 256) : TakesRight s .idle (.enter nowMs) := by
  have hbeat : (s.host.heartbeat nowMs).sniffTail = UInt8.ofNat s.cursor := by
    rw [s.host.heartbeat_frame]
    exact h.tail_eq
  have hovf : (s.host.heartbeat nowMs).ovfPioc = s.host.ovfPioc := by rw [s.host.heartbeat_frame]
  have hcursor := h.cursor_le
  obtain ⟨-, hle, -, -⟩ := readHead_cursor _ hcursor hbeat
  simp only [TakesRight, System.step, hpc, h.head]
  refine ⟨by omega, fun hlt => ?_⟩
  by_cases hover : UInt8.ofNat s.published - (s.host.heartbeat nowMs).sniffTail > RING_SLOTS
  · rw [Sniffer.readHead, if_pos hover, hovf]
  · rw [Sniffer.readHead, if_neg hover, hbeat, ofNat_sub_toNat hcursor,
      Nat.mod_eq_of_lt (by omega)] at hlt
    omega

/-- The drain loop reads the byte under the cursor, or the newest byte where that
has been stored over it. -/
theorem Atomic.read_iff {s : System} (h : Atomic s) {nowMs : UInt32} {head : UInt8} {got : Bool}
    (hpc : s.pc = .draining nowMs head got) (hmore : s.host.sniffTail ≠ head) {t : DrainTimes} :
    s.bytes[s.cursor]? = some (s.emcu.regs s.host.slotAddr) ↔ SlotKept s s.pc (.take t) := by
  obtain ⟨-, hnear⟩ := h.draining nowMs head got hpc
  have hunread := h.aligned.unread hpc hmore
  have hpub := h.aligned.published_le
  have hkept : SlotKept s s.pc (.take t) ↔ (s.bytes.length = s.published ∨
      s.published < s.cursor + 16 ∨ s.bytes[s.published]? = s.bytes[s.cursor]?) := by
    rw [hpc]
    exact Iff.rfl
  obtain ⟨f, htracks, hbytes, hpublished⟩ := h.aligned.fifo
  have hstored := f.stored_le
  rw [hbytes, hpublished] at hstored
  rw [hkept]
  by_cases hlap : s.bytes.length = s.published ∨ s.published < s.cursor + 16
  · refine iff_of_true (h.aligned.read hunread (by omega)) ?_
    exact hlap.elim .inl (.inr ∘ .inl)
  · have h1 : ¬ s.bytes.length = s.published := fun heq => hlap (.inl heq)
    have h2 : ¬ s.published < s.cursor + 16 := fun hlt => hlap (.inr hlt)
    -- the slot under the cursor holds the byte that HEAD does not count yet
    have hlast : s.published < f.stored.length := by
      rw [hbytes]
      omega
    have hmem := f.mem_eq hlast (by change f.stored.length ≤ _ + 16; rw [hbytes]; omega)
    have hidx : s.published % 16 = s.cursor % 16 := by omega
    have hslot : s.emcu.regs s.host.slotAddr = f.stored[s.published] := by
      rw [slotAddr_eq h.aligned.tail_eq, ← htracks.regs, ← hmem]
      change _ = f.regs (layout.slot (s.published % 16))
      rw [hidx]
    simp only [h1, h2, false_or]
    rw [hslot, ← hbytes, List.getElem?_eq_getElem hlast, eq_comm]

theorem Atomic.takesRight_iff {s : System} (h : Atomic s) {e : Event} (he : DrainNear s s.pc e) :
    TakesRight s s.pc e ↔ SlotKept s s.pc e := by
  cases hpc : s.pc with
  | idle =>
    cases e with
    | enter nowMs =>
      rw [hpc] at he
      exact iff_of_true (h.aligned.enter_right hpc he) trivial
    | mcu _ | take _ | finish _ => exact Iff.rfl
  | draining nowMs head got =>
    cases e with
    | take t =>
      by_cases hdone : s.host.sniffTail = head
      · have hcursor := h.aligned.cursor_le
        obtain ⟨hhead, hnear⟩ := h.draining nowMs head got hpc
        have heq := (hdone.symm.trans h.aligned.tail_eq).symm.trans hhead
        have hcount : s.published = s.cursor := by
          have := congrArg UInt8.toNat heq
          rw [UInt8.toNat_ofNat', UInt8.toNat_ofNat'] at this
          omega
        exact iff_of_true (.inl hdone) (.inr (.inl (by omega)))
      · rw [← hpc, ← h.read_iff hpc hdone, hpc]
        exact or_iff_right hdone
    | mcu _ | enter _ | finish _ => exact Iff.rfl

theorem atomic_begin (regs : Regs) (early : List Bool) (ring : Ring RING_SZ UInt8)
    (nowMs : UInt32) : Atomic (System.begin regs early ring nowMs) := by
  refine ⟨aligned_begin regs early ring nowMs, ?_⟩
  rw [System.begin_pc]
  nofun

end Tapioca.ClockedSniffer

namespace Tapioca.Pioc

open Lib.Lts

-- ---------------------------------------------------------------------------
-- Both FIFOs
-- ---------------------------------------------------------------------------

/-- With HEAD advancing by less than 256 between drains and none of the drains
interrupted, in a run of either sniffer all drains take the bytes they count if
and only if no drain finds a byte stored but not counted on top of the oldest of
a full ring of unread ones. -/
theorem drains_take_iff (B : RleSniffer.Build) (rleRegs : Regs) (mem : Nat → UInt8)
    (lastT rleMs : UInt32) (space printed : Nat) (rleEvs : List RleSniffer.Event)
    (regs : Regs) (early : List Bool) (ring : Ring ClockedSniffer.RING_SZ UInt8)
    (nowMs : UInt32) (evs : List ClockedSniffer.Event) :
    let r := RleSniffer.System.begin B rleRegs mem lastT rleMs space printed
    let s := ClockedSniffer.System.begin regs early ring nowMs
    (AllSteps (RleSniffer.System.step B) RleSniffer.DrainNear r rleEvs →
      (AllSteps (RleSniffer.System.step B) RleSniffer.TakesRight r rleEvs ↔
        AllSteps (RleSniffer.System.step B) RleSniffer.SlotKept r rleEvs)) ∧
    (AllSteps ClockedSniffer.System.step (fun s e => ClockedSniffer.DrainNear s s.pc e) s evs →
      (AllSteps ClockedSniffer.System.step (fun s e => ClockedSniffer.TakesRight s s.pc e) s evs ↔
        AllSteps ClockedSniffer.System.step (fun s e => ClockedSniffer.SlotKept s s.pc e) s evs)) := by
  intro r s
  constructor
  · intro hnear
    have hiff : AllSteps (RleSniffer.System.step B)
        (fun s e => RleSniffer.DrainNear s e ∧ RleSniffer.TakesRight s e) r rleEvs ↔
          AllSteps (RleSniffer.System.step B)
            (fun s e => RleSniffer.DrainNear s e ∧ RleSniffer.SlotKept s e) r rleEvs :=
      allSteps_iff_of_invariant (I := RleSniffer.Aligned)
        (fun _ _ h => and_congr_right fun he => h.takesRight_iff he)
        (fun _ _ h he => h.step B he.1)
        (RleSniffer.aligned_begin B rleRegs mem lastT rleMs space printed) rleEvs
    rw [allSteps_and, allSteps_and, and_iff_right hnear, and_iff_right hnear] at hiff
    exact hiff
  · intro hnear
    have hiff : AllSteps ClockedSniffer.System.step
        (fun s e => ClockedSniffer.DrainNear s s.pc e ∧ ClockedSniffer.TakesRight s s.pc e) s evs ↔
          AllSteps ClockedSniffer.System.step
            (fun s e => ClockedSniffer.DrainNear s s.pc e ∧ ClockedSniffer.SlotKept s s.pc e) s evs :=
      allSteps_iff_of_invariant (I := ClockedSniffer.Atomic)
        (fun _ _ h => and_congr_right fun he => h.takesRight_iff he)
        (fun _ _ h he => h.step he.1)
        (ClockedSniffer.atomic_begin regs early ring nowMs) evs
    rw [allSteps_and, allSteps_and, and_iff_right hnear, and_iff_right hnear] at hiff
    exact hiff

/-- One byte through each FIFO. -/
theorem drains_take_one :
    let B : RleSniffer.Build := { capIdleK := 1, diag := false, fcpu := 48000000 }
    AllSteps (RleSniffer.System.step B) RleSniffer.TakesRight
        (RleSniffer.System.begin B (fun _ => 0) (fun _ => 0) 0 0 0 0)
        [.store ⟨5, by decide⟩, .publish, .drain] ∧
      AllSteps ClockedSniffer.System.step (fun s e => ClockedSniffer.TakesRight s s.pc e)
        (ClockedSniffer.System.begin (fun _ => 0) [false] ClockedSniffer.freshRing 0)
        (ClockedSniffer.byteSteps 5 ++ ClockedSniffer.serviceSteps 0 1) := by
  have htake := drains_take_iff { capIdleK := 1, diag := false, fcpu := 48000000 } (fun _ => 0)
    (fun _ => 0) 0 0 0 0 [.store ⟨5, by decide⟩, .publish, .drain] (fun _ => 0) [false]
    ClockedSniffer.freshRing 0 (ClockedSniffer.byteSteps 5 ++ ClockedSniffer.serviceSteps 0 1)
  constructor
  · exact (htake.1 (by decide +kernel)).mpr (by decide +kernel)
  · exact (htake.2 (by decide +kernel)).mpr (by decide +kernel)

set_option maxRecDepth 10000 in
/-- Both drains take a byte that has been stored over for the one it was stored
over. -/
theorem drains_torn :
    let B : RleSniffer.Build := { capIdleK := 1, diag := false, fcpu := 48000000 }
    let s := RleSniffer.System.begin B (fun _ => 0) (fun _ => 0) 0 0 0 0
    let t := ClockedSniffer.System.begin (fun _ => 0) [] ClockedSniffer.freshRing 0
    (AllSteps (RleSniffer.System.step B) RleSniffer.DrainNear s RleSniffer.storedOver ∧
      ¬ AllSteps (RleSniffer.System.step B) RleSniffer.TakesRight s RleSniffer.storedOver) ∧
    AllSteps ClockedSniffer.System.step (fun s e => ClockedSniffer.DrainNear s s.pc e) t
        ClockedSniffer.lappedUnpublished ∧
      ¬ AllSteps ClockedSniffer.System.step (fun s e => ClockedSniffer.TakesRight s s.pc e) t
        ClockedSniffer.lappedUnpublished := by
  exact ⟨by decide +kernel, by decide +kernel⟩

end Tapioca.Pioc

-- SUMMARY: The eMCU and the clocked sniffer side by side: every interleaving of capture steps with the register accesses of `service()`.
import Tapioca.Pioc.ClockedBlob
import Tapioca.Sniffer.ClockedOutput

/-!
# The clocked system

The blob and `service()` share the PIOC registers. A step of the system is one
step of the blob, or the stretch of `service()` from one register access to the
next: up to the read of HEAD, one round of the drain loop, and the rest. So an
eMCU step can fall between any two accesses. The restart of the eMCU lies in
the last stretch.

The history variables count what the 8-bit registers only count modulo 256.
-/

namespace Tapioca.ClockedSniffer

open Pioc ClockedBlob Lib.Lts Lib.Bits Lib.SlotRing

/-- Where `service()` stands: not running, or in its drain loop. -/
inductive HostPc where
  | idle
  | draining (nowMs : UInt32) (head : UInt8) (got : Bool)

structure System where
  emcu : Emcu
  host : Sniffer
  pc : HostPc
  /-- The bits sampled since `begin()`, and those held then. -/
  sampled : List Bool
  /-- The bytes the eMCU has stored since it was last started. -/
  bytes : List UInt8
  /-- How many of them it has published. -/
  published : Nat
  /-- How many of them the sniffer's cursor has passed. -/
  cursor : Nat
  /-- The bytes published since `begin()`, and the partial bytes flushed from
  ACC, each at its place. -/
  captured : List UInt8

inductive Event where
  | mcu (bit : Bool)
  | enter (nowMs : UInt32)
  | take (t : DrainTimes)
  | finish (r : TailReadings)

namespace System

def mcuStep (s : System) (bit : Bool) : System :=
  { s with
    emcu := s.emcu.step bit
    sampled := s.sampled ++ s.emcu.samples bit
    bytes := s.bytes ++ (if s.emcu.pc = .store then [s.emcu.regs ACC] else [])
    published := s.published + s.emcu.publishes.length
    captured := s.captured ++ s.emcu.publishes }

/-- A step; an event that `service()` is not ready for does nothing. -/
def step (s : System) : Event → System
  | .mcu bit => s.mcuStep bit
  | .enter nowMs =>
    match s.pc with
    | .idle =>
      let h := s.emcu.regs RING_HEAD
      let host := (s.host.heartbeat nowMs).readHead h
      { s with
        host, pc := .draining nowMs h false, cursor := s.published - (h - host.sniffTail).toNat }
    | .draining .. => s
  | .take t =>
    match s.pc with
    | .idle => s
    | .draining nowMs h _ =>
      if s.host.sniffTail = h then s
      else
        { s with
          host := s.host.drainByte (s.emcu.regs s.host.slotAddr) t.t0 t.t1 t.t2
          pc := .draining nowMs h true, cursor := s.cursor + 1 }
  | .finish r =>
    match s.pc with
    | .idle => s
    | .draining nowMs h got =>
      if s.host.sniffTail ≠ h then s
      else
        let acc := s.emcu.regs ACC
        let fin := s.host.finish got nowMs acc r
        if fin.2 then
          { s with
            emcu := Emcu.start s.emcu.regs, host := fin.1, pc := .idle, bytes := []
            published := 0, cursor := 0, captured := s.captured ++ [Sniffer.partialByte acc] }
        else { s with host := fin.1, pc := .idle }

/-- The eMCU has just been started. -/
def boot (regs : Regs) (ring : Ring RING_SZ UInt8) (nowMs : UInt32) : System where
  emcu := Emcu.start regs
  host := Sniffer.begin ring nowMs 0
  pc := .idle
  sampled := []
  bytes := []
  published := 0
  cursor := 0
  captured := []

/-- The eMCU is started and runs for a while, then `begin()` reads HEAD. -/
def begin (regs : Regs) (early : List Bool) (ring : Ring RING_SZ UInt8) (nowMs : UInt32) : System :=
  let s := early.foldl mcuStep (boot regs ring nowMs)
  { s with
    host := Sniffer.begin ring nowMs (s.emcu.regs RING_HEAD), sampled := s.emcu.heldBits
    cursor := s.published, captured := [] }

end System

/-- The steps in which the eMCU, waiting for the edges of bit 0, captures `v` and
comes to wait there again. -/
def byteSteps (v : UInt8) : List Event :=
  (toBits 8 v.toNat).map .mcu ++ [.mcu false, .mcu false, .mcu false, .mcu false]

/-- A call of `service()` that drains `n` bytes, with the microsecond clock at
0 and no room on USB. -/
def serviceSteps (nowMs : UInt32) (n : Nat) : List Event :=
  .enter nowMs :: List.replicate n (.take ⟨0, 0, 0⟩) ++ [.finish ⟨0, 0, 0, 0, 0⟩]

-- ---------------------------------------------------------------------------
-- Cursors
-- ---------------------------------------------------------------------------

/-- The registers and the cursors agree with the history. -/
structure Aligned (s : System) : Prop where
  fifo : ∃ f : Fifo layout, Tracks s.emcu f ∧ f.stored = s.bytes ∧ f.published = s.published
  cursor_le : s.cursor ≤ s.published
  tail_eq : s.host.sniffTail = UInt8.ofNat s.cursor
  head_eq : ∀ nowMs h got, s.pc = .draining nowMs h got →
    ∃ n, h = UInt8.ofNat n ∧ s.cursor ≤ n ∧ n ≤ s.published ∧ n ≤ s.cursor + 16

theorem Aligned.head {s : System} (h : Aligned s) :
    s.emcu.regs RING_HEAD = UInt8.ofNat s.published := by
  obtain ⟨f, htracks, -, hpub⟩ := h.fifo
  rw [← hpub, ← htracks.regs]
  exact f.head_eq

theorem Aligned.published_le {s : System} (h : Aligned s) : s.published ≤ s.bytes.length := by
  obtain ⟨f, -, hbytes, hpub⟩ := h.fifo
  rw [← hbytes, ← hpub]
  exact f.published_le

theorem ofNat_sub_toNat {t n : Nat} (h : t ≤ n) :
    (UInt8.ofNat n - UInt8.ofNat t).toNat = (n - t) % 256 := by
  rw [← UInt8.ofNat_sub h, UInt8.toNat_ofNat']

theorem Aligned.mcu {s : System} (h : Aligned s) (bit : Bool) : Aligned (s.mcuStep bit) := by
  obtain ⟨f, htracks, hbytes, hpub⟩ := h.fifo
  obtain ⟨f', htracks', hbytes', hpub'⟩ := htracks.step bit
  exact
    { fifo := ⟨f', htracks', by rw [hbytes', hbytes]; rfl, by rw [hpub', hpub]; rfl⟩
      cursor_le := h.cursor_le.trans (Nat.le_add_right _ _)
      tail_eq := h.tail_eq
      head_eq := fun nowMs head got hpc => by
        obtain ⟨n, hn, hlo, hhi, hgap⟩ := h.head_eq nowMs head got hpc
        exact ⟨n, hn, hlo, hhi.trans (Nat.le_add_right _ _), hgap⟩ }

/-- The cursor behind the read of HEAD: at most 16 bytes behind it, on the byte
the 8-bit cursor stands for, and not moved where it was that close before. -/
theorem readHead_cursor (s : Sniffer) {cursor published : Nat} (hle : cursor ≤ published)
    (htail : s.sniffTail = UInt8.ofNat cursor) :
    let t := s.readHead (UInt8.ofNat published)
    let gap := (UInt8.ofNat published - t.sniffTail).toNat
    gap ≤ 16 ∧ gap ≤ published - cursor ∧ (published ≤ cursor + 16 → gap = published - cursor) ∧
      t.sniffTail = UInt8.ofNat (published - gap) := by
  have hgap : (UInt8.ofNat published - s.sniffTail).toNat = (published - cursor) % 256 := by
    rw [htail, ofNat_sub_toNat hle]
  by_cases hover : UInt8.ofNat published - s.sniffTail > RING_SLOTS
  · have hlt : 16 < (published - cursor) % 256 := by
      rw [← hgap]
      exact UInt8.lt_iff_toNat_lt.mp hover
    have hmod := Nat.mod_le (published - cursor) 256
    have htail' : (s.readHead (UInt8.ofNat published)).sniffTail = UInt8.ofNat published - RING_SLOTS := by
      rw [Sniffer.readHead, if_pos hover]
    have hsixteen : UInt8.ofNat published - (UInt8.ofNat published - RING_SLOTS) = RING_SLOTS := by
      grind
    simp only [htail', hsixteen]
    have hslots : RING_SLOTS.toNat = 16 := rfl
    rw [hslots]
    refine ⟨le_refl _, by omega, by omega, ?_⟩
    rw [UInt8.ofNat_sub (by omega)]
    rfl
  · have hle' : (UInt8.ofNat published - s.sniffTail).toNat ≤ 16 :=
      UInt8.le_iff_toNat_le.mp (UInt8.not_lt.mp hover)
    have hmod := Nat.mod_le (published - cursor) 256
    rw [s.readHead_of_le _ (UInt8.not_lt.mp hover)]
    simp only [hgap]
    rw [hgap] at hle'
    refine ⟨hle', hmod, fun _ => Nat.mod_eq_of_lt (by omega), ?_⟩
    rw [htail, ← UInt8.toNat_inj, UInt8.toNat_ofNat', UInt8.toNat_ofNat']
    omega

theorem Aligned.step {s : System} (h : Aligned s) (e : Event) : Aligned (s.step e) := by
  cases e with
  | mcu bit => exact h.mcu bit
  | enter nowMs =>
    cases hpc : s.pc with
    | draining _ _ _ => simpa only [System.step, hpc] using h
    | idle =>
      have hbeat : (s.host.heartbeat nowMs).sniffTail = UInt8.ofNat s.cursor := by
        rw [s.host.heartbeat_frame]
        exact h.tail_eq
      obtain ⟨hgap, hle, -, htail⟩ := readHead_cursor _ h.cursor_le hbeat
      simp only [System.step, hpc, h.head]
      refine ⟨h.fifo, Nat.sub_le _ _, htail, ?_⟩
      intro _ _ _ hpc'
      obtain ⟨-, rfl, -⟩ := HostPc.draining.inj hpc'
      exact ⟨s.published, rfl, Nat.sub_le _ _, le_refl _, by simp only; omega⟩
  | take t =>
    cases hpc : s.pc with
    | idle => simpa only [System.step, hpc] using h
    | draining nowMs head got =>
      obtain ⟨n, hn, hlo, hhi, hgap⟩ := h.head_eq nowMs head got hpc
      by_cases hdone : s.host.sniffTail = head
      · simpa only [System.step, hpc, if_pos hdone] using h
      · have hlt : s.cursor < n := by
          refine Nat.lt_of_le_of_ne hlo fun heq => hdone ?_
          rw [h.tail_eq, hn, heq]
        simp only [System.step, hpc, if_neg hdone]
        refine ⟨h.fifo, hlt.trans_le hhi, ?_, ?_⟩
        · rw [Sniffer.drainByte_sniffTail, h.tail_eq, UInt8.ofNat_add]
          rfl
        · intro _ _ _ hpc'
          obtain ⟨-, rfl, -⟩ := HostPc.draining.inj hpc'
          exact ⟨n, hn, hlt, hhi, by simp only; omega⟩
  | finish r =>
    cases hpc : s.pc with
    | idle => simpa only [System.step, hpc] using h
    | draining nowMs head got =>
      by_cases hdone : s.host.sniffTail = head
      · have htail := s.host.finish_sniffTail got nowMs (s.emcu.regs ACC) r
        simp only [System.step, hpc, if_neg (not_not.mpr hdone)]
        generalize s.host.finish got nowMs (s.emcu.regs ACC) r = fin at htail ⊢
        by_cases hrestart : fin.2
        · simp only [hrestart, if_true] at htail ⊢
          exact
            { fifo := ⟨Fifo.start layout s.emcu.regs, tracks_start _, rfl, rfl⟩
              cursor_le := le_refl _
              tail_eq := htail
              head_eq := by simp }
        · simp only [hrestart, Bool.false_eq_true, if_false] at htail ⊢
          exact
            { fifo := h.fifo, cursor_le := h.cursor_le, tail_eq := htail.trans h.tail_eq
              head_eq := by simp }
      · simpa only [System.step, hpc, if_pos hdone] using h

/-- The register read next is the slot of the byte under the cursor. -/
theorem slotAddr_eq {s : Sniffer} {cursor : Nat} (h : s.sniffTail = UInt8.ofNat cursor) :
    s.slotAddr = layout.slot (cursor % 16) := by
  have hlow : UInt8.ofNat cursor &&& (RING_SLOTS - 1) = UInt8.ofNat (cursor % 16) :=
    and_mask (k := 4) (by decide) cursor
  rw [Sniffer.slotAddr, h, hlow]
  rfl

/-- In front of a round of the drain loop a published byte is unread. -/
theorem Aligned.unread {s : System} (h : Aligned s) {nowMs : UInt32} {head : UInt8} {got : Bool}
    (hpc : s.pc = .draining nowMs head got) (hmore : s.host.sniffTail ≠ head) :
    s.cursor < s.published := by
  obtain ⟨n, hn, hlo, hhi, -⟩ := h.head_eq nowMs head got hpc
  refine (Nat.lt_of_le_of_ne hlo fun heq => hmore ?_).trans_le hhi
  rw [h.tail_eq, hn, heq]

/-- A slot that has not been stored over gives the byte under the cursor. -/
theorem Aligned.read {s : System} (h : Aligned s) (hlt : s.cursor < s.published)
    (hlap : s.bytes.length ≤ s.cursor + 16) :
    s.bytes[s.cursor]? = some (s.emcu.regs s.host.slotAddr) := by
  obtain ⟨f, htracks, hbytes, hpub⟩ := h.fifo
  have hstored : s.cursor < f.stored.length := by
    rw [hbytes]
    exact hlt.trans_le h.published_le
  have hmem := f.mem_eq hstored (by rw [hbytes]; exact hlap)
  rw [← hbytes, List.getElem?_eq_getElem hstored, slotAddr_eq h.tail_eq, ← htracks.regs, ← hmem]
  rfl

/-- A step publishes the byte it stored last. -/
theorem Aligned.take_published {s : System} (h : Aligned s) (bit : Bool) :
    (s.mcuStep bit).bytes.take (s.mcuStep bit).published =
      s.bytes.take s.published ++ s.emcu.publishes := by
  obtain ⟨f, htracks, hbytes, hpub⟩ := h.fifo
  have hcount := htracks.published
  have hlast := htracks.last
  rw [hbytes, hpub] at hcount
  rw [hbytes] at hlast
  simp only [System.mcuStep]
  by_cases hpc : s.emcu.pc = .publish
  · have hone : s.emcu.publishes = [s.emcu.regs ACC] := by rw [Emcu.publishes, hpc]
    have hall : s.published + 1 = s.bytes.length := by rw [← hcount, if_pos hpc]
    have hinit : s.bytes.dropLast ++ [s.emcu.regs ACC] = s.bytes :=
      List.dropLast_append_getLast? _ (hlast hpc)
    have htake : s.bytes.take s.published = s.bytes.dropLast := by
      rw [List.dropLast_eq_take, ← hall, Nat.add_sub_cancel]
    simp only [hone, hpc, reduceCtorEq, if_false, List.append_nil, List.length_singleton]
    rw [htake, hinit, hall, List.take_length]
  · have hnone : s.emcu.publishes = [] := by
      unfold Emcu.publishes
      split
      · contradiction
      · rfl
    rw [hnone, List.length_nil, Nat.add_zero, List.append_nil,
      List.take_append_of_le_length h.published_le]

/-- The published bytes the cursor has not passed. -/
def System.pending (s : System) : List UInt8 := (s.bytes.take s.published).drop s.cursor

/-- A step adds the byte it publishes. -/
theorem Aligned.pending_mcu {s : System} (h : Aligned s) (bit : Bool) :
    (s.mcuStep bit).pending = s.pending ++ s.emcu.publishes := by
  have hlen : s.cursor ≤ (s.bytes.take s.published).length := by
    rw [List.length_take_of_le h.published_le]
    exact h.cursor_le
  rw [System.pending, h.take_published bit]
  exact List.drop_append_of_le_length hlen

/-- The slot read next holds the first of them, if it has not been stored over. -/
theorem Aligned.pending_take {s : System} (h : Aligned s) (hlt : s.cursor < s.published)
    (hlap : s.bytes.length ≤ s.cursor + 16) :
    s.pending = s.emcu.regs s.host.slotAddr :: (s.bytes.take s.published).drop (s.cursor + 1) := by
  have hlen : s.cursor < (s.bytes.take s.published).length := by
    rw [List.length_take_of_le h.published_le]
    exact hlt
  have hbyte := h.read hlt hlap
  rw [← List.getElem?_take_of_lt hlt, List.getElem?_eq_getElem hlen, Option.some_inj] at hbyte
  rw [System.pending, List.drop_eq_getElem_cons hlen, hbyte]

theorem System.pending_eq_nil {s : System} (h : s.published ≤ s.cursor) : s.pending = [] :=
  List.drop_eq_nil_of_le ((List.length_take_le _ _).trans h)

/-- The slots from the cursor up to HEAD hold the pending bytes, if none has been
stored over. -/
theorem Aligned.window_eq {s : System} (h : Aligned s) (hlap : s.bytes.length ≤ s.cursor + 16) :
    window 16 (layout.mem s.emcu.regs) s.host.sniffTail.toNat
      (s.emcu.regs RING_HEAD - s.host.sniffTail).toNat = s.pending := by
  have hle := h.published_le
  have hcursor := h.cursor_le
  obtain ⟨f, htracks, hbytes, hpub⟩ := h.fifo
  have hcount : (s.emcu.regs RING_HEAD - s.host.sniffTail).toNat = s.published - s.cursor := by
    rw [h.head, h.tail_eq, ofNat_sub_toNat hcursor, Nat.mod_eq_of_lt (by omega)]
  have hstart : s.host.sniffTail.toNat % 16 = s.cursor % 16 := by
    rw [h.tail_eq, UInt8.toNat_ofNat']
    omega
  have hwindow : window 16 (layout.mem f.regs) s.cursor (s.published - s.cursor) = _ :=
    f.recorded.window (by rw [hbytes]; omega) (by rw [hbytes]; exact hlap)
  rw [hcount, window_congr _ hstart, ← htracks.regs, hwindow, hbytes, System.pending, List.drop_take]

/-- What the pieces of `service()` keep, every step of the system keeps. -/
theorem OutputInvariant.step {I : Sniffer → Prop} (hI : OutputInvariant I) {s : System}
    (h : I s.host) (e : Event) : I (s.step e).host := by
  cases hpc : s.pc with
  | idle =>
    cases e with
    | mcu bit => exact h
    | enter nowMs =>
      simp only [System.step, hpc]
      exact hI.readHead _ (hI.heartbeat h nowMs)
    | take t => simpa only [System.step, hpc] using h
    | finish r => simpa only [System.step, hpc] using h
  | draining nowMs head got =>
    cases e with
    | mcu bit => exact h
    | enter nowMs => simpa only [System.step, hpc] using h
    | take t =>
      simp only [System.step, hpc]
      split
      · exact h
      · exact hI.drainByte h _ _ _ _
    | finish r =>
      have hfin := hI.finish h got nowMs (s.emcu.regs ACC) r
      simp only [System.step, hpc]
      split
      · exact h
      · split <;> exact hfin

theorem sniffTail_begin (ring : Ring RING_SZ UInt8) (nowMs : UInt32) (head : UInt8) :
    (Sniffer.begin ring nowMs head).sniffTail = head := by
  rw [Sniffer.begin_eq]
  rfl

theorem System.begin_pc (regs : Regs) (early : List Bool) (ring : Ring RING_SZ UInt8)
    (nowMs : UInt32) : (System.begin regs early ring nowMs).pc = .idle := by
  have hfold : ∀ s : System, (early.foldl System.mcuStep s).pc = s.pc := by
    induction early with
    | nil => exact fun _ => rfl
    | cons bit early ih => exact fun s => ih (s.mcuStep bit)
  simp only [System.begin, hfold, System.boot]

theorem aligned_begin (regs : Regs) (early : List Bool) (ring : Ring RING_SZ UInt8)
    (nowMs : UInt32) : Aligned (System.begin regs early ring nowMs) := by
  have hrun : ∀ s : System, Aligned s → Aligned (early.foldl System.mcuStep s) := by
    induction early with
    | nil => exact fun s h => h
    | cons bit early ih => exact fun s h => ih (s.mcuStep bit) (h.mcu bit)
  have hboot : Aligned (System.boot regs ring nowMs) :=
    { fifo := ⟨Fifo.start layout regs, tracks_start regs, rfl, rfl⟩
      cursor_le := le_refl _
      tail_eq := sniffTail_begin ring nowMs 0
      head_eq := by simp [System.boot] }
  have h := hrun _ hboot
  have hpc := System.begin_pc regs early ring nowMs
  simp only [System.begin] at hpc ⊢
  generalize early.foldl System.mcuStep (System.boot regs ring nowMs) = s at h hpc ⊢
  have htail := sniffTail_begin ring nowMs (s.emcu.regs RING_HEAD)
  generalize Sniffer.begin ring nowMs (s.emcu.regs RING_HEAD) = host at htail ⊢
  exact
    { fifo := h.fifo
      cursor_le := le_refl _
      tail_eq := htail.trans h.head
      head_eq := by simp [hpc] }

end Tapioca.ClockedSniffer

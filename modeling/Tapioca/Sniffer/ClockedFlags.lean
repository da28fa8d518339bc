-- SUMMARY: What the overflow bits of the clocked records say, over runs of any length.
import Tapioca.Sniffer.ClockedOutput

/-!
# Overflow flags

The two overflow counters of the clocked sniffer count, since the last record
that was staged, the FIFO overruns and the records dropped. They are 16 bits
wide, and a record's flags only say whether they are 0. So the flags are right
exactly when no stretch between two records holds a positive multiple of
`2 ^ 16` overruns or of dropped records.
-/

namespace Tapioca.ClockedSniffer

open RecordFramer

-- ---------------------------------------------------------------------------
-- Histories
-- ---------------------------------------------------------------------------

/-- The overruns since the last delivered record. -/
def overruns : List Entry → Nat
  | .overrun :: log => overruns log + 1
  | .delivered _ :: _ => 0
  | _ :: log => overruns log
  | [] => 0

/-- The records dropped since the last delivered one. -/
def drops : List Entry → Nat
  | .dropped _ :: log => drops log + 1
  | .delivered _ :: _ => 0
  | _ :: log => drops log
  | [] => 0

/-- Every delivered record, with the history it was delivered on, satisfies `P`. -/
def AllDelivered (P : DataRecord → List Entry → Prop) : List Entry → Prop
  | .delivered r :: log => P r log ∧ AllDelivered P log
  | _ :: log => AllDelivered P log
  | [] => True

/-- The flags of every record say what happened since the record before it. -/
def FlagsRight : List Entry → Prop :=
  AllDelivered fun r log =>
    (r.flags &&& FLAG_OVF_PIOC ≠ 0 ↔ 0 < overruns log) ∧
    (r.flags &&& FLAG_OVF_RAM ≠ 0 ↔ 0 < drops log)

/-- No record was delivered on a positive multiple of `2 ^ 16` overruns or drops. -/
def NoWrap : List Entry → Prop :=
  AllDelivered fun _ log =>
    ¬ (0 < overruns log ∧ overruns log % 2 ^ 16 = 0) ∧ ¬ (0 < drops log ∧ drops log % 2 ^ 16 = 0)

/-- The flags say whether the 16-bit counters were 0. -/
def FlagsCounted : List Entry → Prop :=
  AllDelivered fun r log =>
    (r.flags &&& FLAG_OVF_PIOC ≠ 0 ↔ overruns log % 2 ^ 16 ≠ 0) ∧
    (r.flags &&& FLAG_OVF_RAM ≠ 0 ↔ drops log % 2 ^ 16 ≠ 0)

theorem AllDelivered.congr {P Q : DataRecord → List Entry → Prop} {log : List Entry}
    {R : DataRecord → List Entry → Prop} (hR : AllDelivered R log)
    (h : ∀ r log, R r log → (P r log ↔ Q r log)) : AllDelivered P log ↔ AllDelivered Q log := by
  induction log with
  | nil => exact Iff.rfl
  | cons e log ih =>
    cases e with
    | delivered r => exact and_congr (h r log hR.1) (ih hR.2)
    | overrun => exact ih hR
    | dropped r => exact ih hR
    | marker => exact ih hR

/-- Counted flags are right exactly where no counter wrapped to 0. -/
theorem FlagsCounted.right_iff {log : List Entry} (h : FlagsCounted log) :
    FlagsRight log ↔ NoWrap log := by
  refine AllDelivered.congr h fun r log hr => ?_
  rw [hr.1, hr.2]
  omega

-- ---------------------------------------------------------------------------
-- The counters
-- ---------------------------------------------------------------------------

/-- The counters hold the counts of the history, and so did those every record
was flagged from. -/
structure Counted (s : Sniffer) : Prop where
  pioc : s.ovfPioc = UInt16.ofNat (overruns s.log)
  ram : s.ovfRam = UInt16.ofNat (drops s.log)
  flags : FlagsCounted s.log

theorem ofNat_ne_zero_iff (n : Nat) : UInt16.ofNat n ≠ 0 ↔ n % 2 ^ 16 ≠ 0 := by
  rw [Ne, ← UInt16.toNat_inj, UInt16.toNat_ofNat']
  rfl

theorem counted_invariant : OutputInvariant Counted where
  congr h hsame :=
    { pioc := by rw [hsame.ovfPioc, hsame.log, h.pioc]
      ram := by rw [hsame.ovfRam, hsame.log, h.ram]
      flags := hsame.log ▸ h.flags }
  emitModeMarker {s} h := by
    rw [Sniffer.emitModeMarker_eq]
    split
    · exact ⟨h.pioc, h.ram, h.flags⟩
    · exact h
  emitRecord {s} continued h := by
    by_cases hemits : s.Emits continued
    · by_cases hfit : (s.encoded continued).length ≤ s.ring.free
      · rw [s.emitRecord_delivered continued hemits hfit]
        refine ⟨rfl, rfl, ?_, h.flags⟩
        have hflags := s.recordFlags_spec continued
        have hpioc := ofNat_ne_zero_iff (overruns s.log)
        have hram := ofNat_ne_zero_iff (drops s.log)
        rw [← h.pioc] at hpioc
        rw [← h.ram] at hram
        exact ⟨hflags.1.trans hpioc, hflags.2.1.trans hram⟩
      · rw [s.emitRecord_dropped continued hemits hfit]
        refine ⟨h.pioc, ?_, h.flags⟩
        simp only [h.ram, drops, UInt16.ofNat_add]
        rfl
    · rw [s.emitRecord_idle continued hemits]
      exact h
  readHead {s} head h := by
    unfold Sniffer.readHead
    split
    · refine ⟨?_, h.ram, h.flags⟩
      simp only [h.pioc, overruns, UInt16.ofNat_add]
      rfl
    · exact h
  ship {s} _ _ h := ⟨h.pioc, h.ram, h.flags⟩

theorem counted_begin (ring : Ring RING_SZ UInt8) (nowMs : UInt32) (head : UInt8) :
    Counted (Sniffer.begin ring nowMs head) := by
  rw [Sniffer.begin_eq]
  exact ⟨rfl, rfl, trivial⟩

theorem counted_serve (ring : Ring RING_SZ UInt8) (nowMs : UInt32) (head : UInt8)
    (calls : List Readings) : Counted ((Sniffer.begin ring nowMs head).serve calls) :=
  counted_invariant.serve (counted_begin ring nowMs head) calls

/-- Over every run, the overflow bits of every record are right exactly when no
record was delivered on a positive multiple of `2 ^ 16` overruns or of dropped
records since the one before it. -/
theorem flags_right_iff (ring : Ring RING_SZ UInt8) (nowMs : UInt32) (head : UInt8)
    (calls : List Readings) :
    let log := ((Sniffer.begin ring nowMs head).serve calls).log
    FlagsRight log ↔ NoWrap log := by
  exact (counted_serve ring nowMs head calls).flags.right_iff

-- ---------------------------------------------------------------------------
-- A host that does not read for a while
-- ---------------------------------------------------------------------------

/-- A call that finds `n` new bytes and an empty partial, while the transmit
ring takes `space` bytes. -/
def poll (nowMs : UInt32) (head : UInt8) (space : Nat) : Readings where
  nowMs := nowMs
  head := head
  slots := fun _ => (0xAA, ⟨0, 0, 0⟩)
  acc := 1
  tail := ⟨0, 0, 0, space, space⟩

theorem watchPartial_none (s : Sniffer) (nowMs : UInt32) :
    s.watchPartial nowMs 1 = { s with partialSeenBits := 0 } := rfl

theorem partialOnlyIdle_none (s : Sniffer) (nowMs : UInt32) : s.partialOnlyIdle nowMs 1 = false := rfl

theorem finalize_closed (s : Sniffer) (nowMs : UInt32) (hclosed : s.burstOpen = false)
    (hterm : s.burstNeedTerminal = false) :
    s.finalize nowMs 1 0 0 = ({ s with partialSeenBits := 0 }, false) := by
  simp [Sniffer.finalize, Sniffer.finalizeBurst, watchPartial_none, Sniffer.closes, partialOnlyIdle_none, hclosed, hterm]

/-- A burst whose last byte has just been read stays open. -/
theorem finalize_waits (s : Sniffer) (nowMs : UInt32) (hlast : s.sniffLastMs = nowMs)
    (ht0 : s.burstT0 = 0) : s.finalize nowMs 1 0 0 = ({ s with partialSeenBits := 0 }, false) := by
  simp [Sniffer.finalize, Sniffer.finalizeBurst, watchPartial_none, Sniffer.closes, partialOnlyIdle_none, hlast, ht0]

/-- A burst whose last byte is more than 3 ms old is closed. -/
theorem finalize_closes (s : Sniffer) (nowMs : UInt32) (hopen : s.burstOpen = true)
    (hidle : nowMs - s.sniffLastMs > 3) :
    (s.finalize nowMs 1 0 0).1 =
      { ({ s with partialSeenBits := 0 }).emitRecord false with tailBits := 0 } := by
  have hk : Sniffer.kbits 1 = 0 := rfl
  simp [Sniffer.finalize, Sniffer.finalizeBurst, watchPartial_none, Sniffer.closes, partialOnlyIdle_none, hopen, hidle,
    Sniffer.closeBurst, Sniffer.withPartial, hk]

/-- A call that finds nothing new only finalises and ships. -/
theorem service_silent (s : Sniffer) (nowMs : UInt32) (space : Nat) :
    (s.service (poll nowMs s.sniffTail space)).1 =
      ((s.heartbeat nowMs).finalize nowMs 1 0 0).1.ship space space := by
  have htail : (s.heartbeat nowMs).sniffTail = s.sniffTail := by rw [s.heartbeat_frame nowMs]
  have hread : (s.heartbeat nowMs).readHead s.sniffTail = s.heartbeat nowMs :=
    Sniffer.readHead_of_le _ _ (by rw [htail, UInt8.sub_self]; decide)
  simp only [Sniffer.service, poll, hread, htail, UInt8.sub_self]
  rfl

/-- Sixteen bytes drained between two bursts open one. -/
theorem drainLoop_full (s : Sniffer) (hclosed : s.burstOpen = false) :
    ∃ buf onset, buf.bytes = List.replicate 16 0xAA ∧
      s.drainLoop ((List.range 16).map (poll 0 0 0).slots) =
        { s with
          sniffTail := s.sniffTail + 16, burstOpen := true, burstBuf := buf, burstOnset := onset
          burstT0 := 0 } := by
  have hbytes : s.buffered.push 0xAA = ⟨[0xAA], by decide⟩ := by
    simp [Sniffer.buffered, hclosed, Burst.push, Burst.empty, BURST_MAX]
  have hfirst : s.drainByte 0xAA 0 0 0 =
      { s with
        sniffTail := s.sniffTail + 1, burstOpen := true, burstBuf := ⟨[0xAA], by decide⟩
        burstOnset := (s.appendByte 0xAA 0 0).burstOnset, burstT0 := 0 } := by
    simp only [Sniffer.drainByte]
    rw [Sniffer.appendByte_frame, hbytes, if_neg (by simp [BURST_MAX])]
    simp only [hclosed, Bool.false_eq_true, if_false]
  obtain ⟨buf, onset, hbuf, hrest⟩ :=
    Sniffer.drainLoop_open
      { s with
        sniffTail := s.sniffTail + 1, burstOpen := true, burstBuf := ⟨[0xAA], by decide⟩
        burstOnset := (s.appendByte 0xAA 0 0).burstOnset, burstT0 := 0 }
      (List.replicate 15 (0xAA, ⟨0, 0, 0⟩)) rfl (by simp [BURST_MAX])
  refine ⟨buf, onset, hbuf, ?_⟩
  have hreads : (List.range 16).map (poll 0 0 0).slots =
      (0xAA, ⟨0, 0, 0⟩) :: List.replicate 15 (0xAA, ⟨0, 0, 0⟩) := rfl
  have hcount : s.sniffTail + 1 + UInt8.ofNat 15 = s.sniffTail + 16 := UInt8.add_assoc ..
  have hstep : ∀ rd reads, s.drainLoop (rd :: reads) =
      (s.drainByte rd.1 rd.2.t0 rd.2.t1 rd.2.t2).drainLoop reads := fun _ _ => rfl
  rw [hreads, hstep, hfirst, hrest, List.length_replicate, hcount]

/-- A call that finds a full FIFO between two bursts opens a burst of 16 bytes. -/
theorem service_full (s : Sniffer) (nowMs : UInt32) (hclosed : s.burstOpen = false) :
    ∃ buf onset, buf.bytes = List.replicate 16 0xAA ∧
      (s.service (poll nowMs (s.sniffTail + 16) 0)).1 =
        { s.heartbeat nowMs with
          sniffTail := s.sniffTail + 16, burstOpen := true, burstBuf := buf, burstOnset := onset
          burstT0 := 0, burstLast := 0, sniffLastMs := nowMs, partialSeenBits := 0 } := by
  have htail : (s.heartbeat nowMs).sniffTail = s.sniffTail := by rw [s.heartbeat_frame nowMs]
  have hopen : (s.heartbeat nowMs).burstOpen = false := by
    rw [s.heartbeat_frame nowMs]
    exact hclosed
  have hgap : s.sniffTail + 16 - s.sniffTail = 16 := by grind
  have hread : (s.heartbeat nowMs).readHead (s.sniffTail + 16) = s.heartbeat nowMs :=
    Sniffer.readHead_of_le _ _ (by rw [htail, hgap]; decide)
  obtain ⟨buf, onset, hbuf, hloop⟩ := drainLoop_full _ hopen
  rw [htail] at hloop
  refine ⟨buf, onset, hbuf, ?_⟩
  have hslots : (poll nowMs (s.sniffTail + 16) 0).slots = (poll 0 0 0).slots := rfl
  have hn : (16 : UInt8).toNat = 16 := rfl
  have hhead : (poll nowMs (s.sniffTail + 16) 0).head = s.sniffTail + 16 := rfl
  have hnow : (poll nowMs (s.sniffTail + 16) 0).nowMs = nowMs := rfl
  have hacc : (poll nowMs (s.sniffTail + 16) 0).acc = 1 := rfl
  have hrest : (poll nowMs (s.sniffTail + 16) 0).tail = ⟨0, 0, 0, 0, 0⟩ := rfl
  have hgot : decide (0 < 16) = true := rfl
  simp only [Sniffer.service, hhead, hnow, hacc, hrest, hread, htail, hgap, hslots, hn, hloop,
    Sniffer.finish, Sniffer.afterDrain, hgot, if_true]
  rw [finalize_waits _ _ rfl rfl, Sniffer.ship_zero]

/-- `k` calls a second apart that find nothing new. -/
def polls (nowMs : UInt32) (head : UInt8) : Nat → List Readings
  | 0 => []
  | k + 1 => poll nowMs head 0 :: polls (nowMs + 1000) head k

/-- `k` bursts of 16 bytes, 8 ms apart, each closed by the call after it. -/
def bursts (nowMs : UInt32) (head : UInt8) : Nat → List Readings
  | 0 => []
  | k + 1 =>
    poll nowMs (head + 16) 0 :: poll (nowMs + 4) (head + 16) 0 ::
      bursts (nowMs + 8) (head + 16) k

/-- Between two bursts, with `free` bytes of staging room left, the staging ring
read up to `pos`, and `n` records dropped since the last delivered one. -/
structure Between (s : Sniffer) (tail : UInt8) (pos : UInt32) (free n : Nat) : Prop where
  closed : s.burstOpen = false
  terminated : s.burstNeedTerminal = false
  tail_eq : s.sniffTail = tail
  pos_eq : s.ring.tail = pos
  free_eq : s.ring.free = free
  drops_eq : drops s.log = n

namespace Between

variable {s : Sniffer} {tail : UInt8} {pos : UInt32} {free n : Nat}

/-- A heartbeat that is due takes 24 bytes of staging room. -/
theorem beat (h : Between s tail pos free n) (nowMs : UInt32) (hdue : s.modeHbMs = nowMs)
    (hroom : 24 ≤ free) :
    Between (s.service (poll nowMs tail 0)).1 tail pos (free - 24) n ∧
      (s.service (poll nowMs tail 0)).1.modeHbMs = nowMs + 1000 := by
  have hfit : (frameMeta Sniffer.MARKER).length ≤ s.ring.free := by
    rw [Sniffer.length_marker, h.free_eq]
    exact hroom
  have hbeat : s.heartbeat nowMs =
      { s with
        ring := (s.ring.pushAll (frameMeta Sniffer.MARKER)).2, log := .marker :: s.log
        modeHbMs := nowMs + 1000 } := by
    unfold Sniffer.heartbeat
    rw [if_pos (by rw [hdue, UInt32.sub_self]; decide), Sniffer.emitModeMarker_eq, if_pos hfit]
  have hfin := finalize_closed (s.heartbeat nowMs) nowMs (by rw [hbeat]; exact h.closed)
    (by rw [hbeat]; exact h.terminated)
  rw [← h.tail_eq, service_silent, hfin, Sniffer.ship_zero, hbeat]
  refine ⟨⟨h.closed, h.terminated, rfl, ?_, ?_, h.drops_eq⟩, rfl⟩
  · exact (Ring.tail_pushAll _ _).trans h.pos_eq
  simp only
  rw [Ring.free_pushAll (by decide) (by decide) _ _ hfit, Sniffer.length_marker, h.free_eq]

/-- Heartbeats alone fill the staging ring of a host that does not read. -/
theorem beats (h : Between s tail pos free n) (nowMs : UInt32) (hdue : s.modeHbMs = nowMs) (k : Nat)
    (hroom : 24 * k ≤ free) :
    Between (s.serve (polls nowMs tail k)) tail pos (free - 24 * k) n := by
  induction k generalizing s free nowMs with
  | zero => exact h
  | succ k ih =>
    obtain ⟨hnext, hdue'⟩ := h.beat nowMs hdue (by omega)
    have hrest := ih hnext (nowMs + 1000) hdue' (by omega)
    have hfree : free - 24 - 24 * k = free - 24 * (k + 1) := by omega
    rw [hfree] at hrest
    rw [polls, Sniffer.serve_cons]
    exact hrest

/-- What a heartbeat can do to the staging ring and the history. -/
theorem heartbeat_effect (s : Sniffer) (nowMs : UInt32) :
    (s.heartbeat nowMs).ring.free ≤ s.ring.free ∧
    s.ring.free ≤ (s.heartbeat nowMs).ring.free + 24 ∧
    (s.heartbeat nowMs).ring.tail = s.ring.tail ∧ drops (s.heartbeat nowMs).log = drops s.log := by
  unfold Sniffer.heartbeat
  rw [Sniffer.emitModeMarker_eq, Sniffer.length_marker]
  by_cases hdue : nowMs - s.modeHbMs < 0x80000000
  · by_cases hfit : 24 ≤ s.ring.free
    · have hfree := Ring.free_pushAll (by decide) (by decide) s.ring (frameMeta Sniffer.MARKER)
        (by rw [Sniffer.length_marker]; exact hfit)
      rw [Sniffer.length_marker] at hfree
      simp only [if_pos hdue, if_pos hfit, hfree, Ring.tail_pushAll, drops, and_true]
      omega
    · simp only [if_pos hdue, if_neg hfit, le_refl, true_and, and_true]
      omega
  · simp only [if_neg hdue, le_refl, true_and, and_true]
    omega

/-- A burst of 16 bytes opens in one call and ends in the next. -/
theorem round (h : Between s tail pos free n) (nowMs : UInt32) :
    ∃ u : Sniffer, u.burstOpen = true ∧ u.sniffTail = tail + 16 ∧
      u.burstBuf.bytes.length = 16 ∧ u.ring.free ≤ free ∧ free ≤ u.ring.free + 48 ∧
      u.ring.tail = pos ∧ u.burstNeedTerminal = false ∧ drops u.log = n ∧
      s.serve [poll nowMs (tail + 16) 0, poll (nowMs + 4) (tail + 16) 0] =
        { u.emitRecord false with tailBits := 0 } := by
  obtain ⟨buf, onset, hbuf, hopen⟩ := service_full s nowMs h.closed
  rw [h.tail_eq] at hopen
  generalize hu : (s.service (poll nowMs (tail + 16) 0)).1 = u at hopen
  have hframe := u.heartbeat_frame (nowMs + 4)
  have hlast : u.sniffLastMs = nowMs := by rw [hopen]
  have hidle : nowMs + 4 - (u.heartbeat (nowMs + 4)).sniffLastMs > 3 := by
    have hfour : nowMs + 4 - nowMs = 4 := by grind
    rw [hframe]
    simp only [hlast, hfour]
    decide
  have htail : u.sniffTail = tail + 16 := by rw [hopen]
  have hclose := service_silent u (nowMs + 4) 0
  rw [finalize_closes _ _ (by rw [hframe, hopen]) hidle, Sniffer.ship_zero, htail] at hclose
  have hring : u.ring = (s.heartbeat nowMs).ring := by rw [hopen]
  have hlog : u.log = (s.heartbeat nowMs).log := by rw [hopen]
  obtain ⟨hle, hge, hringTail, hdrops⟩ := heartbeat_effect s nowMs
  obtain ⟨hle', hge', hringTail', hdrops'⟩ := heartbeat_effect u (nowMs + 4)
  rw [hring] at hle' hge' hringTail'
  rw [hlog] at hdrops'
  rw [h.free_eq] at hle hge
  refine ⟨{ u.heartbeat (nowMs + 4) with partialSeenBits := 0 }, by rw [hframe, hopen], ?_, ?_,
    hle'.trans hle, ?_, ?_, ?_, ?_, ?_⟩
  · rw [hframe]
    exact htail
  · rw [hframe, hopen]
    exact (congrArg List.length hbuf).trans (List.length_replicate ..)
  · simp only
    omega
  · exact hringTail'.trans (hringTail.trans h.pos_eq)
  · rw [hframe, hopen, s.heartbeat_frame]
    exact h.terminated
  · exact hdrops'.trans (hdrops.trans h.drops_eq)
  · rw [Sniffer.serve_cons, Sniffer.serve_cons, Sniffer.serve_nil, hu, hclose]

/-- With less staging room than a marker takes, a burst of 16 bytes is dropped. -/
theorem round_dropped (h : Between s tail pos free n) (hfull : free < 24) (nowMs : UInt32) :
    ∃ free' < 24, Between (s.serve [poll nowMs (tail + 16) 0, poll (nowMs + 4) (tail + 16) 0])
      (tail + 16) pos free' (n + 1) := by
  obtain ⟨u, hopen, htail, hlen, hle, -, hring, hterm, hdrops, hrun⟩ := h.round nowMs
  have henc := (length_frameRecord (u.openRecord false).raw).1
  have hraw : (u.openRecord false).raw.length = 12 + 16 := by
    rw [DataRecord.length_raw, ← hlen]
    rfl
  rw [hrun, u.emitRecord_dropped false (.inl hopen) (by rw [Sniffer.encoded]; omega)]
  refine ⟨u.ring.free, by omega, rfl, hterm, htail, hring, rfl, ?_⟩
  simp only [drops, hdrops]

theorem bursts_dropped (h : Between s tail pos free n) (hfull : free < 24) (nowMs : UInt32) (k : Nat) :
    ∃ free' < 24, Between (s.serve (bursts nowMs tail k)) (tail + UInt8.ofNat (16 * k)) pos free' (n + k) := by
  induction k generalizing s nowMs tail free n with
  | zero => exact ⟨free, hfull, by simpa [bursts] using h⟩
  | succ k ih =>
    obtain ⟨free', hfull', hnext⟩ := h.round_dropped hfull nowMs
    obtain ⟨last, hlast, hrest⟩ := ih hnext hfull' (nowMs + 8)
    have htail : tail + 16 + UInt8.ofNat (16 * k) = tail + UInt8.ofNat (16 * (k + 1)) := by
      rw [Nat.mul_succ, Nat.add_comm (16 * k), UInt8.ofNat_add, ← UInt8.add_assoc]
      rfl
    rw [htail, Nat.add_assoc, Nat.add_comm 1] at hrest
    have hsplit : bursts nowMs tail (k + 1) =
        [poll nowMs (tail + 16) 0, poll (nowMs + 4) (tail + 16) 0] ++
          bursts (nowMs + 8) (tail + 16) k := rfl
    rw [hsplit, Sniffer.serve_append]
    exact ⟨last, hlast, hrest⟩

/-- With room for two markers and a record, a burst of 16 bytes is delivered. -/
theorem round_delivered (h : Between s tail pos free n) (hroom : 106 ≤ free) (nowMs : UInt32) :
    ∃ r log, drops log = n ∧
      (s.serve [poll nowMs (tail + 16) 0, poll (nowMs + 4) (tail + 16) 0]).log =
        .delivered r :: log := by
  obtain ⟨u, hopen, -, hlen, -, hge, -, -, hdrops, hrun⟩ := h.round nowMs
  have henc := (length_frameRecord (u.openRecord false).raw).2
  have hraw : (u.openRecord false).raw.length = 12 + 16 := by
    rw [DataRecord.length_raw, ← hlen]
    rfl
  rw [hrun, u.emitRecord_delivered false (.inl hopen) (by rw [Sniffer.encoded]; omega)]
  exact ⟨_, _, hdrops, rfl⟩

/-- A call that finds the staging ring nearly full, and not read so far, ships
192 bytes of it. -/
theorem ship_room (h : Between s tail 0 free n) (hfull : free < 24) (nowMs : UInt32) :
    ∃ free' ≥ 106, Between (s.service (poll nowMs tail 192)).1 tail 192 free' n := by
  obtain ⟨hle, -, hpos, hdrops⟩ := heartbeat_effect s nowMs
  have hbeat := s.heartbeat_frame nowMs
  have hfin := finalize_closed (s.heartbeat nowMs) nowMs (by rw [hbeat]; exact h.closed)
    (by rw [hbeat]; exact h.terminated)
  have hcall : (s.service (poll nowMs tail 192)).1 =
      ({ s.heartbeat nowMs with partialSeenBits := 0 } : Sniffer).ship 192 192 := by
    rw [← h.tail_eq, service_silent, hfin]
  rw [hcall]
  generalize hu : ({ s.heartbeat nowMs with partialSeenBits := 0 } : Sniffer) = u
  have hring : u.ring = (s.heartbeat nowMs).ring := by rw [← hu]
  rw [← hring] at hle hpos
  rw [h.free_eq] at hle
  rw [h.pos_eq] at hpos
  have hsize : 2024 < u.ring.size := by
    have hfree : u.ring.free = 2048 - u.ring.size := rfl
    omega
  -- the reader stands at the start of the buffer, so nothing wraps and 192 bytes go in one piece
  have hcontig : u.ring.readContig = u.ring.size := by
    have hmax : u.ring.size ≤ 2048 := u.ring.size_le
    have hindex : Ring.index RING_SZ u.ring.tail = 0 := by rw [hpos]; rfl
    rw [Ring.readContig, hindex]
    exact min_eq_left hmax
  have hcount : u.shipCount 192 192 = 192 := by
    rw [Sniffer.shipCount, hcontig, DRAIN_MAX]
    omega
  refine ⟨(u.ship 192 192).ring.free, ?_, ?_, ?_, ?_, ?_, rfl, ?_⟩
  · have hafter : (u.ship 192 192).ring.size = u.ring.size - u.shipCount 192 192 :=
      Ring.size_readCommit _ ((u.shipCount_le_readContig _ _).trans (min_le_left _ _))
    have hmax : u.ring.size ≤ 2048 := u.ring.size_le
    have hfree : (u.ship 192 192).ring.free = 2048 - (u.ship 192 192).ring.size := rfl
    omega
  · have hopen : u.burstOpen = false := by rw [← hu, hbeat]; exact h.closed
    exact hopen
  · have hterm : u.burstNeedTerminal = false := by rw [← hu, hbeat]; exact h.terminated
    exact hterm
  · have htail : u.sniffTail = tail := by rw [← hu, hbeat]; exact h.tail_eq
    exact htail
  · have hcommit : (u.ship 192 192).ring.tail = u.ring.tail + UInt32.ofNat (u.shipCount 192 192) :=
      rfl
    rw [hcommit, hcount, hpos]
    rfl
  · have hlog : drops u.log = n := by rw [← hu]; exact hdrops.trans h.drops_eq
    exact hlog

end Between

theorem begin_between : Between (Sniffer.begin freshRing 0 0) 0 0 2023 0 ∧
    (Sniffer.begin freshRing 0 0).modeHbMs = 1000 := by
  have hfree := Sniffer.free_begin freshRing 0 0
  rw [Sniffer.begin_eq] at hfree ⊢
  refine ⟨⟨rfl, rfl, rfl, ?_, hfree, rfl⟩, rfl⟩
  simp only [Ring.tail_pushAll]
  rfl

/-- A host that does not read for a while. Heartbeats fill the staging ring, `k`
bursts are dropped, the host reads again, one more burst is delivered. -/
def stalledHost (k : Nat) : List Readings :=
  polls 1000 0 84 ++ (bursts 85000 0 k ++
    poll (UInt32.ofNat (85000 + 8 * k)) (UInt8.ofNat (16 * k)) 192 ::
      bursts (UInt32.ofNat (85004 + 8 * k)) (UInt8.ofNat (16 * k)) 1)

theorem stalledHost_log (k : Nat) :
    ∃ r log, drops log = k ∧
      ((Sniffer.begin freshRing 0 0).serve (stalledHost k)).log = .delivered r :: log := by
  obtain ⟨hbegin, hdue⟩ := begin_between
  have hfilled := hbegin.beats 1000 hdue 84 (by omega)
  obtain ⟨free, hfull, hdropped⟩ := hfilled.bursts_dropped (by omega) 85000 k
  rw [UInt8.zero_add, Nat.zero_add] at hdropped
  obtain ⟨room, hroom, hshipped⟩ := hdropped.ship_room hfull (UInt32.ofNat (85000 + 8 * k))
  obtain ⟨r, log, hdrops, hlog⟩ := hshipped.round_delivered hroom (UInt32.ofNat (85004 + 8 * k))
  refine ⟨r, log, hdrops, ?_⟩
  rw [stalledHost, Sniffer.serve_append, Sniffer.serve_append, Sniffer.serve_cons]
  exact hlog

theorem stalledHost_wrong {k : Nat} (hpos : 0 < k) (hwrap : k % 2 ^ 16 = 0) :
    ¬ FlagsRight ((Sniffer.begin freshRing 0 0).serve (stalledHost k)).log := by
  obtain ⟨r, log, hdrops, hlog⟩ := stalledHost_log k
  have hflags := (counted_serve freshRing 0 0 (stalledHost k)).flags
  rw [hlog] at hflags ⊢
  intro hright
  have hbit := hright.1.2.mpr (by rw [hdrops]; exact hpos)
  have hcount := hflags.1.2.mp hbit
  rw [hdrops] at hcount
  exact hcount hwrap

/-- Ten minutes without a read: the record behind `2 ^ 16` dropped ones has bit
1 clear. -/
theorem flags_wrong_after_wrap :
    ¬ FlagsRight ((Sniffer.begin freshRing 0 0).serve (stalledHost (2 ^ 16))).log :=
  stalledHost_wrong (by norm_num) (by norm_num)

end Tapioca.ClockedSniffer

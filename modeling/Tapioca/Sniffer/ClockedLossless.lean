-- SUMMARY: Clocked capture end to end: the bits the host reads and the bits still under way are the bits sampled.
import Tapioca.Host.BurstBits
import Tapioca.Sniffer.ClockedSystem

/-!
# Lossless capture

Every sampled bit is in one of six places: in a burst the host has joined, in a
chain its joiner still holds open, in the open burst, in the FIFO, in ACC, or
lost. Nothing is lost in a run that stores no slot over before it is read, runs
no eMCU step inside a call of `service()`, drops no record, and flushes a
partial only while the eMCU waits for a clock edge.
-/

namespace Tapioca.ClockedSniffer

open Pioc ClockedBlob RecordFramer MdioCodec Lib.Lts Lib.Bits Lib.SlotRing
open Sniffer (kbits partialByte)

-- ---------------------------------------------------------------------------
-- Where the bits are
-- ---------------------------------------------------------------------------

namespace System

variable (s : System)

/-- The joiner and the bursts behind all records staged so far. -/
def joined : BurstJoiner × List Host.LBurst :=
  (recordsFromBinary (s.host.wire ++ s.host.ring.contents)).records.foldl joinStep ({}, [])

/-- The bits of the logical bursts. -/
def hostBits : List Bool :=
  (logicalBursts (recordsFromBinary (s.host.wire ++ s.host.ring.contents)).records).flatMap burstBits

/-- The bits of a continued chain that the joiner has not handed out. -/
def joinerBits : List Bool := bytesToBits s.joined.1.pay

/-- The slots from the sniffer's cursor up to HEAD. -/
def fifoBytes : List UInt8 :=
  window 16 (layout.mem s.emcu.regs) s.host.sniffTail.toNat
    (s.emcu.regs RING_HEAD - s.host.sniffTail).toNat

/-- The bits the device still holds: open burst, FIFO, ACC. -/
def heldBits : List Bool :=
  bytesToBits s.host.burstBuf.bytes ++ bytesToBits s.fifoBytes ++ s.emcu.heldBits

end System

-- ---------------------------------------------------------------------------
-- The partial in ACC
-- ---------------------------------------------------------------------------

/-- The sentinel's position is the number of shifts until it is gone. -/
theorem shiftCount_eq {n k : Nat} {v : UInt8} (hk : k ≤ n) (h : v.toNat / 2 ^ k = 1) :
    Sniffer.shiftCount n v = k := by
  have hhalf : (v >>> 1).toNat = v.toNat / 2 := by
    simp [UInt8.toNat_shiftRight, Nat.shiftRight_eq_div_pow]
  induction n generalizing k v with
  | zero => simp only [Sniffer.shiftCount]; omega
  | succ n ih =>
    cases k with
    | zero =>
      have hzero : v >>> 1 = 0 := by
        rw [← UInt8.toNat_inj, hhalf]
        simp only [pow_zero, Nat.div_one] at h
        rw [h]
        rfl
      rw [Sniffer.shiftCount, if_pos hzero]
    | succ k =>
      have hnext : (v >>> 1).toNat / 2 ^ k = 1 := by
        rw [hhalf, Nat.div_div_eq_div_mul, ← pow_succ', h]
      have hne : ¬ v >>> 1 = 0 := by
        intro hzero
        rw [hzero] at hnext
        simp at hnext
      rw [Sniffer.shiftCount, if_neg hne, ih (by omega) hnext]
      simp [UInt8.toNat_shiftRight, Nat.shiftRight_eq_div_pow]

theorem kbits_eq {k : Nat} (hk : k < 8) {acc : UInt8} (h : acc.toNat / 2 ^ k = 1) : kbits acc = k :=
  shiftCount_eq hk.le h

/-- The flushed byte starts with the bits below the sentinel. -/
theorem partialByte_bits {acc : UInt8} (hk : kbits acc < 8) :
    (List.range (kbits acc)).map (fun i => (partialByte acc).toNat.testBit (7 - i)) =
      toBits (kbits acc) acc.toNat := by
  have hvalue : (partialByte acc).toNat = acc.toNat % 2 ^ kbits acc * 2 ^ (8 - kbits acc) := by
    have hlow := Nat.mod_lt acc.toNat (Nat.two_pow_pos (kbits acc))
    have hpow : 2 ^ kbits acc * 2 ^ (8 - kbits acc) = 2 ^ 8 := by rw [← pow_add]; congr 1; omega
    have hfit : acc.toNat % 2 ^ kbits acc * 2 ^ (8 - kbits acc) < 2 ^ 8 := by
      rw [← hpow]
      exact Nat.mul_lt_mul_of_pos_right hlow (Nat.two_pow_pos _)
    rw [partialByte, Nat.one_shiftLeft, Nat.and_two_pow_sub_one_eq_mod, Nat.shiftLeft_eq,
      UInt8.toNat_ofNat', Nat.mod_eq_of_lt hfit]
  refine List.map_congr_left fun i hi => ?_
  have hi : i < kbits acc := List.mem_range.mp hi
  have hidx : 7 - i - (8 - kbits acc) = kbits acc - 1 - i := by omega
  have hge : 8 - kbits acc ≤ 7 - i := by omega
  rw [hvalue, Nat.testBit_mul_two_pow, decide_eq_true hge, Bool.true_and, hidx,
    Nat.testBit_mod_two_pow, decide_eq_true (by omega), Bool.true_and]

-- ---------------------------------------------------------------------------
-- The sniffer
-- ---------------------------------------------------------------------------

def Entry.isDropped : Entry → Bool
  | .dropped _ => true
  | _ => false

/-- No record was dropped. -/
def Kept (log : List Entry) : Prop := ∀ e ∈ log, ¬ e.isDropped

instance (log : List Entry) : Decidable (Kept log) := inferInstanceAs (Decidable (∀ e ∈ log, _))

/-- The joiner behind the delivered records. -/
def joinedLog (log : List Entry) : BurstJoiner × List Host.LBurst :=
  ((delivered log).map DataRecord.parsed).foldl joinStep ({}, [])

theorem joinedLog_delivered (r : DataRecord) (log : List Entry) :
    joinedLog (.delivered r :: log) = joinStep (joinedLog log) r.parsed := by
  rw [joinedLog, delivered, List.map_append, List.foldl_append]
  rfl

/-- `out` has passed the sniffer's cursor and is in the records staged or in the
open burst, and none of it is lost to the host's joiner. -/
structure Carries (s : Sniffer) (out : List Bool) : Prop where
  bits : joinedBits (joinedLog s.log) ++ bytesToBits s.burstBuf.bytes = out
  chain : s.burstNeedTerminal = false → (joinedLog s.log).1.pay = []
  ovfPioc : s.ovfPioc = 0
  ovfRam : s.ovfRam = 0
  tailBits : s.tailBits = 0
  closed : s.burstOpen = false → s.burstBuf.bytes = []
  room : s.burstBuf.bytes.length < BURST_MAX

namespace Carries

variable {s : Sniffer} {out : List Bool}

/-- An emitted burst adds its bits to what the host has joined. -/
theorem emitRecord (hpioc : s.ovfPioc = 0) (hram : s.ovfRam = 0) (hopen : s.burstOpen = true)
    {continued : Bool} (htail : s.tailBits < 8) (hwhole : continued → s.tailBits = 0)
    (hshrunk : s.tailBits ≠ 0 → s.burstBuf.bytes ≠ []) (hkept : Kept (s.emitRecord continued).log)
    (hbits : joinedBits (joinedLog s.log) ++ burstToBits s.burstBuf.bytes s.tailBits = out) :
    Carries { s.emitRecord continued with tailBits := 0 } out := by
  have hempty : Burst.empty.bytes.length < BURST_MAX := by decide
  obtain ⟨-, -, hcont, hvalid, hloss⟩ := s.recordFlags_spec continued
  have hnoloss := not_not.mp (hloss.not.mpr (not_or.mpr ⟨not_not.mpr hpioc, not_not.mpr hram⟩))
  rw [Nat.mod_eq_of_lt htail] at hvalid
  by_cases hfit : (s.encoded continued).length ≤ s.ring.free
  · have hjoin := joinStep_bits (joinedLog s.log) (s.openRecord continued).parsed hnoloss
      (fun hne => hshrunk (hvalid ▸ hne))
    have hrecord : recordBits (s.openRecord continued).parsed =
        burstToBits s.burstBuf.bytes s.tailBits := by
      have hvalid' : validBits (s.openRecord continued).parsed = s.tailBits := hvalid
      have hdef : recordBits (s.openRecord continued).parsed =
          if s.recordFlags continued &&& FLAG_CONTINUED ≠ 0 then bytesToBits s.burstBuf.bytes
          else burstToBits s.burstBuf.bytes (validBits (s.openRecord continued).parsed) := rfl
      rw [hdef, hvalid']
      by_cases hc : continued
      · rw [if_pos (hcont.mpr hc), hwhole hc, burstToBits_whole]
      · rw [if_neg fun h => hc (hcont.mp h)]
    rw [s.emitRecord_delivered continued (.inl hopen) hfit]
    exact
      { bits := by
          simp only [joinedLog_delivered, Burst.bytes_empty, bytesToBits_nil, List.append_nil]
          rw [hjoin.1, hrecord, hbits]
        chain := by
          simp only [joinedLog_delivered]
          exact fun hc => hjoin.2 (not_not.mp (hcont.not.mpr (Bool.eq_false_iff.mp hc)))
        ovfPioc := rfl
        ovfRam := rfl
        tailBits := rfl
        closed := fun _ => rfl
        room := hempty }
  · rw [s.emitRecord_dropped continued (.inl hopen) hfit] at hkept
    exact absurd rfl (hkept _ (List.mem_cons_self ..))

theorem congr (h : Carries s out) {t : Sniffer} (hlog : t.log = s.log)
    (hbuf : t.burstBuf = s.burstBuf) (hopen : t.burstOpen = s.burstOpen)
    (hneed : t.burstNeedTerminal = s.burstNeedTerminal) (hpioc : t.ovfPioc = s.ovfPioc)
    (hram : t.ovfRam = s.ovfRam) (htail : t.tailBits = s.tailBits) : Carries t out where
  bits := by rw [hlog, hbuf]; exact h.bits
  chain := by rw [hlog, hneed]; exact h.chain
  ovfPioc := by rw [hpioc]; exact h.ovfPioc
  ovfRam := by rw [hram]; exact h.ovfRam
  tailBits := by rw [htail]; exact h.tailBits
  closed := by rw [hbuf, hopen]; exact h.closed
  room := by rw [hbuf]; exact h.room

theorem heartbeat (h : Carries s out) (nowMs : UInt32) : Carries (s.heartbeat nowMs) out := by
  have hlog : joinedLog (s.heartbeat nowMs).log = joinedLog s.log := by
    rw [joinedLog, s.delivered_heartbeat nowMs]
    rfl
  rw [s.heartbeat_frame]
  exact
    { bits := by rw [hlog]; exact h.bits
      chain := by rw [hlog]; exact h.chain
      ovfPioc := h.ovfPioc
      ovfRam := h.ovfRam
      tailBits := h.tailBits
      closed := h.closed
      room := h.room }

/-- A burst of whole bytes is emitted with no bits cut. -/
theorem emitRecord_whole (hpioc : s.ovfPioc = 0) (hram : s.ovfRam = 0) (htail : s.tailBits = 0)
    (hopen : s.burstOpen = true) {continued : Bool} (hkept : Kept (s.emitRecord continued).log)
    (hbits : joinedBits (joinedLog s.log) ++ bytesToBits s.burstBuf.bytes = out) :
    Carries (s.emitRecord continued) out := by
  have hemitted : Carries { s.emitRecord continued with tailBits := 0 } out :=
    emitRecord hpioc hram hopen (by rw [htail]; decide) (fun _ => htail)
      (fun hne => absurd htail hne) hkept (by rw [htail, burstToBits_whole]; exact hbits)
  have hzero : (s.emitRecord continued).tailBits = 0 := by
    rw [s.emitRecord_frame]
    exact htail
  exact hemitted.congr rfl rfl rfl rfl rfl rfl hzero

theorem drainByte (h : Carries s out) {b : UInt8} {t0 t1 t2 : UInt32}
    (hkept : Kept (s.drainByte b t0 t1 t2).log) :
    Carries (s.drainByte b t0 t1 t2) (out ++ toBits 8 b.toNat) := by
  have hbits : joinedBits (joinedLog s.log) ++ bytesToBits (s.burstBuf.push b).bytes =
      out ++ toBits 8 b.toNat := by
    rw [Burst.bytes_push b h.room, bytesToBits_append, bytesToBits_singleton, ← List.append_assoc,
      h.bits]
  have happ := s.appendByte_frame b t0 t1
  rw [s.buffered_eq h.closed] at happ
  simp only [Sniffer.drainByte] at hkept ⊢
  generalize s.appendByte b t0 t1 = a at happ hkept ⊢
  have hlog : a.log = s.log := by rw [happ]
  have hbuf : a.burstBuf = s.burstBuf.push b := by rw [happ]
  have hopen : a.burstOpen = true := by rw [happ]
  have hneed : a.burstNeedTerminal = s.burstNeedTerminal := by rw [happ]
  have hpioc : a.ovfPioc = 0 := by rw [happ]; exact h.ovfPioc
  have hram : a.ovfRam = 0 := by rw [happ]; exact h.ovfRam
  have htail : a.tailBits = 0 := by rw [happ]; exact h.tailBits
  rw [← hlog, ← hbuf] at hbits
  by_cases hfull : BURST_MAX ≤ a.burstBuf.bytes.length
  · rw [if_pos hfull] at hkept ⊢
    exact emitRecord_whole (s := { a with burstLast := t2 }) hpioc hram htail hopen hkept hbits
  · rw [if_neg hfull]
    exact
      { bits := hbits
        chain := by rw [hneed, hlog]; exact h.chain
        ovfPioc := hpioc
        ovfRam := hram
        tailBits := htail
        closed := fun hclosed => by rw [hopen] at hclosed; cases hclosed
        room := Nat.lt_of_not_le hfull }

/-- Closing the burst adds the bits of the partial in ACC. -/
theorem closeBurst (h : Carries s out) (acc : UInt8) (hk : kbits acc < 8) {t : UInt32}
    (hkept : Kept (s.closeBurst acc t).1.log) :
    Carries (s.closeBurst acc t).1 (out ++ toBits (kbits acc) acc.toNat) := by
  have htail : (s.withPartial acc t).tailBits = kbits acc := by
    rw [s.withPartial_tailBits acc t h.room, h.tailBits]
    split <;> omega
  have hprep := s.withPartial_frame acc t
  simp only [Sniffer.closeBurst] at hkept ⊢
  generalize s.withPartial acc t = a at htail hprep hkept ⊢
  have hlog : a.log = s.log := by rw [hprep]
  have hopen : a.burstOpen = true := by rw [hprep]
  have hpioc : a.ovfPioc = 0 := by rw [hprep]; exact h.ovfPioc
  have hram : a.ovfRam = 0 := by rw [hprep]; exact h.ovfRam
  have hbuf : a.burstBuf.bytes =
      if kbits acc ≠ 0 then s.burstBuf.bytes ++ [partialByte acc] else s.burstBuf.bytes := by
    rw [hprep]
    simp only
    split
    · exact Burst.bytes_push _ h.room
    · rfl
  have hbits : joinedBits (joinedLog a.log) ++ burstToBits a.burstBuf.bytes a.tailBits =
      out ++ toBits (kbits acc) acc.toNat := by
    rw [hlog, htail, hbuf, ← h.bits, List.append_assoc]
    congr 1
    by_cases hzero : kbits acc ≠ 0
    · rw [if_pos hzero, burstToBits_concat _ _ hzero, partialByte_bits hk]
    · rw [if_neg hzero, not_not.mp hzero, burstToBits_whole]
      exact (List.append_nil _).symm
  have hkept' : Kept (a.emitRecord false).log := by
    split at hkept <;> exact hkept
  have hemitted : Carries { a.emitRecord false with tailBits := 0 } _ :=
    emitRecord hpioc hram hopen (htail ▸ hk) (fun hfalse => by cases hfalse)
      (fun hne => by rw [hbuf, if_pos (htail ▸ hne)]; simp) hkept' hbits
  split
  · exact hemitted.congr rfl rfl rfl rfl rfl rfl rfl
  · exact hemitted

/-- The state in which `finish` decides whether to close the burst. -/
theorem watched (h : Carries s out) (got : Bool) (nowMs : UInt32) (acc : UInt8) (t : UInt32) :
    Carries ((s.afterDrain got nowMs t).watchPartial nowMs acc) out := by
  unfold Sniffer.watchPartial Sniffer.afterDrain
  split <;> split <;> exact h.congr rfl rfl rfl rfl rfl rfl rfl

theorem ship (h : Carries s out) (writeSpace cap : Nat) : Carries (s.ship writeSpace cap) out :=
  h.congr rfl rfl rfl rfl rfl rfl rfl

/-- A call that flushes no partial. -/
theorem finish_whole (h : Carries s out) {got : Bool} {nowMs : UInt32} {acc : UInt8}
    {r : TailReadings} (hwhole : ¬ s.FlushesPartial got nowMs acc r)
    (hkept : Kept (s.finish got nowMs acc r).1.log) : Carries (s.finish got nowMs acc r).1 out := by
  rw [Sniffer.finish_fst, Sniffer.finalize, Sniffer.finalizeBurst] at hkept ⊢
  rw [Sniffer.ship_log] at hkept
  rw [Sniffer.FlushesPartial] at hwhole
  have hw := h.watched got nowMs acc r.last
  generalize (s.afterDrain got nowMs r.last).watchPartial nowMs acc = u at hw hwhole hkept ⊢
  by_cases hcloses : u.closes nowMs acc
  · have hzero : kbits acc = 0 := not_not.mp fun hk => hwhole ⟨hcloses, hk⟩
    rw [if_pos hcloses] at hkept ⊢
    have hclosed := hw.closeBurst acc (by omega) hkept
    rw [hzero] at hclosed
    rw [← List.append_nil out]
    exact hclosed.ship _ _
  · rw [if_neg hcloses] at hkept ⊢
    by_cases htcap : u.burstOpen ∧ r.tcap - u.burstT0 > BURST_TCAP_US
    · rw [if_pos htcap] at hkept ⊢
      exact (emitRecord_whole hw.ovfPioc hw.ovfRam hw.tailBits htcap.1 hkept hw.bits).ship _ _
    · rw [if_neg htcap]
      exact hw.ship _ _

/-- A call that flushes a partial. -/
theorem finish_partial (h : Carries s out) {got : Bool} {nowMs : UInt32} {acc : UInt8}
    {r : TailReadings} (hflush : s.FlushesPartial got nowMs acc r) (hk : kbits acc < 8)
    (hkept : Kept (s.finish got nowMs acc r).1.log) :
    Carries (s.finish got nowMs acc r).1 (out ++ toBits (kbits acc) acc.toNat) := by
  rw [Sniffer.finish_fst, Sniffer.finalize, Sniffer.finalizeBurst] at hkept ⊢
  rw [Sniffer.ship_log] at hkept
  rw [Sniffer.FlushesPartial] at hflush
  have hw := h.watched got nowMs acc r.last
  generalize (s.afterDrain got nowMs r.last).watchPartial nowMs acc = u at hw hflush hkept ⊢
  rw [if_pos hflush.1] at hkept ⊢
  exact (hw.closeBurst acc hk hkept).ship _ _

end Carries

-- ---------------------------------------------------------------------------
-- The run
-- ---------------------------------------------------------------------------

/-- No slot is stored over before it is read. -/
def SlotFree (s : System) : Event → Prop
  | .mcu _ => s.emcu.pc = .store → s.bytes.length < s.cursor + 16
  | _ => True

/-- The eMCU takes no step inside a call, and the call drops no record. -/
def Undisturbed (s : System) : HostPc → Event → Prop
  | .draining .., .mcu _ => False
  | _, e => Kept (s.step e).host.log

/-- A partial is flushed only while the eMCU waits for a clock edge. -/
def FlushWaits (s : System) : HostPc → Event → Prop
  | .draining nowMs h got, .finish r =>
    s.host.sniffTail = h → s.host.FlushesPartial got nowMs (s.emcu.regs ACC) r →
      ∃ k, s.emcu.pc = .sample k
  | _, _ => True

/-- What the schedule is to guarantee. -/
def QuietStep (s : System) (e : Event) : Prop := SlotFree s e ∧ Undisturbed s s.pc e

/-- A step that loses no bit. -/
def LosslessStep (s : System) (e : Event) : Prop := QuietStep s e ∧ FlushWaits s s.pc e

instance (s : System) : ∀ e, Decidable (SlotFree s e)
  | .mcu _ => inferInstanceAs (Decidable (_ → _))
  | .enter _ | .take _ | .finish _ => .isTrue trivial

instance (s : System) : ∀ pc e, Decidable (Undisturbed s pc e)
  | .draining .., .mcu _ => .isFalse id
  | .idle, e => inferInstanceAs (Decidable (Kept (s.step e).host.log))
  | .draining .., .enter nowMs => inferInstanceAs (Decidable (Kept (s.step (.enter nowMs)).host.log))
  | .draining .., .take t => inferInstanceAs (Decidable (Kept (s.step (.take t)).host.log))
  | .draining .., .finish r => inferInstanceAs (Decidable (Kept (s.step (.finish r)).host.log))

instance (s : System) : ∀ pc e, Decidable (FlushWaits s pc e)
  | .draining .., .finish _ => inferInstanceAs (Decidable (_ → _))
  | .idle, _ => .isTrue trivial
  | .draining .., .mcu _ | .draining .., .enter _ | .draining .., .take _ => .isTrue trivial

instance (s : System) (e : Event) : Decidable (QuietStep s e) := inferInstanceAs (Decidable (_ ∧ _))

instance (s : System) (e : Event) : Decidable (LosslessStep s e) :=
  inferInstanceAs (Decidable (_ ∧ _))

/-- The registers agree with the history, no unread slot has been stored over,
and the bits sampled are carried by the sniffer, pending in the FIFO, or in ACC. -/
structure Lossless (s : System) : Prop where
  aligned : Aligned s
  lap : s.bytes.length ≤ s.cursor + 16
  stopped : ∀ nowMs h got, s.pc = .draining nowMs h got → h = UInt8.ofNat s.published
  bits : ∃ out, Carries s.host out ∧
    s.sampled = out ++ bytesToBits s.pending ++ s.emcu.heldBits

theorem Lossless.mcu {s : System} (h : Lossless s) {bit : Bool} (hfree : SlotFree s (.mcu bit))
    (hpc : s.pc = .idle) : Lossless (s.mcuStep bit) where
  aligned := h.aligned.mcu bit
  lap := by
    have hlap := h.lap
    simp only [System.mcuStep]
    split
    · rename_i hstore
      rw [List.length_append]
      exact hfree hstore
    · rw [List.append_nil]
      exact hlap
  stopped nowMs head got hdraining := by
    have hidle : (s.mcuStep bit).pc = .idle := hpc
    rw [hidle] at hdraining
    cases hdraining
  bits := by
    obtain ⟨out, hcarries, hsampled⟩ := h.bits
    obtain ⟨f, htracks, -, -⟩ := h.aligned.fifo
    refine ⟨out, hcarries, ?_⟩
    have hstep : (s.mcuStep bit).sampled = s.sampled ++ s.emcu.samples bit := rfl
    have hheld := htracks.heldBits_step bit
    rw [hstep, hsampled, h.aligned.pending_mcu bit, bytesToBits_append, List.append_assoc, hheld]
    simp only [List.append_assoc]
    rfl

theorem Lossless.enter {s : System} (h : Lossless s) {nowMs : UInt32} (hpc : s.pc = .idle) :
    Lossless (s.step (.enter nowMs)) := by
  have haligned := h.aligned.step (.enter nowMs)
  have hle := h.aligned.published_le
  have hlap := h.lap
  have hcursor := h.aligned.cursor_le
  have htail : (s.host.heartbeat nowMs).sniffTail = UInt8.ofNat s.cursor := by
    rw [s.host.heartbeat_frame]
    exact h.aligned.tail_eq
  have hgap : (UInt8.ofNat s.published - (s.host.heartbeat nowMs).sniffTail).toNat =
      s.published - s.cursor := by
    rw [htail, ofNat_sub_toNat hcursor, Nat.mod_eq_of_lt (by omega)]
  have hnear : UInt8.ofNat s.published - (s.host.heartbeat nowMs).sniffTail ≤ RING_SLOTS := by
    rw [UInt8.le_iff_toNat_le, hgap]
    have hslots : RING_SLOTS.toNat = 16 := rfl
    omega
  have hread := (s.host.heartbeat nowMs).readHead_of_le _ hnear
  have hstay : s.published - (s.published - s.cursor) = s.cursor := by omega
  simp only [System.step, hpc, h.aligned.head, hread, hgap, hstay] at haligned ⊢
  refine ⟨haligned, hlap, ?_, ?_⟩
  · intro _ _ _ hdraining
    obtain ⟨-, rfl, -⟩ := HostPc.draining.inj hdraining
    rfl
  · obtain ⟨out, hcarries, hsampled⟩ := h.bits
    exact ⟨out, hcarries.heartbeat nowMs, hsampled⟩

theorem Lossless.take {s : System} (h : Lossless s) {t : DrainTimes} {nowMs : UInt32}
    {head : UInt8} {got : Bool} (hpc : s.pc = .draining nowMs head got)
    (hkept : Kept (s.step (.take t)).host.log) : Lossless (s.step (.take t)) := by
  have haligned := h.aligned.step (.take t)
  have hlap := h.lap
  have hhead := h.stopped nowMs head got hpc
  by_cases hdone : s.host.sniffTail = head
  · simpa only [System.step, hpc, if_pos hdone] using h
  · have hpending := h.aligned.pending_take (h.aligned.unread hpc hdone) hlap
    simp only [System.step, hpc, if_neg hdone] at haligned hkept ⊢
    refine ⟨haligned, by simp only; omega, ?_, ?_⟩
    · intro _ _ _ hdraining
      obtain ⟨-, rfl, -⟩ := HostPc.draining.inj hdraining
      exact hhead
    · obtain ⟨out, hcarries, hsampled⟩ := h.bits
      refine ⟨_, hcarries.drainByte hkept, ?_⟩
      rw [hsampled, hpending, List.append_assoc out (toBits _ _), ← bytesToBits_singleton,
        ← bytesToBits_append]
      rfl

theorem Lossless.finish {s : System} (h : Lossless s) {r : TailReadings} {nowMs : UInt32}
    {head : UInt8} {got : Bool} (hpc : s.pc = .draining nowMs head got)
    (hkept : Kept (s.step (.finish r)).host.log)
    (hwaits : s.host.sniffTail = head → s.host.FlushesPartial got nowMs (s.emcu.regs ACC) r →
      ∃ k, s.emcu.pc = .sample k) : Lossless (s.step (.finish r)) := by
  have haligned := h.aligned.step (.finish r)
  by_cases hdone : s.host.sniffTail = head
  · have hrestarts := s.host.finish_restarts got nowMs (s.emcu.regs ACC) r
    obtain ⟨out, hcarries, hsampled⟩ := h.bits
    simp only [System.step, hpc, if_neg (not_not.mpr hdone)] at haligned hkept ⊢
    by_cases hflush : s.host.FlushesPartial got nowMs (s.emcu.regs ACC) r
    · have hempty : s.pending = [] := by
        have hle := h.aligned.published_le
        have hlap := h.lap
        refine System.pending_eq_nil ?_
        have heq := congrArg UInt8.toNat ((h.aligned.tail_eq.symm.trans hdone).trans
          (h.stopped nowMs head got hpc))
        rw [UInt8.toNat_ofNat', UInt8.toNat_ofNat'] at heq
        omega
      obtain ⟨k, hk⟩ := hwaits hdone hflush
      obtain ⟨f, htracks, -, -⟩ := h.aligned.fifo
      have hbits : kbits (s.emcu.regs ACC) = k := kbits_eq k.isLt (htracks.sentinel k hk)
      rw [if_pos (hrestarts.mpr hflush)] at haligned hkept ⊢
      refine ⟨haligned, Nat.zero_le _, by simp, ?_⟩
      refine ⟨_, hcarries.finish_partial hflush (by rw [hbits]; exact k.isLt) hkept, ?_⟩
      have hheld : s.emcu.heldBits = toBits k (s.emcu.regs ACC).toNat := by
        rw [Emcu.heldBits, hk]
      rw [hsampled, hempty, hheld, hbits]
      simp only [System.pending, Emcu.heldBits, Emcu.start, List.take_nil, List.drop_nil,
        bytesToBits_nil, List.append_nil]
    · rw [if_neg fun hrestart => hflush (hrestarts.mp hrestart)] at haligned hkept ⊢
      exact ⟨haligned, h.lap, by simp, out, hcarries.finish_whole hflush hkept, hsampled⟩
  · simpa only [System.step, hpc, if_pos hdone] using h

theorem Lossless.step {s : System} (h : Lossless s) {e : Event} (he : LosslessStep s e) :
    Lossless (s.step e) := by
  obtain ⟨⟨hfree, hquiet⟩, hwaits⟩ := he
  cases hpc : s.pc with
  | idle =>
    cases e with
    | mcu bit => exact h.mcu hfree hpc
    | enter nowMs => exact h.enter hpc
    | take t => simpa only [System.step, hpc] using h
    | finish r => simpa only [System.step, hpc] using h
  | draining nowMs head got =>
    rw [hpc] at hquiet hwaits
    cases e with
    | mcu bit => exact hquiet.elim
    | enter nowMs => simpa only [System.step, hpc] using h
    | take t => exact h.take hpc hquiet
    | finish r => exact h.finish hpc hquiet hwaits

theorem lossless_begin (regs : Regs) (early : List Bool) (ring : Ring RING_SZ UInt8)
    (nowMs : UInt32) : Lossless (System.begin regs early ring nowMs) := by
  have haligned := aligned_begin regs early ring nowMs
  have hroom : Burst.empty.bytes.length < BURST_MAX := by decide
  refine ⟨haligned, ?_, ?_, [], ?_, ?_⟩
  · obtain ⟨f, -, hbytes, hpub⟩ := haligned.fifo
    have hstored := f.stored_le
    have hcursor : (System.begin regs early ring nowMs).cursor =
        (System.begin regs early ring nowMs).published := rfl
    rw [hbytes, hpub] at hstored
    omega
  · intro _ _ _ hdraining
    rw [System.begin_pc] at hdraining
    cases hdraining
  · simp only [System.begin]
    rw [Sniffer.begin_eq]
    exact
      { bits := rfl
        chain := fun _ => rfl
        ovfPioc := rfl
        ovfRam := rfl
        tailBits := rfl
        closed := fun _ => rfl
        room := hroom }
  · rw [System.pending_eq_nil (s := System.begin regs early ring nowMs) (le_refl _)]
    rfl

theorem staged_run (regs : Regs) (early : List Bool) (ring : Ring RING_SZ UInt8) (nowMs : UInt32)
    (evs : List Event) : Staged (run System.step (System.begin regs early ring nowMs) evs).host :=
  AllSteps.invariant (I := fun s : System => Staged s.host) (fun _ e hs _ => staged_invariant.step hs e)
    (staged_begin ring nowMs _) (allSteps_of_forall (fun _ _ => trivial) _ evs)

theorem System.joined_eq {s : System} (h : Staged s.host) : s.joined = joinedLog s.host.log := by
  rw [System.joined, h.recordsFromBinary, joinedLog]

theorem System.hostBits_eq {s : System} (h : Staged s.host) :
    s.hostBits = (joinedLog s.host.log).2.flatMap burstBits := by
  rw [← System.joined_eq h]
  rfl

theorem System.joinerBits_eq {s : System} (h : Staged s.host) :
    s.joinerBits = bytesToBits (joinedLog s.host.log).1.pay := by
  rw [← System.joined_eq h]
  rfl

/-- The host and the device together hold exactly the sampled bits, in order,
after every run of lossless steps; and the joiner holds none of them unless a
continued chain is open. -/
theorem capture_lossless (regs : Regs) (early : List Bool) (ring : Ring RING_SZ UInt8)
    (nowMs : UInt32) (evs : List Event)
    (hrun : AllSteps System.step LosslessStep (System.begin regs early ring nowMs) evs) :
    let s := run System.step (System.begin regs early ring nowMs) evs
    s.hostBits ++ s.joinerBits ++ s.heldBits = s.sampled ∧
      (s.host.burstNeedTerminal = false → s.joinerBits = []) := by
  intro s
  have hlossless : Lossless s :=
    AllSteps.invariant (fun s e hs he => hs.step he) (lossless_begin regs early ring nowMs) hrun
  have hstaged : Staged s.host := staged_run regs early ring nowMs evs
  obtain ⟨out, hcarries, hsampled⟩ := hlossless.bits
  have hfifo : s.fifoBytes = s.pending := hlossless.aligned.window_eq hlossless.lap
  refine ⟨?_, fun hopen => ?_⟩
  · rw [System.hostBits_eq hstaged, System.joinerBits_eq hstaged, System.heldBits, hfifo, hsampled,
      ← hcarries.bits, joinedBits]
    simp only [List.append_assoc]
  · rw [System.joinerBits_eq hstaged, hcarries.chain hopen, bytesToBits_nil]

/-- A byte and three bits, flushed by an idle gap. -/
def partialBurst : List Event :=
  .mcu false :: byteSteps 0xA5 ++ [.mcu true, .mcu false, .mcu true] ++ serviceSteps 0 1 ++
    serviceSteps 4 0

set_option maxRecDepth 10000 in
theorem partialBurst_lossless :
    let s := run System.step (System.begin (fun _ => 0) [] freshRing 0) partialBurst
    s.heldBits = [] ∧ s.hostBits ++ s.joinerBits ++ s.heldBits = s.sampled ∧
      (s.host.burstNeedTerminal = false → s.joinerBits = []) :=
  ⟨by decide +kernel, capture_lossless _ _ _ _ _ (by decide +kernel)⟩

-- ---------------------------------------------------------------------------
-- Bits in the joiner, bits lost
-- ---------------------------------------------------------------------------

/-- Between calls, a step of the eMCU loses nothing unless it stores over an
unread slot. -/
theorem losslessStep_mcu {s : System} (hpc : s.pc = .idle) (hkept : Kept s.host.log) {bit : Bool}
    (hfree : s.emcu.pc = .store → s.bytes.length < s.cursor + 16) : LosslessStep s (.mcu bit) := by
  refine ⟨⟨hfree, ?_⟩, ?_⟩
  · rw [hpc]
    exact hkept
  · rw [hpc]
    trivial

/-- Shifting in the rest of a byte. -/
theorem sampling_run (bits : List Bool) {s : System} {k : Fin 8} (hpc : s.pc = .idle)
    (hkept : Kept s.host.log) (hwait : s.emcu.pc = .sample k) (hlen : k.val + bits.length = 8) :
    AllSteps System.step LosslessStep s (bits.map .mcu) ∧
      ∃ regs, run System.step s (bits.map .mcu) =
        { s with emcu := ⟨regs, s.emcu.ptr, .store⟩, sampled := s.sampled ++ bits } := by
  induction bits generalizing s k with
  | nil => have := k.isLt; simp at hlen; omega
  | cons bit bits ih =>
    have hstep : LosslessStep s (.mcu bit) :=
      losslessStep_mcu hpc hkept fun hstore => by rw [hwait] at hstore; cases hstore
    have hnext : s.mcuStep bit =
        { s with
          emcu := ⟨Function.update s.emcu.regs ACC (rcl (s.emcu.regs ACC) bit), s.emcu.ptr,
            if h : k.val + 1 < 8 then .sample ⟨k.val + 1, h⟩ else .store⟩
          sampled := s.sampled ++ [bit] } := by
      simp [System.mcuStep, Emcu.step, Emcu.samples, Emcu.publishes, hwait]
    rw [List.length_cons] at hlen
    rw [List.map_cons, allSteps_cons, run_cons]
    have hstepEq : s.step (.mcu bit) = s.mcuStep bit := rfl
    rw [hstepEq, hnext]
    by_cases hlast : k.val + 1 < 8
    · rw [dif_pos hlast]
      obtain ⟨hall, regs, hrun⟩ := ih (s := { s with
          emcu := ⟨Function.update s.emcu.regs ACC (rcl (s.emcu.regs ACC) bit), s.emcu.ptr, .sample ⟨k.val + 1, hlast⟩⟩
          sampled := s.sampled ++ [bit] }) hpc hkept rfl (by simp only; omega)
      refine ⟨⟨hstep, hall⟩, regs, ?_⟩
      rw [hrun]
      simp only [List.append_assoc, List.singleton_append]
    · rw [dif_neg hlast]
      obtain rfl : bits = [] := List.length_eq_zero_iff.mp (by omega)
      exact ⟨⟨hstep, trivial⟩, _, rfl⟩

/-- Capturing a byte, from one wait for bit 0 to the next. -/
theorem byteSteps_run (v : UInt8) {s : System} (hpc : s.pc = .idle) (hkept : Kept s.host.log)
    (hwait : s.emcu.pc = .sample 0) (hroom : s.bytes.length < s.cursor + 16) :
    AllSteps System.step LosslessStep s (byteSteps v) ∧
      ∃ m b b', run System.step s (byteSteps v) =
        { s with
          emcu := m, sampled := s.sampled ++ toBits 8 v.toNat, bytes := s.bytes ++ [b]
          published := s.published + 1, captured := s.captured ++ [b'] } ∧ m.pc = .sample 0 := by
  obtain ⟨hall, regs, hrun⟩ := sampling_run (toBits 8 v.toNat) hpc hkept hwait (by simp)
  rw [byteSteps, allSteps_append, run_append, hrun]
  have hstore : LosslessStep
      { s with emcu := ⟨regs, s.emcu.ptr, .store⟩, sampled := s.sampled ++ toBits 8 v.toNat }
      (.mcu false) := by
    refine losslessStep_mcu ?_ ?_ fun _ => ?_
    · exact hpc
    · exact hkept
    · exact hroom
  let stored : Emcu := Emcu.step ⟨regs, s.emcu.ptr, .store⟩ false
  refine ⟨⟨hall, hstore, ?_, ?_, ?_, trivial⟩,
    ((stored.step false).step false).step false, regs ACC, stored.regs ACC, ?_, rfl⟩
  · refine losslessStep_mcu ?_ ?_ fun h => ?_
    · exact hpc
    · exact hkept
    · cases (h : Pc.publish = .store)
  · refine losslessStep_mcu ?_ ?_ fun h => ?_
    · exact hpc
    · exact hkept
    · cases (h : Pc.wrap = .store)
  · refine losslessStep_mcu ?_ ?_ fun h => ?_
    · exact hpc
    · exact hkept
    · cases (h : Pc.seed = .store)
  · simp [stored, System.step, System.mcuStep, Emcu.step, Emcu.samples, Emcu.publishes]

/-- With the clock at 0, a call behind a drained byte and with no partial in ACC
leaves the burst open. -/
theorem finish_calm (s : Sniffer) (acc : UInt8) (hk : kbits acc = 0) (ht0 : s.burstT0 = 0) :
    s.finish true 0 acc ⟨0, 0, 0, 0, 0⟩ =
      ({ s with burstLast := 0, sniffLastMs := 0, partialSeenBits := 0 }, false) := by
  have hwatch : (s.afterDrain true 0 0).watchPartial 0 acc =
      { s with burstLast := 0, sniffLastMs := 0, partialSeenBits := 0 } := by
    rw [Sniffer.watchPartial, if_neg (not_not.mpr hk)]
    rfl
  have hcloses : ¬ ({ s with burstLast := 0, sniffLastMs := 0, partialSeenBits := 0 } : Sniffer).closes 0 acc := by
    simp [Sniffer.closes, Sniffer.partialOnlyIdle, hk]
  refine Prod.ext ?_ ?_
  · rw [Sniffer.finish_fst]
    rw [Sniffer.finalize, hwatch, Sniffer.finalizeBurst, if_neg hcloses, if_neg (by simp [ht0])]
    exact Sniffer.ship_zero _ _
  · rw [Sniffer.finish_snd, Sniffer.finalize, hwatch, Sniffer.finalizeBurst, if_neg hcloses,
      if_neg (by simp [ht0])]

/-- A call at 0 ms that finds one byte. -/
theorem serviceSteps_run {s : System} (h : Aligned s) (hpc : s.pc = .idle)
    (hwait : s.emcu.pc = .sample 0) (hone : s.published = s.cursor + 1)
    (hbeat : s.host.modeHbMs = 1000) (ht0 : s.host.burstT0 = 0) (hkept : Kept s.host.log)
    (hkept' : Kept (s.host.drainByte (s.emcu.regs s.host.slotAddr) 0 0 0).log) :
    AllSteps System.step LosslessStep s (serviceSteps 0 1) ∧
      run System.step s (serviceSteps 0 1) =
        { s with
          host :=
            { s.host.drainByte (s.emcu.regs s.host.slotAddr) 0 0 0 with
              burstLast := 0, sniffLastMs := 0, partialSeenBits := 0 }
          pc := .idle, cursor := s.cursor + 1 } := by
  obtain ⟨f, htracks, -, -⟩ := h.fifo
  have hk : kbits (s.emcu.regs ACC) = 0 := kbits_eq (k := 0) (by decide) (htracks.sentinel 0 hwait)
  have hhead := h.head
  have htail := h.tail_eq
  have hheart : s.host.heartbeat 0 = s.host := by
    rw [Sniffer.heartbeat, hbeat, if_neg (by decide)]
  -- one byte published and not read: the 8-bit cursors are one apart
  have hgap : UInt8.ofNat s.published - s.host.sniffTail = 1 := by
    rw [htail, hone, UInt8.ofNat_add]
    grind
  have hread : s.host.readHead (UInt8.ofNat s.published) = s.host :=
    s.host.readHead_of_le _ (by rw [hgap]; decide)
  have hmore : s.host.sniffTail ≠ UInt8.ofNat s.published := by
    intro heq
    rw [heq, UInt8.sub_self] at hgap
    cases hgap
  have hstay : s.published - 1 = s.cursor := by omega
  have henter : s.step (.enter 0) = { s with pc := .draining 0 (UInt8.ofNat s.published) false } := by
    simp only [System.step, hpc, hhead, hheart, hread, hgap]
    rw [show (1 : UInt8).toNat = 1 from rfl, hstay]
  let drained := s.host.drainByte (s.emcu.regs s.host.slotAddr) 0 0 0
  have hdrained : drained.sniffTail = UInt8.ofNat s.published := by
    rw [s.host.drainByte_sniffTail, htail, hone, UInt8.ofNat_add]
    rfl
  have htake : ({ s with pc := .draining 0 (UInt8.ofNat s.published) false } : System).step (.take ⟨0, 0, 0⟩) =
      { s with
        host := drained, pc := .draining 0 (UInt8.ofNat s.published) true, cursor := s.cursor + 1 } := by
    simp only [System.step, if_neg hmore]
    rfl
  have ht0' : drained.burstT0 = 0 := by
    have happ : (s.host.appendByte (s.emcu.regs s.host.slotAddr) 0 0).burstT0 = 0 := by
      rw [Sniffer.appendByte_frame]
      simp only [ht0, ite_self]
    simp only [drained, Sniffer.drainByte]
    split
    · rw [Sniffer.emitRecord_frame]
      exact happ
    · exact happ
  -- no partial byte and no burst that is due: the end of the call changes nothing else
  have hcalm := finish_calm drained (s.emcu.regs ACC) hk ht0'
  have hfinish : ({ s with
      host := drained, pc := .draining 0 (UInt8.ofNat s.published) true, cursor := s.cursor + 1 } : System).step
        (.finish ⟨0, 0, 0, 0, 0⟩) =
      { s with
        host := { drained with burstLast := 0, sniffLastMs := 0, partialSeenBits := 0 }
        pc := .idle, cursor := s.cursor + 1 } := by
    simp only [System.step, hdrained, hcalm]
    simp
  have hsteps : serviceSteps 0 1 = [.enter 0, .take ⟨0, 0, 0⟩, .finish ⟨0, 0, 0, 0, 0⟩] := rfl
  rw [hsteps]
  simp only [allSteps_cons, run_cons, henter, htake, hfinish, run_nil, allSteps_nil, and_true]
  refine ⟨⟨?_, ⟨⟨trivial, ?_⟩, trivial⟩, ⟨⟨trivial, ?_⟩, ?_⟩⟩, rfl⟩
  · refine ⟨⟨trivial, ?_⟩, ?_⟩
    · rw [hpc]
      simpa only [Undisturbed, henter] using hkept
    · rw [hpc]
      trivial
  · simpa only [Undisturbed, htake] using hkept'
  · simpa only [Undisturbed, hfinish] using hkept'
  · exact fun _ hflush => absurd hk hflush.2

/-- Between two calls at 0 ms, `n` bytes have been drained into an open burst
that has not been split yet, and nothing is left in the FIFO or in ACC. -/
structure Filling (s : System) (n : Nat) : Prop where
  aligned : Aligned s
  pc : s.pc = .idle
  wait : s.emcu.pc = .sample 0
  drained : s.published = s.cursor
  stored : s.bytes.length = s.published
  sampled : s.sampled.length = 8 * n
  log : s.host.log = [.marker]
  beat : s.host.modeHbMs = 1000
  t0 : s.host.burstT0 = 0
  free : 2000 ≤ s.host.ring.free
  burst : s.host.burstBuf.bytes.length = n
  closed : s.host.burstOpen = false → s.host.burstBuf.bytes = []

/-- One more byte is captured and drained. -/
theorem Filling.round {s : System} {n : Nat} (h : Filling s n)
    (hkept : ∀ b, Kept (s.host.drainByte b 0 0 0).log) :
    AllSteps System.step LosslessStep s (byteSteps 0 ++ serviceSteps 0 1) ∧
      let t := run System.step s (byteSteps 0 ++ serviceSteps 0 1)
      Aligned t ∧ t.pc = .idle ∧ t.emcu.pc = .sample 0 ∧ t.published = t.cursor ∧
        t.bytes.length = t.published ∧ t.sampled.length = 8 * (n + 1) ∧
        ∃ b, t.host =
          { s.host.drainByte b 0 0 0 with burstLast := 0, sniffLastMs := 0, partialSeenBits := 0 } := by
  have hlog : Kept s.host.log := by rw [h.log]; decide
  have hroom : s.bytes.length < s.cursor + 16 := by rw [h.stored, h.drained]; omega
  obtain ⟨hbyte, m, b, b', hrun, hm⟩ := byteSteps_run 0 h.pc hlog h.wait hroom
  have haligned : Aligned (run System.step s (byteSteps 0)) :=
    AllSteps.invariant (fun s e hs _ => hs.step e) h.aligned hbyte
  rw [hrun] at haligned
  obtain ⟨hcall, hrun'⟩ := serviceSteps_run haligned h.pc hm (by simp only [h.drained]) h.beat h.t0
    hlog (hkept _)
  have haligned' := AllSteps.invariant (fun s e hs _ => hs.step e) haligned hcall
  rw [allSteps_append, run_append, hrun]
  refine ⟨⟨hbyte, hcall⟩, haligned', ?_⟩
  rw [hrun']
  refine ⟨rfl, hm, ?_, ?_, ?_, _, rfl⟩
  · simp only [h.drained]
  · simp only [List.length_append, List.length_singleton, h.stored]
  · simp only [List.length_append, length_toBits, h.sampled]
    omega

theorem Filling.fill {s : System} {n : Nat} (h : Filling s n) (hroom : n + 1 < BURST_MAX) :
    AllSteps System.step LosslessStep s (byteSteps 0 ++ serviceSteps 0 1) ∧
      Filling (run System.step s (byteSteps 0 ++ serviceSteps 0 1)) (n + 1) := by
  have hfull : s.host.burstBuf.bytes.length < BURST_MAX := by rw [h.burst]; omega
  have hbyte : ∀ b, s.host.drainByte b 0 0 0 = s.host.appendByte b 0 0 ∧
      (s.host.burstBuf.push b).bytes.length = n + 1 := by
    intro b
    have hlen : (s.host.burstBuf.push b).bytes.length = n + 1 := by
      rw [Burst.bytes_push b hfull, List.length_append, h.burst]
      rfl
    refine ⟨if_neg ?_, hlen⟩
    rw [s.host.appendByte_frame, s.host.buffered_eq h.closed]
    simp only [hlen]
    omega
  obtain ⟨hall, haligned, hpc, hwait, hdrained, hstored, hsampled, b, hhost⟩ := h.round (fun b => by
    rw [(hbyte b).1, s.host.appendByte_frame, h.log]
    decide)
  refine ⟨hall, haligned, hpc, hwait, hdrained, hstored, hsampled, ?_, ?_, ?_, ?_, ?_, ?_⟩
  all_goals rw [hhost, (hbyte b).1, s.host.appendByte_frame, s.host.buffered_eq h.closed]
  · exact h.log
  · exact h.beat
  · simp only [h.t0, ite_self]
  · exact h.free
  · exact (hbyte b).2
  · exact fun hclosed => by cases hclosed

/-- The last byte splits the burst: the host's joiner keeps all of it. -/
theorem Filling.split {s : System} (h : Filling s (BURST_MAX - 1)) :
    AllSteps System.step LosslessStep s (byteSteps 0 ++ serviceSteps 0 1) ∧
      let t := run System.step s (byteSteps 0 ++ serviceSteps 0 1)
      (joinedLog t.host.log).2 = [] ∧ t.host.burstBuf.bytes = [] ∧ t.fifoBytes = [] ∧
        t.emcu.heldBits = [] ∧ t.sampled.length = 8 * BURST_MAX := by
  have hfull : s.host.burstBuf.bytes.length < BURST_MAX := by rw [h.burst]; decide
  -- whatever the last byte is, it makes the burst full, and full it goes out as CONTINUED
  have hbyte : ∀ b, ∃ r : DataRecord, r.flags &&& Host.FLAG_CONTINUED ≠ 0 ∧
      (s.host.drainByte b 0 0 0).log = [.delivered r, .marker] ∧
      (s.host.drainByte b 0 0 0).burstBuf.bytes = [] := by
    intro b
    have hlen : (s.host.burstBuf.push b).bytes.length = BURST_MAX := by
      rw [Burst.bytes_push b hfull, List.length_append, h.burst]
      rfl
    have happ := s.host.appendByte_frame b 0 0
    rw [s.host.buffered_eq h.closed] at happ
    obtain ⟨a, ha⟩ : ∃ a, a = ({ s.host.appendByte b 0 0 with burstLast := 0 } : Sniffer) := ⟨_, rfl⟩
    have hbuf : a.burstBuf.bytes.length = BURST_MAX := by rw [ha, happ]; exact hlen
    have hlog : a.log = [.marker] := by rw [ha, happ]; exact h.log
    have hopen : a.burstOpen = true := by rw [ha, happ]
    have hfree : 2000 ≤ a.ring.free := by rw [ha, happ]; exact h.free
    have hfit : (a.encoded true).length ≤ a.ring.free := by
      have hmax := (length_frameRecord (a.openRecord true).raw).2
      have hraw : (a.openRecord true).raw.length = 12 + BURST_MAX := by
        rw [DataRecord.length_raw, ← hbuf]
        rfl
      have hcap : BURST_MAX = 768 := rfl
      rw [Sniffer.encoded]
      omega
    have hsplit : s.host.drainByte b 0 0 0 = a.emitRecord true := by
      have hcond : BURST_MAX ≤ (s.host.appendByte b 0 0).burstBuf.bytes.length := by
        rw [happ]
        exact hlen.ge
      rw [Sniffer.drainByte, ha]
      exact if_pos hcond
    have hflags := (a.recordFlags_spec true).2.2.1.mpr rfl
    rw [hsplit, a.emitRecord_delivered true (.inl hopen) hfit, hlog]
    exact ⟨a.openRecord true, hflags, rfl, rfl⟩
  obtain ⟨hall, haligned, hpc, hwait, hdrained, hstored, hsampled, b, hhost⟩ := h.round (fun b => by
    obtain ⟨r, -, hlog, -⟩ := hbyte b
    rw [hlog]
    simp [Kept, Entry.isDropped])
  refine ⟨hall, ?_, ?_, ?_, ?_, hsampled⟩
  · obtain ⟨r, hcont, hlog, -⟩ := hbyte b
    rw [hhost]
    simp only [hlog]
    rw [joinedLog_delivered]
    exact joinStep_continued _ hcont
  · obtain ⟨-, -, -, hempty⟩ := hbyte b
    rw [hhost]
    exact hempty
  · refine (haligned.window_eq (by omega)).trans (System.pending_eq_nil hdrained.le)
  · rw [Emcu.heldBits, hwait]
    rfl

/-- A byte at a time, up to the payload cap. -/
def bytesDrained (n : Nat) : List Event :=
  .mcu false :: (List.replicate n (byteSteps 0 ++ serviceSteps 0 1)).flatten

theorem bytesDrained_succ (n : Nat) :
    bytesDrained (n + 1) = bytesDrained n ++ (byteSteps 0 ++ serviceSteps 0 1) := by
  rw [bytesDrained, List.replicate_succ', List.flatten_append, List.flatten_singleton]
  rfl

theorem filled (n : Nat) (hn : n < BURST_MAX) :
    let s := System.begin (fun _ => 0) [] freshRing 0
    AllSteps System.step LosslessStep s (bytesDrained n) ∧
      Filling (run System.step s (bytesDrained n)) n := by
  intro s
  have hbegin : s.host = Sniffer.begin freshRing 0 (s.emcu.regs RING_HEAD) := rfl
  have hlog : s.host.log = [.marker] := by rw [hbegin, Sniffer.begin_eq]
  induction n with
  | zero =>
    have haligned : Aligned s := aligned_begin _ _ _ _
    refine ⟨⟨losslessStep_mcu rfl (by rw [hlog]; decide) (fun h => by cases h), trivial⟩, ?_⟩
    exact
      { aligned := haligned.mcu false
        pc := rfl
        wait := rfl
        drained := rfl
        stored := rfl
        sampled := rfl
        log := hlog
        beat := by
          change s.host.modeHbMs = 1000
          rw [hbegin, Sniffer.begin_eq]
          rfl
        t0 := by
          change s.host.burstT0 = 0
          rw [hbegin, Sniffer.begin_eq]
          rfl
        free := by
          change 2000 ≤ s.host.ring.free
          rw [hbegin, Sniffer.free_begin]
          decide
        burst := by
          change s.host.burstBuf.bytes.length = 0
          rw [hbegin, Sniffer.begin_eq]
          rfl
        closed := fun _ => by
          change s.host.burstBuf.bytes = []
          rw [hbegin, Sniffer.begin_eq]
          rfl }
  | succ n ih =>
    obtain ⟨hall, hfilling⟩ := ih (by omega)
    obtain ⟨hall', hfilling'⟩ := hfilling.fill hn
    rw [bytesDrained_succ, allSteps_append, run_append]
    exact ⟨⟨hall, hall'⟩, hfilling'⟩

/-- A burst split at the payload cap leaves all its bits in the joiner. -/
theorem split_run :
    let s := System.begin (fun _ => 0) [] freshRing 0
    AllSteps System.step LosslessStep s (bytesDrained BURST_MAX) ∧
      let t := run System.step s (bytesDrained BURST_MAX)
      t.hostBits ++ t.heldBits ≠ t.sampled := by
  dsimp only
  have hsplit : bytesDrained BURST_MAX =
      bytesDrained (BURST_MAX - 1) ++ (byteSteps 0 ++ serviceSteps 0 1) :=
    bytesDrained_succ (BURST_MAX - 1)
  have hstaged := staged_run (fun _ => 0) [] freshRing 0 (bytesDrained BURST_MAX)
  obtain ⟨hall, hfilling⟩ := filled (BURST_MAX - 1) (by decide)
  obtain ⟨hall', hjoined, hburst, hfifo, hacc, hsampled⟩ := hfilling.split
  rw [← run_append, ← hsplit] at hjoined hburst hfifo hacc hsampled
  refine ⟨?_, fun heq => ?_⟩
  · rw [hsplit, allSteps_append]
    exact ⟨hall, hall'⟩
  · generalize run System.step (System.begin (fun _ => 0) [] freshRing 0) (bytesDrained BURST_MAX) = t
      at hstaged hjoined hburst hfifo hacc hsampled heq
    rw [System.hostBits_eq hstaged, hjoined, System.heldBits, hburst, hfifo, hacc] at heq
    rw [← heq] at hsampled
    exact absurd hsampled (by decide)

/-- Seven bits wait for more than 3 ms. The eighth comes just before `service()`
reads ACC, so that the eMCU stands in front of its store. -/
def flushBehindStore : List Event :=
  .mcu false :: List.replicate 7 (.mcu true) ++ serviceSteps 0 0 ++ .mcu true :: serviceSteps 4 0

/-- Sixteen bytes wait in the FIFO, and a seventeenth has been stored but not
counted when `service()` reads HEAD. -/
def lappedUnpublished : List Event :=
  .mcu false :: (List.range 16).flatMap (fun v => byteSteps (UInt8.ofNat v)) ++
    (toBits 8 16).map .mcu ++ .mcu false :: serviceSteps 0 16

/-- HEAD is never read more than 16 ahead, so the sniffer counts no overrun. -/
def NotLapped (s : System) : HostPc → Event → Prop
  | .idle, .enter _ => s.published ≤ s.cursor + 16
  | _, _ => True

instance (s : System) : ∀ pc e, Decidable (NotLapped s pc e)
  | .idle, .enter _ => inferInstanceAs (Decidable (_ ≤ _))
  | .idle, .mcu _ | .idle, .take _ | .idle, .finish _ | .draining .., _ => .isTrue trivial

set_option maxRecDepth 10000 in
/-- Bursts and device alone do not hold all sampled bits: not with a split burst
in the joiner, not where a partial is flushed while the eMCU does not wait, and
not where only the sniffer's own overrun count is 0. -/
theorem bursts_and_device_not_all :
    let s := System.begin (fun _ => 0) [] freshRing 0
    (AllSteps System.step LosslessStep s (bytesDrained BURST_MAX) ∧
      let t := run System.step s (bytesDrained BURST_MAX)
      t.hostBits ++ t.heldBits ≠ t.sampled) ∧
    (AllSteps System.step QuietStep s flushBehindStore ∧
      let t := run System.step s flushBehindStore
      t.joinerBits = [] ∧ t.hostBits ++ t.heldBits ≠ t.sampled) ∧
    (AllSteps System.step
        (fun s e => NotLapped s s.pc e ∧ Undisturbed s s.pc e ∧ FlushWaits s s.pc e) s
        lappedUnpublished ∧
      let t := run System.step s lappedUnpublished
      t.joinerBits = [] ∧ t.hostBits ++ t.heldBits ≠ t.sampled) := by
  have hflush := staged_run (fun _ => 0) [] freshRing 0 flushBehindStore
  have hlapped := staged_run (fun _ => 0) [] freshRing 0 lappedUnpublished
  dsimp only
  refine ⟨split_run, ⟨by decide +kernel, ?_⟩, by decide +kernel, ?_⟩
  · rw [System.hostBits_eq hflush, System.joinerBits_eq hflush]
    decide +kernel
  · rw [System.hostBits_eq hlapped, System.joinerBits_eq hlapped]
    decide +kernel

end Tapioca.ClockedSniffer

-- SUMMARY: Runtime mode switches of the dual-mode firmware: what lies between the bytes of two datapaths on USB.
import Tapioca.Sniffer.ModeCommand
import Tapioca.Sniffer.RleSniffer
import Tapioca.Usb.CdcTransmit

/-!
# Mode switches

The main loop of `main_sniffer` with both datapaths. What the active datapath
writes is left open: any calls of the stream API. `unifiedSwitchTo` stops it,
which writes nothing, sends the seam in rounds of `write` and `tick`, and starts
the other one. The loop gives up after 100000 rounds in a row without room.
-/

namespace Tapioca.DualMode

open ModeCmd RecordFramer Usb Lib.Lts

def SEAM : List UInt8 := [0xFF, 0xFD, 0xFF]

def GUARD : Nat := 100000

/-- Where the main loop stands, with the locals of `unifiedSwitchTo`. -/
inductive Pc where
  | main
  /-- At the condition of the loop. -/
  | attempt (m : CaptureMode) (off guard : Nat)
  /-- In the `tick` of a round. -/
  | ticking (m : CaptureMode) (off guard : Nat)
deriving DecidableEq

/-- What a datapath and the switch that ended it have put into the transmit
ring, and the guard with which the loop of the switch ended. -/
structure Epoch where
  data : List UInt8
  seam : List UInt8
  guard : Nat
deriving DecidableEq

structure Firmware where
  usb : UsbCdc.System
  mode : CaptureMode
  pc : Pc
  past : List Epoch
  /-- The bytes of the active datapath. -/
  data : List UInt8
  /-- The bytes of the seam that is being sent. -/
  seam : List UInt8

inductive Event where
  | transfer (t : Transfer)
  | busReset
  | suspend
  | tick (nowMs : UInt32)
  | tickRest
  /-- A call of the active datapath. -/
  | service (c : UsbCdc.Call)
  | switchTo (m : CaptureMode)
  /-- A step of the loop of `unifiedSwitchTo`. -/
  | loop (nowMs : UInt32)

namespace Firmware

/-- The bytes accepted between two states of the device. -/
def written (usb usb' : UsbCdc.System) : List UInt8 := usb'.accepted.drop usb.accepted.length

/-- What `begin()` writes straight to USB: the marker of the run-length datapath,
if it fits. -/
def beginBytes (B : RleSniffer.Build) (m : CaptureMode) (space : Nat) : List UInt8 :=
  match m with
  | .rle =>
    if RleSniffer.Sniffer.markerFits B space then 0xFF :: frameMeta (RleSniffer.marker B.fcpu)
    else []
  | .clocked => []

/-- One round up to the poll in `tick`. -/
def attempt (s : Firmware) (nowMs : UInt32) (m : CaptureMode) (off guard : Nat) : Firmware :=
  let n := (s.usb.cdc.tx.push (SEAM.drop off)).1
  let usb := s.usb.call (.write (SEAM.drop off))
  { s with
    usb := usb.step (.tick nowMs)
    pc := .ticking m (off + n) (if n = 0 then guard + 1 else 0)
    seam := s.seam ++ written s.usb usb }

/-- Behind the loop: `g_mode = m` and `begin()` of the other datapath. -/
def beginOther (B : RleSniffer.Build) (s : Firmware) (m : CaptureMode) (guard : Nat) : Firmware :=
  let usb := s.usb.call (.write (beginBytes B m s.usb.cdc.tx.free))
  { usb := usb
    mode := m
    pc := .main
    past := s.past ++ [{ data := s.data, seam := s.seam, guard := guard }]
    data := written s.usb usb
    seam := [] }

def service (s : Firmware) (c : UsbCdc.Call) : Firmware :=
  let usb := s.usb.step (.call c)
  { s with usb := usb, data := s.data ++ written s.usb usb }

/-- A step; an event that is out of turn does nothing. -/
def step (B : RleSniffer.Build) (s : Firmware) (e : Event) : Firmware :=
  match e, s.pc with
  | .transfer t, _ => { s with usb := s.usb.step (.transfer t) }
  | .busReset, _ => { s with usb := s.usb.step .busReset }
  | .suspend, _ => { s with usb := s.usb.step .suspend }
  | .tick nowMs, .main => { s with usb := s.usb.step (.tick nowMs) }
  | .tickRest, .main => { s with usb := s.usb.step .tickRest }
  | .service c, .main => s.service c
  | .switchTo m, .main =>
    if m ≠ s.mode ∧ s.usb.ticking.isNone then { s with pc := .attempt m 0 0 } else s
  | .loop nowMs, .attempt m off guard =>
    if off < SEAM.length ∧ guard < GUARD then s.attempt nowMs m off guard
    else s.beginOther B m guard
  | .loop _, .ticking m off guard =>
    { s with usb := s.usb.step .tickRest, pc := .attempt m off guard }
  | _, _ => s

/-- The main loop starts in clocked mode, whose `begin()` writes nothing. -/
def start (usb : UsbCdc.System) : Firmware where
  usb := usb
  mode := .clocked
  pc := .main
  past := []
  data := []
  seam := []

/-- The datapaths so far, the active one last. -/
def epochs (s : Firmware) : List Epoch :=
  s.past ++ [{ data := s.data, seam := s.seam, guard := 0 }]

-- ---------------------------------------------------------------------------
-- The stream
-- ---------------------------------------------------------------------------

/-- A call only adds to what was accepted. -/
theorem accepted_call (usb : UsbCdc.System) (c : UsbCdc.Call) :
    usb.accepted ++ written usb (usb.call c) = (usb.call c).accepted := by
  cases c with
  | write src => simp [written, UsbCdc.System.call]
  | txCommit n =>
    simp only [written, UsbCdc.System.call]
    split
    · split <;> simp
    · simp
  | fill i b =>
    simp only [written, UsbCdc.System.call]
    split
    · split <;> simp
    · simp
  | _ => simp [written, UsbCdc.System.call]

theorem accepted_service (usb : UsbCdc.System) (c : UsbCdc.Call) :
    usb.accepted ++ written usb (usb.step (.call c)) = (usb.step (.call c)).accepted := by
  simp only [UsbCdc.System.step]
  split
  · exact accepted_call usb c
  · simp [written]

/-- What is not a call leaves it alone. -/
theorem accepted_step (usb : UsbCdc.System) {e : UsbCdc.Event} (h : ∀ c, e ≠ .call c) :
    (usb.step e).accepted = usb.accepted := by
  cases e with
  | call c => exact absurd rfl (h c)
  | transfer t =>
    simp only [UsbCdc.System.step]
    split <;> rfl
  | busReset => rfl
  | suspend => rfl
  | tick nowMs =>
    simp only [UsbCdc.System.step]
    split <;> rfl
  | tickRest =>
    simp only [UsbCdc.System.step]
    split <;> rfl

/-- What a switch leaves behind: its seam, whole unless the loop gave up. -/
structure Ended (e : Epoch) : Prop where
  seam : e.seam <+: SEAM
  whole : e.seam = SEAM ∨ e.guard = GUARD

/-- The seam so far, by the locals of the loop. -/
def SeamAt (seam : List UInt8) : Pc → Prop
  | .main => seam = []
  | .attempt _ off guard | .ticking _ off guard =>
    seam = SEAM.take off ∧ off ≤ SEAM.length ∧ guard ≤ GUARD

structure Seamed (boot : List UInt8) (s : Firmware) : Prop where
  stream : s.usb.accepted =
    boot ++ (s.past.flatMap fun e => e.data ++ e.seam) ++ s.data ++ s.seam
  now : SeamAt s.seam s.pc
  past : ∀ e ∈ s.past, Ended e

theorem start_seamed (usb : UsbCdc.System) : Seamed usb.accepted (start usb) where
  stream := by simp [start]
  now := rfl
  past := by simp [start]

/-- A step of the device that is not a call of the firmware. -/
theorem Seamed.device {boot : List UInt8} {s : Firmware} (hs : Seamed boot s)
    {e : UsbCdc.Event} (he : ∀ c, e ≠ .call c) : Seamed boot { s with usb := s.usb.step e } where
  stream := by
    rw [accepted_step s.usb he]
    exact hs.stream
  now := hs.now
  past := hs.past

theorem Seamed.service {boot : List UInt8} {s : Firmware} (hs : Seamed boot s)
    (hmain : s.pc = .main) (c : UsbCdc.Call) : Seamed boot (s.service c) where
  stream := by
    have hseam := hs.now
    rw [hmain] at hseam
    simp only [Firmware.service]
    rw [← accepted_service, hs.stream, show s.seam = [] from hseam, List.append_nil,
      List.append_nil, List.append_assoc]
  now := hs.now
  past := hs.past

/-- A round appends what the ring takes of the rest of the seam. -/
theorem Seamed.attempt {boot : List UInt8} {s : Firmware} (hs : Seamed boot s) (nowMs : UInt32)
    {m : CaptureMode} {off guard : Nat} (hpc : s.pc = .attempt m off guard)
    (hguard : guard < GUARD) : Seamed boot (s.attempt nowMs m off guard) where
  stream := by
    simp only [Firmware.attempt]
    rw [accepted_step _ (by simp), ← accepted_call, hs.stream, List.append_assoc _ s.seam]
  now := by
    have hseam := hs.now
    rw [hpc] at hseam
    obtain ⟨hseam, hoff, -⟩ := hseam
    have hwritten : written s.usb (s.usb.call (.write (SEAM.drop off))) =
        (SEAM.drop off).take (s.usb.cdc.tx.push (SEAM.drop off)).1 := by
      simp [written, UsbCdc.System.call]
    have hn : (s.usb.cdc.tx.push (SEAM.drop off)).1 ≤ SEAM.length - off := by
      rw [← List.length_drop]
      exact min_le_right _ _
    refine ⟨?_, by omega, ?_⟩
    · simp only [Firmware.attempt]
      rw [hwritten, hseam, List.take_add]
    · split <;> omega
  past := hs.past

theorem Seamed.beginOther {B : RleSniffer.Build} {boot : List UInt8} {s : Firmware}
    (hs : Seamed boot s) {m : CaptureMode} {off guard : Nat} (hpc : s.pc = .attempt m off guard)
    (hout : ¬ (off < SEAM.length ∧ guard < GUARD)) : Seamed boot (s.beginOther B m guard) where
  stream := by
    simp only [Firmware.beginOther]
    rw [← accepted_call, hs.stream]
    simp
  now := rfl
  past := by
    have hseam := hs.now
    rw [hpc] at hseam
    obtain ⟨hseam, hoff, hguard⟩ := hseam
    intro e he
    simp only [Firmware.beginOther] at he
    rcases List.mem_append.mp he with he | he
    · exact hs.past e he
    · rw [List.mem_singleton.mp he]
      refine ⟨?_, ?_⟩
      · simp only [hseam]
        exact List.take_prefix _ _
      · by_cases hlt : off < SEAM.length
        · exact .inr (by simp only; omega)
        · refine .inl ?_
          simp only [hseam]
          exact List.take_of_length_le (by omega)

theorem Seamed.step {B : RleSniffer.Build} {boot : List UInt8} {s : Firmware}
    (hs : Seamed boot s) (e : Event) : Seamed boot (s.step B e) := by
  unfold Firmware.step
  split
  · exact hs.device (by simp)
  · exact hs.device (by simp)
  · exact hs.device (by simp)
  · exact hs.device (by simp)
  · exact hs.device (by simp)
  · next hpc => exact hs.service hpc _
  · next hpc =>
    have hseam := hs.now
    rw [hpc] at hseam
    split
    · exact ⟨hs.stream, ⟨hseam, Nat.zero_le _, Nat.zero_le _⟩, hs.past⟩
    · exact hs
  · next hpc =>
    split
    · next hin => exact hs.attempt _ hpc hin.2
    · next hout => exact hs.beginOther hpc hout
  · next hpc =>
    have hseam := hs.now
    rw [hpc] at hseam
    refine ⟨?_, hseam, hs.past⟩
    simp only []
    rw [accepted_step _ (by simp)]
    exact hs.stream
  · exact hs

theorem run_seamed (B : RleSniffer.Build) {boot : List UInt8} {s : Firmware}
    (hs : Seamed boot s) (evs : List Event) : Seamed boot (run (step B) s evs) := by
  induction evs generalizing s with
  | nil => exact hs
  | cons e evs ih => exact ih (hs.step e)

/-- Only the datapath that is not the last has a switch behind it. -/
theorem mem_past_of_epochs {s : Firmware} {a rest : List Epoch} {p : Epoch}
    (h : s.epochs = a ++ p :: rest) (hrest : rest ≠ []) : p ∈ s.past := by
  have hdrop : s.epochs.dropLast = a ++ p :: rest.dropLast := by
    rw [h, List.dropLast_append_of_ne_nil (by simp), List.dropLast_cons_of_ne_nil hrest]
  rw [epochs, List.dropLast_concat] at hdrop
  rw [hdrop]
  simp

/-- The bytes on USB are, datapath by datapath, the bytes it wrote and what was
sent of the seam of the switch behind it. Between the bytes of two datapaths
lies a whole seam, unless the loop of the switch behind the first gave up. -/
theorem switches_sealed (B : RleSniffer.Build) (usb : UsbCdc.System) (evs : List Event) :
    let s := run (step B) (start usb) evs
    s.usb.accepted = usb.accepted ++ (s.epochs.flatMap fun e => e.data ++ e.seam) ∧
      (∀ e ∈ s.epochs, e.seam <+: SEAM) ∧
      ∀ a p mid q b, s.epochs = a ++ p :: (mid ++ q :: b) →
        SEAM <:+: (p :: mid).flatMap Epoch.seam ∨ p.guard = GUARD := by
  have hs := run_seamed B (start_seamed usb) evs
  refine ⟨?_, ?_, ?_⟩
  · rw [hs.stream, epochs]
    simp
  · intro e he
    rcases List.mem_append.mp he with he | he
    · exact (hs.past e he).seam
    · rw [List.mem_singleton.mp he]
      have hseam := hs.now
      revert hseam
      generalize (run (step B) (start usb) evs).pc = pc
      intro hseam
      cases pc with
      | main => exact hseam ▸ List.nil_prefix
      | attempt m off guard => exact hseam.1 ▸ List.take_prefix _ _
      | ticking m off guard => exact hseam.1 ▸ List.take_prefix _ _
  · intro a p mid q b h
    rcases (hs.past p (mem_past_of_epochs h (by simp))).whole with hwhole | hguard
    · refine .inl ?_
      rw [List.flatMap_cons, hwhole]
      exact (List.prefix_append _ _).isInfix
    · exact .inr hguard

-- ---------------------------------------------------------------------------
-- A host that does not read
-- ---------------------------------------------------------------------------

/-- Every two datapaths that wrote next to each other have a whole seam between
their bytes. -/
def Sealed (s : Firmware) : Prop :=
  ∀ a p mid q b, s.epochs = a ++ p :: (mid ++ q :: b) → p.data ≠ [] → q.data ≠ [] →
    (∀ e ∈ mid, e.data = []) → SEAM <:+: (p :: mid).flatMap Epoch.seam

/-- The first switch, at round `g` of its loop: the transmit ring is full, a
packet waits on EP3, and the bus reports nothing. -/
structure Stuck (g : Nat) (s : Firmware) : Prop where
  pc : s.pc = .attempt .rle 0 g
  past : s.past = []
  data : s.data ≠ []
  seam : s.seam = []
  ticking : s.usb.ticking = none
  full : s.usb.cdc.tx.size = 512
  busy : s.usb.cdc.ep3Busy = true
  acked : s.usb.cdc.uep3.res = .ack
  noTransfer : s.usb.cdc.uifTransfer = none
  noReset : s.usb.cdc.uifBusRst = false
  noSuspend : s.usb.cdc.uifSuspend = false
  open2 : s.usb.cdc.ep2Nak = false

/-- `tick` on a busy device to which nothing happens. -/
theorem poll_quiet {d : UsbCdc} (ht : d.uifTransfer = none) (hr : d.uifBusRst = false)
    (hsus : d.uifSuspend = false) : d.poll = d := by
  rw [UsbCdc.poll, if_neg (by simp [ht, hr, hsus])]

theorem tickRest_quiet {d : UsbCdc} (hnak : d.ep2Nak = false) (hbusy : d.ep3Busy = true)
    (nowMs : UInt32) : d.reopenOut.coalesceTx nowMs = d := by
  have hopen : d.reopenOut = d := by rw [UsbCdc.reopenOut, if_neg (by simp [hnak])]
  rw [hopen, UsbCdc.coalesceTx, if_pos hbusy]

/-- A full ring takes nothing. -/
theorem push_full {r : Ring 512 UInt8} (h : r.size = 512) (src : List UInt8) :
    (r.push src).1 = 0 ∧ (r.push src).2.size = 512 := by
  have hzero : (r.push src).1 = 0 := by simp [Ring.push, Ring.free, h]
  refine ⟨hzero, ?_⟩
  rw [← Ring.length_contents, Ring.contents_push (by decide) (by decide), hzero, List.take_zero,
    List.append_nil, Ring.length_contents, h]

theorem Stuck.round {B : RleSniffer.Build} {g : Nat} {s : Firmware} (hs : Stuck g s)
    (hg : g < GUARD) : Stuck (g + 1) (run (step B) s [.loop 0, .loop 0]) := by
  obtain ⟨hn, hfull⟩ := push_full hs.full SEAM
  have hcall : s.usb.call (.write SEAM) =
      { s.usb with
        cdc := { s.usb.cdc with tx := (s.usb.cdc.tx.push SEAM).2 }
        region := none } := by
    simp [UsbCdc.System.call, hn]
  have hpoll : ({ s.usb.cdc with tx := (s.usb.cdc.tx.push SEAM).2 } : UsbCdc).poll =
      { s.usb.cdc with tx := (s.usb.cdc.tx.push SEAM).2 } :=
    poll_quiet hs.noTransfer hs.noReset hs.noSuspend
  have hrest : ({ s.usb.cdc with tx := (s.usb.cdc.tx.push SEAM).2 } : UsbCdc).reopenOut.coalesceTx
      0 = { s.usb.cdc with tx := (s.usb.cdc.tx.push SEAM).2 } :=
    tickRest_quiet (by exact hs.open2) (by exact hs.busy) 0
  have hin : 0 < SEAM.length ∧ g < GUARD := ⟨by decide, hg⟩
  have htried : step B s (.loop 0) =
      { s with
        usb := { s.usb with
          cdc := { s.usb.cdc with tx := (s.usb.cdc.tx.push SEAM).2 }
          ticking := some 0
          region := none }
        pc := .ticking .rle 0 (g + 1) } := by
    simp only [step, hs.pc, if_pos hin, attempt, List.drop_zero, hcall, hn, UsbCdc.System.step,
      hs.ticking, hpoll]
    simp [written]
  rw [run_cons, run_cons, run_nil, htried]
  simp only [step, UsbCdc.System.step, hrest]
  exact ⟨rfl, hs.past, hs.data, hs.seam, rfl, hfull, hs.busy, hs.acked, hs.noTransfer, hs.noReset,
    hs.noSuspend, hs.open2⟩

theorem Stuck.rounds {B : RleSniffer.Build} {s : Firmware} (hs : Stuck 0 s) {k : Nat}
    (hk : k ≤ GUARD) :
    Stuck k (run (step B) s (List.replicate k [Event.loop 0, .loop 0]).flatten) := by
  induction k with
  | zero => exact hs
  | succ k ih =>
    rw [List.replicate_succ', List.flatten_append, List.flatten_singleton, run_append]
    exact (ih (by omega)).round (by omega)

/-- Back in the main loop, with the switch behind and nothing written yet. -/
structure Resumed (e : Epoch) (s : Firmware) : Prop where
  pc : s.pc = .main
  past : s.past = [e]
  data : s.data = []
  seam : s.seam = []
  ticking : s.usb.ticking = none

/-- The loop gives up; the marker of the other datapath does not fit. -/
theorem Stuck.resumed {B : RleSniffer.Build} {s : Firmware} (hs : Stuck GUARD s) :
    Resumed ⟨s.data, [], GUARD⟩ (step B s (.loop 0)) ∧
      (step B s (.loop 0)).usb.cdc =
        { s.usb.cdc with tx := (s.usb.cdc.tx.push []).2 } := by
  have hfree : s.usb.cdc.tx.free = 0 := by rw [Ring.free, hs.full]
  have hbytes : beginBytes B .rle s.usb.cdc.tx.free = [] := by
    simp [beginBytes, hfree, RleSniffer.Sniffer.markerFits]
  have hstep : step B s (.loop 0) = s.beginOther B .rle GUARD := by
    simp only [step, hs.pc, Nat.lt_irrefl, and_false, if_false]
  rw [hstep]
  simp only [beginOther, hbytes, UsbCdc.System.call]
  refine ⟨⟨rfl, ?_, ?_, rfl, hs.ticking⟩, trivial⟩
  · simp [hs.past, hs.seam]
  · simp [written]

/-- The host reads the packet on EP3, and the next one is armed: there is room
again. -/
theorem Resumed.drained {B : RleSniffer.Build} {e : Epoch} {s : Firmware} (hs : Resumed e s)
    (hfull : s.usb.cdc.tx.size = 512) (hack : s.usb.cdc.uep3.res = .ack)
    (ht : s.usb.cdc.uifTransfer = none) :
    Resumed e (run (step B) s [.transfer (.inToken UEP3), .service .pump]) ∧
      (run (step B) s [.transfer (.inToken UEP3), .service .pump]).usb.cdc.tx.size = 448 := by
  have hadmits : s.usb.cdc.admits (.inToken UEP3) = true := by
    simp [UsbCdc.admits, ht, hack, UEP1, UEP3]
  have hreport : step B s (.transfer (.inToken UEP3)) =
      { s with usb := { s.usb with cdc := s.usb.cdc.report (.inToken UEP3) } } := by
    simp only [step, UsbCdc.System.step, if_pos hadmits]
  have hsend : (s.usb.cdc.report (.inToken UEP3)).release.Sendable false := by
    refine ⟨?_, .inl ?_⟩
    · exact fun h => absurd (hfull.symm.trans h) (by decide)
    · exact le_of_le_of_eq (by decide) hfull.symm
  have hpump : (s.usb.cdc.report (.inToken UEP3)).pump =
      { (s.usb.cdc.report (.inToken UEP3)).release.sendNext with partialPending := false } := by
    rw [UsbCdc.pump_ep3In rfl, UsbCdc.armEp3FromTx_of_sendable hsend]
    rfl
  have hsize : (s.usb.cdc.report (.inToken UEP3)).release.sendNext.tx.size = 448 := by
    rw [← Ring.length_contents, UsbCdc.sendNext_contents, List.length_drop, Ring.length_contents]
    have hheld : (s.usb.cdc.report (.inToken UEP3)).release.tx.size = 512 := hfull
    rw [hheld]
    rfl
  rw [run_cons, run_cons, run_nil, hreport]
  simp only [step, hs.pc, service, UsbCdc.System.step, hs.ticking, UsbCdc.System.call, hpump]
  exact ⟨⟨rfl, hs.past, by simp [hs.data, written], hs.seam, rfl⟩, hsize⟩

/-- The other datapath writes a byte. -/
theorem Resumed.unsealed {B : RleSniffer.Build} {e : Epoch} {s : Firmware} (hs : Resumed e s)
    (hroom : s.usb.cdc.tx.size = 448) (hdata : e.data ≠ []) (hseam : e.seam = []) :
    ¬ Sealed (step B s (.service (.write [5]))) := by
  have hn : (s.usb.cdc.tx.push [5]).1 = 1 := by simp [Ring.push, Ring.free, hroom]
  have hepochs : (step B s (.service (.write [5]))).epochs =
      [] ++ e :: ([] ++ ⟨[5], [], 0⟩ :: []) := by
    simp [step, hs.pc, service, UsbCdc.System.step, hs.ticking, UsbCdc.System.call, written, hn,
      epochs, hs.past, hs.data, hs.seam]
  intro hsealed
  have hinfix := hsealed [] e [] _ [] hepochs hdata (by simp) (by simp)
  rw [List.flatMap_singleton, hseam] at hinfix
  exact absurd (List.infix_nil.mp hinfix) (by decide)

/-- Heartbeats of the clocked datapath fill the transmit ring. -/
def heartbeats : List UInt8 :=
  0xFF :: (List.replicate 24 (frameMeta (ascii "[MODE clocked wire=2]"))).flatten

/-- A host that does not read, and then asks for the other mode. -/
def unread : List Event :=
  [.service (.write heartbeats), .tick 0, .tickRest, .service (.write (heartbeats.drop 512)),
    .switchTo .rle]

/-- A 48 MHz build without a squelch. -/
def build48 : RleSniffer.Build where
  capIdleK := 0
  diag := false
  fcpu := 48000000

theorem unread_stuck :
    Stuck 0
      (run (step build48) (start (UsbCdc.System.init (fun _ => 0) (fun _ => 0) [])) unread) := by
  constructor <;> decide +kernel

/-- The host reads again after the loop of the switch has given up: the first
byte of the other datapath follows the heartbeats. -/
theorem unread_unsealed {rounds : Nat} (hrounds : rounds = GUARD) :
    ¬ Sealed (run (step build48) (start (UsbCdc.System.init (fun _ => 0) (fun _ => 0) []))
      (unread ++ ((List.replicate rounds [Event.loop 0, .loop 0]).flatten ++
        (.loop 0 :: ([.transfer (.inToken UEP3), .service .pump] ++ [.service (.write [5])]))))) := by
  have hstuck := unread_stuck.rounds (B := build48) hrounds.le
  rw [run_append, run_append, run_cons, run_append, run_cons, run_nil]
  generalize run (step build48) _ (List.replicate rounds [Event.loop 0, .loop 0]).flatten = s
    at hstuck ⊢
  subst hrounds
  obtain ⟨hresumed, hcdc⟩ := hstuck.resumed (B := build48)
  have hfull := (push_full hstuck.full []).2
  obtain ⟨hdrained, hroom⟩ := hresumed.drained (B := build48) (by rw [hcdc]; exact hfull)
    (by rw [hcdc]; exact hstuck.acked) (by rw [hcdc]; exact hstuck.noTransfer)
  exact hdrained.unsealed (B := build48) hroom hstuck.data rfl

theorem unread_switch_unsealed :
    ¬ ∀ (B : RleSniffer.Build) (usb : UsbCdc.System) (evs : List Event),
      Sealed (run (step B) (start usb) evs) := fun h =>
  unread_unsealed rfl (h _ _ _)

end Firmware

end Tapioca.DualMode

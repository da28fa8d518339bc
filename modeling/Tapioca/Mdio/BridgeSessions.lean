-- SUMMARY: The bridge under USB sessions: lines stay within a session as long as no tick sees a session both begin and speak.
import Tapioca.Mdio.BridgeReplies
import Tapioca.Usb.CdcSystem

/-!
# Sessions of the bridge

The main loop of `main_mdio.cpp`, step by step. A `printf` of the bridge runs
the USB device until its text is written, so packets, line state changes and bus
resets are handled in the middle of a bridge tick; between two reads without a
reply nothing else runs. `ins` records what really came: the sessions as they
begin, and the bytes as they are read.
-/

namespace Tapioca

open Lib.Lts

/-! ## Sessions of the device -/

namespace UsbCdc

open Usb

/-- A request that raises DTR. -/
def raisesDtr (s : UsbCdc) (req : SetupReq) : Bool :=
  req.bRequestType &&& USB_REQ_TYP_MASK ≠ USB_REQ_TYP_STANDARD ∧
    req.bRequestType &&& USB_REQ_TYP_CLASS ≠ 0 ∧ req.bRequest = CDC_SET_LINE_CTLSTE ∧
    req.wValue &&& 0x0001 ≠ 0 ∧ ¬ s.dtr

/-- The next poll of the flags begins a session. -/
def beginsSession (s : UsbCdc) : Bool :=
  match s.uifTransfer with
  | some (.setup req) => s.raisesDtr req
  | some _ => false
  | none => s.uifBusRst

/-- The bytes that the next poll of the flags puts into the receive ring. -/
def arriving (s : UsbCdc) : List UInt8 :=
  match s.uifTransfer with
  | some (.outToken ep packet) => if ep = UEP2 then packet.take (s.rx.push packet).1 else []
  | _ => []

theorem handleSetup_rx (s : UsbCdc) (req : SetupReq) :
    (s.raisesDtr req = true ∧ (s.handleSetup req).rx = s.rx.clear ∧ (s.handleSetup req).sessionStarted = true) ∨
      (s.raisesDtr req = false ∧ (s.handleSetup req).rx = s.rx ∧
        (s.handleSetup req).sessionStarted = s.sessionStarted) := by
  have hclear : ∀ index, (s.clearHalt index).rx = s.rx ∧
      (s.clearHalt index).sessionStarted = s.sessionStarted := by
    intro index
    rw [clearHalt]
    split_ifs <;> exact ⟨rfl, rfl⟩
  have hhalt : ∀ index, (s.setHalt index).rx = s.rx ∧
      (s.setHalt index).sessionStarted = s.sessionStarted := by
    intro index
    rw [setHalt]
    split_ifs <;> exact ⟨rfl, rfl⟩
  rw [handleSetup]
  by_cases htype : req.bRequestType &&& USB_REQ_TYP_MASK = USB_REQ_TYP_STANDARD
  · rw [if_neg (not_not.mpr htype)]
    refine .inr ⟨by simp [raisesDtr, htype], ?_⟩
    split_ifs
    · exact hclear _
    · exact ⟨rfl, rfl⟩
    · exact hhalt _
    · exact ⟨rfl, rfl⟩
    · exact ⟨rfl, rfl⟩
  · rw [if_pos htype]
    by_cases hline : req.bRequestType &&& USB_REQ_TYP_CLASS ≠ 0 ∧ req.bRequest = CDC_SET_LINE_CTLSTE
    · rw [if_pos hline]
      by_cases hrise : req.wValue &&& 0x0001 ≠ 0 ∧ ¬ s.dtr
      · refine .inl ⟨by simpa [raisesDtr, htype, hline] using hrise, ?_⟩
        simp [setLineState, hrise]
      · refine .inr ⟨by simpa [raisesDtr, htype, hline] using hrise, ?_⟩
        have hstay : ¬ (decide (req.wValue &&& 0x0001 ≠ 0) = true ∧ ¬ s.dtr) := by simpa using hrise
        rw [setLineState, if_neg hstay]
        exact ⟨rfl, rfl⟩
    · rw [if_neg hline]
      exact .inr ⟨decide_eq_false fun h => hline ⟨h.2.1, h.2.2.1⟩, rfl, rfl⟩

/-- What a poll of the flags does to the receive side. -/
theorem poll_rx (s : UsbCdc) :
    (s.beginsSession = true ∧ s.poll.rx.contents = [] ∧ s.poll.sessionStarted = true) ∨
      (s.beginsSession = false ∧ s.poll.rx.contents = s.rx.contents ++ s.arriving ∧
        s.poll.sessionStarted = s.sessionStarted) := by
  cases htransfer : s.uifTransfer with
  | some t =>
    have hpoll : s.poll = { s.handleTransfer t with uifTransfer := none } := by
      rw [poll, htransfer, if_pos (.inl rfl), onIrq_some htransfer]
    rw [hpoll]
    simp only [beginsSession, arriving, htransfer]
    cases t with
    | setup req =>
      rcases s.handleSetup_rx req with ⟨hrise, hrx, hflag⟩ | ⟨hrise, hrx, hflag⟩
      · refine .inl ⟨hrise, ?_, hflag⟩
        simp [handleTransfer, hrx]
      · refine .inr ⟨hrise, ?_, hflag⟩
        simp [handleTransfer, hrx]
    | sof => exact .inr ⟨rfl, (List.append_nil _).symm, rfl⟩
    | inToken ep =>
      refine .inr ⟨rfl, ?_, ?_⟩ <;> rw [handleTransfer] <;> split_ifs <;> simp [ep3In]
    | outToken ep packet =>
      by_cases hep : ep = UEP2
      · have hout : (s.ep2Out packet).rx = (s.rx.push packet).2 ∧
            (s.ep2Out packet).sessionStarted = s.sessionStarted := by
          rw [ep2Out]
          dsimp only
          split_ifs <;> exact ⟨rfl, rfl⟩
        refine .inr ⟨rfl, ?_, ?_⟩
        · simp only [handleTransfer, if_pos hep, hout.1]
          exact s.rx.contents_push (by decide) (by decide) packet
        · simp only [handleTransfer, if_pos hep, hout.2]
      · refine .inr ⟨rfl, ?_, ?_⟩ <;> simp [handleTransfer, hep]
  | none =>
    simp only [beginsSession, arriving, htransfer, List.append_nil]
    by_cases hreset : s.uifBusRst = true
    · have hpoll : s.poll = { s.busReset with uifBusRst := false } := by
        rw [poll, if_pos (.inr (.inl hreset)), onIrq_none htransfer, if_pos hreset]
      rw [hpoll]
      exact .inl ⟨hreset, s.rx.contents_clear, rfl⟩
    · refine .inr ⟨Bool.not_eq_true _ ▸ hreset, ?_⟩
      rw [poll]
      split_ifs
      · rw [onIrq_none htransfer, if_neg hreset]
        split_ifs <;> exact ⟨rfl, rfl⟩
      · exact ⟨rfl, rfl⟩

theorem armEp3FromTx_rx (s : UsbCdc) (allowShort : Bool) :
    (s.armEp3FromTx allowShort).2.rx = s.rx ∧
      (s.armEp3FromTx allowShort).2.sessionStarted = s.sessionStarted := by
  rw [armEp3FromTx]
  dsimp only
  split_ifs <;> exact ⟨rfl, rfl⟩

/-- The rest of a tick leaves the receive side alone. -/
theorem tickRest_rx (s : UsbCdc) (nowMs : UInt32) :
    (s.reopenOut.coalesceTx nowMs).rx = s.rx ∧
      (s.reopenOut.coalesceTx nowMs).sessionStarted = s.sessionStarted := by
  have hreopen : s.reopenOut.rx = s.rx ∧ s.reopenOut.sessionStarted = s.sessionStarted := by
    rw [reopenOut]
    split_ifs <;> exact ⟨rfl, rfl⟩
  have hcoalesce : (s.reopenOut.coalesceTx nowMs).rx = s.reopenOut.rx ∧
      (s.reopenOut.coalesceTx nowMs).sessionStarted = s.reopenOut.sessionStarted := by
    rcases s.reopenOut.coalesceTx_cases nowMs with ⟨-, since, short, -, heq⟩ | ⟨-, pending, since, heq⟩
    · rw [heq]
      exact armEp3FromTx_rx _ _
    · rw [heq]
      exact ⟨rfl, rfl⟩
  exact ⟨hcoalesce.1.trans hreopen.1, hcoalesce.2.trans hreopen.2⟩

end UsbCdc

namespace Mdio

open UsbBridge

/-! ## The main loop -/

/-- Where the main loop is: outside `UsbBridge::tick`, in a `printf` of it, or in
the loop of `pollCommand`. -/
inductive MainLoop.Pc where
  | loop
  | printing
  | reading
  deriving DecidableEq, Repr

structure MainLoop where
  usb : UsbCdc.System
  bridge : UsbBridge
  pc : MainLoop.Pc
  /-- The lines given to `handleLine`. -/
  handed : List (List UInt8)
  /-- Sessions as they began, and bytes as they were read. -/
  ins : List Input
  /-- The bytes the current session has put into the receive ring. -/
  received : List UInt8

namespace MainLoop

inductive Event where
  /-- The bus, `usb.tick`, and the `usb.write` of a `printf`. -/
  | usb (e : UsbCdc.Event)
  | master (nowMs : UInt32) (r : Reading)
  /-- `UsbBridge::tick` up to its first read. -/
  | begin
  /-- A `printf` returns. -/
  | resume
  /-- `pollCommand` looks for a byte. -/
  | read

/-- The bus acts at any time, the device when its `tick` or `write` is called. -/
def allows (s : MainLoop) : UsbCdc.Event → Bool
  | .transfer _ | .busReset | .suspend => true
  | .tick _ | .tickRest => s.pc ≠ .reading
  | .call (.write _) => s.pc = .printing
  | .call _ => false

/-- A `printf` has been called. -/
def printed (before after : UsbBridge) : Pc := if after.out.length = before.out.length then .reading else .printing

/-- The device looks at its flags: with the first half of a `tick`. -/
def polls (s : MainLoop) : UsbCdc.Event → Bool
  | .tick _ => s.usb.ticking.isNone
  | .transfer _ | .busReset | .suspend | .tickRest | .call _ => false

def usbStep (s : MainLoop) (e : UsbCdc.Event) : MainLoop :=
  { s with
    usb := s.usb.step e
    ins := if s.polls e ∧ s.usb.cdc.beginsSession then s.ins ++ [.session] else s.ins
    received :=
      if s.polls e then if s.usb.cdc.beginsSession then [] else s.received ++ s.usb.cdc.arriving
      else s.received }

def beginTick (s : MainLoop) : MainLoop :=
  let bridge := if s.usb.cdc.sessionStarted then s.bridge.resetCommandLine else s.bridge
  { s with
    usb := s.usb.step (.call .sessionStarted)
    bridge := bridge.pollResponse
    pc := printed bridge bridge.pollResponse }

def readByte (s : MainLoop) : MainLoop :=
  match s.usb.cdc.rx.contents.head? with
  | none => { s with pc := .loop }
  | some b =>
    { s with
      usb := s.usb.step (.call (.read 1))
      bridge := s.bridge.pollByte b
      pc := printed s.bridge (s.bridge.pollByte b)
      handed :=
        if (s.bridge.buffer.pushCommandByte b).1 = .ready then s.handed ++ [s.bridge.buffer.line] else s.handed
      ins := s.ins ++ [.byte b] }

/-- A step; one that is out of turn does nothing. -/
def step (s : MainLoop) : Event → MainLoop
  | .usb e => if s.allows e then s.usbStep e else s
  | .master nowMs r =>
    if s.pc = .loop ∧ s.usb.ticking = none then
      { s with bridge := { s.bridge with mdio := s.bridge.mdio.tick nowMs r } }
    else s
  | .begin => if s.pc = .loop ∧ s.usb.ticking = none then s.beginTick else s
  | .resume => if s.pc = .printing ∧ s.usb.ticking = none then { s with pc := .reading } else s
  | .read => if s.pc = .reading then s.readByte else s

def init (rxBuf txBuf : Nat → UInt8) (ep3 : List UInt8) (responses : Nat → Response)
    (led : Option (List (Nat × Nat))) : MainLoop where
  usb := .init rxBuf txBuf ep3
  bridge := .start responses led
  pc := .loop
  handed := []
  ins := []
  received := []

/-! ## The bridge in the main loop -/

/-- The bridge is where a run of whole ticks leads, or in one more tick, with the
bytes read so far. -/
def Driven (start : UsbBridge) (s : MainLoop) : Prop :=
  if s.pc = .loop then ∃ evs, s.bridge = run UsbBridge.event start evs
  else ∃ evs session bytes, s.bridge = (run UsbBridge.event start evs).tick session bytes

theorem Driven.exists_run {start : UsbBridge} {s : MainLoop} (h : Driven start s) :
    ∃ evs, s.bridge = run UsbBridge.event start evs := by
  unfold Driven at h
  split at h
  · exact h
  · obtain ⟨evs, session, bytes, hbridge⟩ := h
    refine ⟨evs ++ [.bridge session bytes], ?_⟩
    rw [hbridge, run_append]
    rfl

theorem tick_concat (s : UsbBridge) (session : Bool) (bytes : List UInt8) (b : UInt8) :
    s.tick session (bytes ++ [b]) = (s.tick session bytes).pollByte b := List.foldl_append

theorem printed_ne_loop (before after : UsbBridge) : printed before after ≠ .loop := by
  unfold printed
  split <;> decide

theorem Driven.step {start : UsbBridge} {s : MainLoop} (h : Driven start s) (e : Event) :
    Driven start (s.step e) := by
  cases e with
  | usb e =>
    rw [MainLoop.step]
    split_ifs <;> exact h
  | master nowMs r =>
    rw [MainLoop.step]
    split_ifs with hturn
    · obtain ⟨evs, hbridge⟩ := h.exists_run
      unfold Driven
      rw [if_pos hturn.1]
      refine ⟨evs ++ [.master nowMs r], ?_⟩
      rw [run_append, ← hbridge]
      rfl
    · exact h
  | begin =>
    rw [MainLoop.step]
    split_ifs
    · obtain ⟨evs, hbridge⟩ := h.exists_run
      -- begin opens a tick: until its end the bridge is in the middle of one event
      have hpc : s.beginTick.pc ≠ .loop := printed_ne_loop _ _
      unfold Driven
      rw [if_neg hpc]
      refine ⟨evs, s.usb.cdc.sessionStarted, [], ?_⟩
      rw [← hbridge]
      rfl
    · exact h
  | resume =>
    rw [MainLoop.step]
    split_ifs with hturn
    · unfold Driven at h ⊢
      rw [if_neg (by rw [hturn.1]; decide)] at h
      exact h
    · exact h
  | read =>
    rw [MainLoop.step]
    split_ifs with hread
    · rw [readByte]
      cases s.usb.cdc.rx.contents.head? with
      | none => exact h.exists_run
      | some b =>
        unfold Driven at h ⊢
        rw [if_neg (by rw [hread]; decide)] at h
        rw [if_neg (printed_ne_loop _ _)]
        -- a byte read joins those of the open tick
        obtain ⟨evs, session, bytes, hbridge⟩ := h
        refine ⟨evs, session, bytes ++ [b], ?_⟩
        rw [tick_concat, ← hbridge]
    · exact h

/-- What the main loop makes of the bridge, runs of whole ticks make of it too, so
it replies once to every line it reads. -/
theorem loop_replies (rxBuf txBuf : Nat → UInt8) (ep3 : List UInt8) (responses : Nat → Response)
    (led : Option (List (Nat × Nat))) (evs : List Event) :
    ∃ evs', (run step (init rxBuf txBuf ep3 responses led) evs).bridge =
        run UsbBridge.event (.start responses led) evs' ∧
      RepliesOnce responses (linesOf (evs'.flatMap UsbBridge.Event.inputs))
        (run step (init rxBuf txBuf ep3 responses led) evs).bridge := by
  have hrun : AllSteps step (fun _ _ => True) (init rxBuf txBuf ep3 responses led) evs :=
    allSteps_of_forall (fun _ _ => trivial) _ _
  have hstart : Driven (.start responses led) (init rxBuf txBuf ep3 responses led) := ⟨[], rfl⟩
  obtain ⟨evs', hbridge⟩ :=
    (hrun.invariant (I := Driven (.start responses led)) (fun _ e hs _ => hs.step e) hstart).exists_run
  exact ⟨evs', hbridge, hbridge ▸ UsbBridge.repliesOnce_run responses led evs'⟩

/-! ## Sessions -/

/-- The bytes read, by session. -/
structure Sessions where
  past : List (List UInt8) := []
  current : List UInt8 := []
  deriving DecidableEq

def Sessions.feed (s : Sessions) : Input → Sessions
  | .session => { past := s.past ++ [s.current] }
  | .byte b => { s with current := s.current ++ [b] }

def sessionsOf (ins : List Input) : Sessions := ins.foldl Sessions.feed {}

/-- The lines of one session's bytes. -/
def linesIn (bytes : List UInt8) : Lines := (bytes.map .byte).foldl Lines.feed {}

/-- A session has begun and nothing of it has been read yet. -/
def Silent (ins : List Input) : Prop := ins.getLast? = some .session

instance Silent.decidable (ins : List Input) : Decidable (Silent ins) :=
  inferInstanceAs (Decidable (_ = _))

/-- Each session is read and handed over by itself. -/
structure Separated (s : MainLoop) : Prop where
  /-- The lines of 1 to 48 bytes of every session, once each and unchanged. -/
  handed : s.handed = ((sessionsOf s.ins).past ++ [(sessionsOf s.ins).current]).flatMap fun bytes =>
    (linesIn bytes).ended.filter (·.length ≤ 48)
  /-- The buffer is the unterminated line of the current session, or is about to
  be reset and nothing of the session has been read. -/
  buffer : Buffers s.bridge.buffer (linesIn (sessionsOf s.ins).current).rest ∨
    Silent s.ins ∧ s.usb.cdc.sessionStarted = true
  /-- What the session sent has been read, in order, or waits in the ring. -/
  received : s.received = (sessionsOf s.ins).current ++ s.usb.cdc.rx.contents

/-- The steps that keep sessions apart: the first byte of a session whose start
is still to be noted finds the buffer empty, and so does a tick that notes the
start of a session of which bytes have been read. -/
def Separate (s : MainLoop) : Event → Prop
  | .begin =>
    s.pc = .loop → s.usb.ticking = none → s.usb.cdc.sessionStarted = true → ¬ Silent s.ins →
      s.bridge.buffer = .empty
  | .read =>
    s.pc = .reading → s.usb.cdc.sessionStarted = true → Silent s.ins → s.usb.cdc.rx.contents ≠ [] →
      s.bridge.buffer = .empty
  | .usb _ | .master _ _ | .resume => True

instance Separate.decidable (s : MainLoop) : ∀ e, Decidable (s.Separate e)
  | .begin => inferInstanceAs (Decidable (_ → _ → _ → _ → _))
  | .read => inferInstanceAs (Decidable (_ → _ → _ → _ → _))
  | .usb _ | .master _ _ | .resume => .isTrue trivial

theorem linesIn_concat (bytes : List UInt8) (b : UInt8) :
    linesIn (bytes ++ [b]) = (linesIn bytes).feed (.byte b) := by
  rw [linesIn, List.map_append, List.foldl_append]
  rfl

theorem sessionsOf_concat (ins : List Input) (i : Input) :
    sessionsOf (ins ++ [i]) = (sessionsOf ins).feed i := List.foldl_append

theorem silent_concat (ins : List Input) (i : Input) : Silent (ins ++ [i]) ↔ i = .session := by
  rw [Silent, List.getLast?_concat, Option.some_inj]

/-- Nothing of a silent session has been read. -/
theorem Silent.current {ins : List Input} (h : Silent ins) : (sessionsOf ins).current = [] := by
  obtain ⟨ins, rfl⟩ := List.getLast?_eq_some_iff.mp h
  rw [sessionsOf_concat]
  rfl

/-- What is handed over when a byte of a line is read. -/
theorem handed_pollByte {l : LineBuffer} {lines : Lines} (h : Buffers l lines.rest) (b : UInt8)
    (handed : List (List UInt8)) :
    (if (l.pushCommandByte b).1 = .ready then
        handed ++ lines.ended.filter (·.length ≤ 48) ++ [l.line]
      else handed ++ lines.ended.filter (·.length ≤ 48)) =
      handed ++ (lines.feed (.byte b)).ended.filter (·.length ≤ 48) := by
  by_cases hb : isEnd b = true
  · rw [Lines.feed, if_pos hb]
    rcases h.end hb with ⟨hempty, hpush⟩ | ⟨hne, hfits, -, hline, hpush⟩ | ⟨hlong, hpush⟩
    · rw [hpush, if_pos hempty, if_neg (by simp)]
    · rw [hpush, if_neg hne, if_pos rfl, hline]
      simp [hfits]
    · have hne : lines.rest ≠ [] := List.ne_nil_of_length_pos (Nat.zero_lt_of_lt hlong)
      rw [hpush, if_neg hne, if_neg (by simp)]
      simp [hlong]
  · obtain ⟨l', hpush, -⟩ := h.push (Bool.not_eq_true _ ▸ hb)
    rw [Lines.feed, if_neg hb, hpush, if_neg (by simp)]

/-- `Separated`, and the device is not in the middle of a tick while bytes are read. -/
structure Kept (s : MainLoop) : Prop extends Separated s where
  reading : s.pc = .reading → s.usb.ticking = none

/-- A call of the device that only sends, or an event of the bus. -/
theorem step_rx (s : UsbCdc.System) (e : UsbCdc.Event)
    (he : ∀ nowMs, e = .tick nowMs → s.ticking ≠ none)
    (hcall : ∀ c, e = .call c → ∃ src, c = .write src) :
    (s.step e).cdc.rx = s.cdc.rx ∧ (s.step e).cdc.sessionStarted = s.cdc.sessionStarted := by
  cases e with
  | transfer t =>
    rw [UsbCdc.System.step]
    split_ifs <;> exact ⟨rfl, rfl⟩
  | busReset => exact ⟨rfl, rfl⟩
  | suspend => exact ⟨rfl, rfl⟩
  | tick nowMs =>
    rw [UsbCdc.System.step]
    split
    · exact absurd ‹_› (he nowMs rfl)
    · exact ⟨rfl, rfl⟩
  | tickRest =>
    rw [UsbCdc.System.step]
    split
    · exact UsbCdc.tickRest_rx _ _
    · exact ⟨rfl, rfl⟩
  | call c =>
    obtain ⟨src, rfl⟩ := hcall c rfl
    rw [UsbCdc.System.step]
    split <;> exact ⟨rfl, rfl⟩

/-- A poll of the flags begins a session, or lets bytes in. -/
theorem Kept.poll {s : MainLoop} (h : s.Kept) {nowMs : UInt32} (hturn : s.usb.ticking = none)
    (hpc : s.pc ≠ .reading) : (s.usbStep (.tick nowMs)).Kept := by
  have hstep : s.usb.step (.tick nowMs) = { s.usb with cdc := s.usb.cdc.poll, ticking := some nowMs } := by
    simp only [UsbCdc.System.step, hturn]
  have hpolls : s.polls (.tick nowMs) = true := by rw [polls, hturn]; rfl
  rw [MainLoop.usbStep, hstep]
  simp only [hpolls, true_and, if_true]
  rcases s.usb.cdc.poll_rx with ⟨hbegins, hrx, hflag⟩ | ⟨hbegins, hrx, hflag⟩
  · simp only [if_pos hbegins]
    refine ⟨⟨?_, .inr ⟨(silent_concat _ _).mpr rfl, hflag⟩, ?_⟩, fun hread => absurd hread hpc⟩
    · simp only [sessionsOf_concat, Sessions.feed, h.handed]
      simp [linesIn]
    · simp only [sessionsOf_concat, Sessions.feed, hrx]
      rfl
  · simp only [hbegins, Bool.false_eq_true, if_false]
    refine ⟨⟨h.handed, ?_, ?_⟩, fun hread => absurd hread hpc⟩
    · simp only [hflag]
      exact h.buffer
    · simp only [hrx, h.received, List.append_assoc]

theorem Kept.usbStep {s : MainLoop} (h : s.Kept) {e : UsbCdc.Event} (hallow : s.allows e = true) :
    (s.usbStep e).Kept := by
  by_cases hpoll : ∃ nowMs, e = .tick nowMs ∧ s.usb.ticking = none
  · obtain ⟨nowMs, rfl, hturn⟩ := hpoll
    exact h.poll hturn (by simpa [allows] using hallow)
  · obtain ⟨hrx, hflag⟩ := step_rx s.usb e (fun nowMs he hturn => hpoll ⟨nowMs, he, hturn⟩) fun c hc => by
      subst hc
      cases c with
      | write src => exact ⟨src, rfl⟩
      | onIrq | pump | txReserve | fill i b | txCommit n | read maxLen | sessionStarted => cases hallow
    have hquiet : s.polls e = false := by
      cases e with
      | tick nowMs =>
        rw [polls, Option.isNone_eq_false_iff, Option.isSome_iff_ne_none]
        exact fun hturn => hpoll ⟨nowMs, rfl, hturn⟩
      | transfer t | busReset | suspend | tickRest | call c => rfl
    have hticking : s.pc = .reading → (s.usb.step e).ticking = none := by
      intro hread
      have hturn := h.reading hread
      cases e with
      | tick nowMs | tickRest => simp [allows, hread] at hallow
      | call c => cases c <;> simp [allows, hread] at hallow
      | transfer t =>
        rw [UsbCdc.System.step]
        split_ifs <;> exact hturn
      | busReset | suspend => exact hturn
    rw [MainLoop.usbStep]
    simp only [hquiet, Bool.false_eq_true, false_and, if_false]
    refine ⟨⟨h.handed, ?_, ?_⟩, hticking⟩
    · simp only [hflag]
      exact h.buffer
    · simp only [hrx]
      exact h.received

theorem Kept.beginTick {s : MainLoop} (h : s.Kept) (hturn : s.usb.ticking = none)
    (hsep : s.usb.cdc.sessionStarted = true → ¬ Silent s.ins → s.bridge.buffer = .empty) :
    s.beginTick.Kept := by
  have hflag : (s.usb.step (.call .sessionStarted)).cdc.sessionStarted = false := by
    simp only [UsbCdc.System.step, hturn]
    rfl
  have hrx : (s.usb.step (.call .sessionStarted)).cdc.rx = s.usb.cdc.rx := by
    simp only [UsbCdc.System.step, hturn]
    rfl
  have hticking : (s.usb.step (.call .sessionStarted)).ticking = none := by
    simp only [UsbCdc.System.step, hturn]
    exact hturn
  refine ⟨⟨h.handed, .inl ?_, ?_⟩, fun _ => hticking⟩
  · change Buffers (UsbBridge.pollResponse _).buffer _
    rw [pollResponse_buffer]
    by_cases hstarted : s.usb.cdc.sessionStarted = true
    · rw [if_pos hstarted]
      by_cases hsilent : Silent s.ins
      · change Buffers .empty (linesIn (sessionsOf s.ins).current).rest
        rw [hsilent.current]
        exact buffers_empty
      · have hbuffer := h.buffer.resolve_right fun hs => hsilent hs.1
        rw [hsep hstarted hsilent] at hbuffer
        exact hbuffer
    · rw [if_neg hstarted]
      exact h.buffer.resolve_right fun hs => hstarted hs.2
  · change s.received = _ ++ (s.usb.step (.call .sessionStarted)).cdc.rx.contents
    rw [hrx]
    exact h.received

theorem Kept.readByte {s : MainLoop} (h : s.Kept) (hturn : s.usb.ticking = none)
    (hsep : s.usb.cdc.sessionStarted = true → Silent s.ins → s.usb.cdc.rx.contents ≠ [] →
      s.bridge.buffer = .empty) :
    s.readByte.Kept := by
  rw [MainLoop.readByte]
  cases hhead : s.usb.cdc.rx.contents.head? with
  | none => exact ⟨⟨h.handed, h.buffer, h.received⟩, nofun⟩
  | some b =>
    obtain ⟨rest, hcontents⟩ := List.head?_eq_some_iff.mp hhead
    have hbuffer : Buffers s.bridge.buffer (linesIn (sessionsOf s.ins).current).rest := by
      rcases h.buffer with hb | ⟨hsilent, hstarted⟩
      · exact hb
      · rw [hsep hstarted hsilent (by rw [hcontents]; simp), hsilent.current]
        exact buffers_empty
    have hrx : (s.usb.step (.call (.read 1))).cdc.rx.contents = rest := by
      simp only [UsbCdc.System.step, hturn, UsbCdc.System.call]
      rw [s.usb.cdc.rx.contents_pop (by decide), hcontents]
      rfl
    have hticking : (s.usb.step (.call (.read 1))).ticking = none := by
      simp only [UsbCdc.System.step, hturn]
      exact hturn
    have hsessions : sessionsOf (s.ins ++ [.byte b]) =
        ⟨(sessionsOf s.ins).past, (sessionsOf s.ins).current ++ [b]⟩ := sessionsOf_concat _ _
    refine ⟨⟨?_, .inl ?_, ?_⟩, fun _ => hticking⟩
    · have hhanded := h.handed
      simp only [hsessions, List.flatMap_append, List.flatMap_singleton, linesIn_concat] at hhanded ⊢
      rw [hhanded]
      exact handed_pollByte hbuffer b _
    · simp only [hsessions, linesIn_concat]
      exact hbuffer.pollByte b
    · simp only [hsessions, hrx, h.received, hcontents]
      simp

theorem Kept.step {s : MainLoop} (h : s.Kept) {e : Event} (hsep : s.Separate e) : (s.step e).Kept := by
  cases e with
  | usb e =>
    rw [MainLoop.step]
    split_ifs with hallow
    · exact h.usbStep hallow
    · exact h
  | master nowMs r =>
    rw [MainLoop.step]
    split_ifs
    · exact ⟨⟨h.handed, h.buffer, h.received⟩, h.reading⟩
    · exact h
  | begin =>
    rw [MainLoop.step]
    split_ifs with hturn
    · exact h.beginTick hturn.2 (hsep hturn.1 hturn.2)
    · exact h
  | resume =>
    rw [MainLoop.step]
    split_ifs with hturn
    · exact ⟨⟨h.handed, h.buffer, h.received⟩, fun _ => hturn.2⟩
    · exact h
  | read =>
    rw [MainLoop.step]
    split_ifs with hread
    · exact h.readByte (h.reading hread) (hsep hread)
    · exact h

/-- In a run whose sessions do not begin and speak within one bridge tick, unless
on an empty buffer, every session is read and handed over by itself. -/
theorem sessions_separated (rxBuf txBuf : Nat → UInt8) (ep3 : List UInt8) (responses : Nat → Response)
    (led : Option (List (Nat × Nat))) (evs : List Event)
    (h : AllSteps step Separate (init rxBuf txBuf ep3 responses led) evs) :
    (run step (init rxBuf txBuf ep3 responses led) evs).Separated := by
  have hstart : (init rxBuf txBuf ep3 responses led).Kept :=
    ⟨⟨rfl, .inl buffers_empty, (UsbCdc.init rxBuf txBuf ep3).rx.contents_clear.symm⟩, nofun⟩
  exact (h.invariant (I := Kept) (fun _ _ hs he => hs.step he) hstart).toSeparated

/-- The host sets the control line state, and the device handles it. -/
def lineState (value : UInt16) : List Event :=
  [.usb (.transfer (.setup ⟨0x21, Usb.CDC_SET_LINE_CTLSTE, value, 0, 0⟩)), .usb (.tick 0), .usb .tickRest]

/-- The host sends a packet, and the device handles it. -/
def packet (bytes : List UInt8) : List Event :=
  [.usb (.transfer (.outToken Usb.UEP2 bytes)), .usb (.tick 0), .usb .tickRest]

/-- A session with a command, and after it, outside a tick, another. -/
theorem sessions_separated_twice :
    let first := RecordFramer.ascii "!read 1/4\r!re"
    let second := RecordFramer.ascii "!print 3\r"
    let evs := lineState 1 ++ packet first ++ .begin :: List.replicate 14 .read ++
      lineState 0 ++ lineState 1 ++ packet second ++ .begin :: List.replicate 10 .read
    let start := init (fun _ => 0) (fun _ => 0) [] (fun _ => {}) none
    (run step start evs).Separated ∧
      (run step start evs).handed = [RecordFramer.ascii "!read 1/4", RecordFramer.ascii "!print 3"] := by
  intro first second evs start
  exact ⟨sessions_separated _ _ _ _ _ _ (by decide +kernel), by decide +kernel⟩

/-- While a refused print is answered, a new session begins and sends half a
command. The bridge reads it in the same tick, and the next tick drops it. -/
theorem half_line_dropped :
    let first := RecordFramer.ascii "!read 1/4\r!print 1\r"
    let half := RecordFramer.ascii "!read 2"
    let rest := RecordFramer.ascii "/4\r"
    let evs := lineState 1 ++ packet first ++ .begin :: List.replicate 19 .read ++
      lineState 0 ++ lineState 1 ++ packet half ++ .resume :: List.replicate 8 .read ++
      packet rest ++ .begin :: List.replicate 3 .read
    let start := init (fun _ => 0) (fun _ => 0) [] (fun _ => {}) none
    ¬ (run step start evs).Separated := by
  intro first half rest evs start h
  have hhanded : (run step start evs).handed =
      [RecordFramer.ascii "!read 1/4", RecordFramer.ascii "!print 1", rest.take 2] := by decide +kernel
  have hsessions : (sessionsOf (run step start evs).ins) = ⟨[[], first], half ++ rest⟩ := by decide +kernel
  have hlines := h.handed
  rw [hhanded, hsessions] at hlines
  exact absurd hlines (by decide +kernel)

end MainLoop

end Mdio

end Tapioca

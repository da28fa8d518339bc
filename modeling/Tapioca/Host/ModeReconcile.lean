-- SUMMARY: The browser's protocol selector and the device mode behind it: optimistic flips, confirmations and timeouts.
import Tapioca.Lib.Lts

/-!
# Mode reconciliation

The dashboard of `app/web-sniffer/index.html` selects a protocol; the device
knows modes only. A selection across modes flips the view at once, locks it and
waits for a `[MODE]` marker; without one in time it goes back to the mode the
device last reported. `performance.now()` is a reading of each handler.
-/

namespace Tapioca.WebSniffer

open Lib.Lts

inductive Proto where
  | can
  | dmx
  | mdio
  deriving DecidableEq, Repr

inductive Mode where
  | rle
  | clocked
  deriving DecidableEq, Repr

/-- What `onModeMarker` lets through. -/
def Mode.ofText (m : String) : Option Mode :=
  if m = "rle" then some .rle else if m = "clocked" then some .clocked else none

def MODE_TIMEOUT_MS : ℚ := 2200

/-- `modeS`, with `state.protocol` and the modes handed to `sendModeCommand`. -/
structure Dashboard where
  protocol : Proto
  ui : Mode
  device : Mode
  pending : Bool
  target : Option Mode
  timeoutAt : ℚ
  lastHb : ℚ
  commands : List Mode
  deriving DecidableEq

def modeForProto : Proto → Mode
  | .mdio => .clocked
  | .can | .dmx => .rle

def protoDefaultForMode : Mode → Proto
  | .clocked => .mdio
  | .rle => .can

namespace Dashboard

/-- The page as it loads. -/
def load : Dashboard where
  protocol := .can
  ui := .rle
  device := .rle
  pending := false
  target := none
  timeoutAt := 0
  lastHb := 0
  commands := []

/-- Optimistic view, lock and command. -/
def modeFlip (d : Dashboard) (target : Mode) (now : ℚ) : Dashboard :=
  if d.pending ∨ target = d.ui then d
  else
    { d with
      target := some target, ui := target, pending := true, timeoutAt := now + MODE_TIMEOUT_MS
      commands := d.commands ++ [target] }

/-- `noCmd`: a resync that the device asked for. -/
def setProtocol (d : Dashboard) (p : Proto) (noCmd : Bool) (now : ℚ) : Dashboard :=
  if d.protocol = p then d
  else
    let d := { d with protocol := p }
    let target := modeForProto p
    if ¬ noCmd ∧ target ≠ d.ui ∧ ¬ d.pending then d.modeFlip target now
    else if ¬ d.pending then { d with ui := target }
    else d

def syncProtocolToMode (d : Dashboard) (m : Mode) (now : ℚ) : Dashboard :=
  if modeForProto d.protocol ≠ m then d.setProtocol (protoDefaultForMode m) true now else d

/-- Every `[MODE m]`, a confirmation or a heartbeat. -/
def onModeMarker (d : Dashboard) (m : String) (now : ℚ) : Dashboard :=
  match Mode.ofText m with
  | none => d
  | some m =>
    let d := { d with device := m, lastHb := now }
    if d.pending then if some m = d.target then { d with pending := false, timeoutAt := 0 } else d
    else if m ≠ d.ui then { d with ui := m }.syncProtocolToMode m now
    else d

def checkModeTimeout (d : Dashboard) (now : ℚ) : Dashboard :=
  if d.pending ∧ now ≥ d.timeoutAt then
    { d with pending := false, ui := d.device }.syncProtocolToMode d.device now
  else d

end Dashboard

/-- What the page reacts to: a click on a protocol, a marker, the timer. -/
inductive PageEvent where
  | select (p : Proto) (now : ℚ)
  | marker (m : String) (now : ℚ)
  | timer (now : ℚ)

namespace Dashboard

def step (d : Dashboard) : PageEvent → Dashboard
  | .select p now => d.setProtocol p false now
  | .marker m now => d.onModeMarker m now
  | .timer now => d.checkModeTimeout now

/-! ## View and mode -/

/-- With no mode change pending the view is of the selected protocol's mode. -/
def Consistent (d : Dashboard) : Prop := d.pending = false → modeForProto d.protocol = d.ui

instance Consistent.decidable (d : Dashboard) : Decidable d.Consistent :=
  inferInstanceAs (Decidable (_ → _))

/-- A marker that confirms the pending flip finds a protocol of that mode
selected. -/
def Confirmable (d : Dashboard) : PageEvent → Prop
  | .marker m _ =>
    d.pending = true → Mode.ofText m ≠ none → Mode.ofText m = d.target →
      modeForProto d.protocol = d.ui
  | .select _ _ | .timer _ => True

/-- What a pending flip has shown already. -/
structure Reconciling (d : Dashboard) : Prop where
  consistent : d.Consistent
  optimistic : d.pending = true → d.target = some d.ui

theorem modeForProto_default (m : Mode) : modeForProto (protoDefaultForMode m) = m := by
  cases m <;> rfl

theorem modeFlip_reconciling {d : Dashboard} {target : Mode} (hidle : d.pending = false)
    (hne : target ≠ d.ui) (now : ℚ) : (d.modeFlip target now).Reconciling := by
  have hfree : ¬ (d.pending = true ∨ target = d.ui) := by
    rintro (hp | hui)
    · exact absurd (hidle.symm.trans hp) (by decide)
    · exact hne hui
  rw [modeFlip, if_neg hfree]
  exact ⟨fun hp => (by cases hp), fun _ => rfl⟩

/-- A selection starts a flip, or the view follows at once; while a change is
pending only the selection moves. -/
theorem setProtocol_reconciling {d : Dashboard} (h : d.Reconciling) (p : Proto) (noCmd : Bool)
    (now : ℚ) : (d.setProtocol p noCmd now).Reconciling := by
  by_cases hsame : d.protocol = p
  · rwa [setProtocol, if_pos hsame]
  rw [setProtocol, if_neg hsame]
  by_cases hpending : d.pending = true
  · rw [if_neg fun hc => hc.2.2 hpending, if_neg (not_not.mpr hpending)]
    exact ⟨fun hp => absurd (hpending.symm.trans hp) (by decide), h.optimistic⟩
  · have hidle : d.pending = false := Bool.not_eq_true _ ▸ hpending
    by_cases hflip : ¬ noCmd ∧ modeForProto p ≠ d.ui ∧ ¬ d.pending
    · rw [if_pos hflip]
      exact modeFlip_reconciling (d := { d with protocol := p }) hidle hflip.2.1 now
    · rw [if_neg hflip, if_pos hpending]
      exact ⟨fun _ => rfl, fun hp => absurd hp hpending⟩

/-- A resync to the mode shown leaves view and mode in agreement. -/
theorem syncProtocolToMode_reconciling {d : Dashboard} (hidle : d.pending = false) (now : ℚ) :
    (d.syncProtocolToMode d.ui now).Reconciling := by
  have hfree : ¬ d.pending = true := by simp [hidle]
  by_cases hview : modeForProto d.protocol = d.ui
  · rw [syncProtocolToMode, if_neg (not_not.mpr hview)]
    exact ⟨fun _ => hview, fun hp => absurd hp hfree⟩
  · have hother : ¬ d.protocol = protoDefaultForMode d.ui := by
      intro heq
      exact hview (heq ▸ modeForProto_default d.ui)
    rw [syncProtocolToMode, if_pos hview, setProtocol, if_neg hother, if_neg (by simp), if_pos hfree]
    exact ⟨fun _ => rfl, fun hp => absurd hp hfree⟩

/-- A step keeps view and mode in agreement if and only if it does not confirm a
flip behind the back of the selection. -/
theorem step_consistent_iff {d : Dashboard} (h : d.Reconciling) (e : PageEvent) :
    (d.step e).Consistent ↔ d.Confirmable e := by
  cases e with
  | select p now => exact iff_of_true (setProtocol_reconciling h p false now).consistent trivial
  | timer now =>
    refine iff_of_true ?_ trivial
    rw [step, checkModeTimeout]
    split
    · exact (syncProtocolToMode_reconciling (d := { d with pending := false, ui := d.device }) rfl
        now).consistent
    · exact h.consistent
  | marker m now =>
    rw [step, onModeMarker, Confirmable]
    cases hm : Mode.ofText m with
    | none => exact iff_of_true h.consistent fun _ hne => absurd rfl hne
    | some m =>
      by_cases hpending : d.pending = true
      · by_cases htarget : some m = d.target
        · simp only [if_pos hpending, if_pos htarget]
          exact ⟨fun hc _ _ _ => hc rfl, fun hc _ => hc hpending (fun hnone => by cases hnone) htarget⟩
        · simp only [if_pos hpending, if_neg htarget]
          exact iff_of_true (fun hp => absurd (hpending.symm.trans hp) (by decide))
            fun _ _ heq => absurd heq htarget
      · simp only [if_neg hpending]
        refine iff_of_true ?_ fun hp => absurd hp hpending
        split
        · have hidle : d.pending = false := Bool.not_eq_true _ ▸ hpending
          exact (syncProtocolToMode_reconciling
            (d := { d with device := m, lastHb := now, ui := m }) hidle now).consistent
        · exact h.consistent

theorem step_reconciling {d : Dashboard} (h : d.Reconciling) {e : PageEvent}
    (he : d.Confirmable e) : (d.step e).Reconciling := by
  refine ⟨(step_consistent_iff h e).mpr he, ?_⟩
  cases e with
  | select p now => exact (setProtocol_reconciling h p false now).optimistic
  | timer now =>
    rw [step, checkModeTimeout]
    split
    · exact (syncProtocolToMode_reconciling (d := { d with pending := false, ui := d.device }) rfl
        now).optimistic
    · exact h.optimistic
  | marker m now =>
    rw [step, onModeMarker]
    cases Mode.ofText m with
    | none => exact h.optimistic
    | some m =>
      by_cases hpending : d.pending = true
      · simp only [if_pos hpending]
        split
        · exact fun hp => by cases hp
        · exact h.optimistic
      · simp only [if_neg hpending]
        split
        · have hidle : d.pending = false := Bool.not_eq_true _ ▸ hpending
          exact (syncProtocolToMode_reconciling
            (d := { d with device := m, lastHb := now, ui := m }) hidle now).optimistic
        · exact h.optimistic

/-- In a run from the loaded page the view is of the shown mode in every state
without a pending change if and only if no marker confirms a flip to a mode whose
protocols are no longer selected. -/
theorem consistent_iff (evs : List PageEvent) :
    (∀ pre, pre <+: evs → (run step load pre).Consistent) ↔ AllSteps step Confirmable load evs := by
  have hload : load.Reconciling := ⟨fun _ => rfl, fun hp => by cases hp⟩
  rw [forall_prefix_iff, and_iff_right hload.consistent]
  exact allSteps_iff_of_invariant (I := Reconciling) (fun _ e h => step_consistent_iff h e)
    (fun _ _ h he => step_reconciling h he) hload evs

/-- MDIO is clicked, CAN is clicked while the flip to clocked is pending, and the
device confirms it. -/
theorem confirmed_behind_selection :
    ¬ (run step load [.select .mdio 0, .select .can 1, .marker "clocked" 2]).Consistent := by
  decide

end Dashboard

end Tapioca.WebSniffer

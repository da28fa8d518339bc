-- SUMMARY: The CAN page of the browser: its table, trace and counters are those of the frames it has been called with.
import Mathlib.Tactic
import Mathlib.Data.List.DropRight
import Tapioca.Lib.Window
import Tapioca.Host.WebCan

/-!
# The CAN page

The stream processor calls the page for every frame, metadata block and loss. The page keeps
an entry an identifier, a trace of the last frames and the frames of the last second; only
frames with a good checksum get that far. What the page leaves to the drawing is left out.
-/

namespace Tapioca.WebSniffer

open Host.CanRle
open Lib.Lts (run)
open Lib.Window (pairs recent)

def TRACE_MAX : Nat := 600

/-- An entry of `state.ids`. -/
structure IdEntry where
  id : Nat
  count : Nat
  firstT : ℚ
  lastT : ℚ
  dt : List ℚ
  dlc : Nat
  data : List Nat
  changed : Nat → ℚ

/-- An entry of `state.trace`. -/
structure TraceLine where
  t : ℚ
  id : Nat
  dlc : Nat
  data : List Nat

structure View where
  frames : Nat := 0
  ok : Nat := 0
  bad : Nat := 0
  loss : Nat := 0
  ids : Nat → Option IdEntry := fun _ => none
  win : List ℚ := []
  trace : List TraceLine := []
  synced : Bool := false

/-- The byte differs between two payloads; one that the old payload does not have differs from any. -/
def differs (i : Nat) (old new : List Nat) : Bool := i < new.length && new[i]? ≠ old[i]?

def IdEntry.new (now : ℚ) (f : Frame) : IdEntry :=
  { id := f.id, count := 0, firstT := now, lastT := now, dt := [], dlc := f.dlc, data := f.data, changed := fun _ => 0 }

def IdEntry.again (e : IdEntry) (now : ℚ) (f : Frame) : IdEntry :=
  let dt := e.dt ++ [now - e.lastT]
  { e with
    dt := if dt.length > 64 then dt.drop 1 else dt
    changed := fun i => if differs i e.data f.data then now else e.changed i
    data := f.data
    dlc := f.dlc }

namespace View

/-- The part of `onFrame` that only a good frame reaches. -/
def goodFrame (v : View) (now : ℚ) (f : Frame) : View :=
  let e := match v.ids f.id with
    | none => IdEntry.new now f
    | some e => e.again now f
  let trace := v.trace ++ [⟨now, f.id, f.dlc, f.data⟩]
  { v with
    ok := v.ok + 1
    win := (v.win ++ [now]).dropWhile fun t => now - t > 1000
    ids := Function.update v.ids f.id (some { e with lastT := now, count := e.count + 1 })
    trace := if trace.length > TRACE_MAX then trace.drop 1 else trace }

def onFrame (v : View) (now : ℚ) (frame : Parsed) : View :=
  let v := { v with frames := v.frames + 1 }
  match frame with
  | .extended _ => { v with bad := v.bad + 1 }
  | .standard f =>
    if f.crcOk then { v with synced := true }.goodFrame now f
    else if v.synced then { v with bad := v.bad + 1 }
    else v

end View

/-! ## What the calls say -/

/-- The history of the page: the calls with the time each is made at. -/
abbrev History : Type := List (ℚ × Call)

def Call.good? : Call → Option Frame
  | .frame (.standard f) => if f.crcOk then some f else none
  | _ => none

/-- The good frames, with their times. -/
def good (h : History) : List (ℚ × Frame) := h.filterMap fun ev => ev.2.good?.map (ev.1, ·)

/-- The gate is open: a frame has been good and nothing lost since. -/
def gate (h : History) : Bool :=
  ((h.map Prod.snd).filter fun c => c = .loss ∨ c.good?.isSome).getLast?.any fun c => c.good?.isSome

/-- A frame that counts as bad behind what has been called before. -/
def countsBad (past : History) : Call → Bool
  | .frame (.extended _) => true
  | .frame (.standard f) => !f.crcOk && gate past
  | _ => false

def badCalls (h : History) : Nat := (List.range h.length).countP fun i => h[i]?.any fun ev => countsBad (h.take i) ev.2

/-- When a byte of the payload last changed. -/
def lastChange (i : Nat) (fs : List (ℚ × Frame)) : ℚ :=
  (((pairs fs).filter fun p => differs i p.1.2.data p.2.2.data).getLast?.map fun p => p.2.1).getD 0

/-- An entry shows the good frames of an identifier. -/
structure IdEntry.Shows (e : IdEntry) (fs : List (ℚ × Frame)) : Prop where
  count : e.count = fs.length
  first : fs.head?.map Prod.fst = some e.firstT
  last : fs.getLast?.map (fun f => (f.1, f.2.id, f.2.dlc, f.2.data)) = some (e.lastT, e.id, e.dlc, e.data)
  dt : e.dt = ((pairs (fs.map Prod.fst)).map fun p => p.2 - p.1).rtake 64
  changed : ∀ i, e.changed i = lastChange i fs

/-- The page shows its history. -/
structure View.Shows (v : View) (h : History) : Prop where
  frames : v.frames = (h.filterMap (Call.frame? ·.2)).length
  ok : v.ok = (good h).length
  bad : v.bad = badCalls h
  synced : v.synced = gate h
  loss : h.countP (·.2 = .loss) ≤ v.loss
  ids : ∀ id, match v.ids id with
    | some e => e.Shows ((good h).filter (·.2.id = id))
    | none => (good h).filter (·.2.id = id) = []
  win : v.win = recent 1000 ((good h).map Prod.fst)
  trace : v.trace = ((good h).map fun f => ⟨f.1, f.2.id, f.2.dlc, f.2.data⟩ : List TraceLine).rtake TRACE_MAX

/-! ## A call more -/

theorem good_push (h : History) (ev : ℚ × Call) : good (h ++ [ev]) = good h ++ (ev.2.good?.map (ev.1, ·)).toList := by
  rw [good, List.filterMap_append]
  cases hev : ev.2.good? <;> simp [good, hev]

theorem times_good (h : History) : ((good h).map Prod.fst).Sublist (h.map Prod.fst) := by
  induction h with
  | nil => exact List.Sublist.refl _
  | cons ev h ih =>
    rw [good, List.filterMap_cons]
    cases ev.2.good? with
    | none => exact ih.cons _
    | some f => exact ih.cons_cons _

theorem gate_push (h : History) (ev : ℚ × Call) :
    gate (h ++ [ev]) = if ev.2 = .loss ∨ ev.2.good?.isSome then ev.2.good?.isSome else gate h := by
  rw [gate, List.map_append, List.filter_append]
  by_cases hmark : ev.2 = .loss ∨ ev.2.good?.isSome
  · simp [hmark]
  · simp [hmark, gate]

theorem badCalls_push (h : History) (ev : ℚ × Call) :
    badCalls (h ++ [ev]) = badCalls h + if countsBad h ev.2 then 1 else 0 := by
  have hold : (List.range h.length).countP (fun i => (h ++ [ev])[i]?.any fun e => countsBad ((h ++ [ev]).take i) e.2) =
      badCalls h := by
    apply List.countP_congr
    intro i hi
    have hlt : i < h.length := List.mem_range.mp hi
    rw [List.getElem?_append_left hlt, List.take_append_of_le_length hlt.le]
  rw [badCalls, List.length_append, List.length_singleton, List.range_succ, List.countP_append, hold,
    List.countP_singleton, List.getElem?_concat_length, List.take_left]
  rfl

theorem lastChange_push {fs : List (ℚ × Frame)} {l : ℚ × Frame} (hl : fs.getLast? = some l) (i : Nat) (f : ℚ × Frame) :
    lastChange i (fs ++ [f]) = if differs i l.2.data f.2.data then f.1 else lastChange i fs := by
  rw [lastChange, Lib.Window.pairs_push hl, List.filter_append]
  by_cases hdiff : differs i l.2.data f.2.data
  · simp [hdiff]
  · simp [hdiff, lastChange]

theorem shows_new (now : ℚ) (f : Frame) : ({ IdEntry.new now f with lastT := now, count := 0 + 1 } : IdEntry).Shows [(now, f)] :=
  ⟨rfl, rfl, rfl, rfl, fun _ => rfl⟩

theorem IdEntry.Shows.again {e : IdEntry} {fs : List (ℚ × Frame)} (h : e.Shows fs) (now : ℚ) {f : Frame} (hid : f.id = e.id) :
    ({ e.again now f with lastT := now, count := e.count + 1 } : IdEntry).Shows (fs ++ [(now, f)]) := by
  obtain ⟨hcount, hfirst, hlast, hdt, hchanged⟩ := h
  obtain ⟨l, hl, hfields⟩ := Option.map_eq_some_iff.mp hlast
  obtain ⟨hlt, hlid, hldlc, hldata⟩ : l.1 = e.lastT ∧ l.2.id = e.id ∧ l.2.dlc = e.dlc ∧ l.2.data = e.data := by
    simpa using hfields
  have hne : fs ≠ [] := by
    rintro rfl
    simp at hl
  refine ⟨?_, ?_, ?_, ?_, ?_⟩
  · rw [hcount, List.length_append]
    rfl
  · rw [List.head?_append_of_ne_nil _ hne, hfirst]
    rfl
  · rw [List.getLast?_concat, Option.map_some, hid]
    rfl
  · have hlast' : (fs.map Prod.fst).getLast? = some e.lastT := by rw [List.getLast?_map, hl, ← hlt]; rfl
    rw [List.map_append, List.map_singleton, Lib.Window.pairs_push hlast', List.map_append, List.map_singleton,
      ← Lib.Window.rtake_push, ← hdt]
    rfl
  · intro i
    rw [lastChange_push hl, hldata, ← hchanged]
    rfl

namespace View.Shows

variable {v : View} {h : History} {ev : ℚ × Call}

/-- A call that shows no frame. -/
theorem quiet (hv : v.Shows h) (hev : ev.2.good? = none) {v' : View} (hframes : v'.frames = v.frames + ev.2.frame?.toList.length)
    (hok : v'.ok = v.ok) (hbad : v'.bad = v.bad + if countsBad h ev.2 then 1 else 0)
    (hsynced : v'.synced = if ev.2 = .loss then false else v.synced)
    (hloss : v.loss + (if ev.2 = .loss then 1 else 0) ≤ v'.loss) (hids : v'.ids = v.ids) (hwin : v'.win = v.win)
    (htrace : v'.trace = v.trace) : v'.Shows (h ++ [ev]) := by
  have hgood : good (h ++ [ev]) = good h := by
    rw [good_push, hev]
    exact List.append_nil _
  refine ⟨?_, ?_, ?_, ?_, ?_, ?_, ?_, ?_⟩
  · rw [hframes, hv.frames, List.filterMap_append, List.length_append]
    cases hf : ev.2.frame? <;> simp [hf]
  · rw [hok, hv.ok, hgood]
  · rw [hbad, hv.bad, badCalls_push]
  · rw [hsynced, hv.synced, gate_push, hev]
    simp
  · rw [List.countP_append, List.countP_singleton]
    have hbefore := hv.loss
    simp only [decide_eq_true_eq] at hbefore ⊢
    omega
  · rw [hids, hgood]
    exact hv.ids
  · rw [hwin, hgood, hv.win]
  · rw [htrace, hgood, hv.trace]

/-- A good frame. -/
theorem goodFrame (hv : v.Shows h) {f : Frame} (hev : ev.2 = .frame (.standard f)) (hcrc : f.crcOk = true)
    (hmono : ((h ++ [ev]).map Prod.fst).Pairwise (· ≤ ·)) :
    (({ v with frames := v.frames + 1, synced := true } : View).goodFrame ev.1 f).Shows (h ++ [ev]) := by
  have hsome : ev.2.good? = some f := by rw [hev, Call.good?, if_pos hcrc]
  have hgood : good (h ++ [ev]) = good h ++ [(ev.1, f)] := by
    rw [good_push, hsome]
    rfl
  have hquiet : countsBad h ev.2 = false := by rw [hev, countsBad, hcrc]; rfl
  have hnoloss : ev.2 ≠ .loss := by rw [hev]; exact Call.noConfusion
  refine ⟨?_, ?_, ?_, ?_, ?_, ?_, ?_, ?_⟩
  · rw [List.filterMap_append, List.length_append, ← hv.frames]
    simp [View.goodFrame, hev, Call.frame?]
  · rw [hgood, List.length_append, ← hv.ok]
    rfl
  · rw [badCalls_push, hquiet, ← hv.bad]
    rfl
  · rw [gate_push, hsome]
    simp [View.goodFrame]
  · rw [List.countP_append, List.countP_singleton]
    have hbefore := hv.loss
    simp only [hnoloss, decide_false, Bool.false_eq_true, if_false, Nat.add_zero]
    exact hbefore
  · intro id
    rw [hgood, List.filter_append, View.goodFrame]
    dsimp only
    by_cases hid : f.id = id
    · have hone : [(ev.1, f)].filter (fun x => decide (x.2.id = f.id)) = [(ev.1, f)] := by simp
      rw [← hid, Function.update_self, hone]
      have hold := hv.ids f.id
      cases he : v.ids f.id with
      | none =>
        rw [he] at hold
        dsimp only at hold ⊢
        rw [hold]
        exact shows_new ev.1 f
      | some e =>
        rw [he] at hold
        dsimp only at hold ⊢
        have hid' : f.id = e.id := by
          obtain ⟨l, hl, hfields⟩ := Option.map_eq_some_iff.mp hold.last
          have hmem := List.mem_filter.mp (List.mem_of_getLast? hl)
          have hlid : l.2.id = e.id := congrArg (·.2.1) hfields
          rw [← hlid]
          exact (of_decide_eq_true hmem.2).symm
        exact hold.again ev.1 hid'
    · have hnone : [(ev.1, f)].filter (fun x => decide (x.2.id = id)) = [] := by simp [hid]
      rw [Function.update_of_ne (Ne.symm hid), hnone, List.append_nil]
      exact hv.ids id
  · have htimes : (good h).map Prod.fst ++ [ev.1] = (good (h ++ [ev])).map Prod.fst := by
      rw [hgood, List.map_append]
      rfl
    rw [View.goodFrame, ← htimes]
    dsimp only
    rw [hv.win]
    exact Lib.Window.recent_push (htimes ▸ hmono.sublist (times_good _))
  · rw [hgood, List.map_append, List.map_singleton, ← Lib.Window.rtake_push, ← hv.trace]
    rfl

end View.Shows

end Tapioca.WebSniffer

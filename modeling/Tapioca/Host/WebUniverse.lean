-- SUMMARY: The universe lock of the browser's DMX page: what it lets through, and how it finds its way back.
import Mathlib.Tactic
import Tapioca.Lib.Lts

/-!
# The universe lock

The page learns the length of a universe from eight packets of dimmers and from then on
shows nothing else. A wrong lock makes itself known by 32 rejections in a row, after which the
page learns anew.
-/

namespace Tapioca.WebSniffer

open Lib.Lts (run outputs outputs_append outputs_cons outputs_nil)

/-! ## The most frequent value -/

/-- The loop of `modeOf`: the counts, the best value and how often it has come. -/
def modeStep (st : (Nat → Nat) × Nat × Nat) (v : Nat) : (Nat → Nat) × Nat × Nat :=
  let c := st.1 v + 1
  (Function.update st.1 v c, if c > st.2.2 then (v, c) else st.2)

def modeOf (arr : List Nat) : Nat := (arr.foldl modeStep (fun _ => 0, arr.headD 0, 0)).2.1

/-- The counts are right, and the best value is one that no other exceeds. -/
theorem foldl_modeStep (first : Nat) (arr : List Nat) :
    let st := arr.foldl modeStep (fun _ => 0, first, 0)
    (∀ v, st.1 v = arr.count v) ∧ st.2.2 = arr.count st.2.1 ∧ (arr ≠ [] → st.2.1 ∈ arr) ∧ ∀ v, arr.count v ≤ st.2.2 := by
  induction arr using List.reverseRecOn with
  | nil => simp
  | append_singleton arr x ih =>
    obtain ⟨hcount, hbest, hmem, hmost⟩ := ih
    rw [List.foldl_concat]
    generalize arr.foldl modeStep (fun _ => 0, first, 0) = st at hcount hbest hmem hmost
    obtain ⟨m, bk, bn⟩ := st
    dsimp only at hcount hbest hmem hmost
    have hone : ∀ v, (arr ++ [x]).count v = arr.count v + if x = v then 1 else 0 := by
      intro v
      rw [List.count_append, List.count_singleton]
      simp
    have hx := hcount x
    rw [modeStep]
    dsimp only
    refine ⟨?_, ?_⟩
    · intro v
      rw [hone]
      by_cases hv : x = v
      · rw [hv, Function.update_self, if_pos rfl, hcount]
      · rw [Function.update_of_ne (Ne.symm hv), if_neg hv, hcount, Nat.add_zero]
    by_cases hmore : m x + 1 > bn
    · rw [if_pos hmore]
      dsimp only
      refine ⟨?_, fun _ => by simp, ?_⟩
      · rw [hone, if_pos rfl, hcount]
      · intro v
        have hv := hmost v
        rw [hone]
        split
        next heq => rw [hcount, heq]
        next => omega
    · rw [if_neg hmore]
      dsimp only
      have hneq : x ≠ bk := by
        rintro rfl
        omega
      refine ⟨?_, ?_, ?_⟩
      · rw [hone, if_neg hneq]
        exact hbest
      · intro _
        rcases eq_or_ne arr [] with rfl | hne
        · rw [List.count_nil] at hbest
          omega
        · exact List.mem_append_left _ (hmem hne)
      · intro v
        have hv := hmost v
        rw [hone]
        split
        next heq =>
          rw [← heq]
          omega
        next => omega

theorem modeOf_mem {arr : List Nat} (h : arr ≠ []) : modeOf arr ∈ arr := (foldl_modeStep _ arr).2.2.1 h

/-- None is more frequent. -/
theorem count_le_modeOf (arr : List Nat) (v : Nat) : arr.count v ≤ arr.count (modeOf arr) := by
  obtain ⟨-, hbest, -, hmost⟩ := foldl_modeStep (arr.headD 0) arr
  exact (hmost v).trans hbest.le

/-! ## The page -/

/-- `dmx`, what the page knows of the universe and shows of it. -/
structure Universe where
  packets : Nat := 0
  rejected : Nat := 0
  rejectStreak : Nat := 0
  nslots : Nat := 0
  startCode : Option Nat := none
  explen : Option Nat := none
  lenseen : List Nat := []
  chans : Nat → Nat := fun _ => 0
  changed : Nat → ℚ := fun _ => 0
  win : List ℚ := []
  lastT : ℚ := 0

namespace Universe

def reject (d : Universe) : Universe :=
  let d := { d with rejected := d.rejected + 1, rejectStreak := d.rejectStreak + 1 }
  if d.rejectStreak ≥ 32 then { d with explen := none, lenseen := [], rejectStreak := 0 } else d

def learn (d : Universe) (p : List Nat) : Universe :=
  if p.head? = some 0 then
    let d := { d with lenseen := d.lenseen ++ [p.length] }
    if d.lenseen.length ≥ 8 then { d with explen := some (modeOf d.lenseen) } else d
  else d

/-- The slots of a packet, up to 512 of them. -/
def accept (d : Universe) (now : ℚ) (p : List Nat) : Universe :=
  let slots := p.drop 1
  { d with
    rejectStreak := 0
    packets := d.packets + 1
    win := (d.win ++ [now]).dropWhile fun t => now - t > 2000
    startCode := p.head?
    nslots := slots.length
    chans := fun i => if i < slots.length ∧ i < 512 then slots.getD i 0 else d.chans i
    changed := fun i => if (i < slots.length ∧ i < 512) ∧ slots.getD i 0 ≠ d.chans i then now else d.changed i
    lastT := now }

def onDmxPacket (d : Universe) (now : ℚ) (p : List Nat) : Universe :=
  match d.explen with
  | some n => if p.head? ≠ some 0 ∨ p.length ≠ n then d.reject else d.accept now p
  | none => d.learn p

def step (d : Universe) (ev : ℚ × List Nat) : Universe := d.onDmxPacket ev.1 ev.2

/-! ## What is let through -/

/-- Locked, and to the most frequent of eight lengths; or still learning them. -/
structure Inv (d : Universe) : Prop where
  lock : ∀ n, d.explen = some n → d.lenseen.length = 8 ∧ n = modeOf d.lenseen
  free : d.explen = none → d.lenseen.length < 8 ∧ d.rejectStreak = 0
  streak : d.rejectStreak < 32

theorem Inv.step {d : Universe} (h : d.Inv) (ev : ℚ × List Nat) : (d.step ev).Inv := by
  obtain ⟨hlock, hfree, hstreak⟩ := h
  rw [Universe.step, onDmxPacket]
  cases hexp : d.explen with
  | some n =>
    dsimp only
    split
    next =>
      rw [reject]
      dsimp only
      split
      next => exact ⟨by simp, by simp, by simp⟩
      next hfew => exact ⟨fun m hm => hlock m hm, fun hnone => absurd (hexp.symm.trans hnone) (by simp), not_le.mp hfew⟩
    next => exact ⟨fun m hm => hlock m hm, fun hnone => absurd (hexp.symm.trans hnone) (by simp), by simp [accept]⟩
  | none =>
    obtain ⟨hfew, hzero⟩ := hfree hexp
    dsimp only
    rw [learn]
    split
    next =>
      dsimp only
      split
      next hfull =>
        refine ⟨fun m hm => ⟨?_, ?_⟩, by simp, hstreak⟩
        · rw [List.length_append, List.length_singleton] at hfull ⊢
          omega
        · exact (Option.some_inj.mp hm).symm
      next hwait =>
        exact ⟨fun m hm => absurd (hexp.symm.trans hm) (by simp), fun _ => ⟨not_le.mp hwait, hzero⟩, hstreak⟩
    next => exact ⟨hlock, hfree, hstreak⟩

/-- The lengths of some packets of dimmers out of a history. -/
def Learnt (h : List (ℚ × List Nat)) (lens : List Nat) : Prop :=
  ∃ seen : List (List Nat), seen.Sublist (h.map Prod.snd) ∧ (∀ p ∈ seen, p.head? = some 0) ∧ lens = seen.map List.length

/-- Eight packets of dimmers out of a history, the mode of whose lengths is `n`: none of them is more frequent. -/
def Taught (h : List (ℚ × List Nat)) (n : Nat) : Prop :=
  ∃ seen : List (List Nat), seen.Sublist (h.map Prod.snd) ∧ (∀ p ∈ seen, p.head? = some 0) ∧ seen.length = 8 ∧
    n = modeOf (seen.map List.length) ∧ ∀ m, (seen.map List.length).count m ≤ (seen.map List.length).count n

/-- A packet that was let through: behind eight that taught its length. -/
def LetThrough (h : List (ℚ × List Nat)) (ev : ℚ × List Nat) : Prop :=
  ev.2.head? = some 0 ∧ ∃ past, past ++ [ev] <+: h ∧ Taught past ev.2.length

/-- The packet that a step shows: one of dimmers, of the length that the page is locked to. -/
def lets (d : Universe) (ev : ℚ × List Nat) : List (ℚ × List Nat) :=
  if ev.2.head? = some 0 ∧ d.explen = some ev.2.length then [ev] else []

/-- The packets of a history that the page showed on its way. -/
def shownOf (h : List (ℚ × List Nat)) : List (ℚ × List Nat) := outputs step lets {} h

/-- The last value that a channel was sent. -/
def lastSlot (i : Nat) (shown : List (ℚ × List Nat)) : Nat :=
  ((shown.filter fun ev => i + 1 < ev.2.length ∧ i < 512).getLast?.map fun ev => ev.2.getD (i + 1) 0).getD 0

/-- What the page shows is what it let through of its history. -/
structure Shows (d : Universe) (h : List (ℚ × List Nat)) : Prop where
  inv : d.Inv
  learnt : Learnt h d.lenseen
  through : (shownOf h).Sublist h ∧ ∀ ev ∈ shownOf h, LetThrough h ev
  shown : d.packets = (shownOf h).length ∧ ∀ i, d.chans i = lastSlot i (shownOf h)
  counted : d.packets + d.rejected ≤ h.length

theorem LetThrough.more {h : List (ℚ × List Nat)} {ev : ℚ × List Nat} (hev : LetThrough h ev) (next : ℚ × List Nat) :
    LetThrough (h ++ [next]) ev := by
  obtain ⟨hstart, past, hpast, htaught⟩ := hev
  exact ⟨hstart, past, hpast.trans (List.prefix_append h [next]), htaught⟩

theorem lastSlot_push (i : Nat) (shown : List (ℚ × List Nat)) (now : ℚ) (p : List Nat) :
    lastSlot i (shown ++ [(now, p)]) =
      if i < (p.drop 1).length ∧ i < 512 then (p.drop 1).getD i 0 else lastSlot i shown := by
  have hsame : (i < (p.drop 1).length ∧ i < 512) ↔ (i + 1 < p.length ∧ i < 512) := by
    rw [List.length_drop]
    omega
  rw [lastSlot, List.filter_append]
  by_cases hin : i + 1 < p.length ∧ i < 512
  · rw [if_pos (hsame.mpr hin), List.filter_cons_of_pos (by simpa using hin), List.filter_nil, List.getLast?_concat,
      Option.map_some, Option.getD_some, List.getD_eq_getElem?_getD, List.getD_eq_getElem?_getD, List.getElem?_drop,
      Nat.add_comm 1 i]
  · rw [if_neg (hsame.not.mpr hin), List.filter_cons_of_neg (by simpa using hin), List.filter_nil, List.append_nil, lastSlot]

theorem shownOf_concat (h : List (ℚ × List Nat)) (ev : ℚ × List Nat) :
    shownOf (h ++ [ev]) = shownOf h ++ (run step {} h).lets ev := by
  rw [shownOf, outputs_append, outputs_cons, outputs_nil, List.append_nil]
  rfl

theorem Learnt.more {h : List (ℚ × List Nat)} {lens : List Nat} (hlens : Learnt h lens) (next : ℚ × List Nat) :
    Learnt (h ++ [next]) lens := by
  obtain ⟨seen, hseen, hstart, hlen⟩ := hlens
  exact ⟨seen, hseen.trans ((List.sublist_append_left h [next]).map _), hstart, hlen⟩

theorem Learnt.push {h : List (ℚ × List Nat)} {lens : List Nat} (hlens : Learnt h lens) (now : ℚ) {p : List Nat}
    (hp : p.head? = some 0) : Learnt (h ++ [(now, p)]) (lens ++ [p.length]) := by
  obtain ⟨seen, hseen, hstart, hlen⟩ := hlens
  refine ⟨seen ++ [p], ?_, ?_, ?_⟩
  · rw [List.map_append]
    exact hseen.append (List.Sublist.refl _)
  · rw [List.forall_mem_append, List.forall_mem_singleton]
    exact ⟨hstart, hp⟩
  · rw [hlen, List.map_append]
    rfl

theorem Learnt.taught {h : List (ℚ × List Nat)} {lens : List Nat} (hlens : Learnt h lens) (height : lens.length = 8) :
    Taught h (modeOf lens) := by
  obtain ⟨seen, hseen, hstart, rfl⟩ := hlens
  exact ⟨seen, hseen, hstart, by rw [← height, List.length_map], rfl, count_le_modeOf _⟩

section

variable {d : Universe} {h : List (ℚ × List Nat)} {ev : ℚ × List Nat}

/-- A packet that is not let through leaves what is shown as it was. -/
theorem Shows.quiet (hd : d.Shows h) (hno : shownOf (h ++ [ev]) = shownOf h) {d' : Universe} (hinv : d'.Inv)
    (hlearnt : Learnt (h ++ [ev]) d'.lenseen) (hpackets : d'.packets = d.packets) (hchans : d'.chans = d.chans)
    (hrejected : d'.rejected ≤ d.rejected + 1) : d'.Shows (h ++ [ev]) := by
  obtain ⟨hshown, hthrough⟩ := hd.through
  have hlonger : (h ++ [ev]).length = h.length + 1 := List.length_append
  have hcounted := hd.counted
  refine ⟨hinv, hlearnt, ?_, ?_, by omega⟩
  · rw [hno]
    exact ⟨hshown.trans (List.sublist_append_left h _), fun ev hev => (hthrough ev hev).more _⟩
  · rw [hno, hpackets, hchans]
    exact hd.shown

theorem Shows.accept (hd : d.Shows h) (hyes : shownOf (h ++ [ev]) = shownOf h ++ [ev]) (hinv : (d.accept ev.1 ev.2).Inv)
    (hev : LetThrough (h ++ [ev]) ev) : (d.accept ev.1 ev.2).Shows (h ++ [ev]) := by
  obtain ⟨hshown, hthrough⟩ := hd.through
  obtain ⟨hpackets, hchans⟩ := hd.shown
  have hlonger : (h ++ [ev]).length = h.length + 1 := List.length_append
  have hcounted := hd.counted
  refine ⟨hinv, hd.learnt.more ev, ⟨?_, ?_⟩, ⟨?_, ?_⟩, ?_⟩
  · rw [hyes]
    exact hshown.append (List.Sublist.refl _)
  · rw [hyes, List.forall_mem_append, List.forall_mem_singleton]
    exact ⟨fun ev hev => (hthrough ev hev).more _, hev⟩
  · rw [Universe.accept, hyes, List.length_append, List.length_singleton, hpackets]
  · intro i
    rw [hyes, lastSlot_push, ← hchans]
    rfl
  · rw [Universe.accept]
    dsimp only
    omega

theorem Shows.step (hd : d.Shows h) (hrun : run Universe.step {} h = d) (ev : ℚ × List Nat) :
    (d.step ev).Shows (h ++ [ev]) := by
  obtain ⟨now, p⟩ := ev
  have hinv := hd.inv.step (now, p)
  have hnext := shownOf_concat h (now, p)
  rw [hrun, lets] at hnext
  rw [Universe.step, onDmxPacket] at hinv ⊢
  cases hexp : d.explen with
  | some n =>
    rw [hexp] at hinv hnext
    dsimp only at hinv hnext ⊢
    split
    next hbad =>
      have hno : ¬ (p.head? = some 0 ∧ some n = some p.length) := by
        rintro ⟨hzero, hfit⟩
        exact hbad.elim (· hzero) (· (Option.some_inj.mp hfit).symm)
      rw [if_neg hno, List.append_nil] at hnext
      rw [if_pos hbad, reject] at hinv
      rw [reject]
      dsimp only at hinv ⊢
      split
      next hfull =>
        rw [if_pos hfull] at hinv
        exact hd.quiet hnext hinv ⟨[], List.nil_sublist _, by simp, rfl⟩ rfl rfl le_rfl
      next hfew =>
        rw [if_neg hfew] at hinv
        exact hd.quiet hnext hinv (hd.learnt.more _) rfl rfl le_rfl
    next hfits =>
      rw [if_neg hfits] at hinv
      push Not at hfits
      obtain ⟨hzero, rfl⟩ := hfits
      obtain ⟨height, hmode⟩ := hd.inv.lock _ hexp
      rw [if_pos ⟨hzero, rfl⟩] at hnext
      exact hd.accept hnext hinv ⟨hzero, h, List.prefix_rfl, hmode ▸ hd.learnt.taught height⟩
  | none =>
    rw [hexp] at hinv hnext
    have hno : ¬ (p.head? = some 0 ∧ none = some p.length) := fun ⟨_, hfit⟩ => Option.some_ne_none _ hfit.symm
    rw [if_neg hno, List.append_nil] at hnext
    dsimp only at hinv ⊢
    rw [learn] at hinv ⊢
    by_cases hzero : p.head? = some 0
    · rw [if_pos hzero] at hinv ⊢
      dsimp only at hinv ⊢
      split
      next hfull =>
        rw [if_pos hfull] at hinv
        exact hd.quiet hnext hinv (hd.learnt.push now hzero) rfl rfl (Nat.le_succ _)
      next hwait =>
        rw [if_neg hwait] at hinv
        exact hd.quiet hnext hinv (hd.learnt.push now hzero) rfl rfl (Nat.le_succ _)
    · rw [if_neg hzero] at hinv ⊢
      exact hd.quiet hnext hinv (hd.learnt.more _) rfl rfl (Nat.le_succ _)

end

/-- Whatever packets come, the page shows only packets of dimmers behind eight that taught it their length, and of
every channel the last value that these sent. -/
theorem universe_shows (h : List (ℚ × List Nat)) : (run step {} h).Shows h := by
  induction h using List.reverseRecOn with
  | nil =>
    exact ⟨⟨by simp [run], by simp [run], by simp [run]⟩, ⟨[], by simp, by simp, rfl⟩, ⟨List.Sublist.refl _, by simp [shownOf]⟩,
      ⟨rfl, fun _ => rfl⟩, le_rfl⟩
  | append_singleton h ev ih =>
    rw [show run step {} (h ++ [ev]) = (run step {} h).step ev from List.foldl_concat ..]
    exact ih.step rfl ev

/-! ## The way back -/

/-- How many packets of length `n` in a row it takes at most to be locked to it. -/
def distance (d : Universe) (n : Nat) : Nat :=
  match d.explen with
  | some m => if m = n then 0 else 32 - d.rejectStreak + 8
  | none => 8 - d.lenseen.length + if ∀ l ∈ d.lenseen, l = n then 0 else 40

theorem distance_le (d : Universe) (n : Nat) : d.distance n ≤ 48 := by
  rw [distance]
  split
  · split <;> omega
  · split <;> omega

theorem modeOf_all {arr : List Nat} {n : Nat} (hne : arr ≠ []) (h : ∀ l ∈ arr, l = n) : modeOf arr = n := h _ (modeOf_mem hne)

/-- Every packet brings it nearer. -/
theorem distance_step {d : Universe} (h : d.Inv) (now : ℚ) {p : List Nat} (hp : p.head? = some 0) :
    (d.step (now, p)).distance p.length ≤ d.distance p.length - 1 := by
  obtain ⟨hlock, hfree, hstreak⟩ := h
  rw [Universe.step, onDmxPacket]
  cases hexp : d.explen with
  | some m =>
    dsimp only
    by_cases hm : m = p.length
    · -- locked to it already
      have hfits : ¬ (p.head? ≠ some 0 ∨ p.length ≠ m) := by simp [hp, hm]
      rw [if_neg hfits, distance, accept]
      dsimp only
      rw [hexp]
      dsimp only
      rw [if_pos hm]
      exact Nat.zero_le _
    · have hbad : p.head? ≠ some 0 ∨ p.length ≠ m := .inr (Ne.symm hm)
      have hd : d.distance p.length = 32 - d.rejectStreak + 8 := by
        rw [distance, hexp]
        dsimp only
        rw [if_neg hm]
      rw [if_pos hbad, hd, reject]
      dsimp only
      split
      next =>
        have hanew : 8 ≤ 32 - d.rejectStreak + 8 - 1 := by omega
        simpa [distance] using hanew
      next hfew =>
        rw [distance, hexp]
        dsimp only
        rw [if_neg hm]
        omega
  | none =>
    obtain ⟨hfew, -⟩ := hfree hexp
    have hd : d.distance p.length = 8 - d.lenseen.length + if ∀ l ∈ d.lenseen, l = p.length then 0 else 40 := by
      rw [distance, hexp]
    dsimp only
    rw [hd, learn, if_pos hp]
    dsimp only
    have hall : (∀ l ∈ d.lenseen ++ [p.length], l = p.length) ↔ ∀ l ∈ d.lenseen, l = p.length := by
      rw [List.forall_mem_append, List.forall_mem_singleton]
      exact and_iff_left rfl
    have hgrow : (d.lenseen ++ [p.length]).length = d.lenseen.length + 1 := List.length_append
    split
    next hfull =>
      rw [distance]
      dsimp only
      by_cases hpure : ∀ l ∈ d.lenseen, l = p.length
      · rw [if_pos (modeOf_all (by simp) (hall.mpr hpure))]
        exact Nat.zero_le _
      · rw [if_neg hpure]
        split <;> omega
    next hwait =>
      rw [distance, hexp]
      dsimp only
      simp only [hall, hgrow]
      omega

theorem Inv.run {d : Universe} (h : d.Inv) (evs : List (ℚ × List Nat)) : (run Universe.step d evs).Inv :=
  List.foldlRecOn evs Universe.step h fun _ hd ev _ => hd.step ev

theorem distance_run {d : Universe} (h : d.Inv) {n : Nat} {evs : List (ℚ × List Nat)}
    (hevs : ∀ ev ∈ evs, ev.2.head? = some 0 ∧ ev.2.length = n) :
    (Lib.Lts.run Universe.step d evs).distance n ≤ d.distance n - evs.length := by
  induction evs generalizing d with
  | nil => exact le_rfl
  | cons ev evs ih =>
    obtain ⟨⟨hstart, hlen⟩, hevs⟩ := List.forall_mem_cons.mp hevs
    have hstep := distance_step h ev.1 hstart
    have hrest := ih (h.step ev) hevs
    rw [hlen] at hstep
    change (Lib.Lts.run Universe.step (d.step ev) evs).distance n ≤ _
    rw [List.length_cons]
    change (d.step ev).distance n ≤ _ at hstep
    omega

theorem locked_of_distance {d : Universe} {n : Nat} (h : d.Inv) (hd : d.distance n = 0) : d.explen = some n := by
  rw [distance] at hd
  cases hexp : d.explen with
  | some m =>
    rw [hexp] at hd
    dsimp only at hd
    split at hd
    next heq => rw [heq]
    next => omega
  | none =>
    rw [hexp] at hd
    have hfew := (h.free hexp).1
    dsimp only at hd
    omega

/-- A locked page shows the packets that fit, each of them. -/
theorem locked_run {d : Universe} {n : Nat} (hd : d.explen = some n) {evs : List (ℚ × List Nat)}
    (hevs : ∀ ev ∈ evs, ev.2.head? = some 0 ∧ ev.2.length = n) :
    (run Universe.step d evs).explen = some n ∧ (run Universe.step d evs).packets = d.packets + evs.length ∧
      (run Universe.step d evs).rejected = d.rejected ∧
        ∀ ev ∈ evs.getLast?, ∀ i, i + 1 < n → i < 512 → (run Universe.step d evs).chans i = ev.2.getD (i + 1) 0 := by
  induction evs using List.reverseRecOn with
  | nil => exact ⟨hd, rfl, rfl, by simp⟩
  | append_singleton evs ev ih =>
    rw [List.forall_mem_append, List.forall_mem_singleton] at hevs
    obtain ⟨hevs, hstart, hlen⟩ := hevs
    obtain ⟨hexp, hpackets, hrejected, -⟩ := ih hevs
    rw [show run Universe.step d (evs ++ [ev]) = (run Universe.step d evs).step ev from List.foldl_concat ..]
    generalize run Universe.step d evs = d' at hexp hpackets hrejected
    have hstep : d'.step ev = d'.accept ev.1 ev.2 := by
      rw [Universe.step, onDmxPacket, hexp]
      exact if_neg (by simp [hstart, hlen])
    rw [hstep]
    refine ⟨hexp, ?_, hrejected, ?_⟩
    · rw [accept, hpackets, List.length_append, List.length_singleton, Nat.add_assoc]
    · intro last hlast i hi hi512
      rw [List.getLast?_concat] at hlast
      obtain rfl := Option.some_inj.mp hlast
      have hslot : i < (ev.2.drop 1).length ∧ i < 512 := by
        rw [List.length_drop]
        omega
      have hchan : (d'.accept ev.1 ev.2).chans i = (ev.2.drop 1).getD i 0 := if_pos hslot
      rw [hchan, List.getD_eq_getElem?_getD, List.getD_eq_getElem?_getD, List.getElem?_drop, Nat.add_comm 1 i]

/-- Whatever has come before, after 48 packets of dimmers of one length in a row the page is locked to it and shows
every further one: a wrong lock does not last. -/
theorem universe_heals (h : List (ℚ × List Nat)) {n : Nat} (first more : List (ℚ × List Nat))
    (hfirst : first.length = 48) (hgood : ∀ ev ∈ first ++ more, ev.2.head? = some 0 ∧ ev.2.length = n) :
    let d := run step {} (h ++ first)
    let d' := run step d more
    d'.explen = some n ∧ d'.packets = d.packets + more.length ∧ d'.rejected = d.rejected ∧
      ∀ ev ∈ more.getLast?, ∀ i, i + 1 < n → i < 512 → d'.chans i = ev.2.getD (i + 1) 0 := by
  rw [List.forall_mem_append] at hgood
  have hstart : Inv {} := ⟨by simp, by simp, by simp⟩
  have hinv := hstart.run h
  have hdist := distance_run hinv hgood.1
  have hbound := distance_le (run step {} h) n
  have happ : run step {} (h ++ first) = run step (run step {} h) first := List.foldl_append
  rw [happ]
  refine locked_run (locked_of_distance (hinv.run first) ?_) hgood.2
  omega

/-- Learnt from packets of two slots, the page comes to show those of three. -/
theorem universe_heals_longer :
    let h : List (ℚ × List Nat) := List.replicate 9 (0, [0, 1])
    let d := run step {} (h ++ List.replicate 48 (1, [0, 1, 2]))
    let d' := run step d [(2, [0, 7, 8])]
    d'.explen = some 3 ∧ d'.packets = d.packets + [((2 : ℚ), [0, 7, 8])].length ∧ d'.rejected = d.rejected ∧
      ∀ ev ∈ [((2 : ℚ), [0, 7, 8])].getLast?, ∀ i, i + 1 < 3 → i < 512 → d'.chans i = ev.2.getD (i + 1) 0 :=
  universe_heals _ _ _ (List.length_replicate ..) (by
    rw [List.forall_mem_append]
    exact ⟨fun ev hev => List.eq_of_mem_replicate hev ▸ ⟨rfl, rfl⟩, by simp⟩)

end Universe

end Tapioca.WebSniffer

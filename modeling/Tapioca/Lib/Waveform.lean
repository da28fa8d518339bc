-- SUMMARY: Step functions of time as runs laid end to end: lookup by position, and sampling under a bounded skew of the edges.
import Mathlib.Tactic

/-!
# Waveforms

Runs of a length and a level are laid end to end on an axis. A position is looked up
among the starts, as a binary search finds it. When every run of `k` units is off by the
same skew, the edges drift, but the middle of a unit still shows its level as long
as the drift stays below half a unit.
-/

namespace Lib.Waveform

structure Seg (K L : Type*) where
  start : K
  stop : K
  level : L

section Layout

variable {K L : Type*} [Field K]

def layout (pos : K) : List (K × L) → List (Seg K L)
  | [] => []
  | (d, l) :: runs => ⟨pos, pos + d, l⟩ :: layout (pos + d) runs

/-- How long runs are together. -/
def extent (runs : List (K × L)) : K := (runs.map Prod.fst).sum

@[simp] theorem extent_nil : extent ([] : List (K × L)) = 0 := rfl

@[simp] theorem extent_cons (d : K) (l : L) (runs : List (K × L)) : extent ((d, l) :: runs) = d + extent runs := by
  simp [extent]

theorem extent_append (xs ys : List (K × L)) : extent (xs ++ ys) = extent xs + extent ys := by
  simp [extent]

theorem layout_append (pos : K) (xs ys : List (K × L)) :
    layout pos (xs ++ ys) = layout pos xs ++ layout (pos + extent xs) ys := by
  induction xs generalizing pos with
  | nil => simp [layout]
  | cons x xs ih =>
    obtain ⟨d, l⟩ := x
    rw [List.cons_append, layout, layout, ih, List.cons_append, extent_cons, add_assoc]

/-- Every segment is one of the runs. -/
theorem run_of_mem_layout {runs : List (K × L)} {pos : K} {s : Seg K L} (hs : s ∈ layout pos runs) :
    (s.stop - s.start, s.level) ∈ runs := by
  induction runs generalizing pos with
  | nil => cases hs
  | cons r runs ih =>
    obtain ⟨d, l⟩ := r
    rcases List.mem_cons.mp hs with rfl | hs
    · simp
    · exact List.mem_cons_of_mem _ (ih hs)

variable [LinearOrder K] [IsStrictOrderedRing K] {runs : List (K × L)}

/-- Everything lies between the position and the end. -/
theorem bounds_layout (h : ∀ r ∈ runs, 0 < r.1) (pos : K) :
    pos ≤ pos + extent runs ∧ ∀ s ∈ layout pos runs, pos ≤ s.start ∧ s.start < s.stop ∧ s.stop ≤ pos + extent runs := by
  induction runs generalizing pos with
  | nil => simp [layout]
  | cons r runs ih =>
    obtain ⟨d, l⟩ := r
    obtain ⟨hd, hruns⟩ := List.forall_mem_cons.mp h
    obtain ⟨hend, hsegs⟩ := ih hruns (pos + d)
    rw [extent_cons, ← add_assoc]
    have hpos : pos < pos + d := lt_add_of_pos_right _ hd
    refine ⟨hpos.le.trans hend, ?_⟩
    rw [layout, List.forall_mem_cons]
    refine ⟨⟨le_rfl, hpos, hend⟩, fun s hs => ?_⟩
    obtain ⟨hstart, hstop⟩ := hsegs s hs
    exact ⟨hpos.le.trans hstart, hstop⟩

end Layout

/-! ## Lookup -/

section Lookup

variable {K L : Type*} [LinearOrder K]

/-- The place of a position behind the starts that do not exceed it. -/
def bisectRight (starts : List K) (p : K) : Nat := (starts.takeWhile (· ≤ p)).length

theorem bisectRight_append {front rest : List (Seg K L)} {p : K} (hfront : ∀ s ∈ front, s.start ≤ p)
    (hrest : ∀ s ∈ rest.head?, p < s.start) :
    bisectRight ((front ++ rest).map Seg.start) p = front.length := by
  have hnone : (rest.map Seg.start).takeWhile (· ≤ p) = [] := by
    cases rest with
    | nil => rfl
    | cons s rest => rw [List.map_cons, List.takeWhile_cons_of_neg (by simpa using hrest s rfl)]
  rw [bisectRight, List.map_append, List.takeWhile_append_of_pos, hnone, List.append_nil, List.length_map]
  simpa using hfront

/-- In sorted segments everything from the place on starts behind the position. -/
theorem lt_of_mem_drop {segs : List (Seg K L)} (h : segs.Pairwise fun s t => s.start < t.start) {p : K} {s : Seg K L}
    (hs : s ∈ segs.drop (bisectRight (segs.map Seg.start) p)) : p < s.start := by
  induction segs with
  | nil => simp at hs
  | cons t segs ih =>
    obtain ⟨hfirst, hrest⟩ := List.pairwise_cons.mp h
    by_cases ht : t.start ≤ p
    · rw [bisectRight, List.map_cons, List.takeWhile_cons_of_pos (by simpa using ht), List.length_cons,
        List.drop_succ_cons] at hs
      exact ih hrest hs
    · rw [bisectRight, List.map_cons, List.takeWhile_cons_of_neg (by simpa using ht), List.length_nil,
        List.drop_zero] at hs
      rcases List.mem_cons.mp hs with rfl | hs
      · exact not_le.mp ht
      · exact (not_le.mp ht).trans (hfirst s hs)

/-- The segment a position is in. -/
def under (segs : List (Seg K L)) (p : K) : Option (Seg K L) :=
  match bisectRight (segs.map Seg.start) p with
  | 0 => none
  | i + 1 => segs[i]?.filter (p < ·.stop)

theorem under_append {front rest : List (Seg K L)} {s : Seg K L} {p : K} (hfront : ∀ t ∈ front, t.start ≤ p)
    (hstart : s.start ≤ p) (hstop : p < s.stop) (hrest : ∀ t ∈ rest.head?, p < t.start) :
    under (front ++ s :: rest) p = some s := by
  have hall : ∀ t ∈ front ++ [s], t.start ≤ p := by
    intro t ht
    rcases List.mem_append.mp ht with ht | ht
    · exact hfront t ht
    · exact List.mem_singleton.mp ht ▸ hstart
  have hplace := bisectRight_append hall hrest
  rw [List.append_assoc, List.singleton_append, List.length_append, List.length_singleton] at hplace
  rw [under, hplace]
  simp [hstop]

end Lookup

/-! ## Skew -/

section Skew

variable {K L : Type*} [Field K] {skew : K}

/-- Runs of whole units, each off by the skew. -/
def skewed (skew : K) (runs : List (L × Nat)) : List (K × L) := runs.map fun r => (r.2 + skew, r.1)

/-- The level of every unit. -/
def expand (runs : List (L × Nat)) : List L := runs.flatMap fun r => List.replicate r.2 r.1

@[simp] theorem skewed_nil : skewed skew ([] : List (L × Nat)) = [] := rfl

theorem skewed_append (xs ys : List (L × Nat)) : skewed skew (xs ++ ys) = skewed skew xs ++ skewed skew ys :=
  List.map_append

theorem extent_skewed (runs : List (L × Nat)) :
    extent (skewed skew runs) = (expand runs).length + runs.length * skew := by
  induction runs with
  | nil => simp [skewed, expand]
  | cons r runs ih =>
    have hexpand : expand (r :: runs) = List.replicate r.2 r.1 ++ expand runs := rfl
    have hskewed : skewed skew (r :: runs) = (r.2 + skew, r.1) :: skewed skew runs := rfl
    rw [hskewed, extent_cons, ih, hexpand]
    simp only [List.length_append, List.length_replicate, List.length_cons]
    push_cast
    ring

theorem le_length_expand {runs : List (L × Nat)} {r : L × Nat} (hr : r ∈ runs) : r.2 ≤ (expand runs).length := by
  obtain ⟨front, back, rfl⟩ := List.append_of_mem hr
  have hexpand : expand (front ++ r :: back) = expand front ++ (List.replicate r.2 r.1 ++ expand back) := by
    rw [expand, List.flatMap_append, List.flatMap_cons]
    rfl
  rw [hexpand, List.length_append, List.length_append, List.length_replicate]
  omega

theorem length_le_expand {runs : List (L × Nat)} (hruns : ∀ r ∈ runs, 1 ≤ r.2) : runs.length ≤ (expand runs).length := by
  induction runs with
  | nil => exact Nat.zero_le _
  | cons r runs ih =>
    obtain ⟨hr, hruns⟩ := List.forall_mem_cons.mp hruns
    have hexpand : expand (r :: runs) = List.replicate r.2 r.1 ++ expand runs := rfl
    have hrest := ih hruns
    rw [hexpand, List.length_append, List.length_replicate, List.length_cons]
    omega

variable [LinearOrder K] [IsStrictOrderedRing K]

theorem skewed_pos {runs : List (L × Nat)} (hskew : |skew| < 1) (hruns : ∀ r ∈ runs, 1 ≤ r.2) :
    ∀ r ∈ skewed skew runs, 0 < r.1 := by
  intro r hr
  obtain ⟨⟨l, k⟩, hk, rfl⟩ := List.mem_map.mp hr
  have hone : (1 : K) ≤ k := by exact_mod_cast hruns _ hk
  have hlow := (abs_lt.mp hskew).1
  dsimp only
  linarith

/-- Every edge up to unit `i` is off by at most its number of runs, and there are no more
runs than units: in the middle of the unit its level shows. -/
theorem under_skewed {runs : List (L × Nat)} (hruns : ∀ r ∈ runs, 1 ≤ r.2) {front : List (Seg K L)} {pos drift : K}
    (hfront : ∀ s ∈ front, s.start ≤ pos) {i : Nat} (hdrift : |drift| + (i + 1) * |skew| < 1 / 2) {l : L}
    (hi : (expand runs)[i]? = some l) :
    (under (front ++ layout pos (skewed skew runs)) (pos + i + 1 / 2 - drift)).map Seg.level = some l := by
  induction runs generalizing front pos drift i with
  | nil => simp [expand] at hi
  | cons r runs ih =>
    obtain ⟨level, k⟩ := r
    obtain ⟨hk, hruns⟩ := List.forall_mem_cons.mp hruns
    have hexpand : expand ((level, k) :: runs) = List.replicate k level ++ expand runs := rfl
    have hlayout : layout pos (skewed skew ((level, k) :: runs)) =
        ⟨pos, pos + (k + skew), level⟩ :: layout (pos + (k + skew)) (skewed skew runs) := rfl
    obtain ⟨hdlow, hdhigh⟩ := abs_le.mp (le_refl |drift|)
    obtain ⟨hslow, hshigh⟩ := abs_le.mp (le_refl |skew|)
    have hunits : 0 ≤ (i : K) * |skew| := by positivity
    rw [add_mul, one_mul] at hdrift
    rw [hexpand] at hi
    rw [hlayout]
    rcases Nat.lt_or_ge i k with hin | hout
    · -- the unit lies in the first run
      rw [List.getElem?_append_left (by simpa using hin), List.getElem?_replicate_of_lt hin] at hi
      have hroom : (i : K) + 1 ≤ k := by exact_mod_cast hin
      have hstop : pos + i + 1 / 2 - drift < pos + (k + skew) := by linarith
      have hstart : pos ≤ pos + i + 1 / 2 - drift := by
        have hi0 : (0 : K) ≤ i := Nat.cast_nonneg i
        linarith [abs_nonneg skew]
      rw [under_append (fun s hs => (hfront s hs).trans hstart) hstart hstop, Option.map_some]
      · exact hi
      · intro s hs
        cases hskew : skewed skew runs with
        | nil => rw [hskew] at hs; cases hs
        | cons d rest =>
          rw [hskew] at hs
          obtain rfl := Option.some_inj.mp hs
          exact hstop
    · -- it lies behind it, and the drift has grown by one skew
      rw [List.getElem?_append_right (by simpa using hout), List.length_replicate] at hi
      have hpos : pos ≤ pos + (k + skew) := by
        have hone : (1 : K) ≤ k := by exact_mod_cast hk
        linarith [abs_nonneg drift]
      have hmoved : pos + i + 1 / 2 - drift = pos + (k + skew) + (i - k : Nat) + 1 / 2 - (drift + skew) := by
        push_cast [hout]
        ring
      have hgrown : |drift + skew| + ((i - k : Nat) + 1) * |skew| < 1 / 2 := by
        have hfewer : ((i - k : Nat) + 1 : K) * |skew| ≤ i * |skew| := by
          refine mul_le_mul_of_nonneg_right ?_ (abs_nonneg skew)
          have hsub : i - k + 1 ≤ i := by omega
          exact_mod_cast hsub
        have hsum := abs_add_le drift skew
        linarith
      rw [hmoved, ← List.singleton_append, ← List.append_assoc]
      refine ih hruns (fun s hs => ?_) hgrown hi
      rcases List.mem_append.mp hs with hs | hs
      · exact (hfront s hs).trans hpos
      · exact List.mem_singleton.mp hs ▸ hpos

end Skew

end Lib.Waveform

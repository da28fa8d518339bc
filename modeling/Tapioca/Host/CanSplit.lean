-- SUMMARY: Cutting a run list into frames: the splitter on frames and gaps, and the threshold from a locked unit interval.
import Mathlib.Tactic
import Tapioca.Host.CanRuns

/-!
# Frame splitting

The splitter cuts at every run that reaches the threshold. Which runs these are is a
matter of the threshold alone: seven mean bits, and never less than `BOUNDARY`. A run
of a frame stays below it at every rate; a gap of ten bits reaches it where it
reaches the floor.
-/

namespace Tapioca.Host.CanRle

open Lib.Rounding (roundEven)

section Splitting

variable {α β : Type*}

/-- Frames with the gap behind each, and a last one the capture ends in. -/
def traffic (seps : List (List α × α)) (last : Option (List α)) : List α :=
  seps.flatMap (fun sep => sep.1 ++ [sep.2]) ++ last.getD []

def framesOf (seps : List (List α × β)) (last : Option (List α)) : List (List α) :=
  seps.map Prod.fst ++ last.toList

theorem traffic_cons (sep : List α × α) (seps : List (List α × α)) (last : Option (List α)) :
    traffic (sep :: seps) last = sep.1 ++ sep.2 :: traffic seps last := by
  simp [traffic]

theorem framesOf_cons (sep : List α × β) (seps : List (List α × β)) (last : Option (List α)) :
    framesOf (sep :: seps) last = sep.1 :: framesOf seps last := rfl

variable [LinearOrder α]

/-- `split_frames`; `cur` is the open frame. -/
def splitFrames (bound : α) (cur : List α) : List α → List (List α)
  | [] => if cur.length ≥ 8 then [cur] else []
  | b :: runs =>
    if b ≥ bound then (if cur.length ≥ 8 then [cur] else []) ++ splitFrames bound [] runs
    else splitFrames bound (cur ++ [b]) runs

variable {bound : α}

theorem splitFrames_below {xs : List α} (h : ∀ x ∈ xs, x < bound) (cur rest : List α) :
    splitFrames bound cur (xs ++ rest) = splitFrames bound (cur ++ xs) rest := by
  induction xs generalizing cur with
  | nil => rw [List.nil_append, List.append_nil]
  | cons x xs ih =>
    have hx : ¬ x ≥ bound := not_le.mpr (h x List.mem_cons_self)
    rw [List.cons_append, splitFrames, if_neg hx, ih fun y hy => h y (List.mem_cons_of_mem _ hy),
      List.append_assoc, List.singleton_append]

/-- The frame a run list ends in. -/
theorem splitFrames_frame {f : List α} (h : 8 ≤ f.length) : splitFrames bound f [] = [f] := if_pos h

/-- A frame in front of a run that cuts. -/
theorem splitFrames_cut {f : List α} (h : 8 ≤ f.length) {gap : α} (hgap : bound ≤ gap) (rest : List α) :
    splitFrames bound f (gap :: rest) = f :: splitFrames bound [] rest := by
  rw [splitFrames, if_pos hgap, if_pos h, List.singleton_append]

theorem splitFrames_stay {cur : List α} {gap : α} (hgap : gap < bound) (rest : List α) :
    splitFrames bound cur (gap :: rest) = splitFrames bound (cur ++ [gap]) rest :=
  if_neg (not_le.mpr hgap)

/-- The runs the splitter keeps are those of the frames and the gaps it does not cut at. -/
theorem length_splitFrames {seps : List (List α × α)} {last : Option (List α)}
    (h : ∀ f ∈ framesOf seps last, 8 ≤ f.length ∧ ∀ x ∈ f, x < bound) {cur : List α}
    (hcur : cur = [] ∨ 8 ≤ cur.length) :
    (splitFrames bound cur (traffic seps last)).flatten.length =
      cur.length + (framesOf seps last).flatten.length + (seps.filter (·.2 < bound)).length := by
  induction seps generalizing cur with
  | nil =>
    cases last with
    | none =>
      have hopen : (if cur.length ≥ 8 then [cur] else []).flatten = cur := by
        rcases hcur with rfl | hcur
        · rfl
        · rw [if_pos hcur, List.flatten_singleton]
      simp [traffic, framesOf, splitFrames, hopen]
    | some f =>
      obtain ⟨hlen, hbelow⟩ := h f (by simp [framesOf])
      have hsplit := splitFrames_below hbelow cur []
      rw [splitFrames_frame (by rw [List.length_append]; omega), List.append_nil] at hsplit
      simp [traffic, framesOf, hsplit]
  | cons sep seps ih =>
    rw [framesOf_cons] at h
    obtain ⟨⟨hlen, hbelow⟩, hframes⟩ := List.forall_mem_cons.mp h
    have hrest := @ih hframes
    have hlong : 8 ≤ (cur ++ sep.1).length := by rw [List.length_append]; omega
    rw [traffic_cons, splitFrames_below hbelow]
    -- a gap below the threshold stays in the list, as a run of the frame it is taken into
    rcases lt_or_ge sep.2 bound with hgap | hgap
    · rw [splitFrames_stay hgap, hrest (.inr (by rw [List.length_append]; omega)), List.filter_cons_of_pos (by simpa)]
      simp only [framesOf_cons, List.flatten_cons, List.length_append, List.length_cons, List.length_nil]
      omega
    · rw [splitFrames_cut hlong hgap, List.flatten_cons, List.length_append, hrest (.inl rfl),
        List.filter_cons_of_neg (by simpa)]
      simp only [framesOf_cons, List.flatten_cons, List.length_append, List.length_nil]
      omega

/-- The frames come out as they are exactly when every gap cuts. -/
theorem splitFrames_traffic_iff {seps : List (List α × α)} {last : Option (List α)}
    (h : ∀ f ∈ framesOf seps last, 8 ≤ f.length ∧ ∀ x ∈ f, x < bound) :
    splitFrames bound [] (traffic seps last) = framesOf seps last ↔ ∀ sep ∈ seps, bound ≤ sep.2 := by
  constructor
  · intro hsplit sep hsep
    by_contra hgap
    have hlen := length_splitFrames h (.inl rfl)
    have hmem : sep ∈ seps.filter (·.2 < bound) := List.mem_filter.mpr ⟨hsep, by simpa using hgap⟩
    rw [hsplit, List.length_nil] at hlen
    have := List.length_pos_of_mem hmem
    omega
  · intro hgaps
    induction seps with
    | nil =>
      cases last with
      | none => rfl
      | some f =>
        obtain ⟨hlen, hbelow⟩ := h f (by simp [framesOf])
        have hsplit := splitFrames_below hbelow [] []
        rw [List.nil_append, splitFrames_frame hlen, List.append_nil] at hsplit
        exact hsplit
    | cons sep seps ih =>
      rw [framesOf_cons] at h
      obtain ⟨⟨hlen, hbelow⟩, hframes⟩ := List.forall_mem_cons.mp h
      have hrest := ih hframes fun s hs => hgaps s (List.mem_cons_of_mem _ hs)
      rw [traffic_cons, splitFrames_below hbelow, List.nil_append,
        splitFrames_cut hlen (hgaps sep List.mem_cons_self), hrest]
      rfl

end Splitting

/-! ## The threshold -/

/-- The floor of the threshold, in ticks. -/
def BOUNDARY : ℤ := 56

/-- `bound_from_ui`. -/
def boundFromUi (cal : Cal) : ℤ := max BOUNDARY (roundEven (7 / 2 * (cal.uiL + cal.uiH)))

/-- The two levels are sampled every 8 and every 9 cycles or closer, and the bias is a tick at most. -/
structure Cal.Locked (cal : Cal) : Prop where
  ratio_ge : 8 / 9 ≤ cal.uiH / cal.uiL
  ratio_le : cal.uiH / cal.uiL ≤ 1
  bias (level : Bool) : |cal.c level| ≤ 1

def Cal.ticks (cal : Cal) (run : Bool × Nat) : ℚ := run.2 * cal.ui run.1 + cal.c run.1

variable {cal : Cal}

theorem Cal.Locked.uiH_bounds (h : cal.Locked) : 8 / 9 * cal.uiL ≤ cal.uiH ∧ cal.uiH ≤ cal.uiL :=
  ⟨(le_div_iff₀ cal.uiL_pos).mp h.ratio_ge, (div_le_one cal.uiL_pos).mp h.ratio_le⟩

theorem floor_le_boundFromUi (cal : Cal) : (56 : ℚ) ≤ boundFromUi cal := by
  have h : BOUNDARY ≤ boundFromUi cal := le_max_left _ _
  exact_mod_cast h

theorem mean_le_boundFromUi (cal : Cal) : 7 / 2 * (cal.uiL + cal.uiH) - 1 / 2 ≤ boundFromUi cal := by
  have hround := (abs_le.mp (Lib.Rounding.abs_sub_roundEven (7 / 2 * (cal.uiL + cal.uiH)))).2
  have h : (roundEven (7 / 2 * (cal.uiL + cal.uiH)) : ℚ) ≤ boundFromUi cal := by
    exact_mod_cast le_max_right BOUNDARY _
  linarith

/-- No run of a frame reaches the threshold. -/
theorem Cal.Locked.below (h : cal.Locked) {run : Bool × Nat} (hrun : run.2 ≤ 5) :
    cal.ticks run < boundFromUi cal := by
  obtain ⟨hlo, hhi⟩ := h.uiH_bounds
  have hui : cal.ui run.1 ≤ cal.uiL := by
    rw [Cal.ui]
    split
    · exact le_rfl
    · exact hhi
  have hbits : (run.2 : ℚ) * cal.ui run.1 ≤ 5 * cal.uiL :=
    mul_le_mul (by exact_mod_cast hrun) hui (cal.ui_pos _).le (by norm_num)
  have hticks : cal.ticks run ≤ 5 * cal.uiL + 1 :=
    add_le_add hbits (abs_le.mp (h.bias run.1)).2
  have hfloor := floor_le_boundFromUi cal
  have hmean := mean_le_boundFromUi cal
  -- the floor is above five short bits, the mean above five long ones
  rcases lt_or_ge cal.uiL 11 with hfast | hslow <;> linarith

/-- A gap reaches the threshold when it reaches the floor. -/
theorem Cal.Locked.gap_iff (h : cal.Locked) {k : Nat} (hk : 10 ≤ k) :
    (boundFromUi cal : ℚ) ≤ cal.ticks (RECESSIVE, k) ↔ 56 ≤ cal.ticks (RECESSIVE, k) := by
  refine ⟨(floor_le_boundFromUi cal).trans, fun hgap => ?_⟩
  obtain ⟨hlo, hhi⟩ := h.uiH_bounds
  have hbits : (10 : ℚ) * cal.uiH ≤ k * cal.uiH :=
    mul_le_mul_of_nonneg_right (by exact_mod_cast hk) cal.uiH_pos.le
  have hticks : 10 * cal.uiH - 1 ≤ cal.ticks (RECESSIVE, k) := by
    have hbias := (abs_le.mp (h.bias RECESSIVE)).1
    calc 10 * cal.uiH - 1 ≤ k * cal.uiH + cal.c RECESSIVE := by linarith
      _ = cal.ticks (RECESSIVE, k) := rfl
  have hround := (abs_le.mp (Lib.Rounding.abs_sub_roundEven (7 / 2 * (cal.uiL + cal.uiH)))).1
  have hmean : (roundEven (7 / 2 * (cal.uiL + cal.uiH)) : ℚ) ≤ cal.ticks (RECESSIVE, k) := by
    -- seven mean bits are below ten recessive ones, and where these are below a tick the floor is far above
    rcases lt_or_ge cal.uiH 1 with hshort | hlong <;> linarith
  rw [boundFromUi, Int.cast_max]
  exact max_le (by exact_mod_cast hgap) hmean

/-! ## Captures under a locked unit interval -/

/-- The runs of a capture as the calibration measures them, from frames and the gaps behind them in bits. -/
def measured (cal : Cal) (seps : List (List (Bool × Nat) × Nat)) : List (List ℚ × ℚ) :=
  seps.map fun sep => (sep.1.map cal.ticks, cal.ticks (RECESSIVE, sep.2))

/-- At least eight runs, of one to five bits. -/
def InFrame (f : List (Bool × Nat)) : Prop := 8 ≤ f.length ∧ ∀ run ∈ f, 1 ≤ run.2 ∧ run.2 ≤ 5

instance (f : List (Bool × Nat)) : Decidable (InFrame f) := inferInstanceAs (Decidable (_ ∧ _))

theorem framesOf_measured (cal : Cal) (seps : List (List (Bool × Nat) × Nat)) (last : Option (List (Bool × Nat))) :
    framesOf (measured cal seps) (last.map (·.map cal.ticks)) = (framesOf seps last).map (·.map cal.ticks) := by
  cases last <;> simp [framesOf, measured]

/-- With a locked unit interval the frames come out exactly when every gap of ten bits or more
reaches the floor. -/
theorem split_locked_iff (h : cal.Locked) {seps : List (List (Bool × Nat) × Nat)}
    {last : Option (List (Bool × Nat))} (hframes : ∀ f ∈ framesOf seps last, InFrame f)
    (hgaps : ∀ sep ∈ seps, 10 ≤ sep.2) :
    splitFrames (boundFromUi cal : ℚ) [] (traffic (measured cal seps) (last.map (·.map cal.ticks))) =
        (framesOf seps last).map (·.map cal.ticks) ↔
      ∀ sep ∈ seps, 56 ≤ cal.ticks (RECESSIVE, sep.2) := by
  have hbelow : ∀ f ∈ framesOf (measured cal seps) (last.map (·.map cal.ticks)),
      8 ≤ f.length ∧ ∀ x ∈ f, x < (boundFromUi cal : ℚ) := by
    rw [framesOf_measured, List.forall_mem_map]
    intro f hf
    obtain ⟨hlen, hruns⟩ := hframes f hf
    rw [List.length_map, List.forall_mem_map]
    exact ⟨hlen, fun run hrun => h.below (hruns run hrun).2⟩
  rw [← framesOf_measured, splitFrames_traffic_iff hbelow, measured, List.forall_mem_map]
  exact forall₂_congr fun sep hsep => h.gap_iff (hgaps sep hsep)

/-- Nine runs, dominant and recessive in turn. -/
def shortFrame : List (Bool × Nat) := (List.range 9).map fun i => (levelAt DOMINANT i, 1)

theorem cal1Mbit_locked : cal1Mbit.Locked := by
  refine ⟨?_, ?_, ?_⟩
  · norm_num [cal1Mbit]
  · norm_num [cal1Mbit]
  · rintro (_ | _) <;> norm_num [Cal.c, cal1Mbit]

/-- At 1 Mbit a gap of eleven bits separates two frames. -/
theorem split_locked_1Mbit :
    splitFrames (boundFromUi cal1Mbit : ℚ) [] (traffic (measured cal1Mbit [(shortFrame, 11)])
        ((some shortFrame).map (·.map cal1Mbit.ticks))) =
      (framesOf [(shortFrame, 11)] (some shortFrame)).map (·.map cal1Mbit.ticks) := by
  refine (split_locked_iff cal1Mbit_locked ?_ ?_).mpr ?_
  · decide
  · decide
  · norm_num [Cal.ticks, Cal.ui, Cal.c, cal1Mbit]

/-- A gap of ten does not. -/
theorem split_locked_merges :
    splitFrames (boundFromUi cal1Mbit : ℚ) [] (traffic (measured cal1Mbit [(shortFrame, 10)])
        ((some shortFrame).map (·.map cal1Mbit.ticks))) ≠
      (framesOf [(shortFrame, 10)] (some shortFrame)).map (·.map cal1Mbit.ticks) := by
  decide +kernel

end Tapioca.Host.CanRle

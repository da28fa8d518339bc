-- SUMMARY: Clock recovery from the runs of one frame, in Python and in the browser.
import Mathlib.Tactic
import Tapioca.Host.CanSplit

/-!
# Clock recovery

The unit interval of a level is the one, of a window of candidates, whose multiples lie
closest to the runs. The window hangs on the shortest run, so that the unit is never
zero. The two decoders round differently and do everything else alike; all is in exact
arithmetic here.
-/

namespace Tapioca.Host.CanRle

open Lib.Rounding (roundEven)

/-- The bits a run is taken for, for a unit and a bias. -/
def snap (rnd : ℚ → ℤ) (ui c x : ℚ) : ℤ := max 1 (rnd ((x - c) / ui))

/-- `sorted(xs)[len(xs) // 2]`. -/
def median (xs : List ℚ) : ℚ := (xs.mergeSort fun x y => decide (x ≤ y)).getD (xs.length / 2) 0

/-- One iteration: the bias that the runs show, snapped under the last. -/
def refineBias (rnd : ℚ → ℤ) (runs : List ℚ) (ui c : ℚ) : ℚ := median (runs.map fun x => x - snap rnd ui c x * ui)

/-- The squared error, the bias and the bits of the runs. -/
structure Comb where
  sse : ℚ
  c : ℚ
  ks : List ℤ

/-- `_comb_residual` -/
def combResidual (rnd : ℚ → ℤ) (runs : List ℚ) (ui : ℚ) : Comb :=
  let c := (refineBias rnd runs ui)^[4] 0
  ⟨(runs.map fun x => (x - snap rnd ui c x * ui - c) ^ 2).sum, c, runs.map (snap rnd ui c)⟩

/-- The best candidate so far. -/
structure Fit where
  sse : ℚ
  ui : ℚ
  c : ℚ

/-- A candidate wins with the smaller error to six places, or with the larger unit. -/
def tryUi (rnd : ℚ → ℤ) (inframe : List ℚ) (best : Option Fit) (ui : ℚ) : Option Fit :=
  if ui ≤ 0 then best
  else
    let comb := combResidual rnd inframe ui
    if comb.ks.dedup.length < 2 then best
    else
      let sse := (rnd (comb.sse * 10 ^ 6) : ℚ) / 10 ^ 6
      match best with
      | none => some ⟨sse, ui, comb.c⟩
      | some b => if sse < b.sse ∨ sse = b.sse ∧ -ui < -b.ui then some ⟨sse, ui, comb.c⟩ else some b

/-- `fit_ui` under a rounding: the unit interval and the bias. -/
def fitUiWith (rnd : ℚ → ℤ) (counts : List ℚ) : ℚ × ℚ :=
  match counts.min? with
  | none => (1, 0)
  | some least =>
    let c1 := max 1 least
    let short := counts.filter (· < 6 * c1)
    let inframe := if short = [] then counts else short
    if inframe.dedup.length < 2 then (c1, 0)
    else
      let lo := 9 / 10 * c1
      let hi := 165 / 100 * c1
      let n := (max 1 (rnd ((hi - lo) / (2 / 100)))).toNat
      let uis := (List.range (n + 1)).map fun i : Nat => lo + (hi - lo) * i / n
      match uis.foldl (tryUi rnd inframe) none with
      | none => (c1, 0)
      | some best => (best.ui, best.c)

/-- `counts[0::2]`. -/
def everySecond {α : Type*} : List α → List α
  | [] => []
  | [x] => [x]
  | x :: _ :: xs => x :: everySecond xs

/-- `ui if ui > 0 else 1.0`. -/
def orOne (ui : ℚ) : ℚ := if ui > 0 then ui else 1

theorem orOne_pos (ui : ℚ) : 0 < orOne ui := by
  rw [orOne]
  split
  next h => exact h
  next => exact one_pos

/-- `fit_burst_ui` under a rounding. -/
def fitBurstUiWith (rnd : ℚ → ℤ) (counts : List ℚ) : Cal :=
  let low := fitUiWith rnd (everySecond counts)
  let high := fitUiWith rnd (everySecond (counts.drop 1))
  ⟨orOne low.1, low.2, orOne high.1, high.2, orOne_pos _, orOne_pos _⟩

/-- `f.get("crc_ok")`: there is none in an extended frame. -/
def Parsed.crcOk : Parsed → Bool
  | .extended _ => false
  | .standard f => f.crcOk

/-- The mean of the two units, as it is shown. -/
def Cal.mean (cal : Cal) : ℚ := (cal.uiL + cal.uiH) / 2

def parseRunsWith (rnd : ℚ → ℤ) (counts : List ℚ) : Option (Parsed × ℚ) :=
  if counts.length < 4 then none
  else
    let cal := fitBurstUiWith rnd counts
    (parseFrame (unstuff (expandRuns rnd cal DOMINANT counts))).map (·, cal.mean)

/-- `decode_frame_runs` under a rounding: the runs as they are, then without the first; the first
valid frame, or else the first parse there is. -/
def decodeFrameRunsWith (rnd : ℚ → ℤ) (counts : List ℚ) : Option (Parsed × ℚ × Nat) :=
  let tries := ([0, 1].filter (· < counts.length)).filterMap fun drop =>
    (parseRunsWith rnd (counts.drop drop)).map fun best => (best.1, best.2, drop)
  (tries.find? (·.1.crcOk)).or tries.head?

/-- `frame_boundary_runs`: the threshold in front of any fit. -/
def frameBoundaryRuns (runs : List Nat) : ℤ :=
  match (runs.filter (0 < ·)).min? with
  | some c1 => max BOUNDARY (8 * c1)
  | none => max BOUNDARY (8 * BOUNDARY)

def fitUi : List ℚ → ℚ × ℚ := fitUiWith roundEven

def fitBurstUi : List ℚ → Cal := fitBurstUiWith roundEven

def decodeFrameRuns : List ℚ → Option (Parsed × ℚ × Nat) := decodeFrameRunsWith roundEven

end Tapioca.Host.CanRle

namespace Tapioca.WebSniffer

open Host.CanRle

def fitUI : List ℚ → ℚ × ℚ := fitUiWith round

def fitBurstUI : List ℚ → Cal := fitBurstUiWith round

def decodeFrameRuns : List ℚ → Option (Parsed × ℚ × Nat) := decodeFrameRunsWith round

/-- `boundFromUI`, with `Math.round`. -/
def boundFromUI (cal : Cal) : ℤ := max BOUNDARY (round (7 / 2 * (cal.uiL + cal.uiH)))

end Tapioca.WebSniffer

namespace Tapioca.Host.CanRle

open Lib.Rounding (roundEven)

/-! ## The window -/

variable (rnd : ℚ → ℤ)

/-- A candidate wins or leaves the best one. -/
theorem tryUi_eq (inframe : List ℚ) (best : Option Fit) (ui : ℚ) :
    tryUi rnd inframe best ui = best ∨ ∃ b, tryUi rnd inframe best ui = some b ∧ b.ui = ui := by
  rw [tryUi]
  cases best with
  | none =>
    dsimp only
    split_ifs
    · exact .inl rfl
    · exact .inl rfl
    · exact .inr ⟨_, rfl, rfl⟩
  | some b =>
    dsimp only
    split_ifs
    · exact .inl rfl
    · exact .inl rfl
    · exact .inr ⟨_, rfl, rfl⟩
    · exact .inl rfl

/-- Whatever wins was a candidate. -/
theorem foldl_tryUi_ui (inframe : List ℚ) {uis : List ℚ} {best : Option Fit} {P : ℚ → Prop} (hbest : ∀ b ∈ best, P b.ui)
    (huis : ∀ ui ∈ uis, P ui) : ∀ b ∈ uis.foldl (tryUi rnd inframe) best, P b.ui := by
  induction uis generalizing best with
  | nil => exact hbest
  | cons ui uis ih =>
    obtain ⟨hui, hrest⟩ := List.forall_mem_cons.mp huis
    refine ih ?_ hrest
    rcases tryUi_eq rnd inframe best ui with hold | ⟨b, hnew, hb⟩
    · rwa [hold]
    · rw [hnew]
      rintro _ ⟨⟩
      rwa [hb]

/-- The shortest run, or a tick. -/
def shortest (counts : List ℚ) : ℚ := max 1 (counts.min?.getD 1)

/-- The unit stays within the window about the shortest run, whatever the runs. -/
theorem fitUiWith_window (counts : List ℚ) :
    9 / 10 * shortest counts ≤ (fitUiWith rnd counts).1 ∧ (fitUiWith rnd counts).1 ≤ 165 / 100 * shortest counts := by
  rw [fitUiWith, shortest]
  cases counts.min? with
  | none => norm_num
  | some least =>
    dsimp only [Option.getD_some]
    have hpos : (0 : ℚ) < max 1 least := lt_max_of_lt_left one_pos
    generalize max 1 least = c1 at hpos
    have hself : 9 / 10 * c1 ≤ c1 ∧ c1 ≤ 165 / 100 * c1 := by constructor <;> linarith
    generalize (if counts.filter (· < 6 * c1) = [] then counts else counts.filter (· < 6 * c1)) = inframe
    split
    next => exact hself
    next =>
      generalize hn : (max 1 (rnd ((165 / 100 * c1 - 9 / 10 * c1) / (2 / 100)))).toNat = n
      have hn1 : (0 : ℚ) < n := by
        have : 0 < n := by omega
        exact_mod_cast this
      have huis : ∀ ui ∈ (List.range (n + 1)).map fun i : Nat =>
          9 / 10 * c1 + (165 / 100 * c1 - 9 / 10 * c1) * i / n, 9 / 10 * c1 ≤ ui ∧ ui ≤ 165 / 100 * c1 := by
        rw [List.forall_mem_map]
        intro i hi
        have hle : (i : ℚ) / n ≤ 1 := by
          rw [div_le_one hn1]
          exact_mod_cast Nat.lt_succ_iff.mp (List.mem_range.mp hi)
        have hnonneg : (0 : ℚ) ≤ i / n := div_nonneg (Nat.cast_nonneg i) hn1.le
        rw [mul_div_assoc]
        constructor
        · nlinarith
        · nlinarith
      have hnone : ∀ b ∈ (none : Option Fit), 9 / 10 * c1 ≤ b.ui ∧ b.ui ≤ 165 / 100 * c1 := by simp
      have hbest := foldl_tryUi_ui rnd inframe hnone huis
      split
      next => exact hself
      next best hfold => exact hbest best hfold

end Tapioca.Host.CanRle

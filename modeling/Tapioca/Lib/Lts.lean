-- SUMMARY: Runs of a deterministic labelled transition system, and the invariant rule for them.
import Mathlib.Tactic

/-!
# Runs of a labelled transition system

A system is a step function `σ → ε → σ`: the event carries everything the
environment decides. A run is a list of events. `AllSteps P` says that every
step of a run is taken from a state, with an event, that satisfies `P`; it is
how assumptions on an environment are stated and how an invariant is carried
along a run.
-/

namespace Lib.Lts

variable {σ ε : Type*}

/-- The state a list of events leads to. -/
def run (step : σ → ε → σ) (s : σ) (evs : List ε) : σ :=
  evs.foldl step s

/-- Every step of the run `evs` from `s` satisfies `P` before it is taken. -/
def AllSteps (step : σ → ε → σ) (P : σ → ε → Prop) : σ → List ε → Prop
  | _, [] => True
  | s, e :: es => P s e ∧ AllSteps step P (step s e) es

variable {step : σ → ε → σ} {P Q : σ → ε → Prop}

instance AllSteps.decidable [∀ s e, Decidable (P s e)] :
    ∀ (s : σ) (evs : List ε), Decidable (AllSteps step P s evs)
  | _, [] => .isTrue trivial
  | s, e :: es =>
    have := AllSteps.decidable (step s e) es
    inferInstanceAs (Decidable (P s e ∧ AllSteps step P (step s e) es))

@[simp] theorem run_nil (s : σ) : run step s [] = s := rfl

@[simp] theorem run_cons (s : σ) (e : ε) (es : List ε) :
    run step s (e :: es) = run step (step s e) es := rfl

theorem run_append (s : σ) (es fs : List ε) :
    run step s (es ++ fs) = run step (run step s es) fs := by
  simp [run]

@[simp] theorem allSteps_nil (s : σ) : AllSteps step P s [] := trivial

@[simp] theorem allSteps_cons (s : σ) (e : ε) (es : List ε) :
    AllSteps step P s (e :: es) ↔ P s e ∧ AllSteps step P (step s e) es := Iff.rfl

theorem allSteps_append (s : σ) (es fs : List ε) :
    AllSteps step P s (es ++ fs) ↔
      AllSteps step P s es ∧ AllSteps step P (run step s es) fs := by
  induction es generalizing s with
  | nil => simp
  | cons e es ih => simp [ih, and_assoc]

theorem AllSteps.mono (h : ∀ s e, P s e → Q s e) {s : σ} {evs : List ε}
    (hP : AllSteps step P s evs) : AllSteps step Q s evs := by
  induction evs generalizing s with
  | nil => trivial
  | cons e es ih => exact ⟨h s e hP.1, ih hP.2⟩

theorem allSteps_and {s : σ} {evs : List ε} :
    AllSteps step (fun s e => P s e ∧ Q s e) s evs ↔
      AllSteps step P s evs ∧ AllSteps step Q s evs := by
  induction evs generalizing s with
  | nil => simp
  | cons e es ih =>
    rw [allSteps_cons, allSteps_cons, allSteps_cons, ih, and_and_and_comm]

theorem allSteps_of_mem {evs : List ε} (h : ∀ e ∈ evs, ∀ s, P s e) (s : σ) :
    AllSteps step P s evs := by
  induction evs generalizing s with
  | nil => trivial
  | cons e es ih => exact ⟨h e (.head _) s, ih (fun e' he' => h e' (.tail _ he')) _⟩

theorem allSteps_of_forall (h : ∀ s e, P s e) (s : σ) (evs : List ε) :
    AllSteps step P s evs := allSteps_of_mem (fun e _ s => h s e) s

/-- The invariant rule: what every allowed step preserves holds after every
allowed run. -/
theorem AllSteps.invariant {I : σ → Prop} {s : σ} {evs : List ε}
    (hstep : ∀ s e, I s → P s e → I (step s e)) (h0 : I s)
    (hP : AllSteps step P s evs) : I (run step s evs) := by
  induction evs generalizing s with
  | nil => exact h0
  | cons e es ih => exact ih (hstep s e h0 hP.1) hP.2

/-- What every allowed step does in the states of an invariant, every step of an
allowed run does. -/
theorem AllSteps.mono_of_invariant {I : σ → Prop} (hPQ : ∀ s e, I s → P s e → Q s e)
    (hstep : ∀ s e, I s → P s e → I (step s e)) {s : σ} {evs : List ε} (h0 : I s)
    (hP : AllSteps step P s evs) : AllSteps step Q s evs := by
  induction evs generalizing s with
  | nil => trivial
  | cons e es ih => exact ⟨hPQ s e h0 hP.1, ih (hstep s e h0 hP.1) hP.2⟩

/-- Along an invariant that one of two step conditions keeps, conditions that
agree where it holds agree on runs. -/
theorem allSteps_iff_of_invariant {I : σ → Prop} (hPQ : ∀ s e, I s → (P s e ↔ Q s e))
    (hstep : ∀ s e, I s → Q s e → I (step s e)) {s : σ} (h0 : I s) (evs : List ε) :
    AllSteps step P s evs ↔ AllSteps step Q s evs := by
  induction evs generalizing s with
  | nil => exact Iff.rfl
  | cons e es ih =>
    rw [allSteps_cons, allSteps_cons, hPQ s e h0]
    refine and_congr_right fun hQ => ih (hstep s e h0 hQ)

/-- A property of every state that a run goes through. -/
theorem forall_prefix_iff {G : σ → Prop} (s : σ) (evs : List ε) :
    (∀ pre, pre <+: evs → G (run step s pre)) ↔
      G s ∧ AllSteps step (fun s e => G (step s e)) s evs := by
  induction evs generalizing s with
  | nil =>
    simp only [List.prefix_nil, allSteps_nil, and_true]
    exact ⟨fun h => h [] rfl, fun h pre hpre => hpre ▸ h⟩
  | cons e es ih =>
    rw [allSteps_cons, ← ih (step s e)]
    constructor
    · intro h
      exact ⟨h [] List.nil_prefix, fun pre hpre => h (e :: pre) (List.cons_prefix_cons.mpr ⟨rfl, hpre⟩)⟩
    · rintro ⟨h0, h⟩ pre hpre
      rcases List.prefix_cons_iff.mp hpre with rfl | ⟨rest, rfl, hrest⟩
      · exact h0
      · exact h rest hrest

/-! ## What flows through a system -/

variable {α : Type*}

/-- What the steps of a run put out, one after the other. -/
def outputs (step : σ → ε → σ) (out : σ → ε → List α) : σ → List ε → List α
  | _, [] => []
  | s, e :: es => out s e ++ outputs step out (step s e) es

@[simp] theorem outputs_nil (out : σ → ε → List α) (s : σ) : outputs step out s [] = [] := rfl

@[simp] theorem outputs_cons (out : σ → ε → List α) (s : σ) (e : ε) (es : List ε) :
    outputs step out s (e :: es) = out s e ++ outputs step out (step s e) es := rfl

theorem outputs_append (out : σ → ε → List α) (s : σ) (es fs : List ε) :
    outputs step out s (es ++ fs) = outputs step out s es ++ outputs step out (run step s es) fs := by
  induction es generalizing s with
  | nil => rfl
  | cons e es ih => rw [List.cons_append, outputs_cons, outputs_cons, ih, run_cons, List.append_assoc]

/-- The conservation rule: where every step hands on, in order, what the state
holds and what comes in, so does every run. -/
theorem AllSteps.conserves {I : σ → Prop} {H : σ → List α} {ins outs : σ → ε → List α}
    (hstep : ∀ s e, I s → P s e → I (step s e))
    (hflow : ∀ s e, I s → P s e → H s ++ ins s e = outs s e ++ H (step s e)) {s : σ}
    {evs : List ε} (h0 : I s) (hP : AllSteps step P s evs) :
    H s ++ outputs step ins s evs = outputs step outs s evs ++ H (run step s evs) := by
  induction evs generalizing s with
  | nil => simp
  | cons e es ih =>
    have hnext := ih (hstep s e h0 hP.1) hP.2
    calc H s ++ outputs step ins s (e :: es)
        = H s ++ ins s e ++ outputs step ins (step s e) es := (List.append_assoc _ _ _).symm
      _ = outs s e ++ (H (step s e) ++ outputs step ins (step s e) es) := by
        rw [hflow s e h0 hP.1, List.append_assoc]
      _ = outputs step outs s (e :: es) ++ H (run step s (e :: es)) := by
        rw [hnext, ← List.append_assoc]
        rfl

/-! ## Two systems on one run -/

variable {τ : Type*} {step' : τ → ε → τ} {R : σ → τ → Prop}

/-- The simulation rule: what one event keeps between the two states, a run keeps. -/
theorem run_simulates (hstep : ∀ s t e, R s t → R (step s e) (step' t e)) {s : σ} {t : τ} (h : R s t)
    (evs : List ε) : R (run step s evs) (run step' t evs) := by
  induction evs generalizing s t with
  | nil => exact h
  | cons e es ih => exact ih (hstep s t e h)

/-- What one system puts out, the other one collects. -/
theorem outputs_collected {out : σ → ε → List α} {f : τ → List α}
    (hstep : ∀ s t e, R s t → R (step s e) (step' t e))
    (hout : ∀ s t e, R s t → f (step' t e) = f t ++ out s e) {s : σ} {t : τ} (h : R s t) (evs : List ε) :
    f (run step' t evs) = f t ++ outputs step out s evs := by
  induction evs generalizing s t with
  | nil => simp
  | cons e es ih => rw [run_cons, outputs_cons, ih (hstep s t e h), hout s t e h, List.append_assoc]

end Lib.Lts

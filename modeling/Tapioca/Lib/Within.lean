-- SUMMARY: Bounded reachability of a transition system with outputs, under every input, and its rules.
import Tapioca.Lib.Lts

/-!
# Reaching a state within a bound

`Within step out n s Q` says that from `s`, whatever the inputs, at most `n`
steps lead to a state that satisfies `Q` together with what those steps put out.
It is a total-correctness judgement for straight-line and branching code. A
system that simulates another one keeps its judgements.
-/

namespace Lib.Lts

variable {σ ε α : Type*} (step : σ → ε → σ) (out : σ → ε → List α)

def Within : Nat → σ → (σ → List α → Prop) → Prop
  | 0, s, Q => Q s []
  | n + 1, s, Q => Q s [] ∨ ∀ e, Within n (step s e) fun t ys => Q t (out s e ++ ys)

variable {step out} {s : σ} {Q R : σ → List α → Prop} {n : Nat}

theorem Within.done (h : Q s []) : Within step out n s Q := by
  cases n with
  | zero => exact h
  | succ n => exact .inl h

theorem Within.next (h : ∀ e, Within step out n (step s e) fun t ys => Q t (out s e ++ ys)) :
    Within step out (n + 1) s Q := .inr h

theorem Within.mono (hQR : ∀ t ys, Q t ys → R t ys) (h : Within step out n s Q) :
    Within step out n s R := by
  induction n generalizing s Q R with
  | zero => exact hQR _ _ h
  | succ n ih => exact h.imp (hQR _ _) fun h e => ih (fun t ys => hQR t _) (h e)

theorem Within.weaken {m : Nat} (h : Within step out n s Q) (hle : n ≤ m) : Within step out m s Q := by
  induction n generalizing m s Q with
  | zero => exact Within.done h
  | succ n ih =>
    obtain ⟨m, rfl⟩ : ∃ k, m = k + 1 := ⟨m - 1, by omega⟩
    exact h.imp id fun h e => ih (h e) (by omega)

/-- A step from a state that is not there yet brings it closer. -/
theorem Within.after (h : Within step out n s Q) (hnot : ¬ Q s []) (e : ε) :
    Within step out n (step s e) fun t ys => Q t (out s e ++ ys) := by
  cases n with
  | zero => exact absurd h hnot
  | succ n => exact (h.resolve_left hnot e).weaken (Nat.le_succ n)

/-- Every run that is long enough passes through such a state. -/
theorem Within.exists_prefix (h : Within step out n s Q) {evs : List ε} (hlen : n ≤ evs.length) :
    ∃ pre post, evs = pre ++ post ∧ pre.length ≤ n ∧ Q (run step s pre) (outputs step out s pre) := by
  induction n generalizing s Q evs with
  | zero => exact ⟨[], evs, rfl, le_rfl, h⟩
  | succ n ih =>
    rcases h with hnow | hlater
    · exact ⟨[], evs, rfl, Nat.zero_le _, hnow⟩
    · cases evs with
      | nil => simp at hlen
      | cons e evs =>
        obtain ⟨pre, post, rfl, hpre, hQ⟩ := ih (hlater e) (Nat.le_of_succ_le_succ hlen)
        exact ⟨e :: pre, post, rfl, Nat.succ_le_succ hpre, hQ⟩

/-- A system whose every step is one of the other's, with the same outputs, gets
where that one gets. -/
theorem Within.of_simulation {σ' ε' : Type*} {step' : σ' → ε' → σ'} {out' : σ' → ε' → List α}
    {Rel : σ' → σ → Prop}
    (hsim : ∀ s' s e', Rel s' s → ∃ e, Rel (step' s' e') (step s e) ∧ out' s' e' = out s e)
    {s' : σ'} (hrel : Rel s' s) (h : Within step out n s Q) :
    Within step' out' n s' fun t' ys => ∃ t, Rel t' t ∧ Q t ys := by
  induction n generalizing s' s Q with
  | zero => exact ⟨s, hrel, h⟩
  | succ n ih =>
    refine h.imp (fun hnow => ⟨s, hrel, hnow⟩) fun hlater e' => ?_
    obtain ⟨e, hnext, hout⟩ := hsim s' s e' hrel
    rw [hout]
    exact ih hnext (hlater e)

end Lib.Lts

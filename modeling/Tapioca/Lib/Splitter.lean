-- SUMMARY: Cutting a list into pieces at separators, and the front of a separated list.
import Mathlib.Tactic

/-!
# Splitting

A splitter goes through a list with an open piece, and closes it at every separator. Behind
any front of a separated list it has closed its first pieces, and the open piece and what
follows are the others.
-/

namespace Lib.Splitter

variable {α : Type*} (cut : α → Prop) [DecidablePred cut]

/-- The pieces closed; `cur` is the open one. -/
def closed (cur : List α) : List α → List (List α)
  | [] => []
  | x :: xs => if cut x then cur :: closed [] xs else closed (cur ++ [x]) xs

/-- The piece left open. -/
def opened (cur : List α) : List α → List α
  | [] => cur
  | x :: xs => if cut x then opened [] xs else opened (cur ++ [x]) xs

variable {cut}

theorem closed_append (cur xs ys : List α) :
    closed cut cur (xs ++ ys) = closed cut cur xs ++ closed cut (opened cut cur xs) ys := by
  induction xs generalizing cur with
  | nil => rfl
  | cons x xs ih =>
    simp only [List.cons_append, closed, opened]
    split
    · rw [ih, List.cons_append]
    · exact ih _

theorem opened_append (cur xs ys : List α) :
    opened cut cur (xs ++ ys) = opened cut (opened cut cur xs) ys := by
  induction xs generalizing cur with
  | nil => rfl
  | cons x xs ih =>
    simp only [List.cons_append, opened]
    split
    · exact ih _
    · exact ih _

/-! ## No separator -/

theorem closed_clean {xs : List α} (h : ∀ x ∈ xs, ¬ cut x) (cur : List α) : closed cut cur xs = [] := by
  induction xs generalizing cur with
  | nil => rfl
  | cons x xs ih =>
    rw [closed, if_neg (h x List.mem_cons_self)]
    exact ih (fun y hy => h y (List.mem_cons_of_mem _ hy)) _

theorem opened_clean {xs : List α} (h : ∀ x ∈ xs, ¬ cut x) (cur : List α) : opened cut cur xs = cur ++ xs := by
  induction xs generalizing cur with
  | nil => rw [opened, List.append_nil]
  | cons x xs ih =>
    rw [opened, if_neg (h x List.mem_cons_self), ih fun y hy => h y (List.mem_cons_of_mem _ hy), List.append_assoc,
      List.singleton_append]

/-- The open piece holds no separator. -/
theorem not_cut_of_mem_opened {cur : List α} (hcur : ∀ x ∈ cur, ¬ cut x) (xs : List α) :
    ∀ x ∈ opened cut cur xs, ¬ cut x := by
  induction xs generalizing cur with
  | nil => exact hcur
  | cons x xs ih =>
    rw [opened]
    split
    next => exact ih (by simp)
    next hx =>
      apply ih
      intro y hy
      rcases List.mem_append.mp hy with hy | hy
      · exact hcur y hy
      · rwa [List.mem_singleton.mp hy]

variable (cut) in
theorem not_cut_of_mem_rest (xs : List α) : ∀ x ∈ opened cut [] xs, ¬ cut x :=
  not_cut_of_mem_opened (by simp) xs

/-! ## A front of the list -/

/-- Gone through again, the open piece is the open piece. -/
theorem closed_batch (xs ys : List α) :
    closed cut [] (xs ++ ys) = closed cut [] xs ++ closed cut [] (opened cut [] xs ++ ys) := by
  have hrest := not_cut_of_mem_rest cut xs
  rw [closed_append, closed_append [] (opened cut [] xs) ys, closed_clean hrest, opened_clean hrest, List.nil_append,
    List.nil_append]

theorem opened_batch (xs ys : List α) : opened cut [] (xs ++ ys) = opened cut [] (opened cut [] xs ++ ys) := by
  have hrest := not_cut_of_mem_rest cut xs
  rw [opened_append, opened_append [] (opened cut [] xs) ys, opened_clean hrest, List.nil_append]

/-- An open piece that gets closed is the front of a piece. -/
theorem exists_prefix_closed {cur xs : List α} (hcur : cur ≠ []) (h : opened cut cur xs = []) :
    ∃ f ∈ closed cut cur xs, cur <+: f := by
  induction xs generalizing cur with
  | nil => exact absurd h hcur
  | cons x xs ih =>
    rw [opened] at h
    rw [closed]
    split
    next => exact ⟨cur, List.mem_cons_self, List.prefix_rfl⟩
    next hx =>
      rw [if_neg hx] at h
      obtain ⟨f, hf, hprefix⟩ := ih (by simp) h
      exact ⟨f, hf, (List.prefix_append cur [x]).trans hprefix⟩

/-! ## Separated lists -/

/-- Pieces with the separator behind each. -/
def joined (ps : List (List α × α)) : List α := ps.flatMap fun p => p.1 ++ [p.2]

theorem joined_cons (p : List α × α) (ps : List (List α × α)) : joined (p :: ps) = p.1 ++ p.2 :: joined ps := by
  rw [joined, List.flatMap_cons, List.append_assoc]
  rfl

end Lib.Splitter

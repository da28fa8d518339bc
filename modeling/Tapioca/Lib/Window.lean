-- SUMMARY: What is kept of a history as it grows: the last entries, those of the last stretch of time, the steps between them.
import Mathlib.Tactic
import Mathlib.Data.List.DropRight

/-!
# Windows

A history grows at its end. Kept of it are its last `n` entries, the entries that are no
older than a span, and its consecutive pairs; each is updated by the new entry alone.
-/

namespace Lib.Window

variable {α : Type*}

/-! ## The last entries -/

theorem rtake_push (n : Nat) (xs : List α) (x : α) :
    (if (xs.rtake n ++ [x]).length > n then (xs.rtake n ++ [x]).drop 1 else xs.rtake n ++ [x]) = (xs ++ [x]).rtake n := by
  have hlen : (xs ++ [x]).length = xs.length + 1 := List.length_append
  rw [List.rtake, List.rtake, hlen]
  by_cases hfull : n ≤ xs.length
  · have hsucc : xs.length + 1 - n = xs.length - n + 1 := Nat.sub_add_comm hfull
    rw [if_pos (by rw [List.length_append, List.length_drop, List.length_singleton]; omega), hsucc, ← List.drop_drop,
      List.drop_append_of_le_length (Nat.sub_le _ _)]
  · have hnone : xs.length - n = 0 := Nat.sub_eq_zero_of_le (not_le.mp hfull).le
    have hnone' : xs.length + 1 - n = 0 := Nat.sub_eq_zero_of_le (not_le.mp hfull)
    rw [hnone, hnone', List.drop_zero, List.drop_zero, if_neg (by rw [hlen]; omega)]

/-! ## The last stretch of time -/

section Time

variable [AddCommGroup α] [LinearOrder α] [IsOrderedAddMonoid α]

/-- What is left when the entries in front that are too old go is what is not too old. -/
theorem dropWhile_old {ts : List α} (h : ts.Pairwise (· ≤ ·)) (now span : α) :
    (ts.dropWhile fun t => now - t > span) = ts.filter fun t => now - t ≤ span := by
  induction ts with
  | nil => rfl
  | cons t ts ih =>
    obtain ⟨hhead, hts⟩ := List.pairwise_cons.mp h
    by_cases hold : now - t > span
    · rw [List.dropWhile_cons_of_pos (by rwa [decide_eq_true_eq]), ih hts,
        List.filter_cons_of_neg (by rwa [decide_eq_true_eq, not_le])]
    · have hall : ∀ u ∈ t :: ts, decide (now - u ≤ span) = true := by
        intro u hu
        have hle : t ≤ u := by
          rcases List.mem_cons.mp hu with rfl | hu
          · exact le_rfl
          · exact hhead u hu
        exact decide_eq_true ((sub_le_sub_left hle now).trans (not_lt.mp hold))
      rw [List.dropWhile_cons_of_neg (by rwa [decide_eq_true_eq]), List.filter_eq_self.mpr hall]

/-- The entries no older than a span before the last one. -/
def recent (span : α) (ts : List α) : List α := ts.filter fun t => (ts.getLast?.getD 0) - t ≤ span

theorem recent_push {ts : List α} {span now : α} (h : (ts ++ [now]).Pairwise (· ≤ ·)) :
    ((recent span ts ++ [now]).dropWhile fun t => now - t > span) = recent span (ts ++ [now]) := by
  have hsub : (recent span ts ++ [now]).Sublist (ts ++ [now]) := List.filter_sublist.append (List.Sublist.refl _)
  rw [dropWhile_old (h.sublist hsub), recent, recent, List.getLast?_concat, Option.getD_some, List.filter_append,
    List.filter_append, List.filter_filter]
  congr 1
  apply List.filter_congr
  intro t ht
  have hlast : ts.getLast?.getD 0 ≤ now := by
    cases hts : ts.getLast? with
    | none => simp [List.getLast?_eq_none_iff.mp hts] at ht
    | some l => exact (List.pairwise_append.mp h).2.2 l (List.mem_of_getLast? hts) now List.mem_cons_self
  -- what is recent now was recent then
  have hthen : now - t ≤ span → ts.getLast?.getD 0 - t ≤ span := (sub_le_sub_right hlast t).trans
  by_cases hnow : now - t ≤ span
  · simp [hnow, hthen hnow]
  · simp [hnow]

end Time

/-! ## Consecutive entries -/

def pairs (xs : List α) : List (α × α) := xs.zip xs.tail

theorem pairs_push {xs : List α} {l : α} (h : xs.getLast? = some l) (x : α) : pairs (xs ++ [x]) = pairs xs ++ [(l, x)] := by
  induction xs with
  | nil => simp at h
  | cons y xs ih =>
    cases xs with
    | nil =>
      obtain rfl : y = l := by simpa using h
      rfl
    | cons z xs =>
      have hnext := ih (by rwa [List.getLast?_cons_cons] at h)
      exact congrArg ((y, z) :: ·) hnext

end Lib.Window

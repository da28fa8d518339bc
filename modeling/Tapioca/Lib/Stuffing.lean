-- SUMMARY: Bit stuffing for any run limit: the complement behind every full run, and its removal.
import Mathlib.Tactic

/-!
# Bit stuffing

Behind `k` equal bits the sender inserts their complement, and the receiver drops
the bit behind `k` equal ones, whatever it is. Both count the inserted bit, which
can start the next run. The receiver never looks ahead, so what it makes of a
stuffed string does not depend on what follows.
-/

namespace Lib.Stuffing

/-- The run that `b` ends, behind a run of `last`. -/
def count (run : Nat) (last : Option Bool) (b : Bool) : Nat := if some b = last then run + 1 else 1

variable (k : Nat)

def stuffFrom (run : Nat) (last : Option Bool) : List Bool → List Bool
  | [] => []
  | b :: bits =>
    if count run last b = k then b :: (!b) :: stuffFrom 1 (some (!b)) bits
    else b :: stuffFrom (count run last b) (some b) bits

def unstuffFrom (run : Nat) (last : Option Bool) : List Bool → List Bool
  | [] => []
  | b :: bits =>
    if run = k then unstuffFrom 1 (some b) bits
    else b :: unstuffFrom (count run last b) (some b) bits

def stuff (bits : List Bool) : List Bool := stuffFrom k 0 none bits

def unstuff (bits : List Bool) : List Bool := unstuffFrom k 0 none bits

variable {k} {run : Nat} {last : Option Bool}

theorem count_le (hrun : run < k) (b : Bool) : count run last b ≤ k := by
  rw [count]
  split <;> omega

/-! ## Removal -/

/-- Removal goes on behind a string from where it stands. -/
theorem unstuffFrom_append (k run : Nat) (last : Option Bool) (xs : List Bool) :
    ∃ r l, ∀ ys, unstuffFrom k run last (xs ++ ys) = unstuffFrom k run last xs ++ unstuffFrom k r l ys := by
  induction xs generalizing run last with
  | nil => exact ⟨run, last, fun _ => rfl⟩
  | cons b xs ih =>
    simp only [List.cons_append, unstuffFrom]
    split
    · exact ih 1 (some b)
    · obtain ⟨r, l, h⟩ := ih (count run last b) (some b)
      exact ⟨r, l, fun ys => by rw [h, List.cons_append]⟩

theorem unstuffFrom_sublist (k run : Nat) (last : Option Bool) (xs : List Bool) :
    (unstuffFrom k run last xs).Sublist xs := by
  induction xs generalizing run last with
  | nil => exact List.Sublist.refl _
  | cons b xs ih =>
    rw [unstuffFrom]
    split
    · exact (ih _ _).cons b
    · exact (ih _ _).cons_cons b

/-- What is removed from a string of equal bits leaves such a string. -/
theorem unstuffFrom_replicate (k run : Nat) (last : Option Bool) (t : Nat) (b : Bool) :
    ∃ j ≤ t, unstuffFrom k run last (List.replicate t b) = List.replicate j b :=
  List.sublist_replicate_iff.mp (unstuffFrom_sublist k run last _)

/-- The receiver keeps in step with the sender. -/
theorem unstuffFrom_stuffFrom (hk : 2 ≤ k) (hrun : run < k) (last : Option Bool) (bits : List Bool) :
    ∃ r l, ∀ tail, unstuffFrom k run last (stuffFrom k run last bits ++ tail) = bits ++ unstuffFrom k r l tail := by
  induction bits generalizing run last with
  | nil => exact ⟨run, last, fun _ => rfl⟩
  | cons b bits ih =>
    rw [stuffFrom]
    split
    · rename_i hfull
      obtain ⟨r, l, h⟩ := ih (Nat.lt_of_lt_of_le one_lt_two hk) (some (!b))
      refine ⟨r, l, fun tail => ?_⟩
      rw [List.cons_append, List.cons_append, unstuffFrom, if_neg hrun.ne, hfull, unstuffFrom, if_pos rfl, h,
        List.cons_append]
    · rename_i hopen
      obtain ⟨r, l, h⟩ := ih (lt_of_le_of_ne (count_le hrun b) hopen) (some b)
      refine ⟨r, l, fun tail => ?_⟩
      rw [List.cons_append, unstuffFrom, if_neg hrun.ne, h, List.cons_append]

theorem unstuff_stuff_append (hk : 2 ≤ k) (bits tail : List Bool) : bits <+: unstuff k (stuff k bits ++ tail) := by
  obtain ⟨r, l, h⟩ := unstuffFrom_stuffFrom hk (Nat.lt_of_lt_of_le two_pos hk) none bits
  rw [unstuff, stuff, h]
  exact List.prefix_append _ _

theorem unstuff_stuff (hk : 2 ≤ k) (bits : List Bool) : unstuff k (stuff k bits) = bits := by
  obtain ⟨r, l, h⟩ := unstuffFrom_stuffFrom hk (Nat.lt_of_lt_of_le two_pos hk) none bits
  have hnil := h []
  rwa [List.append_nil, unstuffFrom, List.append_nil] at hnil

/-! ## Runs -/

/-- No run of a stuffed string is longer than the limit, counting what it continues. -/
theorem stuffFrom_run (hk : 2 ≤ k) (hrun : run < k) {bits front : List Bool} {b : Bool} {t : Nat}
    (h : stuffFrom k run last bits = front ++ List.replicate t b) :
    t ≤ k ∧ (front = [] → t + (if last = some b then run else 0) ≤ k) := by
  induction bits generalizing run last front t with
  | nil =>
    obtain ⟨rfl, ht⟩ := List.append_eq_nil_iff.mp h.symm
    obtain rfl : t = 0 := by simpa using ht
    refine ⟨Nat.zero_le _, fun _ => ?_⟩
    split <;> omega
  | cons c bits ih =>
    rw [stuffFrom] at h
    split at h
    · -- the inserted bit ends the run of `c` and starts the next
      have hone : 1 < k := hk
      rcases front with _ | ⟨x, _ | ⟨y, front⟩⟩
      · rcases t with _ | _ | t
        · cases h
        · cases h
        · simp only [List.nil_append, List.replicate_succ, List.cons.injEq] at h
          exact absurd (h.2.1.trans h.1.symm) (Bool.not_ne_self c)
      · rcases t with _ | t
        · exact ⟨Nat.zero_le _, fun hnil => absurd hnil (List.cons_ne_nil _ _)⟩
        · simp only [List.cons_append, List.nil_append, List.replicate_succ, List.cons.injEq] at h
          obtain ⟨-, rfl, h⟩ := h
          rw [← List.nil_append (List.replicate t (!c))] at h
          have htail := (ih hone h).2 rfl
          rw [if_pos rfl] at htail
          exact ⟨htail, fun hnil => absurd hnil (List.cons_ne_nil _ _)⟩
      · simp only [List.cons_append, List.cons.injEq] at h
        exact ⟨(ih hone h.2.2).1, fun hnil => absurd hnil (List.cons_ne_nil _ _)⟩
    · rename_i hopen
      -- no stuff bit: `c` continues the run or starts one, and the limit is not reached yet
      have hlt : count run last c < k := lt_of_le_of_ne (count_le hrun c) hopen
      rcases front with _ | ⟨x, front⟩
      · rcases t with _ | t
        · simp at h
        · simp only [List.nil_append, List.replicate_succ, List.cons.injEq] at h
          obtain ⟨rfl, h⟩ := h
          rw [← List.nil_append (List.replicate t c)] at h
          have htail := (ih hlt h).2 rfl
          rw [if_pos rfl, count] at htail
          have hrun' : t + 1 + (if last = some c then run else 0) ≤ k := by
            rcases eq_or_ne last (some c) with rfl | hne
            · simp only [if_true] at htail ⊢
              omega
            · rw [if_neg (Ne.symm hne)] at htail
              rwa [if_neg hne]
          exact ⟨by omega, fun _ => hrun'⟩
      · simp only [List.cons_append, List.cons.injEq] at h
        exact ⟨(ih hlt h.2).1, fun hnil => absurd hnil (List.cons_ne_nil _ _)⟩

/-- The last bit goes out as it is, maybe with its complement behind it. -/
theorem stuffFrom_concat (k run : Nat) (last : Option Bool) (bits : List Bool) (b : Bool) :
    stuffFrom k run last (bits ++ [b]) = stuffFrom k run last bits ++ [b] ∨
      stuffFrom k run last (bits ++ [b]) = stuffFrom k run last bits ++ [b, !b] := by
  induction bits generalizing run last with
  | nil =>
    simp only [List.nil_append, stuffFrom]
    split
    · exact .inr rfl
    · exact .inl rfl
  | cons c bits ih =>
    simp only [List.cons_append, stuffFrom]
    split
    · exact (ih 1 (some (!c))).imp (congrArg (c :: (!c) :: ·)) (congrArg (c :: (!c) :: ·))
    · exact (ih (count run last c) (some c)).imp (congrArg (c :: ·)) (congrArg (c :: ·))

/-! ## A cut end -/

/-- What is lost with the equal bits at the end is such bits again, no more than the limit. -/
theorem unstuff_front (hk : 2 ≤ k) {bits front : List Bool} {b : Bool} {t : Nat}
    (h : stuff k bits = front ++ List.replicate t b) :
    ∃ j ≤ t, j ≤ k ∧ bits = unstuff k front ++ List.replicate j b := by
  obtain ⟨r, l, hback⟩ := unstuffFrom_append k 0 none front
  obtain ⟨j, hj, hrep⟩ := unstuffFrom_replicate k r l t b
  refine ⟨j, hj, hj.trans (stuffFrom_run hk (Nat.lt_of_lt_of_le two_pos hk) h).1, ?_⟩
  rw [← unstuff_stuff hk bits, h, unstuff, hback, hrep]
  rfl

/-! ## Counted from the start -/

/-- No run is longer than the limit, behind a run of `last`. -/
def Limited (k run : Nat) (last : Option Bool) : List Bool → Prop
  | [] => True
  | b :: bits => count run last b ≤ k ∧ Limited k (count run last b) (some b) bits

/-- The runs that start in a string. -/
def starts (last : Option Bool) : List Bool → Nat
  | [] => 0
  | b :: bits => (if some b = last then 0 else 1) + starts (some b) bits

theorem limited_stuffFrom (hk : 2 ≤ k) (hrun : run < k) (last : Option Bool) (bits : List Bool) :
    Limited k run last (stuffFrom k run last bits) := by
  induction bits generalizing run last with
  | nil => trivial
  | cons b bits ih =>
    rw [stuffFrom]
    split
    next hfull =>
      have hone : count (count run last b) (some b) (!b) = 1 := if_neg (by simp)
      refine ⟨count_le hrun b, ?_, ?_⟩
      · rw [hone]
        omega
      · rw [hone]
        exact ih (by omega) _
    next hopen => exact ⟨count_le hrun b, ih (lt_of_le_of_ne (count_le hrun b) hopen) _⟩

theorem Limited.prefix {xs ys : List Bool} (h : Limited k run last (xs ++ ys)) : Limited k run last xs := by
  induction xs generalizing run last with
  | nil => trivial
  | cons b xs ih => exact ⟨h.1, ih h.2⟩

/-- Removal leaves no more than the limit of the first run, and one bit less of each other. -/
theorem length_unstuffFrom_le {bits : List Bool} (hrun : run ≤ k) (h : Limited k run last bits) :
    (unstuffFrom k run last bits).length + run ≤ k + (k - 1) * starts last bits := by
  induction bits generalizing run last with
  | nil =>
    rw [unstuffFrom, starts, List.length_nil]
    omega
  | cons b bits ih =>
    obtain ⟨hcount, hrest⟩ := h
    have hnext := ih hcount hrest
    rw [unstuffFrom, starts]
    by_cases hsame : some b = last
    · have hgrow : count run last b = run + 1 := if_pos hsame
      rw [hgrow] at hnext hcount
      rw [if_neg (by omega), if_pos hsame, hgrow, List.length_cons, Nat.zero_add]
      omega
    · have hfirst : count run last b = 1 := if_neg hsame
      rw [hfirst] at hnext hcount
      rw [if_neg hsame, hfirst, Nat.mul_add, Nat.mul_one]
      split
      next => omega
      next =>
        rw [List.length_cons]
        omega

theorem length_stuffFrom_le (k run : Nat) (last : Option Bool) (bits : List Bool) :
    (stuffFrom k run last bits).length ≤ 2 * bits.length := by
  induction bits generalizing run last with
  | nil => exact le_rfl
  | cons b bits ih =>
    rw [stuffFrom]
    split
    next =>
      have hrest := ih 1 (some (!b))
      simp only [List.length_cons]
      omega
    next =>
      have hrest := ih (count run last b) (some b)
      simp only [List.length_cons]
      omega

end Lib.Stuffing

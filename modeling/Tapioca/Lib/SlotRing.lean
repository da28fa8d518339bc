-- SUMMARY: Slot memories addressed modulo their size: windows, what a write does to them, and how long a value survives.
import Mathlib.Tactic

/-!
# Slot rings

A ring of `S` slots stores its `n`-th value in slot `n % S`. `window` reads a
run of consecutive indices. A queue only ever writes the slot behind its window
(`window_store`). A writer that never looks at its reader overwrites: then a
value survives as long as at most `S` values have been stored from it on
(`Recorded`).
-/

namespace Lib.SlotRing

variable {α : Type*} {S : Nat}

/-- The values in the slots of the indices `t, t + 1, …, t + n - 1`. -/
def window (S : Nat) (mem : Nat → α) (t n : Nat) : List α :=
  (List.range n).map fun i => mem ((t + i) % S)

@[simp] theorem length_window (mem : Nat → α) (t n : Nat) : (window S mem t n).length = n := by
  simp [window]

@[simp] theorem window_zero (mem : Nat → α) (t : Nat) : window S mem t 0 = [] := rfl

theorem window_add (mem : Nat → α) (t n m : Nat) :
    window S mem t (n + m) = window S mem t n ++ window S mem (t + n) m := by
  simp [window, List.range_add, Function.comp_def, Nat.add_assoc]

theorem window_succ (mem : Nat → α) (t n : Nat) :
    window S mem t (n + 1) = window S mem t n ++ [mem ((t + n) % S)] :=
  window_add mem t n 1

theorem window_cons (mem : Nat → α) (t n : Nat) :
    window S mem t (n + 1) = mem (t % S) :: window S mem (t + 1) n := by
  rw [Nat.add_comm, window_add]
  rfl

theorem take_window (mem : Nat → α) (t : Nat) {n m : Nat} (h : m ≤ n) :
    (window S mem t n).take m = window S mem t m := by
  obtain ⟨k, rfl⟩ := Nat.exists_eq_add_of_le h
  rw [window_add, List.take_left' (length_window ..)]

theorem drop_window (mem : Nat → α) (t : Nat) {n m : Nat} (h : m ≤ n) :
    (window S mem t n).drop m = window S mem (t + m) (n - m) := by
  obtain ⟨k, rfl⟩ := Nat.exists_eq_add_of_le h
  rw [window_add, List.drop_left' (length_window ..), Nat.add_sub_cancel_left]

/-- A window only depends on its start modulo the number of slots. -/
theorem window_congr (mem : Nat → α) {t t' : Nat} (h : t % S = t' % S) (n : Nat) :
    window S mem t n = window S mem t' n := by
  refine List.map_congr_left fun i _ => ?_
  rw [Nat.add_mod, h, ← Nat.add_mod]

/-- Indices less than a lap apart are in different slots. -/
theorem slot_ne {i j : Nat} (hij : i < j) (hlap : j < i + S) : i % S ≠ j % S := by
  intro h
  have hdvd : S ∣ j - i := (Nat.modEq_iff_dvd' (Nat.le_of_lt hij)).mp h
  have := Nat.le_of_dvd (by omega) hdvd
  omega

theorem window_update (mem : Nat → α) (v : α) {t n j : Nat} (hj : t + n ≤ j) (hlap : j < t + S) :
    window S (Function.update mem (j % S) v) t n = window S mem t n := by
  refine List.map_congr_left fun i hi => ?_
  have hi : i < n := List.mem_range.mp hi
  exact Function.update_of_ne (slot_ne (by omega) (by omega)) _ _

/-- Writing the slot behind a window that leaves one free appends to it. -/
theorem window_store (mem : Nat → α) (v : α) {t n : Nat} (h : n < S) :
    window S (Function.update mem ((t + n) % S) v) t (n + 1) = window S mem t n ++ [v] := by
  rw [window_succ, window_update mem v (le_refl _) (by omega), Function.update_self]

/-- Values written one after the other from index `j` on. -/
def storeAll (S : Nat) (mem : Nat → α) : Nat → List α → Nat → α
  | _, [] => mem
  | j, v :: vs => storeAll S (Function.update mem (j % S) v) (j + 1) vs

theorem window_storeAll (mem : Nat → α) (vs : List α) {t n : Nat} (h : n + vs.length ≤ S) :
    window S (storeAll S mem (t + n) vs) t (n + vs.length) = window S mem t n ++ vs := by
  induction vs generalizing mem n with
  | nil => simp [storeAll]
  | cons v vs ih =>
    rw [List.length_cons] at h
    have hlen : n + (vs.length + 1) = n + 1 + vs.length := by omega
    rw [storeAll, List.length_cons, hlen, Nat.add_assoc, ih _ (by omega),
      window_store _ _ (by omega), List.append_assoc]
    rfl

/-- The start only matters modulo the number of slots. -/
theorem storeAll_congr (mem : Nat → α) (vs : List α) {j j' : Nat} (h : j % S = j' % S) :
    storeAll S mem j vs = storeAll S mem j' vs := by
  induction vs generalizing mem j j' with
  | nil => rfl
  | cons v vs ih =>
    rw [storeAll, storeAll, h]
    exact ih _ (Nat.ModEq.add_right 1 h)

/-! ## Overwriting -/

/-- The slots after the values `vals` were stored one after the other: each of
the last `S` is still in its slot. -/
def Recorded (S : Nat) (mem : Nat → α) (vals : List α) : Prop :=
  ∀ k v, vals[k]? = some v → vals.length ≤ k + S → mem (k % S) = v

theorem recorded_nil (mem : Nat → α) : Recorded S mem [] := by
  intro k v h
  simp at h

/-- Only the slots themselves matter. -/
theorem Recorded.congr {mem mem' : Nat → α} {vals : List α} (h : Recorded S mem vals) (hS : 0 < S)
    (heq : ∀ i < S, mem i = mem' i) : Recorded S mem' vals := by
  intro k v hk hlap
  rw [← heq _ (Nat.mod_lt _ hS)]
  exact h k v hk hlap

theorem Recorded.store {mem : Nat → α} {vals : List α} (h : Recorded S mem vals) (v : α) :
    Recorded S (Function.update mem (vals.length % S) v) (vals ++ [v]) := by
  intro k w hk hlap
  rw [List.length_append, List.length_singleton] at hlap
  rcases Nat.lt_trichotomy k vals.length with hlt | rfl | hgt
  · rw [List.getElem?_append_left hlt] at hk
    rw [Function.update_of_ne (slot_ne hlt (by omega))]
    exact h k w hk (by omega)
  · rw [List.getElem?_concat_length, Option.some_inj] at hk
    rw [Function.update_self, hk]
  · rw [List.getElem?_eq_none (by simp; omega)] at hk
    cases hk

/-- A window of values none of which has been stored over. -/
theorem Recorded.window {mem : Nat → α} {vals : List α} (h : Recorded S mem vals) {t n : Nat}
    (hn : t + n ≤ vals.length) (hlap : vals.length ≤ t + S) :
    SlotRing.window S mem t n = (vals.drop t).take n := by
  refine List.ext_getElem (by simp; omega) fun i hi _ => ?_
  rw [length_window] at hi
  have hidx : t + i < vals.length := by omega
  simp only [SlotRing.window, List.getElem_map, List.getElem_range, List.getElem_take,
    List.getElem_drop]
  exact h (t + i) _ (List.getElem?_eq_getElem hidx) (by omega)

/-- A window whose first value has just been stored over gives the newest value
in its place. -/
theorem Recorded.window_lapped {mem : Nat → α} {vals : List α} (h : Recorded S mem vals) {t n : Nat}
    (hn : n < S) (hlap : vals.length = t + S + 1) {v : α} (hv : vals[t + S]? = some v) :
    SlotRing.window S mem t (n + 1) = v :: (vals.drop (t + 1)).take n := by
  have hnewest := h (t + S) v hv (by omega)
  rw [Nat.add_mod_right] at hnewest
  rw [window_cons, hnewest, h.window (by omega) (by omega)]

end Lib.SlotRing

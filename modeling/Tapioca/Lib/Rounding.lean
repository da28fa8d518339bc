-- SUMMARY: Rounding to the nearest integer, halves to even, beside Mathlib's `round`, which takes them up.
import Mathlib.Tactic

/-!
# Rounding halves to even

The two roundings agree wherever a number has one nearest integer, and at the
halves above odd numbers. At a half above an even number one goes down, the other up.
-/

namespace Lib.Rounding

section Definitions

variable {α : Type*} [Field α] [LinearOrder α] [FloorRing α]

/-- A half above an even number. -/
def EvenHalf (x : α) : Prop := 2 * Int.fract x = 1 ∧ Even ⌊x⌋

instance (x : α) : Decidable (EvenHalf x) := inferInstanceAs (Decidable (_ ∧ _))

/-- The nearest integer, the even one of two. -/
def roundEven (x : α) : ℤ := if EvenHalf x then ⌊x⌋ else round x

theorem roundEven_of_half {x : α} (h : EvenHalf x) : roundEven x = ⌊x⌋ := if_pos h

theorem roundEven_of_not_half {x : α} (h : ¬ EvenHalf x) : roundEven x = round x := if_neg h

end Definitions

variable {α : Type*} [Field α] [LinearOrder α] [IsStrictOrderedRing α] [FloorRing α] {x : α}

theorem floor_add_half (m : ℤ) : ⌊(m : α) + 1 / 2⌋ = m := by
  rw [Int.floor_intCast_add, Int.floor_eq_zero_iff.mpr (by norm_num), add_zero]

theorem EvenHalf.eq (h : EvenHalf x) : x = ⌊x⌋ + 1 / 2 := by
  linarith [Int.floor_add_fract x, h.1]

theorem evenHalf_add_half {m : ℤ} (h : Even m) : EvenHalf ((m : α) + 1 / 2) := by
  refine ⟨?_, by rwa [floor_add_half]⟩
  rw [Int.fract, floor_add_half]
  ring

/-- At a half above an even number `round` is one higher. -/
theorem round_of_half (h : EvenHalf x) : round x = ⌊x⌋ + 1 := by
  have hx := h.eq
  rw [round_eq_iff]
  push_cast
  constructor <;> linarith

theorem roundEven_le_round (x : α) : roundEven x ≤ round x := by
  by_cases h : EvenHalf x
  · rw [roundEven_of_half h, round_of_half h]
    exact Int.le_add_one le_rfl
  · rw [roundEven_of_not_half h]

theorem abs_sub_roundEven (x : α) : |x - roundEven x| ≤ 1 / 2 := by
  by_cases h : EvenHalf x
  · rw [roundEven_of_half h, Int.self_sub_floor, abs_of_nonneg (Int.fract_nonneg x)]
    linarith [h.1]
  · rw [roundEven_of_not_half h]
    exact abs_sub_round x

/-- Less than a half away there is only one integer. -/
theorem roundEven_eq {m : ℤ} (h : |x - m| < 1 / 2) : roundEven x = m := by
  have hround := abs_le.mp (abs_sub_roundEven x)
  rw [abs_lt] at h
  have hlo : ((roundEven x - m : ℤ) : α) < 1 := by push_cast; linarith
  have hhi : ((m - roundEven x : ℤ) : α) < 1 := by push_cast; linarith
  have hlo' : roundEven x - m < 1 := by exact_mod_cast hlo
  have hhi' : m - roundEven x < 1 := by exact_mod_cast hhi
  omega

end Lib.Rounding

-- SUMMARY: Digit strings in any base up to 16: the numbers they spell, printing and reading them.
import Mathlib.Data.Nat.Digits.Defs
import Mathlib.Tactic

/-!
# Numerals

A digit string spells a number whatever the case of its letters and however many
zeros it starts with. Printed strings spell what was printed, and reading one gives
what it spells.
-/

namespace Lib.Numeral

/-- A digit and its value. -/
def CharDigit (b : Nat) (c : Char) (d : Nat) : Prop := d < b ∧ (c = d.digitChar ∨ c = d.digitChar.toUpper)

def Spells (b : Nat) (cs : List Char) (n : Nat) : Prop :=
  ∃ ds, List.Forall₂ (CharDigit b) cs ds ∧ ds ≠ [] ∧ Nat.ofDigits b ds.reverse = n

def digitValue (c : Char) : Option Nat :=
  if '0' ≤ c ∧ c ≤ '9' then some (c.toNat - 48)
  else if 'a' ≤ c ∧ c ≤ 'f' then some (c.toNat - 87)
  else if 'A' ≤ c ∧ c ≤ 'F' then some (c.toNat - 55)
  else none

/-- The number a string spells, if it is one of digits. -/
def read (b : Nat) (cs : List Char) : Option Nat :=
  (cs.mapM digitValue).bind fun ds =>
    if ds ≠ [] ∧ ∀ d ∈ ds, d < b then some (Nat.ofDigits b ds.reverse) else none

variable {b n : Nat} {cs : List Char}

/-! ## Printing -/

theorem spells_toDigits (hb : 1 < b) (n : Nat) : Spells b (Nat.toDigits b n) n := by
  induction n using Nat.strong_induction_on with
  | _ n ih =>
    rcases Nat.lt_or_ge n b with hlt | hge
    · rw [Nat.toDigits_of_lt_base hlt]
      exact ⟨[n], .cons ⟨hlt, .inl rfl⟩ .nil, List.cons_ne_nil _ _, Nat.ofDigits_singleton⟩
    · obtain ⟨ds, hds, -, hn⟩ := ih (n / b) (Nat.div_lt_self (by omega) hb)
      rw [Nat.toDigits_of_base_le hb hge]
      refine ⟨ds ++ [n % b], ?_, by simp, ?_⟩
      · exact List.rel_append hds (.cons ⟨Nat.mod_lt _ (by omega), .inl rfl⟩ .nil)
      · rw [List.reverse_append, List.reverse_singleton, List.singleton_append, Nat.ofDigits_cons, hn]
        exact Nat.mod_add_div n b

/-- A number is printed without a leading zero. -/
theorem head_toDigits (hb : 1 < b) (hn : 0 < n) : (Nat.toDigits b n).head? ≠ some '0' := by
  induction n using Nat.strong_induction_on with
  | _ n ih =>
    rcases Nat.lt_or_ge n b with hlt | hge
    · rw [Nat.toDigits_of_lt_base hlt, List.head?_cons, Ne, Option.some_inj, Nat.digitChar_eq_zero]
      omega
    · rw [Nat.toDigits_of_base_le hb hge, List.head?_append_of_ne_nil _ Nat.toDigits_ne_nil]
      exact ih (n / b) (Nat.div_lt_self hn hb) (Nat.div_pos hge (by omega))

/-- Zeros in front do not matter. -/
theorem Spells.leftpad (h : Spells b cs n) (hb : 0 < b) (w : Nat) : Spells b (cs.leftpad w '0') n := by
  obtain ⟨ds, hds, hne, hn⟩ := h
  rw [List.leftpad]
  refine ⟨List.replicate (w - cs.length) 0 ++ ds, ?_, by simp [hne], ?_⟩
  · refine List.rel_append ?_ hds
    exact List.forall₂_iff_get.mpr ⟨by simp, fun i h₁ h₂ => by simpa [CharDigit] using hb⟩
  · rw [List.reverse_append, List.reverse_replicate, Nat.ofDigits_append_replicate_zero, hn]

/-- Four digits of 16. -/
theorem spells_four {d₀ d₁ d₂ d₃ : Nat} {c₀ c₁ c₂ c₃ : Char} (h₃ : CharDigit 16 c₃ d₃) (h₂ : CharDigit 16 c₂ d₂)
    (h₁ : CharDigit 16 c₁ d₁) (h₀ : CharDigit 16 c₀ d₀) :
    Spells 16 [c₃, c₂, c₁, c₀] (d₀ + 16 * (d₁ + 16 * (d₂ + 16 * d₃))) :=
  ⟨[d₃, d₂, d₁, d₀], .cons h₃ (.cons h₂ (.cons h₁ (.cons h₀ .nil))), List.cons_ne_nil _ _, by
    simp [Nat.ofDigits_cons]⟩

/-! ## Reading -/

theorem digitValue_digitChar : ∀ d < 16, digitValue d.digitChar = some d ∧ digitValue d.digitChar.toUpper = some d := by
  decide

theorem CharDigit.value {c : Char} {d : Nat} (h : CharDigit b c d) (hb : b ≤ 16) : digitValue c = some d := by
  obtain ⟨hd, rfl | rfl⟩ := h
  · exact (digitValue_digitChar d (hd.trans_le hb)).1
  · exact (digitValue_digitChar d (hd.trans_le hb)).2

theorem Spells.ne_nil (h : Spells b cs n) : cs ≠ [] := by
  obtain ⟨ds, hds, hne, -⟩ := h
  rintro rfl
  exact hne (List.forall₂_nil_left_iff.mp hds)

theorem Spells.read (h : Spells b cs n) (hb : b ≤ 16) : read b cs = some n := by
  obtain ⟨ds, hds, hne, hn⟩ := h
  have hvalues : cs.mapM digitValue = some ds := by
    clear hne hn
    induction hds with
    | nil => rfl
    | cons hd _ ih => simp [List.mapM_cons, hd.value hb, ih]
  have hsmall : ∀ d ∈ ds, d < b := by
    clear hne hn hvalues
    induction hds with
    | nil => simp
    | cons hd _ ih => exact List.forall_mem_cons.mpr ⟨hd.1, ih⟩
  rw [Numeral.read, hvalues, Option.bind_some, if_pos ⟨hne, hsmall⟩, hn]

/-- All characters are of a class that holds the digits. -/
theorem Spells.forall_mem (h : Spells b cs n) {p : Char → Prop}
    (hp : ∀ d < b, p d.digitChar ∧ p d.digitChar.toUpper) : ∀ c ∈ cs, p c := by
  obtain ⟨ds, hds, -, -⟩ := h
  induction hds with
  | nil => simp
  | @cons c d _ _ hd _ ih =>
    refine List.forall_mem_cons.mpr ⟨?_, ih⟩
    obtain ⟨hlt, rfl | rfl⟩ := hd
    · exact (hp d hlt).1
    · exact (hp d hlt).2

end Lib.Numeral

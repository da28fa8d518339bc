-- SUMMARY: Cyclic redundancy checks of any width as shift registers, and the error bursts they detect.
import Mathlib.Tactic

/-!
# CRC shift registers

A register of `n` bits takes one bit a step: it moves up by one, and where the bit
and the one that falls out differ the polynomial is added. The polynomials here
have a constant term, so the lowest bit of the register tells which of the two
happened. That is all the error detection rests on.
-/

namespace Lib.Crc

variable {n : Nat}

/-- One bit into the register. -/
def step (p s : BitVec n) (b : Bool) : BitVec n :=
  (s <<< 1) ^^^ if b ^^ s.msb then p else 0#n

def run (p s : BitVec n) (bits : List Bool) : BitVec n := bits.foldl (step p) s

variable {p s t : BitVec n} {b c : Bool}

@[simp] theorem run_nil (p s : BitVec n) : run p s [] = s := rfl

@[simp] theorem run_cons (p s : BitVec n) (b : Bool) (bits : List Bool) :
    run p s (b :: bits) = run p (step p s b) bits := rfl

@[simp] theorem run_append (p s : BitVec n) (xs ys : List Bool) :
    run p s (xs ++ ys) = run p (run p s xs) ys := List.foldl_append

/-! ## The lowest bit -/

/-- The lowest bit tells whether the polynomial was added. -/
theorem step_lsb (hp : p.getLsbD 0 = true) (s : BitVec n) (b : Bool) :
    (step p s b).getLsbD 0 = (b ^^ s.msb) := by
  rw [step, BitVec.getLsbD_xor, BitVec.getLsbD_shiftLeft]
  cases b ^^ s.msb <;> simp [hp]

/-- Registers that agree in their low bits behind a step did so in front of it,
but for the lowest. -/
theorem step_low (hp : p.getLsbD 0 = true) {m : Nat}
    (h : ∀ i < m + 1, (step p s b).getLsbD i = (step p t c).getLsbD i) :
    (b ^^ s.msb) = (c ^^ t.msb) ∧ ∀ i < m, i + 1 < n → s.getLsbD i = t.getLsbD i := by
  have hadd : (b ^^ s.msb) = (c ^^ t.msb) := by
    rw [← step_lsb hp, ← step_lsb hp, h 0 (Nat.succ_pos _)]
  refine ⟨hadd, fun i hi hin => ?_⟩
  have hbit := h (i + 1) (Nat.succ_lt_succ hi)
  rw [step, step, hadd, BitVec.getLsbD_xor, BitVec.getLsbD_xor, Bool.xor_left_inj] at hbit
  simpa [hin, BitVec.getLsbD_eq_getElem (Nat.lt_of_succ_lt hin)] using hbit

/-- A bit does not make two registers equal. -/
theorem step_inj (hp : p.getLsbD 0 = true) (h : step p s b = step p t b) : s = t := by
  obtain ⟨hadd, hlow⟩ := step_low hp (m := n) fun i _ => congrArg (BitVec.getLsbD · i) h
  have htop : s.msb = t.msb := by simpa using hadd
  refine BitVec.eq_of_getLsbD_eq fun i hi => ?_
  rcases Nat.lt_or_ge (i + 1) n with hin | hin
  · exact hlow i hi hin
  · obtain rfl : i = n - 1 := by omega
    simpa [BitVec.msb_eq_getLsbD_last] using htop

theorem run_inj (hp : p.getLsbD 0 = true) {bits : List Bool} (h : run p s bits = run p t bits) : s = t := by
  induction bits generalizing s t with
  | nil => exact h
  | cons b bits ih => exact step_inj hp (ih h)

/-! ## Bursts -/

/-- Registers that end equal behind `k` bits each agreed in all but `k` bits. -/
theorem run_low (hp : p.getLsbD 0 = true) {xs ys : List Bool} (hlen : xs.length = ys.length)
    (h : run p s xs = run p t ys) : ∀ i, i + xs.length < n → s.getLsbD i = t.getLsbD i := by
  induction xs generalizing s t ys with
  | nil =>
    obtain rfl := List.length_eq_zero_iff.mp hlen.symm
    exact fun i _ => congrArg (BitVec.getLsbD · i) h
  | cons x xs ih =>
    obtain ⟨y, ys, rfl⟩ := List.exists_cons_of_length_eq_add_one hlen.symm
    intro i hi
    rw [List.length_cons] at hi
    have hlow : ∀ j < i + 1 + 1, (step p s x).getLsbD j = (step p t y).getLsbD j := by
      intro j hj
      exact ih (Nat.succ_injective hlen) h j (by omega)
    exact (step_low hp hlow).2 i (Nat.lt_succ_self i) (by omega)

/-- As many bits as the register is wide leave it different wherever they differ. -/
theorem eq_of_run_eq (hp : p.getLsbD 0 = true) {xs ys : List Bool} (hlen : xs.length = ys.length)
    (hwidth : xs.length ≤ n) (h : run p s xs = run p s ys) : xs = ys := by
  induction xs generalizing s ys with
  | nil => exact (List.length_eq_zero_iff.mp hlen.symm).symm
  | cons x xs ih =>
    obtain ⟨y, ys, rfl⟩ := List.exists_cons_of_length_eq_add_one hlen.symm
    rw [List.length_cons] at hwidth
    have hlow := run_low hp (Nat.succ_injective hlen) h 0 (by omega)
    rw [step_lsb hp, step_lsb hp, Bool.xor_left_inj] at hlow
    subst hlow
    rw [ih (Nat.succ_injective hlen) (by omega) h]

/-- Two messages that differ in one burst, no longer than the register is wide,
leave it different. -/
theorem eq_of_burst (hp : p.getLsbD 0 = true) {front xs ys back : List Bool} (hlen : xs.length = ys.length)
    (hwidth : xs.length ≤ n) (h : run p s (front ++ xs ++ back) = run p s (front ++ ys ++ back)) : xs = ys := by
  rw [run_append, run_append _ _ (front ++ ys), run_append, run_append] at h
  exact eq_of_run_eq hp hlen hwidth (run_inj hp h)

/-! ## The check appended -/

/-- The register's own top bits only move it up. -/
theorem run_own (p s : BitVec n) (k : Nat) :
    run p s ((List.range k).map fun i => s.getMsbD i) = s <<< k := by
  induction k with
  | zero => simp
  | succ k ih =>
    rw [List.range_succ, List.map_append, run_append, ih, List.map_singleton, run_cons, run_nil, step,
      BitVec.msb_shiftLeft, Bool.xor_self, if_neg Bool.false_ne_true, BitVec.xor_zero, ← BitVec.shiftLeft_add]

/-- A register shifted out behind itself is empty. -/
theorem run_self (p s : BitVec n) : run p s ((List.range n).map fun i => s.getMsbD i) = 0#n := by
  rw [run_own, BitVec.shiftLeft_eq_zero le_rfl]

end Lib.Crc

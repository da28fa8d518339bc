-- SUMMARY: The CAN CRC-15 as a shift register: an appended CRC checks to 0, and an error burst of up to 15 bits does not.
import Mathlib.Tactic
import Tapioca.Lib.Crc
import Tapioca.Host.CanParse

/-!
# The strength of the CRC

`can_crc15` is the 15-bit register of the polynomial `0x4599`, which is odd. So what
two messages leave in it differs whenever they differ in one burst it can hold.
-/

namespace Tapioca.Host.CanRle

open Lib.Bits (toBits)

/-- `x ^ 15` left out. -/
def poly : BitVec 15 := 0x4599

theorem toNat_step (s : BitVec 15) (b : Bool) : (Lib.Crc.step poly s b).toNat = crcStep s.toNat b := by
  have hmsb : s.toNat.testBit 14 = s.msb := by
    rw [BitVec.testBit_toNat, BitVec.msb_eq_getLsbD_last]
  have hshift : (s <<< 1).toNat = (s.toNat <<< 1) &&& 0x7FFF := by
    rw [BitVec.toNat_shiftLeft]
    exact (Nat.and_two_pow_sub_one_eq_mod _ 15).symm
  rw [Lib.Crc.step, crcStep, BitVec.toNat_xor, hshift, hmsb]
  cases b ^^ s.msb
  · exact Nat.xor_zero _
  · rfl

theorem canCrc15_eq (bits : List Bool) : canCrc15 bits = (Lib.Crc.run poly 0 bits).toNat := by
  induction bits using List.reverseRecOn with
  | nil => rfl
  | append_singleton bits b ih =>
    rw [Lib.Crc.run_append, Lib.Crc.run_cons, Lib.Crc.run_nil, toNat_step, ← ih, canCrc15, List.foldl_append]
    rfl

theorem poly_odd : poly.getLsbD 0 = true := rfl

/-- A register written out, most significant bit first. -/
theorem toBits_toNat (s : BitVec 15) : toBits 15 s.toNat = (List.range 15).map fun i => s.getMsbD i := by
  refine List.map_congr_left fun i hi => ?_
  rw [BitVec.testBit_toNat, BitVec.getMsbD, decide_eq_true (List.mem_range.mp hi), Bool.true_and]

theorem canCrc15_append_self (m : List Bool) : canCrc15 (crcBits m) = 0 := by
  rw [crcBits, canCrc15_eq, canCrc15_eq, toBits_toNat, Lib.Crc.run_append, Lib.Crc.run_self]
  rfl

/-- The positions in which two messages differ lie within `n` bits behind the first `a`. -/
def Burst (n a : Nat) (w w' : List Bool) : Prop := ∀ i, w[i]? ≠ w'[i]? → a ≤ i ∧ i < a + n

theorem Burst.split {n a : Nat} {w w' : List Bool} (h : Burst n a w w') :
    w.take a = w'.take a ∧ w.drop (a + n) = w'.drop (a + n) := by
  constructor <;> refine List.ext_getElem? fun i => ?_
  · rw [List.getElem?_take, List.getElem?_take]
    split
    · by_contra hne
      have := h i hne
      omega
    · rfl
  · rw [List.getElem?_drop, List.getElem?_drop]
    by_contra hne
    have := h _ hne
    omega

theorem take_append_burst (n a : Nat) (w : List Bool) :
    w.take a ++ (w.drop a).take n ++ w.drop (a + n) = w := by
  rw [List.append_assoc, ← List.drop_drop, List.take_append_drop, List.take_append_drop]

theorem eq_of_burst {a : Nat} {w w' : List Bool} (hcrc : canCrc15 w' = canCrc15 w) (hlen : w'.length = w.length)
    (h : Burst 15 a w w') : w' = w := by
  obtain ⟨hfront, hback⟩ := h.split
  rw [canCrc15_eq, canCrc15_eq] at hcrc
  have hrun := BitVec.eq_of_toNat_eq hcrc
  rw [← take_append_burst 15 a w, ← take_append_burst 15 a w', hfront, hback] at hrun ⊢
  have hwidth : ((w'.drop a).take 15).length ≤ 15 := List.length_take_le 15 _
  -- outside the 15 bits the words agree, and inside the register cannot hide a difference
  have hmid : ((w'.drop a).take 15).length = ((w.drop a).take 15).length := by simp [hlen]
  rw [Lib.Crc.eq_of_burst poly_odd hmid hwidth hrun]

/-- The CRC appended checks, and what differs from a message that checks within 15
consecutive bits does not. -/
theorem canCrc15_detects_burst :
    (∀ m, canCrc15 (crcBits m) = 0) ∧
      ∀ w w' : List Bool, canCrc15 w = 0 → w'.length = w.length → w' ≠ w → (∃ a, Burst 15 a w w') →
        canCrc15 w' ≠ 0 := by
  refine ⟨canCrc15_append_self, ?_⟩
  rintro w w' hw hlen hne ⟨a, hburst⟩ hw'
  exact hne (eq_of_burst (hw'.trans hw.symm) hlen hburst)

theorem canCrc15_detects_burst_three : canCrc15 [true, false, true] ≠ 0 := by
  refine canCrc15_detects_burst.2 [false, false, false] _ rfl rfl (by decide) ⟨0, fun i hne => ?_⟩
  rcases i with _ | _ | _ | i
  · decide
  · decide
  · decide
  · exact absurd rfl hne

end Tapioca.Host.CanRle

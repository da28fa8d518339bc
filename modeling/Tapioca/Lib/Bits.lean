-- SUMMARY: Most-significant-first bit lists and the numbers they spell.
import Mathlib.Tactic

/-!
# Bit lists

Numbers as lists of bits, most significant bit first, in the order a serial
line delivers them. `ofBits` reads a list as a number and `toBits` writes a
number into a list of a given width.
-/

namespace Lib.Bits

/-- The number a bit list spells, most significant bit first. -/
def ofBits (bs : List Bool) : Nat :=
  bs.foldl (fun v b => 2 * v + b.toNat) 0

/-- The low `w` bits of `n`, most significant bit first. -/
def toBits (w n : Nat) : List Bool :=
  (List.range w).map (fun i => n.testBit (w - 1 - i))

@[simp] theorem ofBits_nil : ofBits [] = 0 := rfl

@[simp] theorem ofBits_concat (bs : List Bool) (b : Bool) :
    ofBits (bs ++ [b]) = 2 * ofBits bs + b.toNat := by
  simp [ofBits]

@[simp] theorem length_toBits (w n : Nat) : (toBits w n).length = w := by
  simp [toBits]

theorem ofBits_append (as bs : List Bool) :
    ofBits (as ++ bs) = ofBits as * 2 ^ bs.length + ofBits bs := by
  induction bs using List.reverseRecOn with
  | nil => simp
  | append_singleton bs b ih =>
    rw [← List.append_assoc, ofBits_concat, ih, ofBits_concat, List.length_append,
      List.length_singleton, pow_succ]
    ring

@[simp] theorem ofBits_replicate_false (n : Nat) : ofBits (List.replicate n false) = 0 := by
  induction n with
  | zero => rfl
  | succ n ih => rw [List.replicate_succ', ofBits_concat, ih]; rfl

theorem ofBits_cons_true (bs : List Bool) : ofBits (true :: bs) = 2 ^ bs.length + ofBits bs := by
  have h := ofBits_append [true] bs
  simpa [ofBits] using h

/-- Appending a bit to the number appends it to the list. -/
theorem toBits_succ (w v : Nat) (b : Bool) :
    toBits (w + 1) (2 * v + b.toNat) = toBits w v ++ [b] := by
  unfold toBits
  rw [List.range_succ, List.map_append, List.map_singleton]
  congr 1
  · refine List.map_congr_left fun i hi => ?_
    have hi : i < w := List.mem_range.mp hi
    have hidx : w + 1 - 1 - i = (w - 1 - i) + 1 := by omega
    have hdiv : (2 * v + b.toNat) / 2 = v := by
      have := Bool.toNat_le b
      omega
    rw [hidx, Nat.testBit_succ, hdiv]
  · cases b <;> simp [Nat.testBit_zero]

/-- The low bits of a number do not see a reduction above them. -/
theorem toBits_mod {w m : Nat} (h : w ≤ m) (n : Nat) : toBits w (n % 2 ^ m) = toBits w n := by
  refine List.map_congr_left fun i hi => ?_
  have hi : i < w := List.mem_range.mp hi
  rw [Nat.testBit_mod_two_pow, decide_eq_true (by omega), Bool.true_and]

/-- Writing out the number a list spells gives the list back. -/
theorem toBits_ofBits (bs : List Bool) : toBits bs.length (ofBits bs) = bs := by
  induction bs using List.reverseRecOn with
  | nil => rfl
  | append_singleton bs b ih =>
    rw [List.length_append, List.length_singleton, ofBits_concat, toBits_succ, ih]

/-- The number a written-out number spells is its reduction to the width. -/
theorem ofBits_toBits (w n : Nat) : ofBits (toBits w n) = n % 2 ^ w := by
  induction w generalizing n with
  | zero => simp [toBits, Nat.mod_one]
  | succ w ih =>
    have hn : 2 * (n / 2) + (n.testBit 0).toNat = n := by
      rw [Nat.testBit_zero]
      by_cases h : n % 2 = 1
      · simp only [h, decide_true, Bool.toNat_true]
        omega
      · simp only [h, decide_false, Bool.toNat_false]
        omega
    have hsplit := toBits_succ w (n / 2) (n.testBit 0)
    rw [hn] at hsplit
    rw [hsplit, ofBits_concat, ih, pow_succ', Nat.mod_mul]
    have hbit : (n.testBit 0).toNat = n % 2 := by omega
    rw [hbit]
    omega

/-- The high bits of a number, then its low bits. -/
theorem toBits_add (w k n : Nat) : toBits (w + k) n = toBits w (n / 2 ^ k) ++ toBits k n := by
  have hlen : (toBits w (n / 2 ^ k) ++ toBits k n).length = w + k := by simp
  have hn : ofBits (toBits w (n / 2 ^ k) ++ toBits k n) = n % 2 ^ (w + k) := by
    rw [ofBits_append, ofBits_toBits, ofBits_toBits, length_toBits, add_comm w k, pow_add,
      Nat.mod_mul]
    ring
  rw [← toBits_mod le_rfl n, ← hn, ← hlen, toBits_ofBits]

/-- A mask keeps a byte's low bits. -/
theorem and_mask {k : Nat} (hk : k ≤ 8) (n : Nat) :
    UInt8.ofNat n &&& UInt8.ofNat (2 ^ k - 1) = UInt8.ofNat (n % 2 ^ k) := by
  have hpow : 2 ^ k ≤ 2 ^ 8 := Nat.pow_le_pow_right (by omega) hk
  have hdvd : 2 ^ k ∣ 2 ^ 8 := Nat.pow_dvd_pow 2 hk
  have hpos := Nat.two_pow_pos k
  have hlow := Nat.mod_lt n hpos
  refine UInt8.toNat_inj.mp ?_
  rw [UInt8.toNat_and, UInt8.toNat_ofNat', UInt8.toNat_ofNat', UInt8.toNat_ofNat',
    Nat.mod_eq_of_lt (a := 2 ^ k - 1) (by omega), Nat.and_two_pow_sub_one_eq_mod,
    Nat.mod_mod_of_dvd n hdvd, Nat.mod_eq_of_lt (a := n % 2 ^ k) (by omega)]

theorem or_and_mask (x y m : UInt8) : (x ||| y) &&& m = x &&& m ||| y &&& m := by
  refine UInt8.toBitVec_inj.1 ?_
  simp only [UInt8.toBitVec_and, UInt8.toBitVec_or]
  ext i
  simp [Bool.and_or_distrib_right]

end Lib.Bits

-- SUMMARY: The hand-rolled 2 KB staging ring of the run-length sniffer.
import Tapioca.Lib.SlotRing

/-!
# The RAM ring

`RleSniffer` keeps its own ring instead of `Ring<>`: 16-bit indices, masked on
every access, one slot always free. The drain ISR appends behind `head_`, the
main loop releases from `tail_`.
-/

namespace Tapioca

open Lib.SlotRing

structure RamRing where
  mem : Nat → UInt8
  head : UInt16
  tail : UInt16

namespace RamRing

def RING_SZ : Nat := 2048
def RING_MASK : UInt16 := 2047

/-- `ringCount()`. -/
def count (r : RamRing) : Nat := ((r.head - r.tail) &&& RING_MASK).toNat

/-- `ringSpace()`. -/
def space (r : RamRing) : Nat := RING_MASK.toNat - r.count

/-- `head_ = tail_ = 0`. -/
def clear (r : RamRing) : RamRing := { r with head := 0, tail := 0 }

/-- The byte `i` behind the tail. -/
def peek (r : RamRing) (i : Nat) : UInt8 := r.mem ((r.tail.toNat + i) % RING_SZ)

/-- `ring_[(head_ + i) & RING_MASK] = bs[i]`, then `head_ += n`. -/
def append (r : RamRing) (bs : List UInt8) : RamRing :=
  { r with mem := storeAll RING_SZ r.mem r.head.toNat bs, head := r.head + UInt16.ofNat bs.length }

/-- `tail_ += n`. -/
def release (r : RamRing) (n : Nat) : RamRing := { r with tail := r.tail + UInt16.ofNat n }

/-- What is queued, oldest first. -/
def contents (r : RamRing) : List UInt8 := window RING_SZ r.mem r.tail.toNat r.count

theorem count_eq (r : RamRing) : r.count = (r.head - r.tail).toNat % 2048 := by
  have hmask : RING_MASK.toNat = 2 ^ 11 - 1 := rfl
  rw [count, UInt16.toNat_and, hmask, Nat.and_two_pow_sub_one_eq_mod]

theorem count_le (r : RamRing) : r.count ≤ 2047 := by
  rw [count_eq]
  omega

theorem space_eq (r : RamRing) : r.space = 2047 - r.count := by
  rw [space]
  rfl

@[simp] theorem length_contents (r : RamRing) : r.contents.length = r.count := length_window ..

@[simp] theorem contents_clear (r : RamRing) : r.clear.contents = [] := by
  have hzero : ((0 : UInt16) - 0).toNat % 2048 = 0 := by decide
  have hcount : r.clear.count = 0 := (count_eq _).trans hzero
  rw [contents, hcount, window_zero]

theorem peek_eq (r : RamRing) {i : Nat} (h : i < r.count) : r.contents[i]? = some (r.peek i) := by
  rw [contents, window, List.getElem?_map, List.getElem?_range h]
  rfl

/-- An index moved on by `n`, under the mask. -/
theorem toNat_add_mod (pos : UInt16) (n : Nat) :
    (pos + UInt16.ofNat n).toNat % 2048 = (pos.toNat + n) % 2048 := by
  rw [UInt16.toNat_add, UInt16.toNat_ofNat']
  omega

theorem count_append (r : RamRing) {bs : List UInt8} (h : bs.length ≤ r.space) :
    (r.append bs).count = r.count + bs.length := by
  have hswap : r.head + UInt16.ofNat bs.length - r.tail =
      r.head - r.tail + UInt16.ofNat bs.length := by grind
  have hmoved := toNat_add_mod (r.head - r.tail) bs.length
  rw [space_eq, count_eq] at h
  rw [count_eq, count_eq, append]
  simp only [hswap]
  omega

theorem count_release (r : RamRing) {n : Nat} (h : n ≤ r.count) :
    (r.release n).count = r.count - n := by
  have hswap : r.head - r.tail = r.head - (r.tail + UInt16.ofNat n) + UInt16.ofNat n := by grind
  have hmoved := toNat_add_mod (r.head - (r.tail + UInt16.ofNat n)) n
  rw [← hswap] at hmoved
  rw [count_eq] at h ⊢
  rw [count_eq, release]
  simp only
  omega

theorem contents_append (r : RamRing) {bs : List UInt8} (h : bs.length ≤ r.space) :
    (r.append bs).contents = r.contents ++ bs := by
  have hroom : r.count + bs.length ≤ RING_SZ := by
    have hcount := r.count_le
    rw [space_eq] at h
    rw [RING_SZ]
    omega
  have hstart : r.head.toNat % RING_SZ = (r.tail.toNat + r.count) % RING_SZ := by
    have hhead : r.head = r.tail + UInt16.ofNat (r.head - r.tail).toNat := by
      rw [UInt16.ofNat_toNat]
      grind
    have hmoved := toNat_add_mod r.tail (r.head - r.tail).toNat
    rw [← hhead] at hmoved
    rw [RING_SZ, hmoved, count_eq, Nat.add_mod_mod]
  rw [contents, count_append r h, append, storeAll_congr _ _ hstart, window_storeAll _ _ hroom]
  rfl

theorem contents_release (r : RamRing) {n : Nat} (h : n ≤ r.count) :
    (r.release n).contents = r.contents.drop n := by
  rw [contents, contents, drop_window _ _ h, count_release r h]
  exact window_congr _ (toNat_add_mod r.tail n) _

end RamRing

end Tapioca

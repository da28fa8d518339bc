-- SUMMARY: The staging ring `Ring<Capacity, T>` of `util/ring.hpp` and the queue it holds.
import Tapioca.Lib.SlotRing

/-!
# The staging ring

`Ring<Capacity, T>`: free-running 32-bit indices over a backing buffer. The
structure carries the ring's invariant, that it never holds more than its
capacity. `contents` is the queue it stands for; when the capacity divides
`2 ^ 32` (a power of two, the case of the staging rings here), a push appends
to it and a commit drops from its front.
-/

namespace Tapioca

open Lib.SlotRing

variable {α : Type*} {cap : Nat}

structure Ring (cap : Nat) (α : Type*) where
  head : UInt32
  tail : UInt32
  buf : Nat → α
  size_le : (head - tail).toNat ≤ cap

namespace Ring

def size (r : Ring cap α) : Nat := (r.head - r.tail).toNat

def free (r : Ring cap α) : Nat := cap - r.size

/-- A power-of-two capacity masks, any other takes the remainder; the value is
the same. -/
def index (cap : Nat) (pos : UInt32) : Nat := pos.toNat % cap

def clear (r : Ring cap α) : Ring cap α where
  head := 0
  tail := 0
  buf := r.buf
  size_le := Nat.zero_le _

/-- The loop of `copyIn` from position `h` on. -/
def copyIn (cap : Nat) (buf : Nat → α) (h : UInt32) : List α → Nat → α
  | [] => buf
  | x :: src => copyIn cap (Function.update buf (index cap h) x) (h + 1) src

theorem sub_toNat_add (head tail : UInt32) (n : Nat) :
    (head + UInt32.ofNat n - tail).toNat = ((head - tail).toNat + n) % 2 ^ 32 := by
  have h : head + UInt32.ofNat n - tail = head - tail + UInt32.ofNat n := by grind
  rw [h, UInt32.toNat_add, UInt32.toNat_ofNat', Nat.add_mod_mod]

theorem sub_toNat_sub (head tail : UInt32) {n : Nat} (h : n ≤ (head - tail).toNat) :
    (head - (tail + UInt32.ofNat n)).toNat = (head - tail).toNat - n := by
  have hn : (UInt32.ofNat n).toNat = n := by
    rw [UInt32.toNat_ofNat', Nat.mod_eq_of_lt (h.trans_lt (UInt32.toNat_lt _))]
  have hsub : head - (tail + UInt32.ofNat n) = head - tail - UInt32.ofNat n := by grind
  rw [hsub, UInt32.toNat_sub_of_le _ _ (by rw [UInt32.le_iff_toNat_le, hn]; exact h), hn]

/-- The whole block or nothing; the flag says which. -/
def pushAll (r : Ring cap α) (src : List α) : Bool × Ring cap α :=
  if h : r.free < src.length then (false, r)
  else
    (true,
      { head := r.head + UInt32.ofNat src.length
        tail := r.tail
        buf := copyIn cap r.buf r.head src
        size_le := by
          have := r.size_le
          rw [sub_toNat_add]
          refine (Nat.mod_le _ _).trans ?_
          simp only [free, size] at h
          omega })

def readContig (r : Ring cap α) : Nat := min r.size (cap - index cap r.tail)

/-- The first `n` items behind `readPtr`. -/
def readPtr (r : Ring cap α) (n : Nat) : List α :=
  (List.range n).map fun i => r.buf (index cap r.tail + i)

def readCommit (r : Ring cap α) (n : Nat) (h : n ≤ r.size) : Ring cap α where
  head := r.head
  tail := r.tail + UInt32.ofNat n
  buf := r.buf
  size_le := (sub_toNat_sub r.head r.tail h).trans_le ((Nat.sub_le _ _).trans r.size_le)

theorem size_le_of_add_le_free (r : Ring cap α) {n : Nat} (h : n ≤ r.free) :
    (r.head + UInt32.ofNat n - r.tail).toNat ≤ cap := by
  have := r.size_le
  rw [sub_toNat_add]
  refine (Nat.mod_le _ _).trans ?_
  simp only [free, size] at h
  omega

/-- As much of the block as fits; the count says how much. -/
def push (r : Ring cap α) (src : List α) : Nat × Ring cap α :=
  let n := min r.free src.length
  (n,
    { head := r.head + UInt32.ofNat n
      tail := r.tail
      buf := copyIn cap r.buf r.head (src.take n)
      size_le := r.size_le_of_add_le_free (min_le_left _ _) })

/-- Up to `len` items, oldest first. -/
def pop (r : Ring cap α) (len : Nat) : List α × Ring cap α :=
  let n := min r.size len
  ((List.range n).map fun i => r.buf (index cap (r.tail + UInt32.ofNat i)),
    r.readCommit n (min_le_left _ _))

def freeContig (r : Ring cap α) : Nat := min r.free (cap - index cap r.head)

/-- The first `n` slots behind `writePtr`. -/
def writePtr (r : Ring cap α) (n : Nat) : List α :=
  (List.range n).map fun i => r.buf (index cap r.head + i)

/-- A write through `writePtr`, which leaves the indices alone. -/
def poke (r : Ring cap α) (i : Nat) (x : α) : Ring cap α where
  head := r.head
  tail := r.tail
  buf := Function.update r.buf (index cap r.head + i) x
  size_le := r.size_le

def writeCommit (r : Ring cap α) (n : Nat) (h : n ≤ r.free) : Ring cap α where
  head := r.head + UInt32.ofNat n
  tail := r.tail
  buf := r.buf
  size_le := r.size_le_of_add_le_free h

-- ---------------------------------------------------------------------------
-- The queue
-- ---------------------------------------------------------------------------

/-- The items waiting in the ring, oldest first. -/
def contents (r : Ring cap α) : List α :=
  (List.range r.size).map fun i => r.buf (index cap (r.tail + UInt32.ofNat i))

@[simp] theorem length_contents (r : Ring cap α) : r.contents.length = r.size := by
  simp [contents]

theorem contents_eq_nil {r : Ring cap α} (h : r.size = 0) : r.contents = [] := by
  rw [contents, h]
  rfl

@[simp] theorem contents_clear (r : Ring cap α) : r.clear.contents = [] :=
  contents_eq_nil (by simp [size, clear])

theorem free_eq (r : Ring cap α) : r.free = cap - r.contents.length := by
  rw [free, length_contents]

theorem index_add (hcap : cap ∣ 2 ^ 32) (pos : UInt32) (i : Nat) :
    index cap (pos + UInt32.ofNat i) = (pos.toNat + i) % cap := by
  rw [index, UInt32.toNat_add, UInt32.toNat_ofNat', Nat.add_mod_mod, Nat.mod_mod_of_dvd _ hcap]

theorem contents_eq_window (hcap : cap ∣ 2 ^ 32) (r : Ring cap α) :
    r.contents = window cap r.buf r.tail.toNat r.size :=
  List.map_congr_left fun i _ => congrArg r.buf (index_add hcap r.tail i)

theorem head_eq (r : Ring cap α) : r.head = r.tail + UInt32.ofNat r.size := by
  rw [size, UInt32.ofNat_toNat]
  grind

/-- Where the slots do not jump at the wrap, the loop stores one value after the other. -/
theorem copyIn_eq_storeAll (hcap : cap ∣ 2 ^ 32) (buf : Nat → α) (pos : UInt32) (src : List α) :
    copyIn cap buf pos src = storeAll cap buf pos.toNat src := by
  induction src generalizing buf pos with
  | nil => rfl
  | cons x src ih =>
    rw [copyIn, ih, storeAll, index]
    exact storeAll_congr _ _ (index_add hcap pos 1)

/-- Copying in behind a window extends it. -/
theorem window_copyIn (hcap : cap ∣ 2 ^ 32) (buf : Nat → α) (t : UInt32) (n : Nat) (src : List α)
    (h : n + src.length ≤ cap) :
    window cap (copyIn cap buf (t + UInt32.ofNat n) src) t.toNat (n + src.length) =
      window cap buf t.toNat n ++ src := by
  rw [copyIn_eq_storeAll hcap, storeAll_congr _ _ (index_add hcap t n), window_storeAll _ _ h]

/-- A push that fits appends to the queue. -/
theorem contents_pushAll (hcap : cap ∣ 2 ^ 32) (hmax : cap ≤ 2 ^ 31) (r : Ring cap α)
    (src : List α) (h : src.length ≤ r.free) :
    (r.pushAll src).1 = true ∧ (r.pushAll src).2.contents = r.contents ++ src := by
  have hroom : r.size + src.length ≤ cap := by
    have := r.size_le
    simp only [free, size] at h ⊢
    omega
  rw [pushAll, dif_neg (Nat.not_lt.mpr h)]
  refine ⟨rfl, ?_⟩
  have hsize : (r.head + UInt32.ofNat src.length - r.tail).toNat = r.size + src.length := by
    rw [sub_toNat_add]
    exact Nat.mod_eq_of_lt (by simp only [size] at hroom; omega)
  have hcopy := window_copyIn hcap r.buf r.tail r.size src hroom
  rw [← r.head_eq] at hcopy
  rw [contents_eq_window hcap, contents_eq_window hcap, ← hcopy]
  simp only [size, hsize]

theorem free_pushAll (hcap : cap ∣ 2 ^ 32) (hmax : cap ≤ 2 ^ 31) (r : Ring cap α) (src : List α)
    (h : src.length ≤ r.free) : (r.pushAll src).2.free = r.free - src.length := by
  rw [free_eq, (r.contents_pushAll hcap hmax src h).2, List.length_append, free_eq, Nat.sub_sub]

theorem tail_pushAll (r : Ring cap α) (src : List α) : (r.pushAll src).2.tail = r.tail := by
  unfold pushAll
  split <;> rfl

/-- A push that does not fit changes nothing. -/
theorem pushAll_full (r : Ring cap α) (src : List α) (h : r.free < src.length) :
    r.pushAll src = (false, r) := dif_pos h

/-- The bytes behind the read pointer, up to the wrap, are the front of the queue. -/
theorem readPtr_eq (hcap : cap ∣ 2 ^ 32) (r : Ring cap α) {n : Nat} (h : n ≤ r.readContig) :
    r.readPtr n = r.contents.take n := by
  have hn : n ≤ r.size := h.trans (min_le_left _ _)
  have hwrap : n ≤ cap - index cap r.tail := h.trans (min_le_right _ _)
  rw [contents_eq_window hcap, take_window _ _ hn]
  refine List.map_congr_left fun i hi => congrArg r.buf ?_
  have hi : i < n := List.mem_range.mp hi
  rw [Nat.add_mod, ← index, Nat.mod_eq_of_lt (b := cap) (by omega : i < cap)]
  exact (Nat.mod_eq_of_lt (by omega)).symm

theorem size_readCommit (r : Ring cap α) {n : Nat} (h : n ≤ r.size) :
    (r.readCommit n h).size = r.size - n := sub_toNat_sub r.head r.tail h

/-- A commit drops from the front. -/
theorem contents_readCommit (hcap : cap ∣ 2 ^ 32) (r : Ring cap α) {n : Nat} (h : n ≤ r.size) :
    (r.readCommit n h).contents = r.contents.drop n := by
  have htail : (r.tail + UInt32.ofNat n).toNat % cap = (r.tail.toNat + n) % cap :=
    index_add hcap r.tail n
  rw [contents_eq_window hcap, contents_eq_window hcap, drop_window _ _ h, size_readCommit _ h]
  exact window_congr _ htail _

-- ---------------------------------------------------------------------------
-- Partial transfers and the reserved stretch
-- ---------------------------------------------------------------------------

theorem push_eq (r : Ring cap α) (src : List α) :
    (r.push src).2 = (r.pushAll (src.take (r.push src).1)).2 := by
  have hlen : (src.take (min r.free src.length)).length = min r.free src.length := by
    rw [List.length_take]
    omega
  rw [pushAll, dif_neg (by simp only [push, hlen]; omega)]
  simp only [push, hlen]

/-- A push appends what it accepts. -/
theorem contents_push (hcap : cap ∣ 2 ^ 32) (hmax : cap ≤ 2 ^ 31) (r : Ring cap α)
    (src : List α) : (r.push src).2.contents = r.contents ++ src.take (r.push src).1 := by
  rw [push_eq]
  refine (r.contents_pushAll hcap hmax _ ?_).2
  rw [List.length_take]
  simp only [push]
  omega

theorem push_fits (r : Ring cap α) (src : List α) (h : src.length ≤ r.free) :
    (r.push src).1 = src.length := min_eq_right h

/-- A pop hands out the front of the queue … -/
theorem pop_fst (r : Ring cap α) (len : Nat) : (r.pop len).1 = r.contents.take len := by
  rw [contents, ← List.map_take, List.take_range, Nat.min_comm]
  rfl

/-- … and leaves the rest. -/
theorem contents_pop (hcap : cap ∣ 2 ^ 32) (r : Ring cap α) (len : Nat) :
    (r.pop len).2.contents = r.contents.drop len := by
  have hdrop : (r.pop len).2.contents = r.contents.drop (min r.size len) :=
    r.contents_readCommit hcap (min_le_left _ _)
  rw [hdrop]
  rcases Nat.le_total len r.size with h | h
  · rw [min_eq_right h]
  · rw [min_eq_left h, List.drop_of_length_le (by simp), List.drop_of_length_le (by simpa)]

/-- The write pointer plus `i` is the slot of the `i`-th item to come. -/
theorem writePtr_add (hcap : cap ∣ 2 ^ 32) (r : Ring cap α) {i : Nat} (h : i < r.freeContig) :
    index cap r.head + i = (r.tail.toNat + r.size + i) % cap := by
  have hwrap : i < cap - index cap r.head := Nat.lt_of_lt_of_le h (min_le_right _ _)
  have hhead : index cap r.head = (r.tail.toNat + r.size) % cap := by
    rw [r.head_eq, index_add hcap]
  rw [hhead] at hwrap ⊢
  rw [Nat.add_mod _ i, Nat.mod_eq_of_lt (b := cap) (by omega : i < cap)]
  exact (Nat.mod_eq_of_lt (by omega)).symm

theorem freeContig_le_free (r : Ring cap α) : r.freeContig ≤ r.free := min_le_left _ _

/-- What is written into the reserved stretch is not in the queue yet. -/
theorem contents_poke (hcap : cap ∣ 2 ^ 32) (r : Ring cap α) {i : Nat} (h : i < r.freeContig)
    (x : α) : (r.poke i x).contents = r.contents := by
  have hfree := Nat.lt_of_lt_of_le h r.freeContig_le_free
  rw [contents_eq_window hcap, contents_eq_window hcap]
  simp only [poke, r.writePtr_add hcap h]
  refine window_update _ _ ?_ ?_
  · simp only [size]
    omega
  · simp only [free] at hfree
    omega

theorem writePtr_take (r : Ring cap α) {n m : Nat} (h : n ≤ m) :
    r.writePtr n = (r.writePtr m).take n := by
  rw [writePtr, writePtr, ← List.map_take, List.take_range, min_eq_left h]

theorem writePtr_poke (r : Ring cap α) (i n : Nat) (x : α) :
    (r.poke i x).writePtr n = (r.writePtr n).set i x := by
  refine List.ext_getElem (by simp [writePtr]) fun j hj _ => ?_
  simp only [writePtr, poke, List.getElem_map, List.getElem_range, List.getElem_set,
    Function.update_apply]
  have hij : index cap r.head + j = index cap r.head + i ↔ i = j := by omega
  simp only [hij]

/-- A commit appends the stretch behind the write pointer. -/
theorem contents_writeCommit (hcap : cap ∣ 2 ^ 32) (hmax : cap ≤ 2 ^ 31) (r : Ring cap α)
    {n : Nat} (h : n ≤ r.freeContig) :
    (r.writeCommit n (h.trans r.freeContig_le_free)).contents =
      r.contents ++ r.writePtr n := by
  have hfree := h.trans r.freeContig_le_free
  have hsize : (r.head + UInt32.ofNat n - r.tail).toNat = r.size + n := by
    rw [sub_toNat_add]
    refine Nat.mod_eq_of_lt ?_
    have := r.size_le
    simp only [free, size] at hfree ⊢
    omega
  rw [contents_eq_window hcap, contents_eq_window hcap]
  simp only [writeCommit, size, hsize]
  rw [window_add]
  refine congrArg _ (List.map_congr_left fun i hi => congrArg r.buf ?_)
  exact (r.writePtr_add hcap (Nat.lt_of_lt_of_le (List.mem_range.mp hi) h)).symm

end Ring

end Tapioca

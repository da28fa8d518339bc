-- SUMMARY: `Ring<Capacity, T>` for any capacity as a bounded queue, and what the 32-bit wrap of its indices does to it.
import Tapioca.Lib.Lts
import Tapioca.Util.Ring

/-!
# The ring as a queue

The calls of `Ring<Capacity, T>` over a bounded queue of items. The producer's
zero-copy calls show in the queue as a stretch that is written but not yet
committed. An index is reduced to 32 bits before it is reduced to a slot, so
that for a capacity that does not divide `2 ^ 32` the slots start over in the
middle of the buffer when the index wraps.
-/

namespace Tapioca

open Lib.SlotRing Lib.Lts

variable {α : Type*} {cap : Nat}

namespace Ring

-- ---------------------------------------------------------------------------
-- Slots
-- ---------------------------------------------------------------------------

/-- The slot of the `i`-th item behind position `t`. -/
def slotAt (cap : Nat) (t : UInt32) (i : Nat) : Nat := index cap (t + UInt32.ofNat i)

theorem slotAt_eq (t : UInt32) (i : Nat) : slotAt cap t i = (t.toNat + i) % 2 ^ 32 % cap := by
  rw [slotAt, index, UInt32.toNat_add, UInt32.toNat_ofNat', Nat.add_mod_mod]

theorem slotAt_low {t : UInt32} {i : Nat} (h : t.toNat + i < 2 ^ 32) :
    slotAt cap t i = (t.toNat + i) % cap := by
  rw [slotAt_eq, Nat.mod_eq_of_lt h]

theorem slotAt_high {t : UInt32} {i : Nat} (h : 2 ^ 32 ≤ t.toNat + i) (hi : i ≤ 2 ^ 32) :
    slotAt cap t i = (t.toNat + i - 2 ^ 32) % cap := by
  have ht := UInt32.toNat_lt t
  rw [slotAt_eq, Nat.mod_eq_sub_mod h, Nat.mod_eq_of_lt (a := t.toNat + i - 2 ^ 32) (by omega)]

theorem slotAt_add (t : UInt32) (n i : Nat) :
    slotAt cap (t + UInt32.ofNat n) i = slotAt cap t (n + i) := by
  rw [slotAt, slotAt, UInt32.ofNat_add, UInt32.add_assoc]

/-- Counting down from the wrap. -/
theorem sub_mod_wrap {l : Nat} (h : l ≤ 2 ^ 32 % cap) : (2 ^ 32 - l) % cap = 2 ^ 32 % cap - l := by
  have hdiv := Nat.div_add_mod (2 ^ 32) cap
  have hsub : 2 ^ 32 - l = cap * (2 ^ 32 / cap) + (2 ^ 32 % cap - l) := by omega
  rw [hsub, Nat.mul_add_mod]
  rcases Nat.eq_zero_or_pos cap with hcap | hcap
  · rw [hcap, Nat.mod_zero]
  · exact Nat.mod_eq_of_lt (Nat.lt_of_le_of_lt (Nat.sub_le _ _) (Nat.mod_lt _ hcap))

/-- The `n` positions from `t` on have a slot each: the slots do not jump at the
wrap, or the positions do not reach it, or they fit behind the jump. -/
def Apart (cap : Nat) (t : UInt32) (n : Nat) : Prop :=
  cap ∣ 2 ^ 32 ∨ t.toNat + n ≤ 2 ^ 32 ∨ n ≤ 2 ^ 32 % cap

instance Apart.decidable (t : UInt32) (n : Nat) : Decidable (Apart cap t n) :=
  inferInstanceAs (Decidable (_ ∨ _ ∨ _))

theorem Apart.slot_ne {t : UInt32} {n i j : Nat} (h : Apart cap t n) (hn : n ≤ cap) (hmax : cap ≤ 2 ^ 31)
    (hij : i < j) (hj : j < n) : slotAt cap t i ≠ slotAt cap t j := by
  have ht := UInt32.toNat_lt t
  have hne {a b : Nat} (hab : a < b) (hlap : b < a + cap) : a % cap ≠ b % cap :=
    Lib.SlotRing.slot_ne hab hlap
  rcases h with hdvd | hlow | hhigh
  · rw [slotAt, slotAt, index_add hdvd, index_add hdvd]
    exact hne (by omega) (by omega)
  · rw [slotAt_low (by omega), slotAt_low (by omega)]
    exact hne (by omega) (by omega)
  · rcases Nat.lt_or_ge (t.toNat + j) (2 ^ 32) with hjl | hjh
    · rw [slotAt_low (by omega), slotAt_low hjl]
      exact hne (by omega) (by omega)
    · rcases Nat.lt_or_ge (t.toNat + i) (2 ^ 32) with hil | hih
      · -- one of them in front of the wrap, one behind it
        have hsub : (2 ^ 32 - (2 ^ 32 - (t.toNat + i))) % cap =
            2 ^ 32 % cap - (2 ^ 32 - (t.toNat + i)) := sub_mod_wrap (by omega)
        have hback : 2 ^ 32 - (2 ^ 32 - (t.toNat + i)) = t.toNat + i := by omega
        rw [hback] at hsub
        rw [slotAt_low hil, slotAt_high hjh (by omega), hsub,
          Nat.mod_eq_of_lt (a := t.toNat + j - 2 ^ 32) (by omega)]
        omega
      · rw [slotAt_high hih (by omega), slotAt_high hjh (by omega)]
        exact hne (by omega) (by omega)

theorem Apart.mono {t : UInt32} {n m : Nat} (h : Apart cap t n) (hm : m ≤ n) : Apart cap t m := by
  rcases h with hdvd | hlow | hhigh
  · exact .inl hdvd
  · exact .inr (.inl (by omega))
  · exact .inr (.inr (by omega))

/-- What is left behind the first `k`. -/
theorem Apart.drop {t : UInt32} {n : Nat} (h : Apart cap t n) {k : Nat} (hk : k ≤ n) (hn : n ≤ 2 ^ 31) :
    Apart cap (t + UInt32.ofNat k) (n - k) := by
  have ht : (t + UInt32.ofNat k).toNat = (t.toNat + k) % 2 ^ 32 := by
    rw [UInt32.toNat_add, UInt32.toNat_ofNat', Nat.add_mod_mod]
  rcases h with hdvd | hlow | hhigh
  · exact .inl hdvd
  · refine .inr (.inl ?_)
    rw [ht]
    omega
  · exact .inr (.inr (by omega))

-- ---------------------------------------------------------------------------
-- The calls, wherever the slots are apart
-- ---------------------------------------------------------------------------

theorem contents_eq_map (r : Ring cap α) :
    r.contents = (List.range r.size).map fun i => r.buf (slotAt cap r.tail i) := rfl

/-- The loop of `copyIn` appends. -/
theorem map_copyIn (hmax : cap ≤ 2 ^ 31) (t : UInt32) (buf : Nat → α) (n : Nat) (src : List α)
    (hroom : n + src.length ≤ cap) (h : Apart cap t (n + src.length)) :
    ((List.range (n + src.length)).map fun i =>
        copyIn cap buf (t + UInt32.ofNat n) src (slotAt cap t i)) =
      ((List.range n).map fun i => buf (slotAt cap t i)) ++ src := by
  induction src generalizing buf n with
  | nil => simp [copyIn]
  | cons x src ih =>
    rw [List.length_cons] at h hroom
    have hnext : t + UInt32.ofNat n + 1 = t + UInt32.ofNat (n + 1) := by
      rw [UInt32.ofNat_add, ← UInt32.add_assoc]
      rfl
    have hlen : n + (src.length + 1) = n + 1 + src.length := by omega
    rw [hlen] at h hroom
    have hkeep : ((List.range n).map fun i =>
          Function.update buf (slotAt cap t n) x (slotAt cap t i)) =
        (List.range n).map fun i => buf (slotAt cap t i) := by
      refine List.map_congr_left fun i hi => Function.update_of_ne ?_ _ _
      exact h.slot_ne hroom hmax (List.mem_range.mp hi) (by omega)
    rw [copyIn, hnext, List.length_cons, hlen, ih _ _ hroom h, List.range_succ, List.map_append,
      ← slotAt, hkeep, List.map_singleton, Function.update_self, List.append_assoc]
    rfl

theorem size_add (hmax : cap ≤ 2 ^ 31) (r : Ring cap α) {n : Nat} (h : n ≤ r.free) :
    (r.head + UInt32.ofNat n - r.tail).toNat = r.size + n := by
  have := r.size_le
  rw [sub_toNat_add]
  refine Nat.mod_eq_of_lt ?_
  simp only [free, size] at h ⊢
  omega

theorem contents_copyIn (hmax : cap ≤ 2 ^ 31) (r : Ring cap α) {src : List α}
    (hroom : src.length ≤ r.free) (h : Apart cap r.tail (r.size + src.length)) {r' : Ring cap α}
    (hhead : r'.head = r.head + UInt32.ofNat src.length) (htail : r'.tail = r.tail)
    (hbuf : r'.buf = copyIn cap r.buf r.head src) : r'.contents = r.contents ++ src := by
  have hsize : r'.size = r.size + src.length := by
    rw [size, hhead, htail]
    exact r.size_add hmax hroom
  have hle : r.size + src.length ≤ cap := by
    have : r.size ≤ cap := r.size_le
    simp only [free] at hroom
    omega
  have hcopy := map_copyIn hmax r.tail r.buf r.size src hle h
  rw [← r.head_eq] at hcopy
  rw [contents_eq_map, contents_eq_map, hsize, htail, hbuf, hcopy]

theorem push_append (hmax : cap ≤ 2 ^ 31) (r : Ring cap α) (src : List α)
    (h : Apart cap r.tail (r.size + min r.free src.length)) :
    (r.push src).2.contents = r.contents ++ src.take (min r.free src.length) := by
  have hlen : (src.take (min r.free src.length)).length = min r.free src.length := by
    rw [List.length_take]
    omega
  refine r.contents_copyIn hmax ?_ (hlen.symm ▸ h) ?_ rfl rfl
  · rw [hlen]
    exact min_le_left _ _
  · rw [hlen]
    rfl

theorem pushAll_append (hmax : cap ≤ 2 ^ 31) (r : Ring cap α) (src : List α)
    (hroom : src.length ≤ r.free) (h : Apart cap r.tail (r.size + src.length)) :
    (r.pushAll src).1 = true ∧ (r.pushAll src).2.contents = r.contents ++ src := by
  rw [pushAll, dif_neg (Nat.not_lt.mpr hroom)]
  exact ⟨rfl, r.contents_copyIn hmax hroom h rfl rfl rfl⟩

theorem readCommit_drop (r : Ring cap α) {n : Nat} (h : n ≤ r.size) :
    (r.readCommit n h).contents = r.contents.drop n := by
  refine List.ext_getElem (by simp [size_readCommit]) fun i hi _ => ?_
  simp only [contents_eq_map, List.getElem_map, List.getElem_range, List.getElem_drop, readCommit,
    slotAt_add]

theorem pop_drop (r : Ring cap α) (len : Nat) : (r.pop len).2.contents = r.contents.drop len := by
  have hdrop : (r.pop len).2.contents = r.contents.drop (min r.size len) :=
    r.readCommit_drop (min_le_left _ _)
  rw [hdrop]
  rcases Nat.le_total len r.size with h | h
  · rw [min_eq_right h]
  · rw [min_eq_left h, List.drop_of_length_le (by simp), List.drop_of_length_le (by simpa)]

/-- The slots behind the read pointer are those of the items, in front of the wrap. -/
theorem readPtr_take (r : Ring cap α) {n : Nat} (h : n ≤ r.readContig)
    (hwrap : cap ∣ 2 ^ 32 ∨ r.tail.toNat + n ≤ 2 ^ 32) : r.readPtr n = r.contents.take n := by
  have hn : n ≤ r.size := h.trans (min_le_left _ _)
  have hend : n ≤ cap - index cap r.tail := h.trans (min_le_right _ _)
  have hslot (i : Nat) (hi : i < n) : index cap r.tail + i = slotAt cap r.tail i := by
    have hmod : slotAt cap r.tail i = (r.tail.toNat + i) % cap := by
      rcases hwrap with hdvd | hlow
      · exact index_add hdvd r.tail i
      · exact slotAt_low (by omega)
    rw [hmod, Nat.add_mod, ← index, Nat.mod_eq_of_lt (b := cap) (by omega : i < cap)]
    exact (Nat.mod_eq_of_lt (by omega)).symm
  rw [contents_eq_map, ← List.map_take, List.take_range, min_eq_left hn, readPtr]
  exact List.map_congr_left fun i hi => congrArg r.buf (hslot i (List.mem_range.mp hi))

-- ---------------------------------------------------------------------------
-- The stretch behind the write pointer
-- ---------------------------------------------------------------------------

/-- Items written through `writePtr`, from the `i`-th place on. -/
def fill (r : Ring cap α) : Nat → List α → Ring cap α
  | _, [] => r
  | i, x :: xs => (r.poke i x).fill (i + 1) xs

@[simp] theorem fill_head (r : Ring cap α) (i : Nat) (xs : List α) : (r.fill i xs).head = r.head := by
  induction xs generalizing r i with
  | nil => rfl
  | cons x xs ih => exact ih ..

@[simp] theorem fill_tail (r : Ring cap α) (i : Nat) (xs : List α) : (r.fill i xs).tail = r.tail := by
  induction xs generalizing r i with
  | nil => rfl
  | cons x xs ih => exact ih ..

@[simp] theorem fill_size (r : Ring cap α) (i : Nat) (xs : List α) : (r.fill i xs).size = r.size := by
  rw [size, size, fill_head, fill_tail]

theorem fill_buf_of_ne (r : Ring cap α) (i : Nat) (xs : List α) {j : Nat}
    (h : ∀ k < xs.length, j ≠ index cap r.head + (i + k)) : (r.fill i xs).buf j = r.buf j := by
  induction xs generalizing r i with
  | nil => rfl
  | cons x xs ih =>
    have hrest (k : Nat) (hk : k < xs.length) : j ≠ index cap (r.poke i x).head + (i + 1 + k) := by
      have := h (k + 1) (Nat.succ_lt_succ hk)
      rwa [Nat.add_assoc, Nat.add_comm 1]
    rw [fill, ih _ _ hrest]
    exact Function.update_of_ne (h 0 (Nat.zero_lt_succ _)) _ _

theorem fill_buf (r : Ring cap α) (i : Nat) (xs : List α) {k : Nat} (h : k < xs.length) :
    (r.fill i xs).buf (index cap r.head + (i + k)) = xs[k] := by
  induction xs generalizing r i k with
  | nil => exact absurd h (Nat.not_lt_zero _)
  | cons x xs ih =>
    cases k with
    | zero =>
      rw [fill, fill_buf_of_ne]
      · exact Function.update_self ..
      · intro k _
        simp only [poke]
        omega
    | succ k =>
      have hnext := ih (r.poke i x) (i + 1) (Nat.lt_of_succ_lt_succ h)
      rw [Nat.add_assoc, Nat.add_comm 1] at hnext
      exact hnext

/-- The stretch of `n` slots behind the write pointer stays clear of the waiting items. -/
def Beyond (r : Ring cap α) (n : Nat) : Prop :=
  cap ∣ 2 ^ 32 ∨ n = 0 ∨ r.size = 0 ∨ r.tail.toNat + r.size < 2 ^ 32 ∨ r.size + n ≤ 2 ^ 32 % cap

instance Beyond.decidable (r : Ring cap α) (n : Nat) : Decidable (r.Beyond n) :=
  inferInstanceAs (Decidable (_ ∨ _ ∨ _ ∨ _ ∨ _))

theorem toNat_head (r : Ring cap α) : r.head.toNat = (r.tail.toNat + r.size) % 2 ^ 32 := by
  conv_lhs => rw [r.head_eq]
  rw [UInt32.toNat_add, UInt32.toNat_ofNat', Nat.add_mod_mod]

theorem Beyond.slot_ne {r : Ring cap α} {n : Nat} (h : r.Beyond n) (hmax : cap ≤ 2 ^ 31)
    (hn : n ≤ r.freeContig) {i j : Nat} (hi : i < r.size) (hj : j < n) :
    slotAt cap r.tail i ≠ index cap r.head + j := by
  have hfree : n ≤ r.free := hn.trans r.freeContig_le_free
  have hend : n ≤ cap - index cap r.head := hn.trans (min_le_right _ _)
  have hsize : r.size ≤ cap := r.size_le
  have ht := UInt32.toNat_lt r.tail
  have hhead := r.toNat_head
  have hne {a b : Nat} (hab : a < b) (hlap : b < a + cap) : a % cap ≠ b % cap :=
    Lib.SlotRing.slot_ne hab hlap
  simp only [free] at hfree
  have hlow (hl : r.tail.toNat + r.size < 2 ^ 32) : slotAt cap r.tail i ≠ index cap r.head + j := by
    have hplace : index cap r.head + j = (r.tail.toNat + r.size + j) % cap := by
      rw [index, hhead, Nat.mod_eq_of_lt hl] at hend ⊢
      rw [Nat.add_mod _ j, Nat.mod_eq_of_lt (a := j) (by omega)]
      exact (Nat.mod_eq_of_lt (by omega)).symm
    rw [slotAt_low (by omega), hplace]
    exact hne (by omega) (by omega)
  rcases h with hdvd | hzero | hempty | hl | hhigh
  · rw [slotAt, index_add hdvd, r.writePtr_add hdvd (Nat.lt_of_lt_of_le hj hn)]
    exact hne (by omega) (by omega)
  · omega
  · omega
  · exact hlow hl
  · rcases Nat.lt_or_ge (r.tail.toNat + r.size) (2 ^ 32) with hl | hh
    · exact hlow hl
    · -- the producer is behind the wrap
      have hwrap : 2 ^ 32 % cap < cap := Nat.mod_lt _ (by omega)
      have hplace : index cap r.head = r.tail.toNat + r.size - 2 ^ 32 := by
        rw [index, hhead, Nat.mod_eq_sub_mod hh, Nat.mod_eq_of_lt (b := 2 ^ 32) (by omega)]
        exact Nat.mod_eq_of_lt (by omega)
      rw [hplace]
      rcases Nat.lt_or_ge (r.tail.toNat + i) (2 ^ 32) with hil | hih
      · have hsub : (2 ^ 32 - (2 ^ 32 - (r.tail.toNat + i))) % cap =
            2 ^ 32 % cap - (2 ^ 32 - (r.tail.toNat + i)) := sub_mod_wrap (by omega)
        have hback : 2 ^ 32 - (2 ^ 32 - (r.tail.toNat + i)) = r.tail.toNat + i := by omega
        rw [hback] at hsub
        rw [slotAt_low hil, hsub]
        omega
      · rw [slotAt_high hih (by omega), Nat.mod_eq_of_lt (by omega)]
        omega

theorem fill_contents (hmax : cap ≤ 2 ^ 31) (r : Ring cap α) (xs : List α)
    (h : r.Beyond xs.length) (hn : xs.length ≤ r.freeContig) :
    (r.fill 0 xs).contents = r.contents := by
  rw [contents_eq_map, contents_eq_map, fill_size, fill_tail]
  refine List.map_congr_left fun i hi => ?_
  refine r.fill_buf_of_ne 0 xs fun k hk => ?_
  rw [Nat.zero_add]
  exact h.slot_ne hmax hn (List.mem_range.mp hi) hk

/-- A commit appends what the slots behind `mark` hold, `mark` being the write
pointer before it is reduced. -/
theorem writeCommit_append (hmax : cap ≤ 2 ^ 31) (r : Ring cap α) {n mark : Nat} (h : n ≤ r.free)
    (hmark : mark % 2 ^ 32 = r.head.toNat) (hend : mark % cap + n ≤ cap)
    (hwrap : cap ∣ 2 ^ 32 ∨ mark + n ≤ 2 ^ 32) :
    (r.writeCommit n h).contents =
      r.contents ++ (List.range n).map fun i => r.buf (mark % cap + i) := by
  have hsize : (r.writeCommit n h).size = r.size + n := r.size_add hmax h
  have hslot (i : Nat) (hi : i < n) : slotAt cap r.tail (r.size + i) = mark % cap + i := by
    have hmod : slotAt cap r.tail (r.size + i) = (mark + i) % cap := by
      rw [slotAt_eq, ← Nat.add_assoc, ← Nat.mod_add_mod, ← r.toNat_head, ← hmark, Nat.mod_add_mod]
      rcases hwrap with hdvd | hlow
      · exact Nat.mod_mod_of_dvd _ hdvd
      · rw [Nat.mod_eq_of_lt (b := 2 ^ 32) (by omega)]
    rw [hmod, Nat.add_mod, Nat.mod_eq_of_lt (a := i) (by omega)]
    exact Nat.mod_eq_of_lt (by omega)
  rw [contents_eq_map, contents_eq_map, hsize, List.range_add, List.map_append, List.map_map]
  refine congrArg _ (List.map_congr_left fun i hi => congrArg r.buf ?_)
  exact hslot i (List.mem_range.mp hi)

-- ---------------------------------------------------------------------------
-- Calls
-- ---------------------------------------------------------------------------

/-- `fill xs` writes `xs` behind `writePtr()`, `readPtr n` reads `n` items there. -/
inductive Op (α : Type*) where
  | push (src : List α)
  | pushAll (src : List α)
  | fill (xs : List α)
  | writeCommit (n : Nat)
  | pop (len : Nat)
  | readPtr (n : Nat)
  | readCommit (n : Nat)
  | clear

inductive Reply (α : Type*) where
  | count (n : Nat)
  | ok (b : Bool)
  | items (xs : List α)
  | done
  deriving DecidableEq

/-- A ring in use. -/
structure Traffic (cap : Nat) (α : Type*) where
  ring : Ring cap α
  /-- The write pointer of the last `fill`, and what has been committed since; not
  reduced to 32 bits. -/
  mark : Nat
  /-- How many items of it are not committed. -/
  filled : Nat

namespace Traffic

def start (buf : Nat → α) : Traffic cap α where
  ring := { head := 0, tail := 0, buf, size_le := Nat.zero_le _ }
  mark := 0
  filled := 0

def apply (t : Traffic cap α) : Op α → Reply α × Traffic cap α
  | .push src =>
    let p := t.ring.push src
    (.count p.1, { t with ring := p.2, filled := if p.1 = 0 then t.filled else 0 })
  | .pushAll src =>
    let p := t.ring.pushAll src
    (.ok p.1, { t with ring := p.2, filled := if p.1 && !src.isEmpty then 0 else t.filled })
  | .fill xs => (.done, { ring := t.ring.fill 0 xs, mark := t.ring.head.toNat, filled := xs.length })
  | .writeCommit n =>
    (.done, if h : n ≤ t.ring.free then
      { ring := t.ring.writeCommit n h, mark := t.mark + n, filled := t.filled - n } else t)
  | .pop len => (.items (t.ring.pop len).1, { t with ring := (t.ring.pop len).2 })
  | .readPtr n => (.items (t.ring.readPtr n), t)
  | .readCommit n =>
    (.done, if h : n ≤ t.ring.size then { t with ring := t.ring.readCommit n h } else t)
  | .clear => (.done, { ring := t.ring.clear, mark := 0, filled := 0 })

def step (t : Traffic cap α) (op : Op α) : Traffic cap α := (t.apply op).2

def reply (t : Traffic cap α) (op : Op α) : List (Reply α) := [(t.apply op).1]

end Traffic

/-- How the calls may be used: a fill stays in the contiguous free slots, a commit in
what has been filled, a read in the contiguous items. -/
def Op.Within (t : Traffic cap α) : Op α → Prop
  | .fill xs => xs.length ≤ t.ring.freeContig
  | .writeCommit n => n ≤ t.filled
  | .readPtr n | .readCommit n => n ≤ t.ring.readContig
  | _ => True

/-- The call does not reach across the 32-bit wrap with more items than fit there. -/
def Op.Straight (t : Traffic cap α) : Op α → Prop
  | .push src => Apart cap t.ring.tail (t.ring.size + min t.ring.free src.length)
  | .pushAll src => src.length ≤ t.ring.free → Apart cap t.ring.tail (t.ring.size + src.length)
  | .fill xs => t.ring.Beyond xs.length
  | .writeCommit n =>
    (cap ∣ 2 ^ 32 ∨ t.mark + n ≤ 2 ^ 32) ∧ Apart cap t.ring.tail (t.ring.size + n)
  | .readPtr n => cap ∣ 2 ^ 32 ∨ t.ring.tail.toNat + n ≤ 2 ^ 32
  | _ => True

instance Op.Within.decidable (t : Traffic cap α) : (op : Op α) → Decidable (op.Within t)
  | .fill _ | .writeCommit _ | .readPtr _ | .readCommit _ => inferInstanceAs (Decidable (_ ≤ _))
  | .push _ | .pushAll _ | .pop _ | .clear => inferInstanceAs (Decidable True)

instance Op.Straight.decidable (t : Traffic cap α) : (op : Op α) → Decidable (op.Straight t)
  | .push _ => inferInstanceAs (Decidable (Apart ..))
  | .pushAll _ => inferInstanceAs (Decidable (_ ≤ _ → Apart ..))
  | .fill xs => inferInstanceAs (Decidable (t.ring.Beyond xs.length))
  | .writeCommit _ => inferInstanceAs (Decidable ((_ ∨ _) ∧ Apart ..))
  | .readPtr _ => inferInstanceAs (Decidable (_ ∨ _))
  | .pop _ | .readCommit _ | .clear => inferInstanceAs (Decidable True)

/-- A capacity that divides `2 ^ 32`, as a power of two does, meets it always. -/
theorem Op.straight_of_dvd (hdvd : cap ∣ 2 ^ 32) (t : Traffic cap α) (op : Op α) : op.Straight t := by
  cases op with
  | push src => exact .inl hdvd
  | pushAll src => exact fun _ => .inl hdvd
  | fill xs => exact .inl hdvd
  | writeCommit n => exact ⟨.inl hdvd, .inl hdvd⟩
  | readPtr n => exact .inl hdvd
  | pop len => trivial
  | readCommit n => trivial
  | clear => trivial

-- ---------------------------------------------------------------------------
-- The queue
-- ---------------------------------------------------------------------------

/-- A bounded queue, and what its producer has written but not committed. -/
structure Queue (α : Type*) where
  items : List α
  staged : List α

namespace Queue

def empty : Queue α where
  items := []
  staged := []

def apply (cap : Nat) (q : Queue α) : Op α → Reply α × Queue α
  | .push src =>
    let n := min (cap - q.items.length) src.length
    (.count n, ⟨q.items ++ src.take n, if n = 0 then q.staged else []⟩)
  | .pushAll src =>
    if src.length ≤ cap - q.items.length then
      (.ok true, ⟨q.items ++ src, if src.isEmpty then q.staged else []⟩)
    else (.ok false, q)
  | .fill xs => (.done, ⟨q.items, xs⟩)
  | .writeCommit n => (.done, ⟨q.items ++ q.staged.take n, q.staged.drop n⟩)
  | .pop len => (.items (q.items.take len), ⟨q.items.drop len, q.staged⟩)
  | .readPtr n => (.items (q.items.take n), q)
  | .readCommit n => (.done, ⟨q.items.drop n, q.staged⟩)
  | .clear => (.done, empty)

def step (cap : Nat) (q : Queue α) (op : Op α) : Queue α := (q.apply cap op).2

def reply (cap : Nat) (q : Queue α) (op : Op α) : List (Reply α) := [(q.apply cap op).1]

end Queue

/-- The ring holds the items of the queue, each in a slot of its own, and the slots
behind the write pointer hold the staged ones. -/
structure Traffic.Holds (t : Traffic cap α) (q : Queue α) : Prop where
  items : t.ring.contents = q.items
  apart : Apart cap t.ring.tail t.ring.size
  filled : t.filled = q.staged.length
  room : t.ring.size + q.staged.length ≤ cap
  mark : q.staged ≠ [] → t.mark % 2 ^ 32 = t.ring.head.toNat
  fits : t.mark % cap + q.staged.length ≤ cap
  staged : ∀ i (h : i < q.staged.length), t.ring.buf (t.mark % cap + i) = q.staged[i]

-- ---------------------------------------------------------------------------
-- One call
-- ---------------------------------------------------------------------------

namespace Traffic.Holds

variable {t : Traffic cap α} {q : Queue α}

/-- What a call does: the same reply, and the ring goes on holding the queue. -/
def Agrees (t : Traffic cap α) (q : Queue α) (op : Op α) : Prop :=
  (t.apply op).1 = (q.apply cap op).1 ∧ (t.step op).Holds (q.step cap op)

theorem length_items (h : t.Holds q) : q.items.length = t.ring.size := by
  rw [← h.items, length_contents]

theorem free_eq (h : t.Holds q) : t.ring.free = cap - q.items.length := by
  rw [free, h.length_items]

/-- Nothing staged. -/
theorem of_items (hpos : 0 < cap) {r : Ring cap α} {xs : List α} {mark : Nat} (hitems : r.contents = xs)
    (happart : Apart cap r.tail r.size) : Traffic.Holds ⟨r, mark, 0⟩ ⟨xs, []⟩ where
  items := hitems
  apart := happart
  filled := rfl
  room := r.size_le
  mark := fun hne => absurd rfl hne
  fits := (Nat.mod_lt _ hpos).le
  staged := by
    intro i hi
    cases hi

theorem of_append (hpos : 0 < cap) (h : t.Holds q) {r : Ring cap α} {xs : List α} {mark : Nat}
    (hitems : r.contents = t.ring.contents ++ xs) (htail : r.tail = t.ring.tail)
    (happart : Apart cap t.ring.tail (t.ring.size + xs.length)) :
    Traffic.Holds ⟨r, mark, 0⟩ ⟨q.items ++ xs, []⟩ := by
  have hsize : r.size = t.ring.size + xs.length := by
    rw [← length_contents, hitems, List.length_append, length_contents]
  refine of_items hpos (h.items ▸ hitems) ?_
  rw [htail, hsize]
  exact happart

/-- Where the head stays, so does the ring. -/
theorem ring_eq {r r' : Ring cap α} (hhead : r'.head = r.head + UInt32.ofNat 0) (htail : r'.tail = r.tail)
    (hbuf : r'.buf = r.buf) : r' = r := by
  have hzero : r.head + UInt32.ofNat 0 = r.head := UInt32.add_zero _
  cases r
  cases r'
  simp only at hhead htail hbuf hzero
  simp only [hhead, hzero, htail, hbuf]

theorem agrees_push (hpos : 0 < cap) (hmax : cap ≤ 2 ^ 31) (h : t.Holds q) {src : List α}
    (hstraight : (Op.push src).Straight t) : Agrees t q (.push src) := by
  have hcount : min t.ring.free src.length = min (cap - q.items.length) src.length := by
    rw [h.free_eq]
  refine ⟨congrArg Reply.count hcount, ?_⟩
  simp only [Traffic.step, Traffic.apply, Queue.step, Queue.apply, ← hcount]
  by_cases hnone : min t.ring.free src.length = 0
  · have hring : (t.ring.push src).2 = t.ring := by
      refine ring_eq ?_ rfl ?_
      · simp only [push, hnone]
      · simp only [push, hnone, List.take_zero, copyIn]
    have hfst : (t.ring.push src).1 = 0 := hnone
    rw [hring, hfst, hnone, if_pos rfl, if_pos rfl, List.take_zero, List.append_nil]
    exact h
  · have hfst : (t.ring.push src).1 ≠ 0 := hnone
    rw [if_neg hfst, if_neg hnone]
    have hlen : (src.take (min t.ring.free src.length)).length = min t.ring.free src.length := by
      rw [List.length_take]
      omega
    exact h.of_append hpos (t.ring.push_append hmax src hstraight) rfl (hlen.symm ▸ hstraight)

theorem agrees_pushAll (hpos : 0 < cap) (hmax : cap ≤ 2 ^ 31) (h : t.Holds q) {src : List α}
    (hstraight : (Op.pushAll src).Straight t) : Agrees t q (.pushAll src) := by
  simp only [Agrees, Traffic.step, Traffic.apply, Queue.step, Queue.apply, ← h.free_eq]
  by_cases hroom : src.length ≤ t.ring.free
  · obtain ⟨hok, hitems⟩ := t.ring.pushAll_append hmax src hroom (hstraight hroom)
    rw [if_pos hroom, hok]
    refine ⟨rfl, ?_⟩
    cases src with
    | nil =>
      have hring : (t.ring.pushAll []).2 = t.ring := by
        rw [pushAll, dif_neg (Nat.not_lt.mpr hroom)]
        exact ring_eq rfl rfl rfl
      rw [hring, List.append_nil]
      exact h
    | cons x src => exact h.of_append hpos hitems (t.ring.tail_pushAll _) (hstraight hroom)
  · rw [if_neg hroom, pushAll_full _ _ (Nat.lt_of_not_le hroom)]
    exact ⟨rfl, h⟩

theorem agrees_fill (hpos : 0 < cap) (hmax : cap ≤ 2 ^ 31) (h : t.Holds q) {xs : List α}
    (hwithin : (Op.fill xs).Within t) (hstraight : (Op.fill xs).Straight t) :
    Agrees t q (.fill xs) := by
  have hwithin : xs.length ≤ t.ring.freeContig := hwithin
  have hfree := hwithin.trans t.ring.freeContig_le_free
  have hend : xs.length ≤ cap - index cap t.ring.head := hwithin.trans (min_le_right _ _)
  have hsize : t.ring.size ≤ cap := t.ring.size_le
  refine ⟨rfl, ?_, ?_, rfl, ?_, ?_, ?_, ?_⟩
  · exact (t.ring.fill_contents hmax xs hstraight hwithin).trans h.items
  · simp only [Traffic.step, Traffic.apply, fill_size, fill_tail]
    exact h.apart
  · simp only [Traffic.step, Traffic.apply, fill_size, Queue.step, Queue.apply]
    simp only [free] at hfree
    omega
  · intro _
    simp only [Traffic.step, Traffic.apply, fill_head]
    exact Nat.mod_eq_of_lt (UInt32.toNat_lt _)
  · have hslot : index cap t.ring.head < cap := Nat.mod_lt _ hpos
    exact Nat.add_le_of_le_sub' hslot.le hend
  · intro i hi
    have hbuf := t.ring.fill_buf 0 xs hi
    rw [Nat.zero_add] at hbuf
    exact hbuf

theorem agrees_writeCommit (hpos : 0 < cap) (hmax : cap ≤ 2 ^ 31) (h : t.Holds q) {n : Nat}
    (hwithin : (Op.writeCommit n).Within t) (hstraight : (Op.writeCommit n).Straight t) :
    Agrees t q (.writeCommit n) := by
  obtain ⟨hwrap, happart⟩ := hstraight
  have hn : n ≤ q.staged.length := h.filled ▸ hwithin
  have hroom := h.room
  have hfits := h.fits
  have hfree : n ≤ t.ring.free := by
    simp only [free]
    omega
  refine ⟨rfl, ?_⟩
  simp only [Traffic.step, Traffic.apply, dif_pos hfree, Queue.step, Queue.apply]
  have hsize : (t.ring.writeCommit n hfree).size = t.ring.size + n := t.ring.size_add hmax hfree
  have hhead : (t.ring.writeCommit n hfree).head.toNat = (t.ring.head.toNat + n) % 2 ^ 32 := by
    simp only [writeCommit, UInt32.toNat_add, UInt32.toNat_ofNat', Nat.add_mod_mod]
  -- as long as something stays staged the mark has not reached the end of the buffer
  have hplace (hlt : n < q.staged.length) : (t.mark + n) % cap = t.mark % cap + n := by
    rw [Nat.add_mod, Nat.mod_eq_of_lt (a := n) (by omega)]
    exact Nat.mod_eq_of_lt (by omega)
  -- the slots taken over are those behind the mark, in order; with nothing staged nothing moves
  have hitems : (t.ring.writeCommit n hfree).contents = q.items ++ q.staged.take n := by
    rcases List.eq_nil_or_concat q.staged with hnil | hcons
    · have hzero : n = 0 := by
        rw [hnil] at hn
        exact Nat.le_zero.mp hn
      subst hzero
      have hring : t.ring.writeCommit 0 hfree = t.ring := ring_eq rfl rfl rfl
      rw [hring, List.take_zero, List.append_nil, h.items]
    · have hne : q.staged ≠ [] := by
        obtain ⟨l, b, hl⟩ := hcons
        rw [hl]
        simp
      rw [t.ring.writeCommit_append hmax hfree (h.mark hne) (by omega) hwrap, h.items]
      refine congrArg _ (List.ext_getElem (by simp [hn]) fun i hi _ => ?_)
      have hi : i < n := by simpa using hi
      simp only [List.getElem_map, List.getElem_range, List.getElem_take]
      exact h.staged i (by omega)
  refine ⟨hitems, ?_, ?_, ?_, ?_, ?_, ?_⟩
  · rw [hsize]
    exact happart
  · rw [List.length_drop, h.filled]
  · rw [List.length_drop, hsize]
    omega
  · intro hne
    have hlt : n < q.staged.length := by
      by_contra hge
      exact hne (List.drop_of_length_le (by omega))
    have hold : q.staged ≠ [] := by
      rintro hnil
      rw [hnil] at hlt
      exact absurd hlt (Nat.not_lt_zero _)
    rw [hhead, ← h.mark hold, Nat.mod_add_mod]
  · rw [List.length_drop]
    rcases Nat.lt_or_eq_of_le hn with hlt | heq
    · rw [hplace hlt]
      omega
    · have hslot := Nat.mod_lt (t.mark + n) hpos
      simp only
      omega
  · intro i hi
    rw [List.length_drop] at hi
    rw [hplace (by omega), List.getElem_drop, Nat.add_assoc]
    exact h.staged (n + i) (by omega)

/-- Items leave at the front, the staged ones stay. -/
theorem advance (hmax : cap ≤ 2 ^ 31) (h : t.Holds q) {n : Nat} (hn : n ≤ t.ring.size) {r : Ring cap α}
    {xs : List α} (hr : r = t.ring.readCommit n hn) (hitems : r.contents = xs) :
    Traffic.Holds { t with ring := r } ⟨xs, q.staged⟩ := by
  subst hr
  have hsize := t.ring.size_readCommit hn
  have hcap : t.ring.size ≤ cap := t.ring.size_le
  refine ⟨hitems, ?_, h.filled, ?_, h.mark, h.fits, h.staged⟩
  · rw [hsize]
    exact h.apart.drop hn (hcap.trans hmax)
  · have := h.room
    rw [hsize]
    simp only
    omega

theorem agrees_pop (hmax : cap ≤ 2 ^ 31) (h : t.Holds q) (len : Nat) : Agrees t q (.pop len) := by
  refine ⟨congrArg Reply.items ?_, ?_⟩
  · rw [pop_fst, h.items]
  · exact h.advance hmax (min_le_left _ _) rfl ((t.ring.pop_drop len).trans (by rw [h.items]))

theorem agrees_readCommit (hmax : cap ≤ 2 ^ 31) (h : t.Holds q) {n : Nat}
    (hwithin : (Op.readCommit n).Within t) : Agrees t q (.readCommit n) := by
  have hn : n ≤ t.ring.size := hwithin.trans (min_le_left _ _)
  refine ⟨rfl, ?_⟩
  simp only [Traffic.step, Traffic.apply, dif_pos hn]
  exact h.advance hmax hn rfl ((t.ring.readCommit_drop hn).trans (by rw [h.items]))

theorem agrees_readPtr (h : t.Holds q) {n : Nat} (hwithin : (Op.readPtr n).Within t)
    (hstraight : (Op.readPtr n).Straight t) : Agrees t q (.readPtr n) := by
  refine ⟨congrArg Reply.items ?_, h⟩
  rw [t.ring.readPtr_take hwithin hstraight, h.items]

theorem agrees (hpos : 0 < cap) (hmax : cap ≤ 2 ^ 31) (h : t.Holds q) {op : Op α}
    (hwithin : op.Within t) (hstraight : op.Straight t) : Agrees t q op := by
  cases op with
  | push src => exact h.agrees_push hpos hmax hstraight
  | pushAll src => exact h.agrees_pushAll hpos hmax hstraight
  | fill xs => exact h.agrees_fill hpos hmax hwithin hstraight
  | writeCommit n => exact h.agrees_writeCommit hpos hmax hwithin hstraight
  | pop len => exact h.agrees_pop hmax len
  | readPtr n => exact h.agrees_readPtr hwithin hstraight
  | readCommit n => exact h.agrees_readCommit hmax hwithin
  | clear => exact ⟨rfl, of_items hpos (contents_clear _) (.inr (.inl (by simp [Ring.clear, size])))⟩

/-- A whole run. -/
theorem run (hpos : 0 < cap) (hmax : cap ≤ 2 ^ 31) (h : t.Holds q) {ops : List (Op α)}
    (hops : AllSteps Traffic.step (fun t op => op.Within t ∧ op.Straight t) t ops) :
    outputs Traffic.step Traffic.reply t ops = outputs (Queue.step cap) (Queue.reply cap) q ops ∧
    (Lib.Lts.run Traffic.step t ops).Holds (Lib.Lts.run (Queue.step cap) q ops) := by
  induction ops generalizing t q with
  | nil => exact ⟨rfl, h⟩
  | cons op ops ih =>
    obtain ⟨⟨hwithin, hstraight⟩, hrest⟩ := hops
    obtain ⟨hreply, hnext⟩ := h.agrees hpos hmax hwithin hstraight
    obtain ⟨hreplies, hlast⟩ := ih hnext hrest
    refine ⟨?_, hlast⟩
    rw [outputs_cons, outputs_cons, hreplies, Traffic.reply, Queue.reply, hreply]

end Traffic.Holds

/-- In every run whose calls keep within their contract and do not reach across the
32-bit wrap with more items than fit there, the ring is a bounded queue. -/
theorem ring_is_queue (hpos : 0 < cap) (hmax : cap ≤ 2 ^ 31) (buf : Nat → α) (ops : List (Op α))
    (hops : AllSteps Traffic.step (fun t op => op.Within t ∧ op.Straight t)
      (Traffic.start buf : Traffic cap α) ops) :
    outputs Traffic.step Traffic.reply (Traffic.start buf : Traffic cap α) ops =
      outputs (Queue.step cap) (Queue.reply cap) Queue.empty ops ∧
    (run Traffic.step (Traffic.start buf : Traffic cap α) ops).ring.contents =
      (run (Queue.step cap) Queue.empty ops).items ∧
    (run Traffic.step (Traffic.start buf : Traffic cap α) ops).ring.size =
      (run (Queue.step cap) Queue.empty ops).items.length := by
  have hstart : (Traffic.start buf : Traffic cap α).Holds Queue.empty :=
    Traffic.Holds.of_items hpos (contents_eq_nil (by simp [size])) (.inr (.inl (by simp [size])))
  obtain ⟨hreplies, hlast⟩ := hstart.run hpos hmax hops
  exact ⟨hreplies, hlast.items, hlast.length_items.symm⟩

theorem ring_is_queue_ten :
    outputs Traffic.step Traffic.reply (Traffic.start (fun _ => 0) : Traffic 10 Nat)
        [.push [1, 2, 3], .fill [4, 5], .pop 2, .writeCommit 2, .readPtr 3] =
      outputs (Queue.step 10) (Queue.reply 10) Queue.empty
        [.push [1, 2, 3], .fill [4, 5], .pop 2, .writeCommit 2, .readPtr 3] :=
  (ring_is_queue (by decide) (by decide) (fun _ => 0) _ (by decide)).1

-- ---------------------------------------------------------------------------
-- Across the wrap
-- ---------------------------------------------------------------------------

/-- One item in and out, `k` times. -/
def rounds (k : Nat) : List (Op Nat) := (List.replicate k [Op.push [0], Op.pop 1]).flatten

theorem step_round (t : Traffic 10 Nat) (h : t.ring.head = t.ring.tail) :
    ((t.step (.push [0])).step (.pop 1)).ring.head = t.ring.head + 1 ∧
    ((t.step (.push [0])).step (.pop 1)).ring.tail = t.ring.head + 1 := by
  have hsize : t.ring.size = 0 := by rw [size, h, UInt32.sub_self]; rfl
  have hcount : min t.ring.free [0].length = 1 := by rw [free, hsize]; rfl
  have hpushed : (t.step (.push [0])).ring.head = t.ring.head + 1 := by
    simp only [Traffic.step, Traffic.apply, push, hcount]
    rfl
  have hqueued : (t.step (.push [0])).ring.size = 1 := by
    have htail : (t.step (.push [0])).ring.tail = t.ring.head := h.symm
    rw [size, hpushed, htail]
    have hone : t.ring.head + 1 - t.ring.head = 1 := by grind
    rw [hone]
    rfl
  refine ⟨hpushed, ?_⟩
  have htaken : min (t.step (.push [0])).ring.size 1 = 1 := by rw [hqueued]; rfl
  calc ((t.step (.push [0])).step (.pop 1)).ring.tail
      = t.ring.tail + UInt32.ofNat (min (t.step (.push [0])).ring.size 1) := rfl
    _ = t.ring.head + 1 := by rw [htaken, h]; rfl

theorem rounds_succ (k : Nat) : rounds (k + 1) = .push [0] :: .pop 1 :: rounds k := rfl

theorem mem_rounds {k : Nat} {op : Op Nat} (h : op ∈ rounds k) : op = .push [0] ∨ op = .pop 1 := by
  obtain ⟨round, hround, hop⟩ := List.mem_flatten.mp h
  rw [List.eq_of_mem_replicate hround] at hop
  exact List.mem_pair.mp hop

theorem run_rounds (t : Traffic 10 Nat) (h : t.ring.head = t.ring.tail) (k : Nat) :
    (run Traffic.step t (rounds k)).ring.head = t.ring.head + UInt32.ofNat k ∧
    (run Traffic.step t (rounds k)).ring.tail = t.ring.head + UInt32.ofNat k := by
  induction k generalizing t with
  | zero => exact ⟨(UInt32.add_zero _).symm, h.symm.trans (UInt32.add_zero _).symm⟩
  | succ k ih =>
    obtain ⟨hhead, htail⟩ := step_round t h
    obtain ⟨hhead', htail'⟩ := ih _ (hhead.trans htail.symm)
    have hsucc : t.ring.head + 1 + UInt32.ofNat k = t.ring.head + UInt32.ofNat (k + 1) := by
      rw [Nat.add_comm, UInt32.ofNat_add, ← UInt32.add_assoc]
      rfl
    rw [rounds_succ, run_cons, run_cons, hhead', htail', hhead, hsucc]
    exact ⟨rfl, rfl⟩

theorem queue_rounds (k : Nat) : run (Queue.step 10) Queue.empty (rounds k) = Queue.empty := by
  induction k with
  | zero => rfl
  | succ k ih => rw [rounds_succ, run_cons, run_cons]; exact ih

/-- Ten items, five of them in front of the wrap. -/
theorem pop_push_wrap (r : Ring 10 Nat) (hhead : r.head = 0xFFFFFFFB) (htail : r.tail = 0xFFFFFFFB) :
    ((r.push (List.range 10)).2.pop 10).1 = [6, 7, 8, 9, 4, 5, 6, 7, 8, 9] := by
  obtain ⟨head, tail, buf, hsize⟩ := r
  subst hhead htail
  simp [push, pop, size, free, copyIn, index, List.range, List.range.loop, Function.update_apply]

/-- After `2 ^ 32 - 5` items, a full ring of ten gives four of them twice. -/
theorem wrap_reads_newer :
    let ops : List (Op Nat) := rounds (2 ^ 32 - 5) ++ [.push (List.range 10)]
    AllSteps Traffic.step (fun t op => op.Within t) (Traffic.start (fun _ => 0) : Traffic 10 Nat)
      (ops ++ [.pop 10]) ∧
    ((run Traffic.step (Traffic.start (fun _ => 0) : Traffic 10 Nat) ops).apply (.pop 10)).1 =
      .items [6, 7, 8, 9, 4, 5, 6, 7, 8, 9] ∧
    ((run (Queue.step 10) Queue.empty ops).apply 10 (.pop 10)).1 =
      .items [0, 1, 2, 3, 4, 5, 6, 7, 8, 9] := by
  intro ops
  refine ⟨?_, ?_, ?_⟩
  · refine allSteps_of_mem (fun op hop t => ?_) _
    rw [List.append_assoc, List.mem_append] at hop
    rcases hop with hround | htail
    · rcases mem_rounds hround with rfl | rfl <;> trivial
    · rcases List.mem_pair.mp htail with rfl | rfl <;> trivial
  · rw [run_append]
    obtain ⟨hhead, htail⟩ := run_rounds (Traffic.start (fun _ => 0)) rfl (2 ^ 32 - 5)
    exact congrArg Reply.items (pop_push_wrap _ hhead htail)
  · rw [run_append, queue_rounds]
    rfl

end Ring

end Tapioca

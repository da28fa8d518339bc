-- SUMMARY: The capture FIFO in the PIOC data registers: slots, a published byte counter, and a producer that stores before it publishes.
import Tapioca.Lib.SlotRing

/-!
# The data-register FIFO

Both capture blobs leave their bytes in a ring of data registers and count them
in a HEAD register. A byte takes two steps: it is stored in its slot, then HEAD
is incremented. The producer never looks at the reader. `Fifo` is such a
register file together with the bytes stored since the eMCU was started; its
fields say what the registers then hold.
-/

namespace Tapioca.Pioc

open Lib.SlotRing

/-- The register file the eMCU shares with the CPU (`DR_`). -/
abbrev Regs := UInt8 → UInt8

/-- Where a blob keeps its ring and its HEAD. -/
structure Layout where
  slots : Nat
  base : UInt8
  head : UInt8
  slots_pos : 0 < slots
  fits : base.toNat + slots ≤ 256
  head_outside : head.toNat < base.toNat ∨ base.toNat + slots ≤ head.toNat

namespace Layout

variable (L : Layout)

/-- The register of slot `i`. -/
def slot (i : Nat) : UInt8 := L.base + UInt8.ofNat i

/-- The slots as a memory. -/
def mem (regs : Regs) (i : Nat) : UInt8 := regs (L.slot i)

variable {L}

theorem toNat_slot {i : Nat} (h : i < L.slots) : (L.slot i).toNat = L.base.toNat + i := by
  have := L.fits
  rw [slot, UInt8.toNat_add, UInt8.toNat_ofNat', Nat.add_mod_mod, Nat.mod_eq_of_lt (by omega)]

theorem slot_inj {i j : Nat} (hi : i < L.slots) (hj : j < L.slots) (h : L.slot i = L.slot j) :
    i = j := by
  have := congrArg UInt8.toNat h
  rw [toNat_slot hi, toNat_slot hj] at this
  omega

theorem slot_ne_head {i : Nat} (hi : i < L.slots) : L.slot i ≠ L.head := by
  intro h
  have heq := congrArg UInt8.toNat h
  have hout := L.head_outside
  rw [toNat_slot hi] at heq
  omega

end Layout

structure Fifo (L : Layout) where
  regs : Regs
  /-- The bytes stored since the start, oldest first. -/
  stored : List UInt8
  /-- How many of them HEAD has counted. -/
  published : Nat
  recorded : Recorded L.slots (L.mem regs) stored
  head_eq : regs L.head = UInt8.ofNat published
  published_le : published ≤ stored.length
  stored_le : stored.length ≤ published + 1

namespace Fifo

variable {L : Layout}

/-- A register file whose HEAD has just been cleared. -/
def start (L : Layout) (regs : Regs) : Fifo L where
  regs := Function.update regs L.head 0
  stored := []
  published := 0
  recorded := recorded_nil _
  head_eq := Function.update_self ..
  published_le := le_refl _
  stored_le := Nat.zero_le _

theorem mem_update_of_ne {regs : Regs} {a v : UInt8} (h : ∀ i < L.slots, L.slot i ≠ a) :
    ∀ i < L.slots, L.mem (Function.update regs a v) i = L.mem regs i :=
  fun i hi => Function.update_of_ne (h i hi) _ _

theorem mem_update_slot {regs : Regs} {n : Nat} {v : UInt8} :
    ∀ i < L.slots, L.mem (Function.update regs (L.slot (n % L.slots)) v) i =
      Function.update (L.mem regs) (n % L.slots) v i := by
  intro i hi
  by_cases h : i = n % L.slots
  · subst h
    rw [Layout.mem, Function.update_self, Function.update_self]
  · have hslot : L.slot i ≠ L.slot (n % L.slots) := fun heq =>
      h (Layout.slot_inj hi (Nat.mod_lt _ L.slots_pos) heq)
    rw [Function.update_of_ne h, Layout.mem, Function.update_of_ne hslot]
    rfl

/-- A write to a register outside the FIFO. -/
def scratch (f : Fifo L) (a v : UInt8) (hslot : ∀ i < L.slots, L.slot i ≠ a) (hhead : L.head ≠ a) :
    Fifo L where
  regs := Function.update f.regs a v
  stored := f.stored
  published := f.published
  recorded := f.recorded.congr L.slots_pos fun i hi => (mem_update_of_ne hslot i hi).symm
  head_eq := (Function.update_of_ne hhead _ _).trans f.head_eq
  published_le := f.published_le
  stored_le := f.stored_le

/-- The next byte goes into its slot. -/
def store (f : Fifo L) (v : UInt8) (h : f.published = f.stored.length) : Fifo L where
  regs := Function.update f.regs (L.slot (f.stored.length % L.slots)) v
  stored := f.stored ++ [v]
  published := f.published
  recorded := (f.recorded.store v).congr L.slots_pos fun i hi => (mem_update_slot i hi).symm
  head_eq :=
    (Function.update_of_ne (Layout.slot_ne_head (Nat.mod_lt _ L.slots_pos)).symm _ _).trans f.head_eq
  published_le := by rw [List.length_append]; omega
  stored_le := by rw [List.length_append, List.length_singleton]; omega

/-- The byte just stored is counted. -/
def publish (f : Fifo L) (h : f.published < f.stored.length) : Fifo L where
  regs := Function.update f.regs L.head (f.regs L.head + 1)
  stored := f.stored
  published := f.published + 1
  recorded := f.recorded.congr L.slots_pos fun i hi =>
    (mem_update_of_ne (fun _ hj => Layout.slot_ne_head hj) i hi).symm
  head_eq := by
    rw [Function.update_self, f.head_eq, UInt8.ofNat_add]
    rfl
  published_le := h
  stored_le := by have := f.stored_le; omega

section

variable (f : Fifo L) (a v : UInt8) (hslot : ∀ i < L.slots, L.slot i ≠ a) (hhead : L.head ≠ a)
  (hstore : f.published = f.stored.length) (hpub : f.published < f.stored.length)

@[simp] theorem scratch_regs :
    (f.scratch a v hslot hhead).regs = Function.update f.regs a v := rfl
@[simp] theorem scratch_stored : (f.scratch a v hslot hhead).stored = f.stored := rfl
@[simp] theorem scratch_published : (f.scratch a v hslot hhead).published = f.published := rfl

@[simp] theorem store_regs : (f.store v hstore).regs =
    Function.update f.regs (L.slot (f.stored.length % L.slots)) v := rfl
@[simp] theorem store_stored : (f.store v hstore).stored = f.stored ++ [v] := rfl
@[simp] theorem store_published : (f.store v hstore).published = f.published := rfl

@[simp] theorem publish_regs :
    (f.publish hpub).regs = Function.update f.regs L.head (f.regs L.head + 1) := rfl
@[simp] theorem publish_stored : (f.publish hpub).stored = f.stored := rfl
@[simp] theorem publish_published : (f.publish hpub).published = f.published + 1 := rfl

end

-- ---------------------------------------------------------------------------
-- Reading
-- ---------------------------------------------------------------------------

/-- A reader whose cursor counts `t` bytes sees how far HEAD is ahead, as long
as it is less than an epoch of the counter ahead. -/
theorem toNat_head_sub (f : Fifo L) {t : Nat} (ht : t ≤ f.published) (h : f.published < t + 256) :
    (f.regs L.head - UInt8.ofNat t).toNat = f.published - t := by
  rw [f.head_eq, ← UInt8.ofNat_sub ht, UInt8.toNat_ofNat', Nat.mod_eq_of_lt (by omega)]

/-- A slot read gives the byte of its index while nothing has been stored over it. -/
theorem mem_eq (f : Fifo L) {k : Nat} (hk : k < f.stored.length) (h : f.stored.length ≤ k + L.slots) :
    L.mem f.regs (k % L.slots) = f.stored[k] :=
  f.recorded k _ (List.getElem?_eq_getElem hk) h

end Fifo

end Tapioca.Pioc

-- SUMMARY: The clocked capture blob `pioc/clocked_sniffer.ASM`, and how its registers follow the bits it samples.
import Tapioca.Lib.Bits
import Tapioca.Pioc.Fifo

/-!
# The clocked capture blob

The eMCU program of `clocked_sniffer.ASM`, one step per group of instructions
that touches a shared register. A step that samples takes the level of the data
line; the other steps ignore it.
-/

namespace Tapioca.ClockedBlob

open Pioc Lib.Bits

def ACC : UInt8 := 0x3E
def HEAD : UInt8 := 0x3F

/-- `DATA_REG0..15`, with HEAD in `DATA_REG31`. -/
def layout : Layout where
  slots := 16
  base := 0x20
  head := HEAD
  slots_pos := by decide
  fits := by decide
  head_outside := by decide

/-- Where the program stands: before the seed of ACC, waiting for the edges of
bit `k`, before the store, before `INC HEAD`, before the pointer check. -/
inductive Pc where
  | seed
  | sample (k : Fin 8)
  | store
  | publish
  | wrap
  deriving DecidableEq

structure Emcu where
  regs : Regs
  /-- `SFR_INDIR_ADDR2`. -/
  ptr : UInt8
  pc : Pc

/-- `MCU_START`. -/
def Emcu.start (regs : Regs) : Emcu where
  regs := Function.update regs HEAD 0
  ptr := 0x20
  pc := .seed

/-- `RCL`: rotate left through the carry, which `BCTC` has just loaded. -/
def rcl (acc : UInt8) (c : Bool) : UInt8 := acc <<< 1 ||| c.toUInt8

def Emcu.step (m : Emcu) (bit : Bool) : Emcu :=
  match m.pc with
  | .seed => { m with regs := Function.update m.regs ACC 0x01, pc := .sample 0 }
  | .sample k =>
    { m with
      regs := Function.update m.regs ACC (rcl (m.regs ACC) bit)
      pc := if h : k.val + 1 < 8 then .sample ⟨k.val + 1, h⟩ else .store }
  | .store =>
    { regs := Function.update m.regs m.ptr (m.regs ACC), ptr := m.ptr + 1, pc := .publish }
  | .publish => { m with regs := Function.update m.regs HEAD (m.regs HEAD + 1), pc := .wrap }
  | .wrap => { m with ptr := if m.ptr &&& 0x10 ≠ 0 then 0x20 else m.ptr, pc := .seed }

/-- The bits a step shifts in. -/
def Emcu.samples (m : Emcu) (bit : Bool) : List Bool :=
  match m.pc with
  | .sample _ => [bit]
  | _ => []

/-- The byte a step publishes. -/
def Emcu.publishes (m : Emcu) : List UInt8 :=
  match m.pc with
  | .publish => [m.regs ACC]
  | _ => []

/-- The bits in ACC that HEAD has not counted yet. -/
def Emcu.heldBits (m : Emcu) : List Bool :=
  match m.pc with
  | .sample k => toBits k.val (m.regs ACC).toNat
  | .store | .publish => toBits 8 (m.regs ACC).toNat
  | .seed | .wrap => []

-- ---------------------------------------------------------------------------
-- Bits
-- ---------------------------------------------------------------------------

theorem toNat_rcl (acc : UInt8) (c : Bool) :
    (rcl acc c).toNat = (2 * acc.toNat + c.toNat) % 2 ^ 8 := by
  have hacc := acc.toNat_lt
  have hc := Bool.toNat_le c
  have hcarry : c.toUInt8.toNat = c.toNat := by cases c <;> rfl
  have hshl : (acc <<< 1).toNat = (acc.toNat % 2 ^ 7) <<< 1 := by
    simp only [UInt8.toNat_shiftLeft, UInt8.reduceToNat, Nat.shiftLeft_eq, Nat.reduceMod,
      Nat.reducePow]
    omega
  rw [rcl, UInt8.toNat_or, hshl, hcarry, ← Nat.shiftLeft_add_eq_or_of_lt (by omega),
    Nat.shiftLeft_eq]
  omega

/-- A shift appends to the low bits of ACC. -/
theorem toBits_rcl {k : Nat} (hk : k < 8) (acc : UInt8) (c : Bool) :
    toBits (k + 1) (rcl acc c).toNat = toBits k acc.toNat ++ [c] := by
  rw [toNat_rcl, toBits_mod hk, toBits_succ]

/-- A shift moves the sentinel up. -/
theorem sentinel_rcl {k : Nat} (hk : k + 1 < 8) {acc : UInt8} (c : Bool)
    (h : acc.toNat / 2 ^ k = 1) : (rcl acc c).toNat / 2 ^ (k + 1) = 1 := by
  have hc := Bool.toNat_le c
  have hpow : 2 ^ (k + 2) ≤ 2 ^ 8 := Nat.pow_le_pow_right (by omega) (by omega)
  have hacc := (Nat.div_eq_iff (Nat.two_pow_pos k)).mp h
  rw [toNat_rcl, Nat.mod_eq_of_lt (by rw [pow_succ, pow_succ] at hpow; omega), pow_succ,
    Nat.mul_comm (2 ^ k), ← Nat.div_div_eq_div_mul]
  have hhalf : (2 * acc.toNat + c.toNat) / 2 = acc.toNat := by omega
  rw [hhalf, h]

-- ---------------------------------------------------------------------------
-- The FIFO
-- ---------------------------------------------------------------------------

/-- The eMCU stands where a FIFO with these bytes puts it. -/
structure Tracks (m : Emcu) (f : Fifo layout) : Prop where
  regs : f.regs = m.regs
  published : f.published + (if m.pc = .publish then 1 else 0) = f.stored.length
  ptr_next : m.pc ≠ .publish → m.pc ≠ .wrap → m.ptr = layout.slot (f.stored.length % 16)
  ptr_behind : m.pc = .publish ∨ m.pc = .wrap →
    f.stored ≠ [] ∧ m.ptr = layout.slot ((f.stored.length - 1) % 16) + 1
  /-- The seeded sentinel stands above the bits sampled since. -/
  sentinel : ∀ k, m.pc = .sample k → (m.regs ACC).toNat / 2 ^ k.val = 1
  last : m.pc = .publish → f.stored.getLast? = some (m.regs ACC)

theorem tracks_start (regs : Regs) : Tracks (Emcu.start regs) (Fifo.start layout regs) where
  regs := rfl
  published := rfl
  ptr_next _ _ := rfl
  ptr_behind := by simp [Emcu.start]
  sentinel := by simp [Emcu.start]
  last := by simp [Emcu.start]

theorem slot_ne {a : UInt8} (ha : 0x30 ≤ a.toNat) : ∀ i < layout.slots, layout.slot i ≠ a := by
  intro i hi h
  have heq := congrArg UInt8.toNat h
  rw [Layout.toNat_slot hi] at heq
  have hbase : layout.base.toNat = 0x20 := rfl
  have hslots : layout.slots = 16 := rfl
  omega

/-- `BTSC SFR_INDIR_ADDR2, 4`: the pointer behind slot `i` is reloaded exactly
behind the last one. -/
theorem wrap_ptr {n : Nat} (h : 0 < n) :
    (if layout.slot ((n - 1) % 16) + 1 &&& 0x10 ≠ 0 then 0x20
      else layout.slot ((n - 1) % 16) + 1) = layout.slot (n % 16) := by
  have key : ∀ i : Fin 16, (if layout.slot i + 1 &&& 0x10 ≠ 0 then 0x20 else layout.slot i + 1) =
      layout.slot ((i + 1) % 16) := by decide
  have hi := key ⟨(n - 1) % 16, Nat.mod_lt _ (by omega)⟩
  rwa [Nat.mod_add_mod, Nat.sub_add_cancel h] at hi

/-- Every step of the blob is a step of its FIFO: a write outside it, a store,
or a publication. -/
theorem Tracks.step {m : Emcu} {f : Fifo layout} (h : Tracks m f) (bit : Bool) :
    ∃ f', Tracks (m.step bit) f' ∧
      f'.stored = f.stored ++ (if m.pc = .store then [m.regs ACC] else []) ∧
      f'.published = f.published + m.publishes.length := by
  obtain ⟨regs, ptr, pc⟩ := m
  obtain ⟨hregs, hpub, hnext, hbehind, hsent, hlast⟩ := h
  dsimp only at hregs hpub hnext hbehind hsent hlast
  subst hregs
  have hacc : layout.head ≠ ACC := by decide
  cases pc with
  -- per pc: what the step does to the FIFO, and the invariant field by field
  | seed =>
    refine ⟨f.scratch ACC 0x01 (slot_ne (by decide)) hacc, ?_, by simp, rfl⟩
    exact
      { regs := rfl
        published := by simpa [Emcu.step] using hpub
        ptr_next := by simpa [Emcu.step] using hnext
        ptr_behind := by simp [Emcu.step]
        sentinel := by
          intro k hk
          obtain rfl : 0 = k := by simpa [Emcu.step] using hk
          simp [Emcu.step]
        last := by simp [Emcu.step] }
  | sample k =>
    refine ⟨f.scratch ACC (rcl (f.regs ACC) bit) (slot_ne (by decide)) hacc, ?_, by simp, rfl⟩
    have hpc : (Emcu.step ⟨f.regs, ptr, .sample k⟩ bit).pc =
        if h : k.val + 1 < 8 then .sample ⟨k.val + 1, h⟩ else .store := rfl
    have hne : (Emcu.step ⟨f.regs, ptr, .sample k⟩ bit).pc ≠ .publish ∧
        (Emcu.step ⟨f.regs, ptr, .sample k⟩ bit).pc ≠ .wrap := by
      rw [hpc]
      split <;> simp
    exact
      { regs := rfl
        published := by simpa [hne.1] using hpub
        ptr_next := fun _ _ => hnext (by simp) (by simp)
        ptr_behind := fun h => (h.elim hne.1 hne.2).elim
        sentinel := by
          intro j hj
          rw [hpc] at hj
          split at hj
          · rename_i hlt
            obtain rfl : ⟨k.val + 1, hlt⟩ = j := by simpa using hj
            simpa [Emcu.step] using sentinel_rcl hlt bit (hsent k rfl)
          · cases hj
        last := fun h => absurd h hne.1 }
  | store =>
    have hstore : f.published = f.stored.length := by simpa using hpub
    have hptr : ptr = layout.slot (f.stored.length % 16) := hnext (by simp) (by simp)
    subst hptr
    refine ⟨f.store (f.regs ACC) hstore, ?_, by simp, rfl⟩
    have hkeep : Function.update f.regs (layout.slot (f.stored.length % 16)) (f.regs ACC) ACC =
        f.regs ACC :=
      Function.update_of_ne (slot_ne (by decide) _ (Nat.mod_lt _ layout.slots_pos)).symm _ _
    exact
      { regs := rfl
        published := by simp [Emcu.step, hstore]
        ptr_next := by simp [Emcu.step]
        ptr_behind := by simp [Emcu.step]
        sentinel := by simp [Emcu.step]
        last := fun _ => by simpa [Emcu.step] using hkeep.symm }
  | publish =>
    have hlt : f.published < f.stored.length := by
      simp only [if_true] at hpub
      omega
    refine ⟨f.publish hlt, ?_, by simp, rfl⟩
    exact
      { regs := rfl
        published := by simpa [Emcu.step] using hpub
        ptr_next := by simp [Emcu.step]
        ptr_behind := by simpa [Emcu.step] using hbehind
        sentinel := by simp [Emcu.step]
        last := by simp [Emcu.step] }
  | wrap =>
    -- the pointer has run one past the last slot; the wrap takes it back
    obtain ⟨hne, hptr⟩ := hbehind (.inr rfl)
    refine ⟨f, ?_, by simp, rfl⟩
    exact
      { regs := rfl
        published := by simpa [Emcu.step] using hpub
        ptr_next := fun _ _ => by
          simp only [Emcu.step, hptr]
          exact wrap_ptr (List.length_pos_iff.mpr hne)
        ptr_behind := by simp [Emcu.step]
        sentinel := by simp [Emcu.step]
        last := by simp [Emcu.step] }

/-- A sampled bit joins the held bits; the byte a step publishes leaves them. -/
theorem Tracks.heldBits_step {m : Emcu} {f : Fifo layout} (h : Tracks m f) (bit : Bool) :
    m.heldBits ++ m.samples bit =
      (m.publishes.flatMap fun b => toBits 8 b.toNat) ++ (m.step bit).heldBits := by
  obtain ⟨regs, ptr, pc⟩ := m
  cases pc with
  | seed => simp [Emcu.heldBits, Emcu.samples, Emcu.publishes, Emcu.step, toBits]
  | sample k =>
    have hk : k.val + 1 ≤ 8 := k.isLt
    simp only [Emcu.heldBits, Emcu.samples, Emcu.publishes, Emcu.step, List.flatMap_nil,
      List.nil_append]
    by_cases hlt : k.val + 1 < 8
    · simp only [dif_pos hlt, Function.update_self, toBits_rcl k.isLt]
    · have hlast : k.val = 7 := by omega
      have happend : toBits 8 (rcl (regs ACC) bit).toNat = toBits k.val (regs ACC).toNat ++ [bit] := by
        rw [hlast, ← toBits_rcl (by omega)]
      simp only [dif_neg hlt, Function.update_self, happend]
  | store =>
    have hptr : ptr = layout.slot (f.stored.length % 16) := h.ptr_next (by simp) (by simp)
    have hkeep : ACC ≠ ptr := by
      rw [hptr]
      exact (slot_ne (by decide) _ (Nat.mod_lt _ layout.slots_pos)).symm
    simp [Emcu.heldBits, Emcu.samples, Emcu.publishes, Emcu.step, Function.update_of_ne hkeep]
  | publish => simp [Emcu.heldBits, Emcu.samples, Emcu.publishes, Emcu.step]
  | wrap => simp [Emcu.heldBits, Emcu.samples, Emcu.publishes, Emcu.step]

end Tapioca.ClockedBlob

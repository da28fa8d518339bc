-- SUMMARY: The bits a host gets from a sequence of records: burst joining keeps every payload bit in order.
import Tapioca.Lib.Bits
import Tapioca.Host.MdioCodec

/-!
# Bits of joined bursts

`BurstJoiner` concatenates the payloads of a continued chain and hands them out
with the record that ends it. As long as no record carries an overflow flag it
drops nothing: the bits of the bursts handed out, then those of the chain still
open, are the bits of the records one after the other.
-/

namespace Tapioca.MdioCodec

open Host Lib.Bits

/-! ## Bytes and bits -/

@[simp] theorem bytesToBits_nil : bytesToBits [] = [] := rfl

theorem bytesToBits_append (bs cs : List UInt8) :
    bytesToBits (bs ++ cs) = bytesToBits bs ++ bytesToBits cs :=
  List.flatMap_append

theorem bytesToBits_eq (bs : List UInt8) : bytesToBits bs = bs.flatMap fun b => toBits 8 b.toNat :=
  rfl

theorem bytesToBits_singleton (b : UInt8) : bytesToBits [b] = toBits 8 b.toNat :=
  List.append_nil _

@[simp] theorem length_bytesToBits (bs : List UInt8) : (bytesToBits bs).length = 8 * bs.length := by
  rw [bytesToBits_eq, List.length_flatMap]
  simp [Nat.mul_comm]

theorem burstToBits_whole (payload : List UInt8) : burstToBits payload 0 = bytesToBits payload :=
  if_pos (.inr rfl)

/-- The last byte alone is cut to its valid bits. -/
theorem burstToBits_concat (bs : List UInt8) (b : UInt8) {k : Nat} (hk : k ≠ 0) :
    burstToBits (bs ++ [b]) k =
      bytesToBits bs ++ (List.range k).map fun i => b.toNat.testBit (7 - i) := by
  have hne : ¬ (bs ++ [b] = [] ∨ k = 0) := by simp [hk]
  rw [burstToBits, if_neg hne, List.dropLast_concat, List.getLastD_concat]

/-- What stands in front of a burst's last record is whole bytes. -/
theorem burstToBits_append (bs payload : List UInt8) {k : Nat} (h : k ≠ 0 → payload ≠ []) :
    burstToBits (bs ++ payload) k = bytesToBits bs ++ burstToBits payload k := by
  by_cases hk : k = 0
  · subst hk
    rw [burstToBits_whole, burstToBits_whole, bytesToBits_append]
  · obtain ⟨init, last, rfl⟩ := (List.eq_nil_or_concat payload).resolve_left (h hk)
    rw [List.concat_eq_append, ← List.append_assoc, burstToBits_concat _ _ hk, burstToBits_concat _ _ hk,
      bytesToBits_append, List.append_assoc]

/-! ## Joining -/

/-- The bits of a completed burst. -/
def burstBits (lb : LBurst) : List Bool := burstToBits lb.payload lb.validBits

/-- The bits of the bursts handed out and of the chain still open. -/
def joinedBits (acc : BurstJoiner × List LBurst) : List Bool :=
  acc.2.flatMap burstBits ++ bytesToBits acc.1.pay

/-- The number of valid bits a record's flags give for its last byte. -/
def validBits (r : Record) : Nat := ((r.flags >>> VALIDBITS_SHIFT) &&& VALIDBITS_MASK).toNat

/-- The bits a record adds. -/
def recordBits (r : Record) : List Bool :=
  if r.flags &&& FLAG_CONTINUED ≠ 0 then bytesToBits r.payload else burstToBits r.payload (validBits r)

/-- A continued record completes no burst. -/
theorem joinStep_continued (acc : BurstJoiner × List LBurst) {r : Record}
    (hcont : r.flags &&& FLAG_CONTINUED ≠ 0) : (joinStep acc r).2 = acc.2 := by
  simp only [joinStep, BurstJoiner.feed, if_pos hcont, Option.toList_none, List.append_nil]

/-- Joining a record without loss adds its bits, and a chain is left open only
by a continued record. -/
theorem joinStep_bits (acc : BurstJoiner × List LBurst) (r : Record)
    (hloss : r.flags &&& (FLAG_OVF_PIOC ||| FLAG_OVF_RAM) = 0)
    (hvalid : validBits r ≠ 0 → r.payload ≠ []) :
    joinedBits (joinStep acc r) = joinedBits acc ++ recordBits r ∧
      (r.flags &&& FLAG_CONTINUED = 0 → (joinStep acc r).1.pay = []) := by
  have hkeep : (if r.flags &&& (FLAG_OVF_PIOC ||| FLAG_OVF_RAM) ≠ 0 then {} else acc.1) = acc.1 :=
    if_neg (not_not.mpr hloss)
  rw [joinStep, hkeep, recordBits]
  by_cases hcont : r.flags &&& FLAG_CONTINUED ≠ 0
  · rw [if_pos hcont]
    simp only [BurstJoiner.feed, if_pos hcont, joinedBits]
    refine ⟨?_, fun h => absurd h hcont⟩
    rw [bytesToBits_append, Option.toList_none, List.append_nil, List.append_assoc]
  · rw [if_neg hcont]
    simp only [BurstJoiner.feed, if_neg hcont, joinedBits]
    refine ⟨?_, fun _ => trivial⟩
    rw [List.flatMap_append, Option.toList_some, List.flatMap_singleton, bytesToBits_nil,
      List.append_nil, List.append_assoc]
    congr 1
    exact burstToBits_append _ _ hvalid

end Tapioca.MdioCodec

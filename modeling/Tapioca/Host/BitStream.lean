-- SUMMARY: Both decoders refine the frame hunt, so their bit streams do not depend on how the line is cut into bursts.
import Tapioca.Host.FrameHunt

/-!
# Chunk invariance of the bit streams

`BitStream.feed` of the browser and of the Python library, against the frame
hunt over the whole line.
-/

namespace Tapioca.Host

open Lib.Bits

theorem shiftLeft_or_bit :
    (fun (v : Nat) (b : Bool) => v <<< 1 ||| b.toNat) = fun v b => 2 * v + b.toNat := by
  funext v b
  rw [← Nat.shiftLeft_add_eq_or_of_lt (by have := Bool.toNat_le b; omega), Nat.shiftLeft_eq]
  ring

/-- A field read at an absolute position of the line. -/
theorem drop_take_add {α : Type*} (bits : List α) (f lo hi : Nat) :
    (bits.take (f + hi)).drop (f + lo) = ((bits.drop f).take hi).drop lo := by
  rw [List.drop_take, List.drop_take, List.drop_drop]
  congr 1
  omega

/-- What follows a frame is a suffix of the line. -/
theorem suffix_of_mem_hunt {ones : Nat} {bits rest : List Bool} {fr : Frame}
    (h : (fr, rest) ∈ hunt ones bits) : rest <:+ bits := by
  induction ones, bits using hunt.induct with
  | case1 ones => simp at h
  | case2 ones bits ih =>
    rw [hunt_true] at h
    exact (ih h).trans (List.suffix_cons _ _)
  | case3 ones bits hlock ih =>
    rw [hunt_lock _ _ hlock, List.mem_cons] at h
    have hdrop : bits.drop 31 <:+ false :: bits :=
      (List.drop_suffix _ _).trans (List.suffix_cons _ _)
    rcases h with heq | h
    · rw [(Prod.mk.inj heq).2]
      exact hdrop
    · exact (ih h).trans hdrop
  | case4 ones bits hlock ih =>
    rw [hunt_false _ _ hlock] at h
    exact (ih h).trans (List.suffix_cons _ _)

/-- The offset behind the last frame of a line, or `fin` when there is none. -/
def finAfter (fin ones : Nat) (whole bits : List Bool) : Nat :=
  ((hunt ones bits).getLast?.map fun fe => whole.length - fe.2.length).getD fin

/-- The offset behind the last frame cuts the line at its leftover. -/
theorem drop_finAfter (buf : List Bool) :
    finAfter 0 0 buf buf ≤ buf.length ∧ buf.drop (finAfter 0 0 buf buf) = leftover buf := by
  unfold finAfter leftover
  cases hl : (hunt 0 buf).getLast? with
  | none => simp
  | some fe =>
    have hsuf : fe.2 <:+ buf := suffix_of_mem_hunt (List.mem_of_getLast? hl)
    simp only [Option.map_some, Option.getD_some]
    exact ⟨Nat.sub_le _ _, (List.suffix_iff_eq_drop.mp hsuf).symm⟩

/-- Cutting at the later of the two offsets keeps the last 80 bits of the
leftover. -/
theorem carryOf_eq_drop (buf : List Bool) :
    buf.drop (max (finAfter 0 0 buf buf) (buf.length - 80)) = carryOf buf := by
  obtain ⟨hle, hdrop⟩ := drop_finAfter buf
  rw [carryOf, ← hdrop, List.rtake, List.drop_drop, List.length_drop]
  congr 1
  omega

/-- At an index of the line, the hunt looks at the bit there. -/
theorem hunt_drop {bits : List Bool} {i : Nat} (h : i < bits.length) (ones : Nat) :
    hunt ones (bits.drop i) =
      if bits[i] then hunt (ones + 1) (bits.drop (i + 1))
      else if Locks ones (bits.drop i) then
        (frameIn (bits.drop i) ones, bits.drop (i + 32)) :: hunt 0 (bits.drop (i + 32))
      else hunt 0 (bits.drop (i + 1)) := by
  rw [List.drop_eq_getElem_cons h]
  cases hbit : bits.get ⟨i, h⟩ with
  | true =>
    rw [List.get_eq_getElem] at hbit
    rw [hbit, hunt_true, if_pos rfl]
  | false =>
    rw [List.get_eq_getElem] at hbit
    rw [hbit, if_neg Bool.false_ne_true]
    by_cases hlock : Locks ones (false :: bits.drop (i + 1))
    · rw [hunt_lock _ _ hlock, if_pos hlock, List.drop_drop]
    · rw [hunt_false _ _ hlock, if_neg hlock]

/-- The leftover offset moves on past each frame found. -/
theorem finAfter_drop {whole : List Bool} {i : Nat} (h : i < whole.length) (fin ones : Nat) :
    finAfter fin ones whole (whole.drop i) =
      if whole[i] then finAfter fin (ones + 1) whole (whole.drop (i + 1))
      else if Locks ones (whole.drop i) then finAfter (i + 32) 0 whole (whole.drop (i + 32))
      else finAfter fin 0 whole (whole.drop (i + 1)) := by
  unfold finAfter
  rw [hunt_drop h]
  split
  · rfl
  · split
    · rename_i hlock
      have hlen : i + 32 ≤ whole.length := by
        have := hlock.2.1
        rw [List.length_drop] at this
        omega
      cases hf : hunt 0 (whole.drop (i + 32)) with
      | nil =>
        simp only [List.getLast?_singleton, Option.map_some, Option.getD_some, List.length_drop,
          List.getLast?_nil, Option.map_none, Option.getD_none]
        omega
      | cons fe fs =>
        rw [List.getLast?_cons_cons, List.getLast?_eq_some_getLast (List.cons_ne_nil fe fs)]
        rfl
    · rfl

/-! ## The browser's codec -/

theorem codec_bval (bits : List Bool) (f lo hi : Nat) :
    MdioCodec.bval bits (f + lo) (f + hi) = field (bits.drop f) lo hi := by
  rw [MdioCodec.bval, shiftLeft_or_bit, drop_take_add]
  rfl

theorem codec_locks (bits : List Bool) (i ones : Nat) :
    (32 ≤ ones ∧ i + 32 ≤ bits.length ∧ MdioCodec.bval bits i (i + 2) = 0b01) ↔
      Locks ones (bits.drop i) := by
  have hb : MdioCodec.bval bits i (i + 2) = ofBits ((bits.drop i).take 2) := codec_bval bits i 0 2
  rw [hb, Locks, List.length_drop]
  refine and_congr_right fun _ => and_congr_left fun _ => ?_
  omega

theorem codec_frameAt (bits : List Bool) (f ones : Nat) :
    MdioCodec.frameAt bits f ones = frameIn (bits.drop f) ones := by
  unfold MdioCodec.frameAt frameIn
  simp only [codec_bval]

theorem codec_decodeBitsLoop (bits : List Bool) (i ones : Nat) :
    MdioCodec.decodeBitsLoop bits i ones = (hunt ones (bits.drop i)).map (·.1) := by
  induction i, ones using MdioCodec.decodeBitsLoop.induct bits with
  | case1 i ones h hbit ih =>
    rw [MdioCodec.decodeBitsLoop, dif_pos h, if_pos hbit, ih, hunt_drop h, if_pos hbit]
  | case2 i ones h hbit hlock ih =>
    rw [MdioCodec.decodeBitsLoop, dif_pos h, if_neg hbit, if_pos hlock, ih, hunt_drop h,
      if_neg hbit, if_pos ((codec_locks _ _ _).mp hlock), codec_frameAt]
    rfl
  | case3 i ones h hbit hlock ih =>
    rw [MdioCodec.decodeBitsLoop, dif_pos h, if_neg hbit, if_neg hlock, ih, hunt_drop h,
      if_neg hbit, if_neg (fun hl => hlock ((codec_locks _ _ _).mpr hl))]
  | case4 i ones h =>
    rw [MdioCodec.decodeBitsLoop, dif_neg h, List.drop_eq_nil_of_le (by omega), hunt_nil]
    rfl

theorem codec_decodeBits (bits : List Bool) :
    MdioCodec.decodeBits bits = (hunt 0 bits).map (·.1) :=
  codec_decodeBitsLoop bits 0 0

theorem codec_feedLoop (buf : List Bool) (i ones fin : Nat) :
    MdioCodec.BitStream.feedLoop buf i ones fin =
      ((hunt ones (buf.drop i)).map (·.1), finAfter fin ones buf (buf.drop i)) := by
  induction i, ones, fin using MdioCodec.BitStream.feedLoop.induct buf with
  | case1 i ones fin h hbit ih =>
    rw [MdioCodec.BitStream.feedLoop, dif_pos h, if_pos hbit, ih, hunt_drop h, finAfter_drop h,
      if_pos hbit, if_pos hbit]
  | case2 i ones fin h hbit hlock out fin' hrec ih =>
    have hl := (codec_locks _ _ _).mp hlock
    rw [MdioCodec.BitStream.feedLoop, dif_pos h, if_neg hbit, if_pos hlock, ih, hunt_drop h,
      finAfter_drop h, if_neg hbit, if_neg hbit, if_pos hl, if_pos hl, codec_frameAt, List.map_cons]
  | case3 i ones fin h hbit hlock ih =>
    have hl : ¬ Locks ones (buf.drop i) := fun hl => hlock ((codec_locks _ _ _).mpr hl)
    rw [MdioCodec.BitStream.feedLoop, dif_pos h, if_neg hbit, if_neg hlock, ih, hunt_drop h,
      finAfter_drop h, if_neg hbit, if_neg hbit, if_neg hl, if_neg hl]
  | case4 i ones fin h =>
    rw [MdioCodec.BitStream.feedLoop, dif_neg h, List.drop_eq_nil_of_le (by omega)]
    simp [finAfter]

theorem codec_feed (s : MdioCodec.BitStream) (bits : List Bool) :
    s.feed bits = ((hunt 0 (s.carry ++ bits)).map (·.1), ⟨carryOf (s.carry ++ bits)⟩) := by
  simp only [MdioCodec.BitStream.feed, codec_feedLoop, List.drop_zero,
    MdioCodec.BITSTREAM_CARRY_MAX, carryOf_eq_drop]

theorem codec_feedAll (s : MdioCodec.BitStream) (hs : s.carry.length ≤ 80)
    (bursts : List (List Bool)) :
    (s.feedAll bursts).1.map Frame.fields = huntBursts s.carry bursts ∧
      (s.feedAll bursts).2.carry.length ≤ 80 := by
  induction bursts generalizing s with
  | nil => exact ⟨rfl, hs⟩
  | cons bits bursts ih =>
    obtain ⟨hframes, hcarry⟩ := ih ⟨carryOf (s.carry ++ bits)⟩ (length_carryOf _)
    simp only [MdioCodec.BitStream.feedAll, codec_feed, huntBursts, List.map_append, hframes]
    exact ⟨by rw [huntFields, List.map_map]; rfl, hcarry⟩

/-! ## The Python library -/

theorem lib_bval (f : List Bool) (lo hi : Nat) :
    MdioLib.bval (MdioLib.slice f lo hi) = field f lo hi := by
  rw [MdioLib.bval, shiftLeft_or_bit]
  rfl

theorem slice_eq_take_drop {α : Type*} (xs : List α) (i k : Nat) :
    MdioLib.slice xs i (i + k) = (xs.drop i).take k :=
  drop_take_add xs i 0 k

theorem lib_frameOf (bits : List Bool) (i ones : Nat) :
    MdioLib.frameOf (MdioLib.slice bits i (i + 32)) ones = frameIn (bits.drop i) ones := by
  have hfield : ∀ lo hi, hi ≤ 32 →
      field (MdioLib.slice bits i (i + 32)) lo hi = field (bits.drop i) lo hi := by
    intro lo hi hle
    rw [field, slice_eq_take_drop, List.take_take, Nat.min_eq_left hle, field]
  unfold MdioLib.frameOf frameIn
  simp only [lib_bval, hfield _ 4 (by omega), hfield _ 9 (by omega), hfield _ 14 (by omega),
    hfield _ 16 (by omega), hfield _ 32 le_rfl]

theorem lib_locks (bits : List Bool) (i ones : Nat) :
    ((32 ≤ ones ∧ i + 32 ≤ bits.length) ∧
      MdioLib.bval (MdioLib.slice (MdioLib.slice bits i (i + 32)) 0 2) = 0b01) ↔
      Locks ones (bits.drop i) := by
  rw [lib_bval, slice_eq_take_drop, field, List.take_take, List.drop_zero, Locks, List.length_drop,
    and_assoc]
  refine and_congr_right fun _ => and_congr_left fun _ => ?_
  omega

theorem lib_decodeBitsPosLoop (bits : List Bool) (i ones : Nat) :
    MdioLib.decodeBitsPosLoop bits i ones =
      (hunt ones (bits.drop i)).map fun fe => (fe.1, bits.length - fe.2.length) := by
  induction i, ones using MdioLib.decodeBitsPosLoop.induct bits with
  | case1 i ones h hbit ih =>
    rw [MdioLib.decodeBitsPosLoop, dif_pos h, if_pos hbit, ih, hunt_drop h, if_pos hbit]
  | case2 i ones h hbit f hlock ih =>
    have hend : bits.length - (bits.drop (i + 32)).length = i + 32 := by
      have := hlock.1.2
      rw [List.length_drop]
      omega
    rw [MdioLib.decodeBitsPosLoop, dif_pos h, if_neg hbit, if_pos hlock, ih, hunt_drop h,
      if_neg hbit, if_pos ((lib_locks _ _ _).mp hlock), lib_frameOf, List.map_cons, hend]
  | case3 i ones h hbit f hlock ih =>
    rw [MdioLib.decodeBitsPosLoop, dif_pos h, if_neg hbit, if_neg hlock, ih, hunt_drop h,
      if_neg hbit, if_neg (fun hl => hlock ((lib_locks _ _ _).mpr hl))]
  | case4 i ones h =>
    rw [MdioLib.decodeBitsPosLoop, dif_neg h, List.drop_eq_nil_of_le (by omega), hunt_nil]
    rfl

theorem lib_decodeBits (bits : List Bool) :
    MdioLib.decodeBits bits = (hunt 0 bits).map (·.1) := by
  rw [MdioLib.decodeBits, MdioLib.decodeBitsPos, lib_decodeBitsPosLoop, List.drop_zero,
    List.map_map]
  rfl

theorem foldl_last {α β : Type*} (f : α → β) (xs : List α) (init : β) :
    xs.foldl (fun _ x => f x) init = (xs.getLast?.map f).getD init := by
  induction xs using List.reverseRecOn with
  | nil => rfl
  | append_singleton xs x _ => simp

theorem lib_feed (s : MdioLib.BitStream) (bits : List Bool) :
    s.feed bits = ((hunt 0 (s.carry ++ bits)).map (·.1), ⟨carryOf (s.carry ++ bits)⟩) := by
  have hfin : ∀ buf : List Bool,
      (MdioLib.decodeBitsPos buf).foldl (fun _ fe => fe.2) 0 = finAfter 0 0 buf buf := by
    intro buf
    rw [foldl_last, MdioLib.decodeBitsPos, lib_decodeBitsPosLoop, List.drop_zero,
      List.getLast?_map, Option.map_map]
    rfl
  have hframes := lib_decodeBits (s.carry ++ bits)
  rw [MdioLib.decodeBits] at hframes
  simp only [MdioLib.BitStream.feed, hfin, hframes, (drop_finAfter _).2,
    MdioLib.BitStream.CARRY_MAX, carryOf]

theorem lib_feedAll (s : MdioLib.BitStream) (hs : s.carry.length ≤ 80)
    (bursts : List (List Bool)) :
    (s.feedAll bursts).1.map Frame.fields = huntBursts s.carry bursts ∧
      (s.feedAll bursts).2.carry.length ≤ 80 := by
  induction bursts generalizing s with
  | nil => exact ⟨rfl, hs⟩
  | cons bits bursts ih =>
    obtain ⟨hframes, hcarry⟩ := ih ⟨carryOf (s.carry ++ bits)⟩ (length_carryOf _)
    simp only [MdioLib.BitStream.feedAll, lib_feed, huntBursts, List.map_append, hframes]
    exact ⟨by rw [huntFields, List.map_map]; rfl, hcarry⟩

/-! ## Chunk invariance -/

/-- However a line is cut into bursts, the frames of the successive feeds are
those of the whole line, each once and in order, and the carry stays within 80
bits. Only the preamble count may differ: a carry can have forgotten ones. -/
theorem bitStream_chunk_invariant (bursts : List (List Bool)) :
    ((MdioCodec.BitStream.new.feedAll bursts).1.map Frame.fields =
        (MdioCodec.decodeBits bursts.flatten).map Frame.fields ∧
      (MdioCodec.BitStream.new.feedAll bursts).2.carry.length ≤ MdioCodec.BITSTREAM_CARRY_MAX) ∧
    ((MdioLib.BitStream.new.feedAll bursts).1.map Frame.fields =
        (MdioLib.decodeBits bursts.flatten).map Frame.fields ∧
      (MdioLib.BitStream.new.feedAll bursts).2.carry.length ≤ MdioLib.BitStream.CARRY_MAX) := by
  have hwhole : huntBursts [] bursts = ((hunt 0 bursts.flatten).map (·.1)).map Frame.fields := by
    rw [huntBursts_eq (by simp [huntFields]), List.nil_append, huntFields, List.map_map]
    rfl
  obtain ⟨hjs, hjsCarry⟩ := codec_feedAll .new (by simp [MdioCodec.BitStream.new]) bursts
  obtain ⟨hpy, hpyCarry⟩ := lib_feedAll .new (by simp [MdioLib.BitStream.new]) bursts
  refine ⟨⟨?_, hjsCarry⟩, ⟨?_, hpyCarry⟩⟩
  · rw [hjs, codec_decodeBits]
    exact hwhole
  · rw [hpy, lib_decodeBits]
    exact hwhole

end Tapioca.Host

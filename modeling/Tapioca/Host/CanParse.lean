-- SUMMARY: What the CAN parser makes of an intact frame: stuffing undone, remote frames, bits lost in the gap.
import Mathlib.Data.List.DropRight
import Mathlib.Tactic
import Tapioca.Host.CanFrame

/-!
# Frames read back

The parser finds the CRC by the data length code alone. That is right for a data
frame; a remote frame has a length code and no data. And it asks for 34 bits before
it fills in the recessive ones that merged into the gap behind the frame.
-/

namespace Tapioca.Host.CanRle

open Lib.Bits (ofBits toBits)

/-- `bits` parse to a standard frame with these fields, its CRC right. -/
def Reads (bits : List Bool) (canId rtr dlc : Nat) (data : List Nat) : Prop :=
  ∃ f, parseFrame bits = some (.standard f) ∧
    f.id = canId ∧ f.rtr = rtr ∧ f.dlc = dlc ∧ f.data = data ∧ f.crcOk = true

/-! ## Stuffing -/

theorem unstuff_stuff (core : List Bool) : unstuff (stuff core) = core := by
  rw [unstuff_eq, stuff_eq]
  exact Lib.Stuffing.unstuff_stuff (by omega) core

theorem unstuff_stuff_append (core tail : List Bool) : core <+: unstuff (stuff core ++ tail) := by
  rw [unstuff_eq, stuff_eq]
  exact Lib.Stuffing.unstuff_stuff_append (by omega) core tail

/-- Stuffing is undone, whatever follows. -/
theorem unstuff_of_stuff :
    (∀ core tail, core <+: unstuff (stuff core ++ tail)) ∧ ∀ core, unstuff (stuff core) = core :=
  ⟨unstuff_stuff_append, unstuff_stuff⟩

/-! ## Every standard frame -/

theorem crcStep_lt (crc : Nat) (b : Bool) : crcStep crc b < 2 ^ 15 := by
  have hshift : (crc <<< 1) &&& 0x7FFF < 2 ^ 15 := Nat.and_lt_two_pow _ (by norm_num)
  rw [crcStep]
  split
  · exact Nat.xor_lt_two_pow hshift (by norm_num)
  · exact hshift

theorem canCrc15_lt (bits : List Bool) : canCrc15 bits < 2 ^ 15 := by
  rw [canCrc15]
  induction bits using List.reverseRecOn with
  | nil => exact Nat.two_pow_pos 15
  | append_singleton bits b _ =>
    rw [List.foldl_append]
    exact crcStep_lt _ b

/-- A frame whose data field has the length its code says reads back. -/
theorem reads_of_fields {bits : List Bool} {canId dlc : Nat} (rtr r0 : Bool) (tail : List Bool) {data : List Nat}
    (hid : canId < 2 ^ 11) (hdlc : dlc < 2 ^ 4) (hdata : data.length = min dlc 8) (hbyte : ∀ b ∈ data, b < 256)
    (hlen : 34 ≤ bits.length)
    (hbits : bits ++ List.replicate (19 + min dlc 8 * 8 + 15 - bits.length) RECESSIVE =
      crcBits (header canId rtr r0 dlc ++ data.flatMap (toBits 8)) ++ tail) :
    Reads bits canId rtr.toNat dlc data := by
  refine ⟨_, parseFrame_fields hid hdlc hdata hbyte (Lib.Bits.length_toBits 15 _) hlen hbits, rfl, rfl, rfl, rfl, ?_⟩
  rw [Lib.Bits.ofBits_toBits, Nat.mod_eq_of_lt (canCrc15_lt _)]
  exact beq_self_eq_true _

theorem length_crcBits (core : List Bool) : (crcBits core).length = core.length + 15 := by
  rw [crcBits, List.length_append, Lib.Bits.length_toBits]

/-- The parser reads every standard frame right, but remote ones that ask for data. -/
theorem parse_standard_iff (canId dlc : Nat) (rtr r0 : Bool) (data : List Nat) (tail : List Bool)
    (hid : canId < 2 ^ 11) (hdlc : dlc < 2 ^ 4) (hdata : data.length = if rtr then 0 else min dlc 8)
    (hbyte : ∀ b ∈ data, b < 256) :
    Reads (crcBits (header canId rtr r0 dlc ++ data.flatMap (toBits 8)) ++ tail) canId rtr.toNat dlc data ↔
      rtr = false ∨ dlc = 0 := by
  constructor
  · rintro ⟨f, hparse, -, -, hfdlc, hfdata, -⟩
    have hlen := parseFrame_data_length hparse
    rw [hfdata, hfdlc, hdata] at hlen
    cases rtr with
    | false => exact .inl rfl
    | true =>
      rw [if_pos rfl] at hlen
      exact .inr (by omega)
  · intro hkind
    have hlen : data.length = min dlc 8 := by
      rcases hkind with rfl | rfl
      · exact hdata
      · simpa using hdata
    have hbits : (crcBits (header canId rtr r0 dlc ++ data.flatMap (toBits 8)) ++ tail).length =
        19 + min dlc 8 * 8 + 15 + tail.length := by
      rw [List.length_append, length_crcBits, List.length_append, length_header, length_flatMap_toBits, hlen]
    refine reads_of_fields rtr r0 tail hid hdlc hlen hbyte (by omega) ?_
    rw [Nat.sub_eq_zero_of_le (by omega), List.replicate_zero, List.append_nil]

theorem parse_standard_iff_data : Reads (crcBits (header 0x123 false true 9 ++ [1, 2, 3, 4, 5, 6, 7, 255].flatMap (toBits 8)) ++
    [true, true]) 0x123 0 9 [1, 2, 3, 4, 5, 6, 7, 255] :=
  (parse_standard_iff 0x123 9 false true [1, 2, 3, 4, 5, 6, 7, 255] [true, true] (by decide) (by decide) (by decide)
    (by decide)).mpr (.inl rfl)

/-- A remote frame that asks for eight bytes: the CRC and the recessive bits behind it are taken for data. -/
theorem remote_frame_bad_crc :
    ¬ Reads (crcBits (header 0x123 true false 8) ++ List.replicate 13 RECESSIVE) 0x123 1 8 [] := by
  have hparse : parseFrame (crcBits (header 0x123 true false 8) ++ List.replicate 13 RECESSIVE) =
      some (.standard ⟨0x123, 1, 8, [223, 53, 255, 255, 255, 255, 255, 255], 32767, 9310, false⟩) := by
    decide +kernel
  rintro ⟨f, hf, -, -, -, -, hok⟩
  rw [hparse] at hf
  cases hf
  cases hok

/-! ## The gap behind a frame -/

/-- `bits` without the recessive run they end in, as a cut at that run leaves them. -/
def dropGap (bits : List Bool) : List Bool := bits.rdropWhile (· == RECESSIVE)

theorem dropGap_concat (bits : List Bool) : dropGap (bits ++ [RECESSIVE]) = dropGap bits :=
  List.rdropWhile_concat_pos _ _ _ rfl

theorem dropGap_append_ones (bits : List Bool) (n : Nat) :
    dropGap (bits ++ List.replicate n RECESSIVE) = dropGap bits := by
  induction n with
  | zero => rw [List.replicate_zero, List.append_nil]
  | succ n ih => rw [List.replicate_succ', ← List.append_assoc, dropGap_concat, ih]

/-- There is nothing to drop behind a dominant bit. -/
theorem dropGap_of_dominant {bits : List Bool} (h : bits.getLast? = some DOMINANT) : dropGap bits = bits := by
  obtain ⟨front, rfl⟩ := List.getLast?_eq_some_iff.mp h
  exact List.rdropWhile_concat_neg _ _ _ (by decide)

theorem dropGap_append (bits : List Bool) : ∃ t, bits = dropGap bits ++ List.replicate t RECESSIVE := by
  have hones : ∀ b ∈ bits.rtakeWhile (· == RECESSIVE), b = RECESSIVE := by
    intro b hb
    have hb := List.mem_rtakeWhile_imp hb
    exact eq_of_beq hb
  refine ⟨(bits.rtakeWhile (· == RECESSIVE)).length, ?_⟩
  rw [← List.eq_replicate_of_mem hones]
  exact List.rdropWhile_append_rtakeWhile.symm

/-- Of a stuffed string's bits the cut loses at most five, recessive ones. -/
theorem unstuff_dropGap (core : List Bool) :
    ∃ j ≤ 5, core = unstuff (dropGap (stuff core)) ++ List.replicate j RECESSIVE := by
  obtain ⟨t, hgap⟩ := dropGap_append (stuff core)
  rw [stuff_eq] at hgap ⊢
  obtain ⟨j, -, hj, hcore⟩ := Lib.Stuffing.unstuff_front (by omega) hgap
  exact ⟨j, hj, by rwa [unstuff_eq]⟩

theorem length_coreBits (canId : Nat) (data : List Nat) : (coreBits canId data).length = 19 + data.length * 8 := by
  rw [coreBits_eq, List.length_append, length_header, length_flatMap_toBits]

/-- The CRC is sent last, its lowest bit at the end. -/
theorem crcBits_concat (core : List Bool) : ∃ front, crcBits core = front ++ [(canCrc15 core).testBit 0] :=
  ⟨core ++ (List.range 14).map fun i => (canCrc15 core).testBit (14 - i), by
    rw [crcBits, toBits, List.range_succ, List.map_append, List.append_assoc]
    rfl⟩

/-- A frame whose cut bits are padded back to it reads back. -/
theorem reads_of_cut {bits : List Bool} {canId j : Nat} {data : List Nat} (hid : canId < 2 ^ 11)
    (hlen : data.length ≤ 8) (hbyte : ∀ b ∈ data, b < 256) (hcut : 34 ≤ bits.length)
    (hcore : crcBits (coreBits canId data) = bits ++ List.replicate j RECESSIVE) :
    Reads bits canId 0 data.length data := by
  have hmin : min data.length 8 = data.length := min_eq_left hlen
  have hall := congrArg List.length hcore
  rw [length_crcBits, length_coreBits, List.length_append, List.length_replicate] at hall
  have hpad : 19 + min data.length 8 * 8 + 15 - bits.length = j := by omega
  refine reads_of_fields false false [] hid (by omega) hmin.symm hbyte hcut ?_
  rw [hpad, ← hcore, coreBits_eq, List.append_nil]

/-- Cut at its gap a frame reads back, unless it carries no data and CRC bits went with the
gap: then the 34 bits asked for are not there. -/
theorem cut_frame_reads_iff {canId : Nat} {data : List Nat} (hid : canId < 2 ^ 11) (hlen : data.length ≤ 8)
    (hbyte : ∀ b ∈ data, b < 256) :
    (∃ rtr, Reads (unstuff (dropGap (buildFrameBits canId data))) canId rtr data.length data) ↔
      data ≠ [] ∨ (canCrc15 (coreBits canId data)).testBit 0 = DOMINANT ∨
        (stuff (crcBits (coreBits canId data))).getLast? = some DOMINANT := by
  have hall : (crcBits (coreBits canId data)).length = 34 + data.length * 8 := by
    rw [length_crcBits, length_coreBits]
    ring
  obtain ⟨front, hlast⟩ := crcBits_concat (coreBits canId data)
  rw [buildFrameBits, dropGap_append_ones]
  constructor
  · rintro ⟨rtr, f, hparse, -⟩
    by_contra hcond
    obtain ⟨hdata, hbit, hend⟩ : data = [] ∧ (canCrc15 (coreBits canId data)).testBit 0 = RECESSIVE ∧
        (stuff (crcBits (coreBits canId data))).getLast? ≠ some DOMINANT := by
      simpa [not_or] using hcond
    -- the last bit is the CRC's, and the cut takes it
    rw [hbit] at hlast
    have hgap : dropGap (stuff (crcBits (coreBits canId data))) = dropGap (stuff front) := by
      rw [hlast] at hend ⊢
      rcases stuff_concat front RECESSIVE with hplain | hstuffed
      · rw [hplain, dropGap_concat]
      · rw [hstuffed] at hend
        exact absurd (by simp) hend
    obtain ⟨j, -, hfront⟩ := unstuff_dropGap front
    have hshort : (unstuff (dropGap (stuff front))).length < 34 := by
      have h := congrArg List.length hfront
      rw [hlast, List.length_append, List.length_singleton, hdata] at hall
      rw [List.length_append] at h
      simp only [List.length_nil] at hall
      omega
    rw [hgap, parseFrame, if_pos (.inl hshort)] at hparse
    cases hparse
  · intro hcond
    obtain ⟨j, hj, hcore⟩ := unstuff_dropGap (crcBits (coreBits canId data))
    have hlost : data ≠ [] ∨ j = 0 := by
      rcases hcond with hdata | hbit | hend
      · exact .inl hdata
      · refine .inr ?_
        rcases j with _ | j
        · rfl
        · rw [hlast, hbit, List.replicate_succ', ← List.append_assoc] at hcore
          cases (List.append_inj' hcore rfl).2
      · rw [dropGap_of_dominant hend, unstuff_stuff, ← List.append_nil (crcBits _), List.append_assoc] at hcore
        have h := congrArg List.length (List.append_cancel_left hcore)
        exact .inr (by simpa using h.symm)
    refine ⟨0, reads_of_cut hid hlen hbyte ?_ hcore⟩
    have h := congrArg List.length hcore
    rw [hall, List.length_append, List.length_replicate] at h
    rcases hlost with hdata | rfl
    · have := List.length_pos_of_ne_nil hdata
      omega
    · omega

theorem cut_frame_reads_one_byte :
    ∃ rtr, Reads (unstuff (dropGap (buildFrameBits 0x123 [0xAA]))) 0x123 rtr 1 [0xAA] :=
  (cut_frame_reads_iff (by decide) (by decide) (by decide)).mpr (.inl (List.cons_ne_nil _ _))

/-- Identifier 1, no data: the CRC ends in two recessive bits, and 32 bits are left. -/
theorem cut_empty_frame_lost : ¬ ∃ rtr, Reads (unstuff (dropGap (buildFrameBits 1 []))) 1 rtr 0 [] := by
  have hparse : parseFrame (unstuff (dropGap (buildFrameBits 1 []))) = none := by decide +kernel
  rintro ⟨rtr, f, hf, -⟩
  rw [hparse] at hf
  cases hf

end Tapioca.Host.CanRle

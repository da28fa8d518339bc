-- SUMMARY: Consistent overhead byte stuffing over an arbitrary delimiter: groups, round trip, and what a truncated block decodes to.
import Mathlib.Tactic

/-!
# Consistent overhead byte stuffing

A block is a sequence of groups. A group is a code byte followed by `code - 1`
data bytes, none of them the delimiter. A code below `full` also stands for the
delimiter that ended the group, unless the group is the last one; a code equal
to `full` stands for the data bytes alone.

The delimiter and the full code are parameters, so that one development covers
both keyings in use: delimiter `0x00` with full code `0xFF`, and delimiter
`0xFF` with full code `0xFE`.
-/

namespace Lib.Cobs

/-- A choice of delimiter and full code under which no code byte is the
delimiter. -/
structure Keying where
  delim : UInt8
  full : UInt8
  two_le_full : 2 ≤ full.toNat
  code_ne_delim : ∀ n, 0 < n → n ≤ full.toNat → UInt8.ofNat n ≠ delim

variable (K : Keying)

/-- Encode `raw`, with the data bytes `grp` already in the open group. -/
def encodeFrom (grp : List UInt8) : List UInt8 → List UInt8
  | [] => UInt8.ofNat (grp.length + 1) :: grp
  | b :: raw =>
    if b = K.delim then
      UInt8.ofNat (grp.length + 1) :: (grp ++ encodeFrom [] raw)
    else if grp.length + 2 = K.full.toNat then
      K.full :: ((grp ++ [b]) ++ encodeFrom [] raw)
    else
      encodeFrom (grp ++ [b]) raw

/-- The encoded block of `raw`, without a closing delimiter. -/
def encode (raw : List UInt8) : List UInt8 := encodeFrom K [] raw

/-- Decode a block; `none` when a code byte is invalid or a group is cut short. -/
def decode : List UInt8 → Option (List UInt8)
  | [] => some []
  | code :: rest =>
    if code = K.delim ∨ code = 0 then none
    else if rest.length < code.toNat - 1 then none
    else
      (decode (rest.drop (code.toNat - 1))).map fun out =>
        rest.take (code.toNat - 1) ++
          ((if code ≠ K.full ∧ rest.drop (code.toNat - 1) ≠ [] then [K.delim] else []) ++ out)
termination_by block => block.length
decreasing_by simp only [List.length_drop, List.length_cons]; omega

/-! ## The open group -/

/-- The data bytes an encoder can be holding: fewer than a full group, and
none of them the delimiter. -/
structure OpenGroup (grp : List UInt8) : Prop where
  short : grp.length + 1 < K.full.toNat
  clean : K.delim ∉ grp

variable {K}

theorem OpenGroup.nil : OpenGroup K [] where
  short := by
    have := K.two_le_full
    simp only [List.length_nil]
    omega
  clean := by simp

theorem OpenGroup.concat {grp : List UInt8} {b : UInt8} (h : OpenGroup K grp)
    (hb : b ≠ K.delim) (hfull : grp.length + 2 ≠ K.full.toNat) : OpenGroup K (grp ++ [b]) where
  short := by
    have := h.short
    rw [List.length_append, List.length_singleton]
    omega
  clean := by
    simp only [List.mem_append, List.mem_singleton, not_or]
    exact ⟨h.clean, fun heq => hb heq.symm⟩

theorem toNat_ofNat_code {n : Nat} (h : n ≤ K.full.toNat) : (UInt8.ofNat n).toNat = n := by
  have := K.full.toNat_lt
  rw [UInt8.toNat_ofNat']
  omega

theorem ofNat_code_ne_zero {n : Nat} (hpos : 0 < n) (h : n ≤ K.full.toNat) :
    UInt8.ofNat n ≠ 0 := by
  intro heq
  have hn := toNat_ofNat_code h
  rw [heq] at hn
  exact absurd hn (by simp; omega)

theorem ofNat_full : UInt8.ofNat K.full.toNat = K.full := by simp

/-! ## Encoded blocks hold no delimiter -/

theorem delim_notMem_encodeFrom {grp raw : List UInt8} (h : OpenGroup K grp) :
    K.delim ∉ encodeFrom K grp raw := by
  have hcode : ∀ n, 0 < n → n ≤ K.full.toNat → K.delim ≠ UInt8.ofNat n := fun n h1 h2 =>
    (K.code_ne_delim n h1 h2).symm
  induction raw generalizing grp with
  | nil =>
    have := h.short
    simp only [encodeFrom, List.mem_cons, not_or]
    exact ⟨hcode _ (by omega) (by omega), h.clean⟩
  | cons b raw ih =>
    have := h.short
    simp only [encodeFrom]
    split
    · simp only [List.mem_cons, List.mem_append, not_or]
      exact ⟨hcode _ (by omega) (by omega), h.clean, ih .nil⟩
    · rename_i hb
      split
      · rw [← ofNat_full (K := K)]
        simp only [List.mem_cons, List.mem_append, List.not_mem_nil, or_false, not_or]
        exact ⟨hcode _ (by omega) le_rfl, ⟨h.clean, fun heq => hb heq.symm⟩, ih .nil⟩
      · rename_i hfull
        exact ih (h.concat hb hfull)

theorem delim_notMem_encode (raw : List UInt8) : K.delim ∉ encode K raw :=
  delim_notMem_encodeFrom .nil

/-! ## Decoding one group -/

@[simp] theorem decode_nil : decode K [] = some [] := by
  rw [decode]

/-- A whole group in front of a block, spelled with its code as a number. -/
theorem decode_group (grp block : List UInt8) (h : grp.length + 1 ≤ K.full.toNat) :
    decode K (UInt8.ofNat (grp.length + 1) :: (grp ++ block)) =
      (decode K block).map fun out =>
        grp ++ ((if grp.length + 1 ≠ K.full.toNat ∧ block ≠ [] then [K.delim] else []) ++ out) := by
  have hcode : (UInt8.ofNat (grp.length + 1)).toNat = grp.length + 1 := toNat_ofNat_code h
  have hvalid : ¬ (UInt8.ofNat (grp.length + 1) = K.delim ∨ UInt8.ofNat (grp.length + 1) = 0) := by
    rintro (heq | heq)
    · exact K.code_ne_delim _ (by omega) h heq
    · exact ofNat_code_ne_zero (by omega) h heq
  have hfull : UInt8.ofNat (grp.length + 1) ≠ K.full ↔ grp.length + 1 ≠ K.full.toNat := by
    rw [not_iff_not, ← UInt8.toNat_inj, hcode]
  rw [decode, if_neg hvalid, hcode, if_neg (by simp)]
  simp only [Nat.add_sub_cancel, List.drop_left', List.take_left', hfull]

/-- A group that is cut short is rejected. -/
theorem decode_cut {n : Nat} {cut : List UInt8} (hn : n + 1 ≤ K.full.toNat)
    (hcut : cut.length < n) : decode K (UInt8.ofNat (n + 1) :: cut) = none := by
  rw [decode, toNat_ofNat_code hn]
  split
  · rfl
  · rw [if_pos (by omega)]

/-! ## Round trip -/

theorem encodeFrom_ne_nil (grp raw : List UInt8) : encodeFrom K grp raw ≠ [] := by
  induction raw generalizing grp with
  | nil => simp [encodeFrom]
  | cons b raw ih =>
    rw [encodeFrom]
    split
    · simp
    · split
      · simp
      · exact ih _

theorem decode_encodeFrom {grp raw : List UInt8} (h : OpenGroup K grp) :
    decode K (encodeFrom K grp raw) = some (grp ++ raw) := by
  induction raw generalizing grp with
  | nil =>
    have hd := decode_group (K := K) grp [] (by have := h.short; omega)
    simpa [encodeFrom] using hd
  | cons b raw ih =>
    have hshort := h.short
    rw [encodeFrom]
    split
    · rename_i hb
      rw [decode_group _ _ (by omega), ih .nil, if_pos ⟨by omega, encodeFrom_ne_nil _ _⟩]
      simp [hb]
    · rename_i hb
      split
      · rename_i hfull
        have hlen : (grp ++ [b]).length + 1 = K.full.toNat := by
          rw [List.length_append, List.length_singleton]
          omega
        have hd := decode_group (K := K) (grp ++ [b]) (encodeFrom K [] raw) (by omega)
        rw [hlen, ofNat_full] at hd
        rw [hd, ih .nil]
        simp
      · rename_i hfull
        rw [ih (h.concat hb hfull)]
        simp

/-- Decoding an encoded block gives the bytes back. -/
theorem decode_encode (raw : List UInt8) : decode K (encode K raw) = some raw :=
  decode_encodeFrom .nil

/-! ## Truncated blocks -/

/-- One group followed by anything that decodes only to beginnings of `raw`
decodes, cut anywhere, only to beginnings of the whole. -/
theorem decode_cut_group {grp block cut out : List UInt8} (raw tail : List UInt8)
    (hgrp : grp.length + 1 ≤ K.full.toNat)
    (htail : tail = if grp.length + 1 ≠ K.full.toNat then K.delim :: raw else raw)
    (ih : ∀ {c o}, c <+: block → decode K c = some o → o <+: raw)
    (hcut : cut <+: UInt8.ofNat (grp.length + 1) :: (grp ++ block))
    (hout : decode K cut = some out) : out <+: grp ++ tail := by
  cases cut with
  | nil =>
    rw [decode_nil, Option.some_inj] at hout
    exact hout ▸ List.nil_prefix
  | cons c cut =>
    obtain ⟨rfl, hbody⟩ := List.cons_prefix_cons.mp hcut
    by_cases hlen : cut.length < grp.length
    · rw [decode_cut hgrp hlen] at hout
      cases hout
    · -- the group is whole: the cut falls behind it
      obtain ⟨rest, rfl⟩ : grp <+: cut :=
        List.prefix_of_prefix_length_le (List.prefix_append _ _) hbody (by omega)
      have hrest : rest <+: block := (List.prefix_append_right_inj _).mp hbody
      rw [decode_group _ _ hgrp] at hout
      obtain ⟨o, ho, rfl⟩ := Option.map_eq_some_iff.mp hout
      rw [List.prefix_append_right_inj, htail]
      have hpre := ih hrest ho
      by_cases hnil : rest = []
      · subst hnil
        rw [decode_nil, Option.some_inj] at ho
        simp [← ho]
      · by_cases hfull : grp.length + 1 = K.full.toNat
        · simpa [hfull] using hpre
        · simpa [hfull, hnil] using hpre

theorem decode_prefix_encodeFrom {grp raw cut out : List UInt8} (h : OpenGroup K grp)
    (hcut : cut <+: encodeFrom K grp raw) (hout : decode K cut = some out) :
    out <+: grp ++ raw := by
  induction raw generalizing grp cut out with
  | nil =>
    have hshort := h.short
    rw [encodeFrom] at hcut
    cases cut with
    | nil =>
      rw [decode_nil, Option.some_inj] at hout
      exact hout ▸ List.nil_prefix
    | cons c cut =>
      obtain ⟨rfl, hbody⟩ := List.cons_prefix_cons.mp hcut
      by_cases hlen : cut.length < grp.length
      · rw [decode_cut (by omega) hlen] at hout
        cases hout
      · obtain rfl := hbody.eq_of_length_le (by omega)
        -- all of the last group is there, and it decodes to itself
        have hd := decode_group (K := K) cut [] (by omega)
        simp only [List.append_nil] at hd
        rw [hd] at hout
        simp only [decode_nil, Option.map_some, Option.some_inj] at hout
        simp [← hout]
  | cons b raw ih =>
    have hshort := h.short
    rw [encodeFrom] at hcut
    split at hcut
    · rename_i hb
      exact decode_cut_group raw _ (by omega) (by simp [hb]; omega)
        (fun hc ho => ih .nil hc ho) hcut hout
    · rename_i hb
      split at hcut
      · rename_i hfull
        have hlen : (grp ++ [b]).length + 1 = K.full.toNat := by
          rw [List.length_append, List.length_singleton]
          omega
        rw [← ofNat_full (K := K), ← hlen] at hcut
        have := decode_cut_group raw raw (by omega) (by rw [if_neg (by simpa using hlen)])
          (fun hc ho => ih .nil hc ho) hcut hout
        simpa using this
      · rename_i hfull
        have := ih (h.concat hb hfull) hcut hout
        simpa using this

/-- A block cut anywhere either is rejected or decodes to a beginning of the
original bytes. -/
theorem decode_prefix_encode {raw cut out : List UInt8} (hcut : cut <+: encode K raw)
    (hout : decode K cut = some out) : out <+: raw :=
  decode_prefix_encodeFrom .nil hcut hout

/-! ## Shape of an encoded block -/

theorem length_lt_length_encodeFrom (grp raw : List UInt8) :
    grp.length + raw.length < (encodeFrom K grp raw).length := by
  induction raw generalizing grp with
  | nil => simp [encodeFrom]
  | cons b raw ih =>
    have h0 := ih []
    have h1 := ih (grp ++ [b])
    simp only [List.length_nil, List.length_append, List.length_singleton] at h0 h1
    rw [encodeFrom]
    split
    · simp only [List.length_cons, List.length_append]
      omega
    · split
      · simp only [List.length_cons, List.length_append, List.length_nil]
        omega
      · simp only [List.length_cons]
        omega

theorem length_encodeFrom_le (grp raw : List UInt8) :
    (encodeFrom K grp raw).length ≤ grp.length + 2 * raw.length + 1 := by
  induction raw generalizing grp with
  | nil => simp [encodeFrom]
  | cons b raw ih =>
    have h0 := ih []
    have h1 := ih (grp ++ [b])
    simp only [List.length_nil, List.length_append, List.length_singleton] at h0 h1
    rw [encodeFrom]
    split
    · simp only [List.length_cons, List.length_append]
      omega
    · split
      · simp only [List.length_cons, List.length_append, List.length_nil]
        omega
      · simp only [List.length_cons]
        omega

/-- The bound in use: one code byte for every full group, and one more. -/
theorem length_encodeFrom_le_div (grp raw : List UInt8) :
    (encodeFrom K grp raw).length ≤
      grp.length + raw.length + (grp.length + raw.length) / (K.full.toNat - 1) + 1 := by
  induction raw generalizing grp with
  | nil =>
    simp only [encodeFrom, List.length_cons, List.length_nil, Nat.add_zero]
    exact Nat.succ_le_succ (Nat.le_add_right _ _)
  | cons b raw ih =>
    have h0 := ih []
    have h1 := ih (grp ++ [b])
    simp only [List.length_nil, Nat.zero_add, List.length_append, List.length_singleton] at h0 h1
    have hmono : raw.length / (K.full.toNat - 1) ≤
        (grp.length + (raw.length + 1)) / (K.full.toNat - 1) := Nat.div_le_div_right (by omega)
    rw [encodeFrom, List.length_cons]
    split
    · simp only [List.length_cons, List.length_append]
      omega
    · split
      · -- a full group is paid for by its data
        rename_i hfull
        have hgroup : grp.length + (raw.length + 1) = raw.length + (K.full.toNat - 1) := by omega
        have hpos : 0 < K.full.toNat - 1 := by omega
        rw [hgroup, Nat.add_div_right _ hpos]
        simp only [List.length_cons, List.length_append, List.length_nil]
        omega
      · have hassoc : grp.length + (raw.length + 1) = grp.length + 1 + raw.length := by omega
        rw [hassoc]
        exact h1

theorem length_encode_le_div (raw : List UInt8) :
    (encode K raw).length ≤ raw.length + raw.length / (K.full.toNat - 1) + 1 := by
  simpa [encode] using length_encodeFrom_le_div (K := K) [] raw

/-- The open group's bytes come right behind the first code byte. -/
theorem prefix_tail_encodeFrom (grp raw : List UInt8) : grp <+: (encodeFrom K grp raw).tail := by
  induction raw generalizing grp with
  | nil => simp [encodeFrom]
  | cons b raw ih =>
    rw [encodeFrom]
    split
    · simp
    · split
      · simp
      · exact (List.prefix_append _ _).trans (ih _)

/-- A first byte that is not the delimiter comes second in the block. -/
theorem encode_cons {b : UInt8} {raw : List UInt8} (hb : b ≠ K.delim) :
    ∃ code rest, encode K (b :: raw) = code :: b :: rest := by
  have key : ∀ block : List UInt8, block ≠ [] → [b] <+: block.tail →
      ∃ code rest, block = code :: b :: rest := by
    rintro (_ | ⟨c, block⟩) hne hpre
    · exact absurd rfl hne
    · obtain ⟨rest, rfl⟩ := hpre
      exact ⟨c, rest, rfl⟩
  refine key _ (encodeFrom_ne_nil _ _) ?_
  rw [encode, encodeFrom, if_neg hb]
  split
  · simp
  · exact prefix_tail_encodeFrom [b] raw

end Lib.Cobs

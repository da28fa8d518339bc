-- SUMMARY: The COBS encoders as they write: every store checked against the caller's buffer, and the sizes that are enough.
import Tapioca.Util.Cobs

/-!
# COBS in a buffer

`Cobs::encode` and `Cobs::ffEncode` write through `out`, at `write_index` and
back at `code_index`, and trust the caller with the size of it. Here a store
past the end of the buffer fails. The buffer of a size that is enough comes back
with the block at its front and the rest as it was.
-/

namespace Tapioca.Cobs

open Lib

/-- `buf[i] = v`, `none` past the end of the buffer. -/
def store? (buf : List UInt8) (i : Nat) (v : UInt8) : Option (List UInt8) :=
  if i < buf.length then some (buf.set i v) else none

/-- `buf[i++] = …` for some bytes in a row: the buffer, and the next index. -/
def storeAll? (buf : List UInt8) (i : Nat) : List UInt8 → Option (List UInt8 × Nat)
  | [] => some (buf, i)
  | b :: bs => do
    let buf ← store? buf i b
    storeAll? buf (i + 1) bs

/-- The encoder loop over the caller's buffer; the result is the buffer and
`write_index`. -/
def encodeInto (delim full : UInt8) (buf : List UInt8) (codeIndex writeIndex : Nat) (code : UInt8) :
    List UInt8 → Option (List UInt8 × Nat)
  | [] => do
    let buf ← store? buf codeIndex code
    return (buf, writeIndex)
  | b :: inp =>
    if b = delim then do
      let buf ← store? buf codeIndex code
      encodeInto delim full buf writeIndex (writeIndex + 1) 1 inp
    else do
      let buf ← store? buf writeIndex b
      let code := code + 1
      if code = full then
        let buf ← store? buf codeIndex code
        encodeInto delim full buf (writeIndex + 1) (writeIndex + 2) 1 inp
      else
        encodeInto delim full buf codeIndex (writeIndex + 1) code inp

/-- `Cobs::encode`. -/
def encodeBuf (inp out : List UInt8) : Option (List UInt8 × Nat) := encodeInto 0x00 0xFF out 0 1 1 inp

/-- `Cobs::ffEncode`. -/
def ffEncodeBuf (inp out : List UInt8) : Option (List UInt8 × Nat) := encodeInto 0xFF 0xFE out 0 1 1 inp

def maxEncoded (n : Nat) : Nat := n + n / 254 + 1

def ffMaxEncoded (n : Nat) : Nat := n + n / 253 + 1

-- ---------------------------------------------------------------------------
-- Sizes
-- ---------------------------------------------------------------------------

theorem length_encode_le (inp : List UInt8) : (encode inp).length ≤ maxEncoded inp.length := by
  rw [encode_eq]
  exact Lib.Cobs.length_encode_le_div inp

theorem length_ffEncode_le (inp : List UInt8) : (ffEncode inp).length ≤ ffMaxEncoded inp.length := by
  rw [ffEncode_eq]
  exact Lib.Cobs.length_encode_le_div inp

-- ---------------------------------------------------------------------------
-- Stores in a row
-- ---------------------------------------------------------------------------

theorem store?_append (done rest : List UInt8) (old v : UInt8) :
    store? (done ++ old :: rest) done.length v = some (done ++ v :: rest) := by
  have hlt : done.length < (done ++ old :: rest).length := by simp
  rw [store?, if_pos hlt, set_slot]

theorem storeAll?_eq (done rest bs : List UInt8) (h : bs.length ≤ rest.length) :
    storeAll? (done ++ rest) done.length bs =
      some (done ++ bs ++ rest.drop bs.length, done.length + bs.length) := by
  induction bs generalizing done rest with
  | nil => simp [storeAll?]
  | cons b bs ih =>
    cases rest with
    | nil => simp at h
    | cons old rest =>
      have hnext := ih (done ++ [b]) rest (by simpa using h)
      rw [List.append_assoc, List.length_append] at hnext
      rw [storeAll?, store?_append]
      refine hnext.trans ?_
      simp [Nat.add_comm, Nat.add_left_comm]

-- ---------------------------------------------------------------------------
-- The encoder
-- ---------------------------------------------------------------------------

/-- In the middle of a group, as `encodeLoop_eq`: what comes behind the group's
data is the rest of the buffer, and is written over as far as the block goes. -/
theorem encodeInto_eq (K : Lib.Cobs.Keying) {grp : List UInt8} (h : Lib.Cobs.OpenGroup K grp)
    (done : List UInt8) (slot : UInt8) (rest inp : List UInt8)
    (hfits : (Lib.Cobs.encodeFrom K grp inp).length ≤ grp.length + 1 + rest.length) :
    encodeInto K.delim K.full (done ++ slot :: (grp ++ rest)) done.length (done.length + 1 + grp.length)
        (UInt8.ofNat (grp.length + 1)) inp =
      some (done ++ Lib.Cobs.encodeFrom K grp inp ++
          rest.drop ((Lib.Cobs.encodeFrom K grp inp).length - (grp.length + 1)),
        done.length + (Lib.Cobs.encodeFrom K grp inp).length) := by
  induction inp generalizing grp done slot rest with
  | nil =>
    rw [encodeInto, store?_append, Lib.Cobs.encodeFrom]
    simp [Nat.add_comm, Nat.add_left_comm]
  | cons b inp ih =>
    have hshort := h.short
    have hlong := Lib.Cobs.length_lt_length_encodeFrom (K := K) grp (b :: inp)
    -- a group that ends reopens an empty one right behind it
    have hnext : ∀ (c : UInt8) (grp rest : List UInt8),
        (Lib.Cobs.encodeFrom K [] inp).length ≤ rest.length →
        encodeInto K.delim K.full (done ++ c :: (grp ++ rest)) (done.length + 1 + grp.length)
            (done.length + 1 + grp.length + 1) 1 inp =
          some (done ++ c :: (grp ++ Lib.Cobs.encodeFrom K [] inp) ++
              rest.drop (Lib.Cobs.encodeFrom K [] inp).length,
            done.length + 1 + grp.length + (Lib.Cobs.encodeFrom K [] inp).length) := by
      intro c grp rest hroom
      have hne : 0 < (Lib.Cobs.encodeFrom K [] inp).length :=
        List.length_pos_of_ne_nil (Lib.Cobs.encodeFrom_ne_nil _ _)
      cases rest with
      | nil => exact absurd hroom (by rw [List.length_nil]; omega)
      | cons slot rest =>
        have hopen := ih .nil (done ++ c :: grp) slot rest (by simpa [Nat.add_comm] using hroom)
        have hlen : (done ++ c :: grp).length = done.length + 1 + grp.length := by
          rw [List.length_append, List.length_cons]
          omega
        have hdrop : (slot :: rest).drop (Lib.Cobs.encodeFrom K [] inp).length =
            rest.drop ((Lib.Cobs.encodeFrom K [] inp).length - 1) :=
          List.drop_cons hne
        rw [hlen] at hopen
        rw [hdrop]
        simpa using hopen
    have hcode : UInt8.ofNat (grp.length + 1) + 1 = UInt8.ofNat ((grp ++ [b]).length + 1) := by
      rw [List.length_append, List.length_singleton, UInt8.ofNat_add (grp.length + 1) 1]
      rfl
    rw [encodeInto]
    rw [Lib.Cobs.encodeFrom] at hfits hlong ⊢
    split
    · rename_i hb
      rw [if_pos hb, List.length_cons, List.length_append] at hfits
      have hroom : (Lib.Cobs.encodeFrom K [] inp).length ≤ rest.length := by omega
      have hlen : (UInt8.ofNat (grp.length + 1) :: (grp ++ Lib.Cobs.encodeFrom K [] inp)).length =
          1 + grp.length + (Lib.Cobs.encodeFrom K [] inp).length := by
        rw [List.length_cons, List.length_append]
        omega
      have hdrop : 1 + grp.length + (Lib.Cobs.encodeFrom K [] inp).length - (grp.length + 1) =
          (Lib.Cobs.encodeFrom K [] inp).length := by omega
      rw [store?_append, hlen, hdrop, ← Nat.add_assoc, ← Nat.add_assoc]
      exact hnext _ grp rest hroom
    · rename_i hb
      rw [if_neg hb] at hfits hlong
      cases rest with
      | nil =>
        rw [List.length_cons] at hlong
        rw [List.length_nil] at hfits
        omega
      | cons old rest =>
        have hbuf : ∀ v, done ++ slot :: (grp ++ v :: rest) = (done ++ slot :: grp) ++ v :: rest := by simp
        have hindex : done.length + 1 + grp.length = (done ++ slot :: grp).length := by
          rw [List.length_append, List.length_cons]
          omega
        have hgrp : done ++ slot :: (grp ++ b :: rest) = done ++ slot :: ((grp ++ [b]) ++ rest) := by simp
        have hlen : (grp ++ [b]).length = grp.length + 1 := by simp
        have hfull : UInt8.ofNat ((grp ++ [b]).length + 1) = K.full ↔
            grp.length + 2 = K.full.toNat := by
          rw [hlen, ← UInt8.toNat_inj, Lib.Cobs.toNat_ofNat_code (K := K) (by omega)]
        rw [hbuf, hindex, store?_append, ← hbuf, ← hindex, hgrp]
        simp only [Option.bind_eq_bind, Option.bind_some, hcode, hfull]
        split
        · rename_i heq
          rw [if_pos heq, List.length_cons, List.length_append, hlen] at hfits
          have hroom : (Lib.Cobs.encodeFrom K [] inp).length ≤ rest.length := by
            rw [List.length_cons] at hfits
            omega
          have hwhole : (K.full :: ((grp ++ [b]) ++ Lib.Cobs.encodeFrom K [] inp)).length =
              1 + (grp ++ [b]).length + (Lib.Cobs.encodeFrom K [] inp).length := by
            rw [List.length_cons, List.length_append]
            omega
          have hdrop : 1 + (grp ++ [b]).length + (Lib.Cobs.encodeFrom K [] inp).length -
              (grp.length + 1) = (Lib.Cobs.encodeFrom K [] inp).length + 1 := by omega
          have hcode' : UInt8.ofNat ((grp ++ [b]).length + 1) = K.full := by
            rw [hlen, heq, Lib.Cobs.ofNat_full]
          rw [store?_append, hcode', hwhole, hdrop, List.drop_succ_cons, ← Nat.add_assoc,
            ← Nat.add_assoc]
          have hopen := hnext K.full (grp ++ [b]) rest hroom
          rw [hlen] at hopen ⊢
          exact hopen
        · rename_i hne
          rw [if_neg hne] at hfits
          have hroom : (Lib.Cobs.encodeFrom K (grp ++ [b]) inp).length ≤
              (grp ++ [b]).length + 1 + rest.length := by
            rw [List.length_cons] at hfits
            omega
          have hopen := ih (h.concat hb hne) done slot rest hroom
          have hdata := Lib.Cobs.length_lt_length_encodeFrom (K := K) (grp ++ [b]) inp
          have hdrop : (old :: rest).drop ((Lib.Cobs.encodeFrom K (grp ++ [b]) inp).length - (grp.length + 1)) =
              rest.drop ((Lib.Cobs.encodeFrom K (grp ++ [b]) inp).length - ((grp ++ [b]).length + 1)) := by
            rw [List.drop_cons (by omega), hlen, Nat.sub_sub]
          rw [hdrop]
          rw [hlen] at hopen ⊢
          exact hopen

/-- A buffer that holds the block gets it at its front. -/
theorem encodeInto_start (K : Lib.Cobs.Keying) (inp out : List UInt8)
    (hfits : (Lib.Cobs.encode K inp).length ≤ out.length) :
    encodeInto K.delim K.full out 0 1 1 inp =
      some (Lib.Cobs.encode K inp ++ out.drop (Lib.Cobs.encode K inp).length,
        (Lib.Cobs.encode K inp).length) := by
  rw [Lib.Cobs.encode] at hfits ⊢
  have hpos : 0 < (Lib.Cobs.encodeFrom K [] inp).length :=
    List.length_pos_of_ne_nil (Lib.Cobs.encodeFrom_ne_nil _ _)
  cases out with
  | nil => exact absurd hfits (by rw [List.length_nil]; omega)
  | cons slot rest =>
    have hopen := encodeInto_eq K .nil [] slot rest inp (by simpa [Nat.add_comm] using hfits)
    rw [List.drop_cons hpos]
    simpa using hopen

theorem encodeBuf_eq (inp out : List UInt8) (hfits : maxEncoded inp.length ≤ out.length) :
    encodeBuf inp out =
      some (encode inp ++ out.drop (encode inp).length, (encode inp).length) := by
  have hlen := (length_encode_le inp).trans hfits
  rw [encode_eq] at hlen ⊢
  exact encodeInto_start zeroKeying inp out hlen

theorem ffEncodeBuf_eq (inp out : List UInt8) (hfits : ffMaxEncoded inp.length ≤ out.length) :
    ffEncodeBuf inp out =
      some (ffEncode inp ++ out.drop (ffEncode inp).length, (ffEncode inp).length) := by
  have hlen := (length_ffEncode_le inp).trans hfits
  rw [ffEncode_eq] at hlen ⊢
  exact encodeInto_start ffKeying inp out hlen

end Tapioca.Cobs

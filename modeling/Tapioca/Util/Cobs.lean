-- SUMMARY: The COBS encoder and decoder loops of `util/cobs.hpp` and `app/test/cobs.js`, and their refinement of the block codec.
import Tapioca.Lib.Cobs

/-!
# COBS framing

The loops of `Cobs::encode`, `Cobs::decode` and their `0xFF`-keyed twins. The
two keyings run the same loop with the delimiter and the full code exchanged,
so each loop is one definition here, and each function is that loop at its own
two bytes. A decoder's `none` is the C++ `return 0` and the JavaScript `null`.
-/

namespace Tapioca.Cobs

open Lib

-- ---------------------------------------------------------------------------
-- The loops
-- ---------------------------------------------------------------------------

/-- The encoder loop. `out` is what has been written, `codeIndex` the position
reserved for the code byte of the open group, `code` its value so far. The slot
reserved by `code_index = write_index++` holds 0 until it is written. -/
def encodeLoop (delim full : UInt8) (out : List UInt8) (codeIndex : Nat) (code : UInt8) :
    List UInt8 → List UInt8
  | [] => out.set codeIndex code
  | b :: inp =>
    if b = delim then
      encodeLoop delim full (out.set codeIndex code ++ [0]) out.length 1 inp
    else
      let out := out ++ [b]
      let code := code + 1
      if code = full then
        encodeLoop delim full (out.set codeIndex code ++ [0]) out.length 1 inp
      else
        encodeLoop delim full out codeIndex code inp

/-- The decoder loop over the bytes from `read_index` on. -/
def decodeLoop (delim full : UInt8) (out : List UInt8) : List UInt8 → Option (List UInt8)
  | [] => some out
  | code :: inp =>
    if code = delim ∨ code = 0x00 then none
    else if inp.length < code.toNat - 1 then none
    else
      let out := out ++ inp.take (code.toNat - 1)
      let rest := inp.drop (code.toNat - 1)
      decodeLoop delim full (if code ≠ full ∧ rest ≠ [] then out ++ [delim] else out) rest
termination_by inp => inp.length
decreasing_by simp only [List.length_drop, List.length_cons]; omega

/-- Standard COBS, delimiter `0x00`. -/
def encode (inp : List UInt8) : List UInt8 := encodeLoop 0x00 0xFF [0] 0 1 inp

def decode (inp : List UInt8) : Option (List UInt8) := decodeLoop 0x00 0xFF [] inp

/-- COBS keyed on `0xFF`, the framing of the records. -/
def ffEncode (inp : List UInt8) : List UInt8 := encodeLoop 0xFF 0xFE [0] 0 1 inp

def ffDecode (inp : List UInt8) : Option (List UInt8) := decodeLoop 0xFF 0xFE [] inp

/-- The host's decoder in `app/test/cobs.js`. -/
def cobsFfDecode (inp : List UInt8) : Option (List UInt8) := decodeLoop 0xFF 0xFE [] inp

-- ---------------------------------------------------------------------------
-- Refinement of the block codec
-- ---------------------------------------------------------------------------

/-- The keying of `encode` and `decode`. -/
def zeroKeying : Cobs.Keying where
  delim := 0x00
  full := 0xFF
  two_le_full := by decide
  code_ne_delim n hpos hle heq := by
    have h := congrArg UInt8.toNat heq
    simp only [UInt8.toNat_ofNat', UInt8.reduceToNat] at h hle
    omega

/-- The keying of `ffEncode` and `ffDecode`. -/
def ffKeying : Cobs.Keying where
  delim := 0xFF
  full := 0xFE
  two_le_full := by decide
  code_ne_delim n hpos hle heq := by
    have h := congrArg UInt8.toNat heq
    simp only [UInt8.toNat_ofNat', UInt8.reduceToNat] at h hle
    omega

@[simp] theorem ffKeying_delim : ffKeying.delim = 0xFF := rfl

/-- Writing the code byte into its reserved slot. -/
theorem set_slot (done grp : List UInt8) (slot code : UInt8) :
    (done ++ slot :: grp).set done.length code = done ++ code :: grp := by
  rw [List.set_append_right _ _ le_rfl]
  simp

/-- The encoder loop in the middle of a group: everything before `done` is
final, then come the reserved slot and the group's data so far. -/
theorem encodeLoop_eq (K : Lib.Cobs.Keying) {grp : List UInt8} (h : Lib.Cobs.OpenGroup K grp)
    (done : List UInt8) (slot : UInt8) (inp : List UInt8) :
    encodeLoop K.delim K.full (done ++ slot :: grp) done.length (UInt8.ofNat (grp.length + 1)) inp =
      done ++ Lib.Cobs.encodeFrom K grp inp := by
  induction inp generalizing grp done slot with
  | nil => rw [encodeLoop, Lib.Cobs.encodeFrom, set_slot]
  | cons b inp ih =>
    have hshort := h.short
    have hcode : UInt8.ofNat (grp.length + 1) + 1 = UInt8.ofNat ((grp ++ [b]).length + 1) := by
      rw [List.length_append, List.length_singleton, UInt8.ofNat_add (grp.length + 1) 1]
      rfl
    -- a group that ends reopens an empty one right behind it
    have hnext : ∀ (c : UInt8) (grp : List UInt8),
        encodeLoop K.delim K.full ((done ++ c :: grp) ++ [0]) (done ++ c :: grp).length 1 inp =
          done ++ c :: (grp ++ Lib.Cobs.encodeFrom K [] inp) := by
      intro c grp
      have := ih .nil (done ++ c :: grp) 0
      simpa using this
    rw [encodeLoop, Lib.Cobs.encodeFrom]
    split
    · rw [set_slot]
      simpa using hnext (UInt8.ofNat (grp.length + 1)) grp
    · rename_i hb
      have hout : done ++ slot :: grp ++ [b] = done ++ slot :: (grp ++ [b]) := by simp
      have hlen : (grp ++ [b]).length + 1 = grp.length + 2 := by simp
      have hfull : UInt8.ofNat ((grp ++ [b]).length + 1) = K.full ↔
          grp.length + 2 = K.full.toNat := by
        rw [hlen, ← UInt8.toNat_inj, Lib.Cobs.toNat_ofNat_code (K := K) (by omega)]
      simp only [hout, hcode, set_slot, hfull]
      split
      · rename_i heq
        rw [hlen, heq, Lib.Cobs.ofNat_full]
        simpa using hnext K.full (grp ++ [b])
      · rename_i hne
        exact ih (h.concat hb hne) done slot

theorem encodeLoop_start (K : Lib.Cobs.Keying) (inp : List UInt8) :
    encodeLoop K.delim K.full [0] 0 1 inp = Lib.Cobs.encode K inp :=
  encodeLoop_eq K .nil [] 0 inp

theorem decodeLoop_eq (K : Lib.Cobs.Keying) (out inp : List UInt8) :
    decodeLoop K.delim K.full out inp = (Lib.Cobs.decode K inp).map (out ++ ·) := by
  induction inp using Lib.Cobs.decode.induct (K := K) generalizing out with
  | case1 => simp [decodeLoop]
  | case2 code inp hbad => rw [decodeLoop, Lib.Cobs.decode, if_pos hbad, if_pos hbad]; rfl
  | case3 code inp hok hcut =>
    rw [decodeLoop, Lib.Cobs.decode, if_neg hok, if_neg hok, if_pos hcut, if_pos hcut]
    rfl
  | case4 code inp hok hlen ih =>
    rw [decodeLoop, Lib.Cobs.decode, if_neg hok, if_neg hok, if_neg hlen, if_neg hlen, ih,
      Option.map_map]
    congr 1
    funext tail
    split <;> simp

theorem decodeLoop_start (K : Lib.Cobs.Keying) (inp : List UInt8) :
    decodeLoop K.delim K.full [] inp = Lib.Cobs.decode K inp := by
  simp [decodeLoop_eq]

theorem encode_eq (inp : List UInt8) : encode inp = Lib.Cobs.encode zeroKeying inp :=
  encodeLoop_start zeroKeying inp

theorem decode_eq (inp : List UInt8) : decode inp = Lib.Cobs.decode zeroKeying inp :=
  decodeLoop_start zeroKeying inp

theorem ffEncode_eq (inp : List UInt8) : ffEncode inp = Lib.Cobs.encode ffKeying inp :=
  encodeLoop_start ffKeying inp

theorem ffDecode_eq (inp : List UInt8) : ffDecode inp = Lib.Cobs.decode ffKeying inp :=
  decodeLoop_start ffKeying inp

theorem cobsFfDecode_eq (inp : List UInt8) : cobsFfDecode inp = Lib.Cobs.decode ffKeying inp :=
  ffDecode_eq inp

-- ---------------------------------------------------------------------------
-- Round trips
-- ---------------------------------------------------------------------------

theorem decode_encode (inp : List UInt8) : decode (encode inp) = some inp := by
  rw [decode_eq, encode_eq, Lib.Cobs.decode_encode]

theorem ffDecode_ffEncode (inp : List UInt8) : ffDecode (ffEncode inp) = some inp := by
  rw [ffDecode_eq, ffEncode_eq, Lib.Cobs.decode_encode]

/-- An encoded record never holds the boundary byte. -/
theorem boundary_notMem_ffEncode (inp : List UInt8) : 0xFF ∉ ffEncode inp := by
  rw [ffEncode_eq]
  exact Lib.Cobs.delim_notMem_encode (K := ffKeying) inp

end Tapioca.Cobs

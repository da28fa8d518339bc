-- SUMMARY: The JavaScript and Python twins of the COBS functions, and the round trip that all of them share with the firmware.
import Tapioca.Host.Envelope
import Tapioca.Util.CobsBuffers

/-!
# COBS on the host

`app/test/cobs.js` allocates a `Uint8Array` for each result: the worst case for
an encoder, the length of the input for a decoder. A store past the end of it is
ignored, so the two sizes matter.
-/

namespace Tapioca.CobsJs

open Cobs

/-! ## The loops -/

/-- The encoder loop, `out` of a fixed length. -/
def encodeLoop (delim full : UInt8) (out : List UInt8) (codeIdx write : Nat) (code : UInt8) :
    List UInt8 → List UInt8
  | [] => (out.set codeIdx code).take write
  | b :: inp =>
    if b = delim then
      encodeLoop delim full (out.set codeIdx code) write (write + 1) 1 inp
    else
      let out := out.set write b
      let code := code + 1
      if code = full then
        encodeLoop delim full (out.set codeIdx code) (write + 1) (write + 2) 1 inp
      else
        encodeLoop delim full out codeIdx (write + 1) code inp

/-- `out[write++] = …` for some bytes in a row. -/
def setAll (out : List UInt8) (write : Nat) : List UInt8 → List UInt8
  | [] => out
  | b :: bs => setAll (out.set write b) (write + 1) bs

/-- The decoder loop over the bytes from `read` on; `none` is `null`. -/
def decodeLoop (invalid : UInt8 → Bool) (delim full : UInt8) (out : List UInt8) (write : Nat) :
    List UInt8 → Option (List UInt8)
  | [] => some (out.take write)
  | code :: inp =>
    if invalid code then none
    else if inp.length < code.toNat - 1 then none
    else
      let out := setAll out write (inp.take (code.toNat - 1))
      let write := write + (code.toNat - 1)
      let rest := inp.drop (code.toNat - 1)
      if code ≠ full ∧ rest ≠ [] then decodeLoop invalid delim full (out.set write delim) (write + 1) rest
      else decodeLoop invalid delim full out write rest
termination_by inp => inp.length
decreasing_by all_goals simp only [List.length_drop, List.length_cons]; omega

/-- `new Uint8Array(n)`. -/
def uint8Array (n : Nat) : List UInt8 := List.replicate n 0

def cobsEncode (inp : List UInt8) : List UInt8 :=
  encodeLoop 0x00 0xFF (uint8Array (inp.length + inp.length / 254 + 1)) 0 1 1 inp

def cobsDecode (inp : List UInt8) : Option (List UInt8) :=
  decodeLoop (· = 0x00) 0x00 0xFF (uint8Array inp.length) 0 inp

def cobsFfEncode (inp : List UInt8) : List UInt8 :=
  encodeLoop 0xFF 0xFE (uint8Array (inp.length + inp.length / 253 + 1)) 0 1 1 inp

def cobsFfDecode (inp : List UInt8) : Option (List UInt8) :=
  decodeLoop (fun code => code = 0xFF ∨ code = 0x00) 0xFF 0xFE (uint8Array inp.length) 0 inp

/-! ## No store is ignored -/

theorem eq_set_of_store? {buf buf' : List UInt8} {i : Nat} {v : UInt8}
    (h : store? buf i v = some buf') : buf' = buf.set i v := by
  rw [store?] at h
  split at h
  · exact (Option.some_inj.mp h).symm
  · cases h

/-- Where every store is in the buffer, the array ends up the same. -/
theorem encodeLoop_of_encodeInto {delim full : UInt8} {out buf : List UInt8} {codeIdx write n : Nat}
    {code : UInt8} {inp : List UInt8}
    (h : encodeInto delim full out codeIdx write code inp = some (buf, n)) :
    encodeLoop delim full out codeIdx write code inp = buf.take n := by
  induction inp generalizing out codeIdx write code with
  | nil =>
    simp only [encodeInto, Option.bind_eq_bind, Option.bind_eq_some_iff, Option.pure_def,
      Option.some_inj, Prod.mk.injEq] at h
    obtain ⟨_, hstore, rfl, rfl⟩ := h
    rw [encodeLoop, eq_set_of_store? hstore]
  | cons b inp ih =>
    rw [encodeInto] at h
    rw [encodeLoop]
    split at h
    · rename_i hb
      rw [if_pos hb]
      obtain ⟨_, hstore, h⟩ := Option.bind_eq_some_iff.mp h
      rw [← eq_set_of_store? hstore]
      exact ih h
    · rename_i hb
      rw [if_neg hb]
      obtain ⟨_, hstore, h⟩ := Option.bind_eq_some_iff.mp h
      rw [← eq_set_of_store? hstore]
      simp only at h ⊢
      split at h
      · rename_i hfull
        rw [if_pos hfull]
        obtain ⟨_, hclose, h⟩ := Option.bind_eq_some_iff.mp h
        rw [← eq_set_of_store? hclose]
        exact ih h
      · rename_i hopen
        rw [if_neg hopen]
        exact ih h

theorem length_uint8Array (n : Nat) : (uint8Array n).length = n := List.length_replicate ..

theorem cobsEncode_eq (inp : List UInt8) : cobsEncode inp = encode inp := by
  have hbuf := encodeBuf_eq inp (uint8Array (maxEncoded inp.length)) (length_uint8Array _).ge
  exact (encodeLoop_of_encodeInto hbuf).trans List.take_left

theorem cobsFfEncode_eq (inp : List UInt8) : cobsFfEncode inp = ffEncode inp := by
  have hbuf := ffEncodeBuf_eq inp (uint8Array (ffMaxEncoded inp.length)) (length_uint8Array _).ge
  exact (encodeLoop_of_encodeInto hbuf).trans List.take_left

theorem setAll_of_storeAll? {out buf : List UInt8} {write n : Nat} {bs : List UInt8}
    (h : storeAll? out write bs = some (buf, n)) : setAll out write bs = buf := by
  induction bs generalizing out write with
  | nil =>
    obtain ⟨rfl, -⟩ := Prod.mk.injEq .. ▸ Option.some_inj.mp h
    rfl
  | cons b bs ih =>
    obtain ⟨_, hstore, h⟩ := Option.bind_eq_some_iff.mp h
    rw [setAll, ← eq_set_of_store? hstore]
    exact ih h

theorem setAll_eq (done rest bs : List UInt8) (h : bs.length ≤ rest.length) :
    setAll (done ++ rest) done.length bs = done ++ bs ++ rest.drop bs.length :=
  setAll_of_storeAll? (storeAll?_eq done rest bs h)

/-- A decoder never puts out more bytes than it has read. -/
theorem decodeLoop_eq {invalid : UInt8 → Bool} {delim full : UInt8}
    (hinvalid : ∀ code, invalid code = true ↔ code = delim ∨ code = 0x00) (done rest inp : List UInt8)
    (hroom : inp.length ≤ rest.length) :
    decodeLoop invalid delim full (done ++ rest) done.length inp = Cobs.decodeLoop delim full done inp := by
  induction done, inp using Cobs.decodeLoop.induct delim full generalizing rest with
  | case1 done =>
    rw [decodeLoop, Cobs.decodeLoop, List.take_left]
  | case2 done code inp hbad =>
    rw [decodeLoop, Cobs.decodeLoop, if_pos hbad, if_pos ((hinvalid code).mpr hbad)]
  | case3 done code inp hok hcut =>
    rw [decodeLoop, Cobs.decodeLoop, if_neg hok, if_neg (mt (hinvalid code).mp hok), if_pos hcut, if_pos hcut]
  | case4 done code inp hok hlen out tail ih =>
    have hcopied : (inp.take (code.toNat - 1)).length = code.toNat - 1 := by
      rw [List.length_take]
      omega
    have hwrite : done.length + (code.toNat - 1) = out.length := by
      rw [List.length_append, hcopied]
    have hcopy : setAll (done ++ rest) done.length (inp.take (code.toNat - 1)) =
        out ++ rest.drop (code.toNat - 1) := by
      rw [List.length_cons] at hroom
      rw [setAll_eq _ _ _ (by omega), hcopied]
    have htail : tail.length + (code.toNat - 1) = inp.length := by
      rw [List.length_drop]
      omega
    rw [List.length_cons] at hroom
    rw [decodeLoop, Cobs.decodeLoop, if_neg hok, if_neg (mt (hinvalid code).mp hok), if_neg hlen,
      if_neg hlen]
    simp only [hcopy, hwrite]
    split
    · -- the delimiter takes the place that the code byte has left
      rename_i hdelim
      rw [dif_pos hdelim] at ih
      cases hslot : rest.drop (code.toNat - 1) with
      | nil =>
        rw [List.drop_eq_nil_iff] at hslot
        omega
      | cons slot slots =>
        have hslots := congrArg List.length hslot
        rw [List.length_drop, List.length_cons] at hslots
        rw [set_slot]
        have hnext := ih slots (by omega)
        rw [List.append_assoc, List.length_append] at hnext
        exact hnext
    · rename_i hdelim
      rw [dif_neg hdelim] at ih
      have hleft : (rest.drop (code.toNat - 1)).length = rest.length - (code.toNat - 1) :=
        List.length_drop
      exact ih (rest.drop (code.toNat - 1)) (by omega)

theorem cobsDecode_eq (inp : List UInt8) : cobsDecode inp = decode inp := by
  have hroom : inp.length ≤ (uint8Array inp.length).length := (length_uint8Array _).ge
  exact decodeLoop_eq (by simp) [] (uint8Array inp.length) inp hroom

theorem cobsFfDecode_eq (inp : List UInt8) : cobsFfDecode inp = ffDecode inp := by
  have hroom : inp.length ≤ (uint8Array inp.length).length := (length_uint8Array _).ge
  exact decodeLoop_eq (by simp) [] (uint8Array inp.length) inp hroom

/-- The web mirror's own round trip, in both keyings, on blocks the firmware reads too. -/
theorem round_trips (x : List UInt8) :
    cobsFfDecode (cobsFfEncode x) = some x ∧ ffDecode (cobsFfEncode x) = some x ∧
      cobsDecode (cobsEncode x) = some x ∧ decode (cobsEncode x) = some x := by
  rw [cobsFfDecode_eq, cobsDecode_eq, cobsFfEncode_eq, cobsEncode_eq]
  exact ⟨ffDecode_ffEncode x, ffDecode_ffEncode x, decode_encode x, decode_encode x⟩

end Tapioca.CobsJs

namespace Tapioca.Envelope

open Cobs

/-! ## Round trip -/

/-- Each keying gives back what was encoded, through a block without its own
delimiter, and the three decoders of records are one. -/
theorem cobs_round_trips :
    (∀ x, 0xFF ∉ ffEncode x ∧ ffDecode (ffEncode x) = some x) ∧
    (∀ x, 0x00 ∉ encode x ∧ decode (encode x) = some x) ∧
    ∀ seg, CobsJs.cobsFfDecode seg = ffDecode seg ∧ MdioLib.cobsFfDecode seg = ffDecode seg := by
  refine ⟨fun x => ⟨boundary_notMem_ffEncode x, ffDecode_ffEncode x⟩, fun x => ⟨?_, ?_⟩, fun seg => ⟨?_, ?_⟩⟩
  · rw [encode_eq]
    exact Lib.Cobs.delim_notMem_encode (K := zeroKeying) x
  · exact decode_encode x
  · exact CobsJs.cobsFfDecode_eq seg
  · exact lib_cobsFfDecode_eq seg

end Tapioca.Envelope

-- SUMMARY: `emitRecord()` over its two static buffers, every store checked: no record overruns them, and the ring gets whole frames.
import Tapioca.Util.CobsBuffers
import Tapioca.Sniffer.ClockedSniffer

/-!
# Frame bounds

`emitRecord()` serialises the burst into the static `rec` and frames it into the
static `enc`. The two are sized by hand, and `enc` by the divisor of the other
keying. Here the same steps run over the buffers themselves, and a store past
the end of one fails.
-/

namespace Tapioca.ClockedSniffer

open RecordFramer Cobs

def REC_SZ : Nat := 12 + BURST_MAX

def ENC_SZ : Nat := 12 + BURST_MAX + (12 + BURST_MAX) / 254 + 2

/-- The `static` buffers of `emitRecord()`, as the call before left them. -/
structure Statics where
  recBuf : List UInt8
  encBuf : List UInt8
  length_rec : recBuf.length = REC_SZ
  length_enc : encBuf.length = ENC_SZ

/-- What a call leaves behind: the sniffer, the buffers, and what it handed to
`pushAll`, if it called it. -/
structure Emission where
  sniffer : Sniffer
  recBuf : List UInt8
  encBuf : List UInt8
  pushed : Option (List UInt8)

/-- `RecordFramer::frameRecord` into a buffer. -/
def frameRecordBuf (raw out : List UInt8) : Option (List UInt8 × Nat) := do
  let (out, w) ← ffEncodeBuf raw out
  let out ← store? out w 0xFF
  return (out, w + 1)

/-- `emitRecord()`. The lengths `k` and `m` are kept in 16 bits. -/
def Sniffer.emitRecordBuf (s : Sniffer) (continued : Bool) (rec enc : List UInt8) : Option Emission :=
  if ¬ s.burstOpen ∧ ¬ (s.burstNeedTerminal ∧ ¬ continued) then some ⟨s, rec, enc, none⟩
  else do
    let r := s.openRecord continued
    let (rec, k) ← storeAll? rec 0 r.raw
    let k := UInt16.ofNat k
    let (enc, w) ← frameRecordBuf (rec.take k.toNat) enc
    let m := UInt16.ofNat w
    let frame := enc.take m.toNat
    if m.toNat ≤ s.ring.free then
      return {
        sniffer :=
          { s.ringPush frame with
            ovfPioc := 0, ovfRam := 0, burstNeedTerminal := continued, log := .delivered r :: s.log
            burstOpen := false, burstBuf := .empty }
        recBuf := rec, encBuf := enc, pushed := some frame }
    else
      return {
        sniffer :=
          { s with
            ovfRam := s.ovfRam + 1, log := .dropped r :: s.log, burstOpen := false, burstBuf := .empty }
        recBuf := rec, encBuf := enc, pushed := none }

-- ---------------------------------------------------------------------------
-- Sizes
-- ---------------------------------------------------------------------------

theorem length_frameRecord_le (raw : List UInt8) :
    (frameRecord raw).length ≤ ffMaxEncoded raw.length + 1 := by
  rw [frameRecord, List.length_append, List.length_singleton]
  exact Nat.add_le_add_right (length_ffEncode_le raw) 1

/-- A buffer with room for the worst case gets the frame at its front. -/
theorem frameRecordBuf_eq (raw out : List UInt8) (hroom : ffMaxEncoded raw.length + 1 ≤ out.length) :
    frameRecordBuf raw out =
      some (frameRecord raw ++ out.drop (frameRecord raw).length, (frameRecord raw).length) := by
  have hlen := length_ffEncode_le raw
  have henc := ffEncodeBuf_eq raw out (by omega)
  obtain ⟨old, rest, hdrop⟩ := List.exists_cons_of_length_pos
    (l := out.drop (ffEncode raw).length) (by rw [List.length_drop]; omega)
  have hrest : out.drop ((ffEncode raw).length + 1) = rest := by
    rw [← List.drop_drop, hdrop, List.drop_one, List.tail_cons]
  have hframe : (frameRecord raw).length = (ffEncode raw).length + 1 := by
    rw [frameRecord, List.length_append, List.length_singleton]
  rw [frameRecordBuf, henc]
  simp only [Option.bind_eq_bind, Option.bind_some, Option.pure_def]
  rw [hdrop, store?_append, hframe, hrest, frameRecord]
  simp

theorem length_raw_openRecord (s : Sniffer) (continued : Bool) :
    (s.openRecord continued).raw.length ≤ REC_SZ := by
  have hbound : (s.openRecord continued).payload.length ≤ BURST_MAX := s.burstBuf.bound
  rw [DataRecord.length_raw, REC_SZ, HEADER_LEN]
  omega

/-- `enc` holds the largest frame, with no byte to spare. -/
theorem ffMaxEncoded_REC_SZ : ffMaxEncoded REC_SZ + 1 = ENC_SZ := by decide

theorem ffMaxEncoded_mono {m n : Nat} (h : m ≤ n) : ffMaxEncoded m ≤ ffMaxEncoded n :=
  Nat.add_le_add_right (Nat.add_le_add h (Nat.div_le_div_right h)) 1

theorem length_encoded_le (s : Sniffer) (continued : Bool) : (s.encoded continued).length ≤ ENC_SZ := by
  calc (s.encoded continued).length
      ≤ ffMaxEncoded (s.openRecord continued).raw.length + 1 := length_frameRecord_le _
    _ ≤ ffMaxEncoded REC_SZ + 1 :=
        Nat.add_le_add_right (ffMaxEncoded_mono (length_raw_openRecord s continued)) 1
    _ = ENC_SZ := ffMaxEncoded_REC_SZ

-- ---------------------------------------------------------------------------
-- One emission
-- ---------------------------------------------------------------------------

theorem toNat_ofNat_length {n : Nat} (h : n ≤ ENC_SZ) : (UInt16.ofNat n).toNat = n :=
  UInt16.toNat_ofNat_of_lt' (h.trans_lt (by decide))

/-- The two buffers after a record has gone through them. -/
def Statics.through (buf : Statics) (s : Sniffer) (continued : Bool) : Statics where
  recBuf := (s.openRecord continued).raw ++ buf.recBuf.drop (s.openRecord continued).raw.length
  encBuf := s.encoded continued ++ buf.encBuf.drop (s.encoded continued).length
  length_rec := by
    have := length_raw_openRecord s continued
    rw [List.length_append, List.length_drop, buf.length_rec]
    omega
  length_enc := by
    have := length_encoded_le s continued
    rw [List.length_append, List.length_drop, buf.length_enc]
    omega

/-- No store of an emission fails. -/
theorem Sniffer.emitRecordBuf_eq (s : Sniffer) (continued : Bool) (buf : Statics) (h : s.Emits continued) :
    s.emitRecordBuf continued buf.recBuf buf.encBuf =
      some
        { sniffer := s.emitRecord continued
          recBuf := (buf.through s continued).recBuf
          encBuf := (buf.through s continued).encBuf
          pushed := if (s.encoded continued).length ≤ s.ring.free then some (s.encoded continued) else none } := by
  have hcond : ¬ (¬ s.burstOpen ∧ ¬ (s.burstNeedTerminal ∧ ¬ continued)) :=
    fun hnot => h.elim hnot.1 hnot.2
  have hraw := length_raw_openRecord s continued
  have hstore : storeAll? buf.recBuf 0 (s.openRecord continued).raw =
      some ((buf.through s continued).recBuf, (s.openRecord continued).raw.length) := by
    have hall := storeAll?_eq [] buf.recBuf (s.openRecord continued).raw (by rw [buf.length_rec]; exact hraw)
    rw [List.length_nil, Nat.zero_add] at hall
    exact hall
  have hk : (UInt16.ofNat (s.openRecord continued).raw.length).toNat =
      (s.openRecord continued).raw.length :=
    toNat_ofNat_length (hraw.trans (by decide))
  have htake : (buf.through s continued).recBuf.take (s.openRecord continued).raw.length =
      (s.openRecord continued).raw := List.take_left
  have hframe : frameRecordBuf (s.openRecord continued).raw buf.encBuf =
      some ((buf.through s continued).encBuf, (s.encoded continued).length) := by
    refine frameRecordBuf_eq _ _ ?_
    rw [buf.length_enc, ← ffMaxEncoded_REC_SZ]
    exact Nat.add_le_add_right (ffMaxEncoded_mono hraw) 1
  have hm : (UInt16.ofNat (s.encoded continued).length).toNat = (s.encoded continued).length :=
    toNat_ofNat_length (length_encoded_le s continued)
  have hwhole : (buf.through s continued).encBuf.take (s.encoded continued).length = s.encoded continued :=
    List.take_left
  rw [emitRecordBuf, if_neg hcond]
  simp only [hstore, hk, htake, hframe, hm, hwhole, Option.bind_eq_bind, Option.bind_some, Option.pure_def]
  split
  · rename_i hfit
    rw [s.emitRecord_delivered continued h hfit, s.ringPush_of_le hfit]
  · rename_i hfull
    rw [s.emitRecord_dropped continued h hfull]

/-- What a call does to the staging ring, given what it handed to `pushAll`: a
whole frame is behind what was staged, or the ring is untouched. -/
def WholeOrNothing (s : Sniffer) (continued : Bool) (e : Emission) : Prop :=
  (e.pushed = some (frameRecord (s.openRecord continued).raw) ∧
    e.sniffer.ring.contents = s.ring.contents ++ frameRecord (s.openRecord continued).raw) ∨
  (e.pushed = none ∧ e.sniffer.ring = s.ring)

/-- The encoders keep to their bounds, and so `emitRecord()` stays inside its
two static buffers whatever the burst, and stages a frame whole or not at all. -/
theorem framing_in_bounds :
    (∀ x : List UInt8,
      (ffEncode x).length ≤ x.length + x.length / 253 + 1 ∧ (encode x).length ≤ x.length + x.length / 254 + 1) ∧
    ∀ (s : Sniffer) (continued : Bool) (buf : Statics), ∃ (e : Emission) (buf' : Statics),
      s.emitRecordBuf continued buf.recBuf buf.encBuf = some e ∧
      e.sniffer = s.emitRecord continued ∧ e.recBuf = buf'.recBuf ∧ e.encBuf = buf'.encBuf ∧
      WholeOrNothing s continued e := by
  refine ⟨fun x => ⟨length_ffEncode_le x, length_encode_le x⟩, fun s continued buf => ?_⟩
  by_cases hemits : s.Emits continued
  · refine ⟨_, buf.through s continued, s.emitRecordBuf_eq continued buf hemits, rfl, rfl, rfl, ?_⟩
    by_cases hfit : (s.encoded continued).length ≤ s.ring.free
    · refine .inl ⟨if_pos hfit, ?_⟩
      simp only [s.emitRecord_delivered continued hemits hfit]
      exact (s.ring.contents_pushAll (by decide) (by decide) _ hfit).2
    · refine .inr ⟨if_neg hfit, ?_⟩
      simp only [s.emitRecord_dropped continued hemits hfit]
  · have hidle := s.emitRecord_idle continued hemits
    simp only [Sniffer.Emits, not_or] at hemits
    exact ⟨⟨s, buf.recBuf, buf.encBuf, none⟩, buf, if_pos hemits, hidle.symm, rfl, rfl, .inr ⟨rfl, rfl⟩⟩

end Tapioca.ClockedSniffer

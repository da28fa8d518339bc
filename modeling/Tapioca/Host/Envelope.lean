-- SUMMARY: The wire envelope end to end: device frames decode to exactly what was framed, boundaries resynchronise, and a torn record is never another record.
import Tapioca.Sniffer.RecordFramer
import Tapioca.Host.MdioCodec
import Tapioca.Host.MdioLib

/-!
# The wire envelope

What `RecordFramer` emits against what the host decoders read back: data
records whose length field can hold their payload's length, metadata texts that
`frameMeta` accepts, and losses.
-/

namespace Tapioca

open Host MdioCodec

/-! ## What a host is to read -/

namespace RecordFramer

def DataRecord.parsed (r : DataRecord) : Record where
  type := TYPE_MDIO
  tUs := r.tUs.toNat
  durUs := r.durUs.toNat
  onsetUs := r.onsetUs.toNat
  flags := r.flags
  n := r.payload.length
  payload := r.payload

def WireFrame.record? : WireFrame → Option DataRecord
  | .record r => some r
  | _ => none

def WireFrame.text? : WireFrame → Option (List UInt8)
  | .metadata m => some m.ascii
  | _ => none

def WireFrame.isLoss : WireFrame → Bool
  | .loss => true
  | _ => false

/-- What a host reads from one frame. -/
def WireFrame.demux : WireFrame → Demux
  | .record r => { recs := [r.raw] }
  | .metadata m => { metas := [m.ascii] }
  | .loss => { losses := 1 }

end RecordFramer

namespace Envelope

open RecordFramer

/-! ## Headers -/

theorem toNat_putU16 (v : UInt16) :
    v.toUInt8.toNat + 2 ^ 8 * (v >>> 8).toUInt8.toNat = v.toNat := by
  have hv := v.toNat_lt
  simp only [UInt16.toNat_toUInt8, UInt16.toNat_shiftRight, UInt16.reduceToNat,
    Nat.shiftRight_eq_div_pow, Nat.reduceMod, Nat.reducePow]
  omega

theorem toNat_putU32 (v : UInt32) :
    v.toUInt8.toNat + 2 ^ 8 * (v >>> 8).toUInt8.toNat +
      2 ^ 16 * ((v >>> 16).toUInt8.toNat + 2 ^ 8 * (v >>> 24).toUInt8.toNat) = v.toNat := by
  have hv := v.toNat_lt
  simp only [UInt32.toNat_toUInt8, UInt32.toNat_shiftRight, UInt32.reduceToNat,
    Nat.shiftRight_eq_div_pow, Nat.reduceMod, Nat.reducePow]
  omega

variable (type : UInt8) (tUs : UInt32) (durUs onsetUs : UInt16) (flags : UInt8) (n : UInt16)

/-- The browser reads a serialised header's fields back, whatever follows it. -/
theorem codec_parseRecord_header (rest : List UInt8) :
    MdioCodec.parseRecord (putHeader type tUs durUs onsetUs flags n ++ rest) =
      if rest.length < n.toNat then none
      else some
        { type, tUs := tUs.toNat, durUs := durUs.toNat, onsetUs := onsetUs.toNat, flags,
          n := n.toNat, payload := rest.take n.toNat } := by
  set hdr := putHeader type tUs durUs onsetUs flags n with hhdr
  have hlen : hdr.length = 12 := rfl
  have hn : getUint16 (hdr ++ rest) 10 = n.toNat := toNat_putU16 n
  have hdur : getUint16 (hdr ++ rest) 5 = durUs.toNat := toNat_putU16 durUs
  have honset : getUint16 (hdr ++ rest) 7 = onsetUs.toNat := toNat_putU16 onsetUs
  have ht : getUint32 (hdr ++ rest) 1 = tUs.toNat := toNat_putU32 tUs
  have hpay : (hdr ++ rest).drop 12 = rest := List.drop_left' hlen
  have htype : (hdr ++ rest).getD 0 0 = type := rfl
  have hflags : (hdr ++ rest).getD 9 0 = flags := rfl
  simp only [MdioCodec.parseRecord, hn, hdur, honset, ht, hpay, htype, hflags, List.length_append,
    hlen, List.length_take]
  rw [if_neg (by omega)]
  exact if_congr (by omega) rfl rfl

/-- The Python library reads the same fields. -/
theorem lib_parseRecord_header (rest : List UInt8) :
    MdioLib.parseRecord (putHeader type tUs durUs onsetUs flags n ++ rest) =
      if rest.length < n.toNat then none
      else some
        { type, tUs := tUs.toNat, durUs := durUs.toNat, onsetUs := onsetUs.toNat, flags,
          n := n.toNat, payload := rest.take n.toNat } := by
  set hdr := putHeader type tUs durUs onsetUs flags n with hhdr
  have hlen : hdr.length = 12 := rfl
  have hLE : ∀ a b : UInt8, MdioLib.unpackLE [a, b] = a.toNat + 2 ^ 8 * b.toNat := by
    intro a b
    simp [MdioLib.unpackLE]
  have hn : MdioLib.unpackLE (MdioLib.slice (hdr ++ rest) 10 12) = n.toNat :=
    (hLE _ _).trans (toNat_putU16 n)
  have hdur : MdioLib.unpackLE (MdioLib.slice (hdr ++ rest) 5 7) = durUs.toNat :=
    (hLE _ _).trans (toNat_putU16 durUs)
  have honset : MdioLib.unpackLE (MdioLib.slice (hdr ++ rest) 7 9) = onsetUs.toNat :=
    (hLE _ _).trans (toNat_putU16 onsetUs)
  have ht : MdioLib.unpackLE (MdioLib.slice (hdr ++ rest) 1 5) = tUs.toNat := by
    have hslice : MdioLib.slice (hdr ++ rest) 1 5 = putU32 tUs := rfl
    rw [hslice, ← toNat_putU32 tUs]
    simp only [MdioLib.unpackLE, putU32, List.foldr_cons, List.foldr_nil]
    omega
  have hpay : MdioLib.slice (hdr ++ rest) 12 (12 + n.toNat) = rest.take n.toNat := by
    rw [MdioLib.slice, List.drop_take, List.drop_left' hlen, Nat.add_sub_cancel_left]
  have htype : (hdr ++ rest).getD 0 0 = type := rfl
  have hflags : (hdr ++ rest).getD 9 0 = flags := rfl
  simp only [MdioLib.parseRecord, hn, hdur, honset, ht, hpay, htype, hflags, List.length_append,
    hlen, List.length_take]
  rw [if_neg (by omega)]
  exact if_congr (by omega) rfl rfl

/-- A parser that reads headers as both hosts do. -/
def ReadsHeaders (parse : List UInt8 → Option Record) : Prop :=
  (∀ rec, rec.length < HEADER_LEN → parse rec = none) ∧
  ∀ (type : UInt8) (tUs : UInt32) (durUs onsetUs : UInt16) (flags : UInt8) (n : UInt16)
    (rest : List UInt8),
    parse (putHeader type tUs durUs onsetUs flags n ++ rest) =
      if rest.length < n.toNat then none
      else some
        { type, tUs := tUs.toNat, durUs := durUs.toNat, onsetUs := onsetUs.toNat, flags,
          n := n.toNat, payload := rest.take n.toNat }

theorem codec_readsHeaders : ReadsHeaders MdioCodec.parseRecord :=
  ⟨fun _ h => if_pos h, codec_parseRecord_header⟩

theorem lib_readsHeaders : ReadsHeaders MdioLib.parseRecord :=
  ⟨fun _ h => if_pos h, lib_parseRecord_header⟩

theorem ReadsHeaders.parse_raw {parse : List UInt8 → Option Record} (h : ReadsHeaders parse)
    (r : DataRecord) : parse r.raw = some r.parsed := by
  rw [DataRecord.raw, h.2, r.toNat_length, if_neg (lt_irrefl _), List.take_length]
  rfl

/-- A beginning of a raw record that parses is the whole record. -/
theorem ReadsHeaders.parse_prefix {parse : List UInt8 → Option Record} (h : ReadsHeaders parse)
    {r : DataRecord} {cut : List UInt8} (hcut : cut <+: r.raw) :
    parse cut = none ∨ parse cut = some r.parsed := by
  by_cases hlen : cut.length < HEADER_LEN
  · exact .inl (h.1 _ hlen)
  · -- the cut leaves the header whole, so the length field is the original one
    obtain ⟨rest, rfl⟩ : putHeader TYPE_MDIO r.tUs r.durUs r.onsetUs r.flags
        (UInt16.ofNat r.payload.length) <+: cut :=
      List.prefix_of_prefix_length_le (List.prefix_append _ _) hcut
        (by rw [length_putHeader]; omega)
    have hrest : rest <+: r.payload := (List.prefix_append_right_inj _).mp hcut
    by_cases hshort : rest.length < r.payload.length
    · left
      rw [h.2, r.toNat_length, if_pos hshort]
    · right
      obtain rfl := hrest.eq_of_length_le (by omega)
      exact h.parse_raw r

/-! ## Boundaries -/

/-- Two demultiplexed streams, one after the other. -/
instance : Append Demux where
  append d e := ⟨d.recs ++ e.recs, d.metas ++ e.metas, d.losses + e.losses⟩

theorem append_def (d e : Demux) :
    d ++ e = ⟨d.recs ++ e.recs, d.metas ++ e.metas, d.losses + e.losses⟩ := rfl

theorem demux_nil_append (d : Demux) : ({} : Demux) ++ d = d := by
  simp [append_def]

theorem demux_append_nil (d : Demux) : d ++ ({} : Demux) = d := by
  simp [append_def]

theorem demux_append_assoc (d e f : Demux) : d ++ e ++ f = d ++ (e ++ f) := by
  simp [append_def, Nat.add_assoc]

/-- A segment is dispatched without looking at the ones before it. -/
theorem flush_eq (d : Demux) (seg : List UInt8) : flush d seg = d ++ flush {} seg := by
  unfold flush
  split
  · rw [demux_append_nil]
  · split
    · simp [append_def]
    · cases metaText seg with
      | some m => simp [append_def]
      | none => cases Cobs.cobsFfDecode seg <;> simp [append_def]

theorem demuxLoop_eq (d : Demux) (seg data : List UInt8) :
    demuxLoop d seg data = d ++ demuxLoop {} seg data := by
  induction data generalizing d seg with
  | nil => exact flush_eq d seg
  | cons b data ih =>
    rw [demuxLoop, demuxLoop]
    split
    · rw [ih, ih (flush {} seg), flush_eq d, demux_append_assoc]
    · exact ih d _

theorem demuxLoop_boundary (d : Demux) (seg a b : List UInt8) :
    demuxLoop d seg (a ++ 0xFF :: b) = demuxLoop d seg a ++ demuxV2 b := by
  induction a generalizing d seg with
  | nil =>
    have hcut : demuxLoop d seg (0xFF :: b) = demuxLoop (flush d seg) [] b := rfl
    rw [List.nil_append, hcut, demuxLoop_eq]
    rfl
  | cons x a ih =>
    rw [List.cons_append, demuxLoop, demuxLoop]
    split
    · exact ih _ _
    · exact ih _ _

/-- A boundary separates: what is in front of it never changes what is decoded
behind it. -/
theorem demuxV2_boundary (a b : List UInt8) : demuxV2 (a ++ [0xFF] ++ b) = demuxV2 a ++ demuxV2 b := by
  rw [List.append_assoc]
  exact demuxLoop_boundary {} [] a b

theorem demuxLoop_segment (d : Demux) (seg data : List UInt8) (h : 0xFF ∉ data) :
    demuxLoop d seg data = flush d (seg ++ data) := by
  induction data generalizing seg with
  | nil => rw [demuxLoop, List.append_nil]
  | cons b data ih =>
    rw [List.mem_cons, not_or] at h
    rw [demuxLoop, if_neg (fun heq => h.1 heq.symm), ih _ h.2]
    simp

/-- A closed segment in front of a stream. -/
theorem demuxV2_segment {seg : List UInt8} (h : 0xFF ∉ seg) (data : List UInt8) :
    demuxV2 (seg ++ [0xFF] ++ data) = flush {} seg ++ demuxV2 data := by
  rw [demuxV2_boundary, demuxV2, demuxLoop_segment _ _ _ h, List.nil_append]

/-! ## Segments -/

/-- An encoded record starts with a code byte and its type, so it is neither a
lone loss marker nor a metadata block. -/
theorem ffEncode_raw_shape (r : DataRecord) :
    ∃ code rest, Cobs.ffEncode r.raw = code :: 0x01 :: rest := by
  rw [Cobs.ffEncode_eq]
  exact Lib.Cobs.encode_cons (K := Cobs.ffKeying) (b := 0x01) (by decide)

/-- Segments with a record's type in the second place are decoded as records. -/
theorem flush_typed (code : UInt8) (rest : List UInt8) :
    flush {} (code :: 0x01 :: rest) =
      { recs := (Cobs.cobsFfDecode (code :: 0x01 :: rest)).toList } := by
  have hmeta : metaText (code :: 0x01 :: rest) = none := by
    unfold metaText
    split
    · rfl
    · exact if_pos (by simp)
  rw [flush, if_neg (by simp), if_neg (by simp), hmeta]
  cases Cobs.cobsFfDecode (code :: 0x01 :: rest) <;> rfl

theorem flush_record (r : DataRecord) : flush {} (Cobs.ffEncode r.raw) = { recs := [r.raw] } := by
  obtain ⟨code, rest, henc⟩ := ffEncode_raw_shape r
  have hdec : Cobs.cobsFfDecode (Cobs.ffEncode r.raw) = some r.raw := Cobs.ffDecode_ffEncode _
  rw [henc] at hdec ⊢
  rw [flush_typed, hdec]
  rfl

theorem printable_ne_boundary {c : UInt8} (h : Printable c) : c ≠ 0xFF := by
  rintro rfl
  exact absurd h.2 (by decide)

theorem frameMeta_ascii (m : MetaText) : frameMeta m.ascii = (0xFE :: m.ascii ++ [0xFE]) ++ [0xFF] := by
  rw [frameMeta, if_neg (by simp [m.bracket]), if_pos m.printable]
  simp

theorem flush_meta (m : MetaText) : flush {} (0xFE :: m.ascii ++ [0xFE]) = { metas := [m.ascii] } := by
  obtain ⟨ascii, hbracket, hprint⟩ := m
  cases ascii with
  | nil => cases hbracket
  | cons c ascii =>
    obtain rfl : c = 0x5B := by simpa using hbracket
    have htext : metaText (0xFE :: (0x5B :: ascii) ++ [0xFE]) = some (0x5B :: ascii) := by
      have hmid : ((0xFE :: (0x5B :: ascii) ++ [0xFE]).drop 1).dropLast = 0x5B :: ascii :=
        List.dropLast_concat
      have hlast : (0xFE :: (0x5B :: ascii) ++ [0xFE]).getLast? = some 0xFE :=
        List.getLast?_concat
      have hends : ¬ ((0xFE :: (0x5B :: ascii) ++ [0xFE]).length < 3 ∨
          (0xFE :: (0x5B :: ascii) ++ [0xFE]).head? ≠ some 0xFE ∨
          (0xFE :: (0x5B :: ascii) ++ [0xFE]).getLast? ≠ some 0xFE) := by
        rw [hlast]
        simp
      rw [metaText, hmid, if_neg hends, if_neg (by simp), if_neg]
      rintro ⟨x, hx, hbad⟩
      have := hprint x hx
      rcases hbad with hlo | hhi
      · exact UInt8.not_le.mpr hlo this.1
      · exact UInt8.not_le.mpr hhi this.2
    rw [flush, if_neg (by simp), if_neg (by simp), htext]
    rfl

theorem demuxV2_emit (f : WireFrame) (data : List UInt8) :
    demuxV2 (f.emit ++ data) = f.demux ++ demuxV2 data := by
  cases f with
  | record r =>
    rw [WireFrame.emit, frameRecord, demuxV2_segment (Cobs.boundary_notMem_ffEncode _), flush_record]
    rfl
  | metadata m =>
    have hsafe : 0xFF ∉ 0xFE :: m.ascii ++ [0xFE] := by
      simp only [List.cons_append, List.mem_cons, List.mem_append, List.not_mem_nil, or_false,
        not_or]
      exact ⟨by decide, fun h => printable_ne_boundary (m.printable _ h) rfl, by decide⟩
    rw [WireFrame.emit, frameMeta_ascii, demuxV2_segment hsafe, flush_meta]
    rfl
  | loss =>
    rw [WireFrame.emit, frameLoss, show ([0xFD, 0xFF] : List UInt8) = [0xFD] ++ [0xFF] from rfl,
      demuxV2_segment (by decide)]
    rfl

theorem demuxV2_frames (fs : List WireFrame) :
    demuxV2 (fs.flatMap WireFrame.emit) =
      { recs := (fs.filterMap WireFrame.record?).map DataRecord.raw
        metas := fs.filterMap WireFrame.text?
        losses := fs.countP WireFrame.isLoss } := by
  induction fs with
  | nil => rfl
  | cons f fs ih =>
    rw [List.flatMap_cons, demuxV2_emit, ih]
    rw [List.countP_cons]
    cases f with
    | record r =>
      have hr : WireFrame.record? (.record r) = some r := rfl
      have ht : WireFrame.text? (.record r) = none := rfl
      simp [hr, ht, WireFrame.demux, WireFrame.isLoss, append_def]
    | metadata m =>
      have hr : WireFrame.record? (.metadata m) = none := rfl
      have ht : WireFrame.text? (.metadata m) = some m.ascii := rfl
      simp [hr, ht, WireFrame.demux, WireFrame.isLoss, append_def]
    | loss =>
      have hr : WireFrame.record? .loss = none := rfl
      have ht : WireFrame.text? .loss = none := rfl
      simp [hr, ht, WireFrame.demux, WireFrame.isLoss, append_def,
        Nat.add_comm]

/-! ## Round trip -/

/-- Every list of frames demultiplexes to exactly the raw records, the metadata
texts and the losses it holds, each record parses to its original fields, and a
boundary cuts a stream into two that decode independently. -/
theorem envelope_round_trip :
    (∀ fs : List WireFrame,
      demuxV2 (fs.flatMap WireFrame.emit) =
        { recs := (fs.filterMap WireFrame.record?).map DataRecord.raw
          metas := fs.filterMap WireFrame.text?
          losses := fs.countP WireFrame.isLoss } ∧
      (demuxV2 (fs.flatMap WireFrame.emit)).recs.map MdioCodec.parseRecord =
        (fs.filterMap WireFrame.record?).map fun r => some r.parsed) ∧
    ∀ a b : List UInt8, demuxV2 (a ++ [0xFF] ++ b) = demuxV2 a ++ demuxV2 b := by
  refine ⟨fun fs => ⟨demuxV2_frames fs, ?_⟩, demuxV2_boundary⟩
  rw [demuxV2_frames, List.map_map]
  refine List.map_congr_left fun r _ => ?_
  rw [Function.comp_apply, codec_readsHeaders.parse_raw]

/-! ## Torn records -/

/-- The loop of `cobs_ff_decode` runs the block codec from its offset on. -/
theorem lib_cobsFfDecodeLoop (buf : List UInt8) (i : Nat) (out : List UInt8) :
    MdioLib.cobsFfDecodeLoop buf i out = Cobs.decodeLoop 0xFF 0xFE out (buf.drop i) := by
  induction i, out using MdioLib.cobsFfDecodeLoop.induct buf with
  | case1 i out h code hbad =>
    rw [MdioLib.cobsFfDecodeLoop, dif_pos h, List.drop_eq_getElem_cons h, Cobs.decodeLoop]
    exact (if_pos hbad).trans (if_pos hbad).symm
  | case2 i out h code hok hcut =>
    have hlen : (buf.drop (i + 1)).length < code.toNat - 1 := by
      rw [List.length_drop]
      omega
    rw [MdioLib.cobsFfDecodeLoop, dif_pos h, List.drop_eq_getElem_cons h, Cobs.decodeLoop]
    exact ((if_neg hok).trans (if_pos hcut)).trans ((if_neg hok).trans (if_pos hlen)).symm
  | case3 i out h code hok hlen out' i' ih =>
    have hcode : code.toNat ≠ 0 := fun h0 => hok (.inr (UInt8.toNat_inj.mp h0))
    have hlen' : ¬ (buf.drop (i + 1)).length < code.toNat - 1 := by
      rw [List.length_drop]
      omega
    have hout : out' = out ++ (buf.drop (i + 1)).take (code.toNat - 1) := by
      have hend : i + 1 + code.toNat - 1 = i + 1 + (code.toNat - 1) := by omega
      simp only [out', MdioLib.slice, hend, List.drop_take, Nat.add_sub_cancel_left]
    have hrest : (buf.drop (i + 1)).drop (code.toNat - 1) = buf.drop i' := List.drop_drop
    have hnil : buf.drop i' ≠ [] ↔ i' < buf.length := by
      rw [Ne, List.drop_eq_nil_iff, not_le]
    rw [MdioLib.cobsFfDecodeLoop, dif_pos h, List.drop_eq_getElem_cons h, Cobs.decodeLoop]
    refine ((if_neg hok).trans (if_neg hlen)).trans (ih.trans ?_)
    refine Eq.symm (((if_neg hok).trans (if_neg hlen')).trans ?_)
    rw [hrest, ← hout]
    simp only [hnil, dite_eq_ite]
    rfl
  | case4 i out h =>
    rw [MdioLib.cobsFfDecodeLoop, dif_neg h, List.drop_eq_nil_of_le (by omega), Cobs.decodeLoop]

theorem lib_cobsFfDecode_eq (buf : List UInt8) :
    MdioLib.cobsFfDecode buf = Cobs.cobsFfDecode buf :=
  lib_cobsFfDecodeLoop buf 0 []

/-- A beginning of an encoded record decodes, if at all, to a beginning of the
raw record. -/
theorem ffDecode_take_prefix (raw : List UInt8) (k : Nat) {out : List UInt8}
    (h : Cobs.cobsFfDecode ((Cobs.ffEncode raw).take k) = some out) : out <+: raw := by
  rw [Cobs.cobsFfDecode_eq, Cobs.ffEncode_eq] at h
  exact Lib.Cobs.decode_prefix_encode (List.take_prefix _ _) h

/-- A record cut anywhere is rejected or read as itself, by the browser's path
`cobsFfDecode` then `parseRecord` and by the Python library's. -/
theorem torn_record_never_another (r : DataRecord) (k : Nat) :
    ((Cobs.cobsFfDecode ((Cobs.ffEncode r.raw).take k)).bind MdioCodec.parseRecord = none ∨
      (Cobs.cobsFfDecode ((Cobs.ffEncode r.raw).take k)).bind MdioCodec.parseRecord =
        some r.parsed) ∧
    ((MdioLib.cobsFfDecode ((Cobs.ffEncode r.raw).take k)).bind MdioLib.parseRecord = none ∨
      (MdioLib.cobsFfDecode ((Cobs.ffEncode r.raw).take k)).bind MdioLib.parseRecord =
        some r.parsed) := by
  rw [lib_cobsFfDecode_eq]
  cases hdec : Cobs.cobsFfDecode ((Cobs.ffEncode r.raw).take k) with
  | none => exact ⟨.inl rfl, .inl rfl⟩
  | some out =>
    have hpre := ffDecode_take_prefix r.raw k hdec
    exact ⟨codec_readsHeaders.parse_prefix hpre, lib_readsHeaders.parse_prefix hpre⟩

end Envelope

end Tapioca

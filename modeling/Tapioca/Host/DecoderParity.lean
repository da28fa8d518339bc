-- SUMMARY: The browser's decoder and the Python pipeline produce the same frames and events on every byte string.
import Tapioca.Host.BitStream
import Tapioca.Host.Envelope
import Mathlib.Data.List.GetD

/-!
# Decoder parity

`decodeCapture` and `run_binary` stage by stage: segments and records, the
burst joiner, the bits of a burst, the bit stream and the MMD folder. Each
Python state has a counterpart among the browser's, and each stage takes
counterparts to counterparts.
-/

namespace Tapioca.Host

open MdioCodec

/-! ## Records -/

theorem slice_pair {rec : List UInt8} {i : Nat} (h : i + 2 ≤ rec.length) :
    MdioLib.slice rec i (i + 2) = [rec.getD i 0, rec.getD (i + 1) 0] := by
  have hi : i < rec.length := by omega
  have hi' : i + 1 < rec.length := by omega
  rw [slice_eq_take_drop, List.drop_eq_getElem_cons hi, List.drop_eq_getElem_cons hi',
    List.getD_eq_getElem rec 0 hi, List.getD_eq_getElem rec 0 hi']
  rfl

theorem lib_unpack16 {rec : List UInt8} {i : Nat} (h : i + 2 ≤ rec.length) :
    MdioLib.unpackLE (MdioLib.slice rec i (i + 2)) = getUint16 rec i := by
  rw [slice_pair h]
  simp [MdioLib.unpackLE, getUint16]

theorem lib_unpack32 {rec : List UInt8} {i : Nat} (h : i + 4 ≤ rec.length) :
    MdioLib.unpackLE (MdioLib.slice rec i (i + 4)) = getUint32 rec i := by
  have hsplit : MdioLib.slice rec i (i + 4) =
      MdioLib.slice rec i (i + 2) ++ MdioLib.slice rec (i + 2) (i + 2 + 2) := by
    rw [slice_eq_take_drop, slice_eq_take_drop, slice_eq_take_drop, ← List.drop_drop,
      ← List.take_add]
  rw [hsplit, slice_pair (by omega), slice_pair (by omega)]
  simp only [MdioLib.unpackLE, List.cons_append, List.nil_append, List.foldr_cons, List.foldr_nil,
    getUint32, getUint16]
  ring

/-- Both parsers read the same fields of every record. -/
theorem lib_parseRecord (rec : List UInt8) : MdioLib.parseRecord rec = parseRecord rec := by
  rw [MdioLib.parseRecord, parseRecord]
  by_cases hlen : rec.length < 12
  · rw [if_pos hlen, if_pos hlen]
  · rw [if_neg hlen, if_neg hlen, lib_unpack16 (by omega), lib_unpack16 (by omega),
      lib_unpack16 (by omega), lib_unpack32 (by omega)]
    dsimp only
    rw [slice_eq_take_drop]

theorem lib_isMeta (seg : List UInt8) : MdioLib.isMeta seg = (metaText seg).isSome := by
  have hslice : MdioLib.slice seg 1 (seg.length - 1) = (seg.drop 1).dropLast := by
    rw [MdioLib.slice, List.dropLast_eq_take, List.length_drop, List.drop_take]
  have hmeta : (metaText seg).isSome ↔ 3 ≤ seg.length ∧ seg.head? = some 0xFE ∧
      seg.getLast? = some 0xFE ∧ seg[1]? = some 0x5B ∧
      ∀ c ∈ (seg.drop 1).dropLast, 0x20 ≤ c ∧ c ≤ 0x7E := by
    rw [metaText]
    split_ifs with hends hopen htext
    · simp only [Option.isSome_none, Bool.false_eq_true, false_iff]
      rintro ⟨hlen, hhead, hlast, -⟩
      rcases hends with h | h | h
      · omega
      · exact h hhead
      · exact h hlast
    · simp [hopen]
    · obtain ⟨c, hc, hbad⟩ := htext
      simp only [Option.isSome_none, Bool.false_eq_true, false_iff]
      rintro ⟨-, -, -, -, hall⟩
      rcases hbad with h | h
      · exact absurd (hall c hc).1 (UInt8.not_le.mpr h)
      · exact absurd (hall c hc).2 (UInt8.not_le.mpr h)
    · simp only [not_or, not_lt, not_not] at hends
      refine ⟨fun _ => ⟨hends.1, hends.2.1, hends.2.2, not_not.mp hopen, fun c hc => ?_⟩, fun _ => rfl⟩
      exact ⟨UInt8.not_lt.mp fun h => htext ⟨c, hc, .inl h⟩, UInt8.not_lt.mp fun h => htext ⟨c, hc, .inr h⟩⟩
  rw [Bool.eq_iff_iff, hmeta, MdioLib.isMeta, hslice]
  simp [MdioLib.BIN_DIAG, and_assoc]

/-- The record a segment carries is the one the demultiplexer's dispatch gives. -/
theorem lib_recordOfSegment (seg : List UInt8) :
    (MdioLib.recordOfSegment seg).toList =
      ((flush {} seg).recs.filterMap parseRecord).filter (·.type = 0x01) := by
  rw [MdioLib.recordOfSegment, flush, lib_isMeta]
  by_cases hnil : seg = []
  · simp [hnil]
  have hlone : seg.length = 1 ∧ seg.head? = some MdioLib.BIN_LOSS ↔ seg = [0xFD] := by
    rw [List.length_eq_one_iff]
    constructor
    · rintro ⟨⟨b, rfl⟩, hb⟩
      exact congrArg (fun b => [b]) (Option.some_inj.mp hb)
    · rintro rfl
      exact ⟨⟨_, rfl⟩, rfl⟩
  by_cases hloss : seg = [0xFD]
  · rw [if_pos (.inr (.inl (hlone.mpr hloss))), if_neg hnil, if_pos hloss]
    rfl
  rw [if_neg hnil, if_neg hloss]
  cases hmeta : metaText seg with
  | some m =>
    rw [if_pos (.inr (.inr rfl))]
    rfl
  | none =>
    rw [if_neg (by simp [hnil, mt hlone.mp hloss]), Envelope.lib_cobsFfDecode_eq]
    cases Cobs.cobsFfDecode seg with
    | none => rfl
    | some dec =>
      simp only [lib_parseRecord]
      cases hparse : parseRecord dec with
      | none => simp [hparse]
      | some r => by_cases htype : r.type = 0x01 <;> simp [hparse, htype]

/-- The demultiplexer dispatches the segments a split gives, in order. -/
theorem demuxLoop_splitOn (d : Demux) (seg data : List UInt8) :
    demuxLoop d seg data = ((data.splitOn 0xFF).modifyHead (seg ++ ·)).foldl flush d := by
  induction data generalizing d seg with
  | nil => simp [demuxLoop]
  | cons b data ih =>
    rw [demuxLoop, List.splitOn_cons_eq_if_modifyHead]
    by_cases hb : b = 0xFF
    · have hid : (data.splitOn 0xFF).modifyHead (([] : List UInt8) ++ ·) = data.splitOn 0xFF := by
        cases data.splitOn 0xFF <;> simp
      rw [if_pos hb, ih, hid]
      simp [hb]
    · rw [if_neg hb, ih]
      simp [hb, Function.comp_def]

theorem foldl_flush_records (d : Demux) (segs : List (List UInt8)) :
    ((segs.foldl flush d).recs.filterMap parseRecord).filter (·.type = 0x01) =
      (d.recs.filterMap parseRecord).filter (·.type = 0x01) ++
        segs.filterMap MdioLib.recordOfSegment := by
  induction segs generalizing d with
  | nil => simp
  | cons seg segs ih =>
    have hcons : (seg :: segs).filterMap MdioLib.recordOfSegment =
        (MdioLib.recordOfSegment seg).toList ++ segs.filterMap MdioLib.recordOfSegment := by
      rw [List.filterMap_cons]
      cases MdioLib.recordOfSegment seg <;> rfl
    rw [List.foldl_cons, ih, hcons, lib_recordOfSegment, Envelope.flush_eq d seg]
    simp [Envelope.append_def]

theorem lib_recordsFromBinary (data : List UInt8) :
    MdioLib.recordsFromBinary data = (recordsFromBinary data).records := by
  have hsplit := demuxLoop_splitOn {} [] data
  have hid : (data.splitOn 0xFF).modifyHead (([] : List UInt8) ++ ·) = data.splitOn 0xFF := by
    cases data.splitOn 0xFF <;> simp
  rw [hid] at hsplit
  rw [recordsFromBinary, demuxV2, hsplit, foldl_flush_records]
  rfl

/-! ## Bursts -/

theorem lib_burstToBits (payload : List UInt8) (validBits : Nat) :
    MdioLib.burstToBits payload validBits = burstToBits payload validBits := by
  have hslice : MdioLib.slice payload 0 (payload.length - 1) = payload.dropLast := by
    rw [MdioLib.slice, List.drop_zero, List.dropLast_eq_take]
  rw [MdioLib.burstToBits, burstToBits, hslice]
  rfl

/-- The browser's joiner with the same fields. -/
def codecJoiner (j : MdioLib.BurstJoiner) : BurstJoiner := ⟨j.pay, j.t0, j.onset, j.dur, j.flags⟩

theorem codecJoiner_feed (j : MdioLib.BurstJoiner) (r : Record) :
    (codecJoiner j).feed r = (codecJoiner (j.feed r).1, (j.feed r).2) := by
  obtain ⟨pay, t0, onset, dur, flags⟩ := j
  rw [BurstJoiner.feed, MdioLib.BurstJoiner.feed]
  cases t0 <;> split <;> rfl

theorem lib_logicalBurstsFrom (j : MdioLib.BurstJoiner) (bursts : List LBurst)
    (records : List Record) :
    (records.foldl joinStep (codecJoiner j, bursts)).2 =
      bursts ++ MdioLib.logicalBurstsFrom j records := by
  induction records generalizing j bursts with
  | nil => simp [MdioLib.logicalBurstsFrom]
  | cons r records ih =>
    rw [List.foldl_cons, MdioLib.logicalBurstsFrom, joinStep]
    have hreset : (if r.flags &&& (FLAG_OVF_PIOC ||| FLAG_OVF_RAM) ≠ 0 then {} else codecJoiner j) =
        codecJoiner (if r.flags &&& (FLAG_OVF_PIOC ||| FLAG_OVF_RAM) ≠ 0 then {} else j) := by
      split <;> rfl
    simp only [hreset, codecJoiner_feed, ih]
    generalize (if r.flags &&& (FLAG_OVF_PIOC ||| FLAG_OVF_RAM) ≠ 0 then {} else j : MdioLib.BurstJoiner) = j'
    cases (j'.feed r).2 <;> simp

theorem lib_logicalBursts (records : List Record) :
    MdioLib.logicalBursts records = logicalBursts records :=
  (lib_logicalBurstsFrom {} [] records).symm

/-! ## Frames and events -/

/-- The browser's folder with the same maps. -/
def codecFolder (m : MdioLib.MmdFolder) : MmdFolder := ⟨m.func, m.devad, m.addr⟩

theorem codecFolder_feed (m : MdioLib.MmdFolder) (fr : Frame) :
    (codecFolder m).feed fr = (codecFolder (m.feed fr).1, (m.feed fr).2) := by
  rw [MmdFolder.feed, MdioLib.MmdFolder.feed]
  dsimp only [codecFolder]
  split
  · rfl
  · split
    · cases m.devad fr.phyad with
      | none => rfl
      | some devad =>
        cases m.func fr.phyad with
        | none => rfl
        | some func =>
          dsimp only
          split
          · split <;> rfl
          · split
            · rfl
            · cases m.addr (fr.phyad, devad) with
              | none => rfl
              | some a =>
                dsimp only
                split <;> rfl
    · rfl

theorem codecFolder_feedAll (m : MdioLib.MmdFolder) (frames : List Frame) :
    (codecFolder m).feedAll frames = (codecFolder (m.feedAll frames).1, (m.feedAll frames).2) := by
  induction frames generalizing m with
  | nil => rfl
  | cons fr frames ih =>
    rw [MmdFolder.feedAll, codecFolder_feed]
    dsimp only
    rw [ih]
    rfl

/-- The browser's decoder with the same stream, folder, frames and events. -/
def codecDecoded (d : MdioLib.Decoded) : Decoded :=
  ⟨⟨d.stream.carry⟩, codecFolder d.folder, d.frames, d.events⟩

theorem codecDecoded_decodeBurst (d : MdioLib.Decoded) (lb : LBurst) :
    decodeBurst (codecDecoded d) lb = codecDecoded (MdioLib.decodeBurst d lb) := by
  have hfeed : ∀ (st : MdioLib.BitStream) bits, (⟨st.carry⟩ : BitStream).feed bits =
      ((st.feed bits).1, ⟨(st.feed bits).2.carry⟩) := by
    intro st bits
    rw [codec_feed, lib_feed]
  obtain ⟨stream, folder, frames, events⟩ := d
  rw [decodeBurst, MdioLib.decodeBurst]
  dsimp only [codecDecoded]
  have hstream : ∀ p : Prop, [Decidable p] → (if p then (⟨stream.carry⟩ : BitStream).reset else ⟨stream.carry⟩) =
      ⟨(if p then stream.reset else stream).carry⟩ := by
    intro p _
    split <;> rfl
  have hfolder : ∀ p : Prop, [Decidable p] → (if p then (codecFolder folder).reset else codecFolder folder) =
      codecFolder (if p then folder.reset else folder) := by
    intro p _
    split <;> rfl
  rw [hstream, hfolder, lib_burstToBits, hfeed]
  dsimp only
  rw [codecFolder_feedAll]
  dsimp only
  split <;> rfl

/-- The browser's decoder ends where the Python pipeline's counterpart does. -/
theorem codecDecoded_runBinary (data : List UInt8) :
    decodeCapture data = codecDecoded (MdioLib.runBinary data) := by
  have hfold : ∀ (d : MdioLib.Decoded) (bursts : List LBurst),
      bursts.foldl decodeBurst (codecDecoded d) = codecDecoded (bursts.foldl MdioLib.decodeBurst d) := by
    intro d bursts
    induction bursts generalizing d with
    | nil => rfl
    | cons lb bursts ih => rw [List.foldl_cons, List.foldl_cons, codecDecoded_decodeBurst, ih]
  rw [decodeCapture, MdioLib.runBinary, lib_recordsFromBinary, lib_logicalBursts, ← hfold]
  rfl

/-- The two decoders agree on every byte string: the same frames, preambles
included, and the same events. -/
theorem decoders_agree (data : List UInt8) :
    (decodeCapture data).frames = (MdioLib.runBinary data).frames ∧
      (decodeCapture data).events = (MdioLib.runBinary data).events := by
  rw [codecDecoded_runBinary]
  exact ⟨rfl, rfl⟩

end Tapioca.Host

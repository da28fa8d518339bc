-- SUMMARY: The browser's `[MODE]` detector on the raw byte stream: it hears every mode marker of the device and nothing else.
import Tapioca.Host.Envelope
import Tapioca.Sniffer.RleRoundTrip
import Tapioca.Sniffer.ClockedOutput

/-!
# The mode detector

`sniffMeta` of `app/web-sniffer/index.html` runs on every read, before and
beside the decoders, and looks at single bytes: it does not decode a record's
COBS block. Texts are lists of character codes.
-/

namespace Tapioca.WebSniffer

open RecordFramer

/-- `\w` -/
def isWordChar (c : UInt8) : Bool :=
  (0x30 ≤ c ∧ c ≤ 0x39) ∨ (0x41 ≤ c ∧ c ≤ 0x5A) ∨ c = 0x5F ∨ (0x61 ≤ c ∧ c ≤ 0x7A)

/-- `/^\[MODE\b/` -/
def testMode (txt : List UInt8) : Bool :=
  txt.take 5 = [0x5B, 0x4D, 0x4F, 0x44, 0x45] ∧ ¬ (txt.drop 5).head?.any isWordChar

/-- `metaSniff`, and the texts that `handleMeta` was called with. -/
structure MetaSniff where
  atStart : Bool := true
  inMeta : Bool := false
  buf : List UInt8 := []
  calls : List (List UInt8) := []
  deriving DecidableEq

namespace MetaSniff

/-- `okc` at the end of the scan, and a text that is not empty and opens with the tag. -/
def accepts (txt : List UInt8) : Bool := (∀ c ∈ txt, Printable c) ∧ txt ≠ [] ∧ testMode txt

/-- One round of the loop of `sniffMeta`. -/
def sniffByte (m : MetaSniff) (b : UInt8) : MetaSniff :=
  if b = 0xFF then { m with atStart := true, inMeta := false, buf := [] }
  else if m.atStart then { m with atStart := false, inMeta := b = 0xFE, buf := [] }
  else if ¬ m.inMeta then m
  else if b = 0xFE then
    let m := { m with inMeta := false }
    if accepts m.buf then { m with calls := m.calls ++ [m.buf] } else m
  else
    let m := { m with buf := m.buf ++ [b] }
    if m.buf.length > 80 then { m with inMeta := false } else m

def sniffMeta (m : MetaSniff) (bytes : List UInt8) : MetaSniff := bytes.foldl sniffByte m

/-! ## Segments -/

theorem sniffMeta_append (m : MetaSniff) (xs ys : List UInt8) :
    m.sniffMeta (xs ++ ys) = (m.sniffMeta xs).sniffMeta ys := List.foldl_append

theorem sniffMeta_cons (m : MetaSniff) (b : UInt8) (seg : List UInt8) :
    m.sniffMeta (b :: seg) = (m.sniffByte b).sniffMeta seg := rfl

/-- How a stream is cut into reads does not matter. -/
theorem sniffMeta_chunks (m : MetaSniff) (chunks : List (List UInt8)) :
    chunks.foldl sniffMeta m = m.sniffMeta chunks.flatten := List.foldl_flatten.symm

/-- The state behind a boundary. -/
def fresh (calls : List (List UInt8)) : MetaSniff := { calls }

theorem sniffMeta_boundary (m : MetaSniff) : m.sniffMeta [0xFF] = fresh m.calls := rfl

/-- The text a metadata candidate is reported with, `buf` of it already read. -/
def candidate (buf : List UInt8) : List UInt8 → Option (List UInt8)
  | [] => none
  | b :: seg =>
    if b = 0xFE then if accepts buf then some buf else none
    else if buf.length + 1 > 80 then none
    else candidate (buf ++ [b]) seg

/-- The text a whole segment is reported with. -/
def reported : List UInt8 → Option (List UInt8)
  | [] => none
  | b :: seg => if b = 0xFE then candidate [] seg else none

/-- Outside a candidate all bytes up to the next boundary are skipped. -/
theorem sniffMeta_skip {m : MetaSniff} (hstart : m.atStart = false) (hmeta : m.inMeta = false)
    {seg : List UInt8} (hsafe : 0xFF ∉ seg) : m.sniffMeta seg = m := by
  induction seg with
  | nil => rfl
  | cons b seg ih =>
    obtain ⟨hb, hseg⟩ := List.ne_and_not_mem_of_not_mem_cons hsafe
    have hstay : m.sniffByte b = m := by
      rw [sniffByte, if_neg hb.symm, hstart, hmeta]
      rfl
    rw [sniffMeta_cons, hstay]
    exact ih hseg

theorem sniffMeta_candidate {m : MetaSniff} (hstart : m.atStart = false) (hmeta : m.inMeta = true)
    {seg : List UInt8} (hsafe : 0xFF ∉ seg) :
    (m.sniffMeta seg).calls = m.calls ++ (candidate m.buf seg).toList := by
  induction seg generalizing m with
  | nil => exact (List.append_nil _).symm
  | cons b seg ih =>
    obtain ⟨hb, hseg⟩ := List.ne_and_not_mem_of_not_mem_cons hsafe
    rw [sniffMeta_cons, candidate]
    by_cases hclose : b = 0xFE
    · -- the block is complete; what comes behind it is skipped
      have hstep : m.sniffByte b =
          { m with inMeta := false, calls := m.calls ++ (if accepts m.buf then [m.buf] else []) } := by
        rw [sniffByte, if_neg hb.symm, hstart, hmeta, if_pos hclose]
        by_cases hacc : accepts m.buf <;> simp [hacc]
      rw [hstep, if_pos hclose, sniffMeta_skip (by exact hstart) (by rfl) hseg]
      cases accepts m.buf <;> rfl
    · rw [if_neg hclose]
      by_cases hlong : m.buf.length + 1 > 80
      · have hstep : m.sniffByte b = { m with inMeta := false, buf := m.buf ++ [b] } := by
          rw [sniffByte, if_neg hb.symm, hstart, hmeta, if_neg hclose]
          simp [hlong]
        rw [hstep, sniffMeta_skip (by exact hstart) (by rfl) hseg, if_pos hlong]
        exact (List.append_nil _).symm
      · have hstep : m.sniffByte b = { m with buf := m.buf ++ [b] } := by
          rw [sniffByte, if_neg hb.symm, hstart, hmeta, if_neg hclose]
          simp [hlong]
        rw [hstep, if_neg hlong]
        exact ih (m := { m with buf := m.buf ++ [b] }) hstart hmeta hseg

/-- One segment from boundary to boundary. -/
theorem sniffMeta_segment (calls : List (List UInt8)) {seg : List UInt8} (hsafe : 0xFF ∉ seg) :
    (fresh calls).sniffMeta (seg ++ [0xFF]) = fresh (calls ++ (reported seg).toList) := by
  rw [sniffMeta_append, sniffMeta_boundary]
  congr 1
  cases seg with
  | nil => exact (List.append_nil _).symm
  | cons b seg =>
    obtain ⟨hb, hseg⟩ := List.ne_and_not_mem_of_not_mem_cons hsafe
    have hstep : (fresh calls).sniffByte b =
        { atStart := false, inMeta := b = 0xFE, buf := [], calls } := if_neg hb.symm
    rw [sniffMeta_cons, hstep, reported]
    by_cases hlead : b = 0xFE
    · rw [if_pos hlead]
      exact sniffMeta_candidate rfl (decide_eq_true hlead) hseg
    · rw [sniffMeta_skip (by rfl) (by exact decide_eq_false hlead) hseg, if_neg hlead]
      exact (List.append_nil _).symm

/-! ## Candidates -/

/-- A control byte on the way spoils the candidate. -/
theorem candidate_unprintable {buf : List UInt8} {c : UInt8} (hmem : c ∈ buf) (hc : ¬ Printable c)
    (seg : List UInt8) : candidate buf seg = none := by
  have hbad : ∀ {buf : List UInt8}, c ∈ buf → accepts buf = false := fun hmem =>
    decide_eq_false fun h => hc (h.1 c hmem)
  induction seg generalizing buf with
  | nil => rfl
  | cons b seg ih =>
    rw [candidate, hbad hmem, ih (List.mem_append_left _ hmem)]
    simp

/-- A block that is closed is reported if its text is acceptable and not too long. -/
theorem candidate_block {buf text : List UInt8} (hbuf : buf.length ≤ 80) (hopen : 0xFE ∉ text)
    (seg : List UInt8) :
    candidate buf (text ++ 0xFE :: seg) =
      if (buf ++ text).length ≤ 80 ∧ accepts (buf ++ text) then some (buf ++ text) else none := by
  induction text generalizing buf with
  | nil => simp [candidate, hbuf]
  | cons c text ih =>
    obtain ⟨hc, htext⟩ := List.ne_and_not_mem_of_not_mem_cons hopen
    rw [List.cons_append, candidate, if_neg hc.symm]
    by_cases hlong : buf.length + 1 > 80
    · have hover : ¬ (buf ++ c :: text).length ≤ 80 := by simp; omega
      rw [if_pos hlong, if_neg fun h => hover h.1]
    · rw [if_neg hlong, ih (by simp; omega) htext]
      simp

end MetaSniff

/-! ## Device streams -/

/-- The text starts with `[MODE` as a whole word. -/
def ModeWord (txt : List UInt8) : Prop :=
  ∃ rest, txt = ascii "[MODE" ++ rest ∧ ∀ c ∈ rest.head?, ¬ isWordChar c

theorem testMode_iff (txt : List UInt8) : testMode txt ↔ ModeWord txt := by
  have hascii : ascii "[MODE" = [0x5B, 0x4D, 0x4F, 0x44, 0x45] := by decide +kernel
  rw [testMode, ModeWord, decide_eq_true_eq, hascii]
  constructor
  · rintro ⟨htake, hnext⟩
    refine ⟨txt.drop 5, by rw [← htake, List.take_append_drop], fun c hc hword => hnext ?_⟩
    rw [Option.mem_def.mp hc]
    exact hword
  · rintro ⟨rest, rfl, hnext⟩
    refine ⟨rfl, ?_⟩
    change ¬ rest.head?.any isWordChar
    cases hhead : rest.head? with
    | none => simp
    | some c => exact hnext c hhead

instance ModeWord.decidable (txt : List UInt8) : Decidable (ModeWord txt) :=
  decidable_of_iff _ (testMode_iff txt)

/-- A telemetry text. -/
structure TelemetryText extends MetaText where
  tag : ∃ rest, ascii = 0x5B :: 0x54 :: rest

/-- What stands between two boundaries of an rle stream. -/
inductive RlePiece where
  | run (b : UInt8) (low : b ≤ 0x80)
  | loss
  | telemetry (t : TelemetryText)

def RlePiece.bytes : RlePiece → List UInt8
  | .run b _ => [b]
  | .loss => [0xFD]
  | .telemetry t => 0xFE :: t.ascii ++ [0xFE]

/-- A segment as a device sends it in one of its modes. -/
inductive Segment where
  | record (body : List UInt8)
  | metadata (m : MetaText)
  | loss
  | runs (ps : List RlePiece)

theorem notMem_printable {c : UInt8} (hc : ¬ Printable c) {txt : List UInt8}
    (h : ∀ c ∈ txt, Printable c) : c ∉ txt := fun hmem => hc (h c hmem)

namespace RlePiece

theorem boundary_notMem (p : RlePiece) : 0xFF ∉ p.bytes := by
  cases p with
  | run b low =>
    rw [bytes, List.mem_singleton]
    rintro rfl
    exact absurd low (by decide)
  | loss => decide
  | telemetry t =>
    have htext := notMem_printable (c := 0xFF) (by decide) t.printable
    simp [bytes, htext]

end RlePiece

/-- The telemetry the rle sniffer sends. -/
def TelemetryText.ofBlock (d : RleSniffer.TelemetryBlock) : TelemetryText where
  ascii := d.numbers.text
  bracket := d.numbers.text_bracket
  printable := d.numbers.text_printable
  tag := by
    unfold RleSniffer.Telemetry.text
    simp only [List.append_assoc, show ascii "[T t=" = [0x5B, 0x54] ++ ascii " t=" by decide +kernel]
    exact ⟨_, rfl⟩

theorem RlePiece.bytes_ofBlock (d : RleSniffer.TelemetryBlock) :
    (RlePiece.telemetry (.ofBlock d)).bytes = d.bytes := rfl

/-- The marker the rle sniffer announces itself with. -/
def rleMarker (fcpu : UInt32) : MetaText where
  ascii := RleSniffer.marker fcpu
  bracket := RleSniffer.marker_bracket fcpu
  printable := RleSniffer.marker_printable fcpu

namespace Segment

/-- The segment's bytes, with the boundary that ends it. -/
def bytes : Segment → List UInt8
  | record body => frameRecord ( TYPE_MDIO :: body)
  | metadata m => frameMeta m.ascii
  | loss => frameLoss
  | runs ps => ps.flatMap RlePiece.bytes ++ [0xFF]

/-- A frame of the clocked sniffer. -/
def ofFrame : WireFrame → Segment
  | .record r => record r.raw.tail
  | .metadata m => metadata m
  | .loss => loss

theorem bytes_ofFrame (f : WireFrame) : (ofFrame f).bytes = f.emit := by
  cases f <;> rfl

/-- The mode marker the segment is. -/
def marker? : Segment → Option (List UInt8)
  | metadata m => if ModeWord m.ascii ∧ m.ascii.length ≤ 80 then some m.ascii else none
  | record _ | loss | runs _ => none

/-- A device of either mode is heard. -/
theorem marker_rle (fcpu : UInt32) :
    (metadata (rleMarker fcpu)).marker? = some (RleSniffer.marker fcpu) := by
  refine if_pos ⟨?_, ?_⟩
  · simp only [rleMarker, RleSniffer.marker, List.append_assoc,
      show ascii "[MODE rle wire=2 thi=" = ascii "[MODE" ++ 0x20 :: ascii "rle wire=2 thi=" by decide +kernel]
    exact ⟨_, rfl, fun c hc => by simp at hc; subst hc; decide⟩
  · have hdigits : (RleSniffer.decimal fcpu.toNat).length ≤ 10 := by
      rw [RleSniffer.decimal, List.length_map]
      have hlt := fcpu.toNat_lt
      exact (Nat.length_toDigits_le_iff (by decide) (by decide)).mpr (by omega)
    have hfixed : (ascii "[MODE rle wire=2 thi=" ++ RleSniffer.decimal RleSniffer.TICK_HI_CYC ++
        ascii " tlo=" ++ RleSniffer.decimal RleSniffer.TICK_LO_CYC ++ ascii " fcpu=").length ≤ 60 := by
      decide +kernel
    simp only [rleMarker, RleSniffer.marker, List.length_append] at hfixed ⊢
    have : (ascii "]").length = 1 := by decide +kernel
    omega

theorem marker_clocked :
    (metadata ClockedSniffer.markerText).marker? = some ClockedSniffer.Sniffer.MARKER := by
  decide +kernel

/-- The bytes before the boundary. -/
def content : Segment → List UInt8
  | record body => Cobs.ffEncode ( TYPE_MDIO :: body)
  | metadata m => 0xFE :: m.ascii ++ [0xFE]
  | loss => [0xFD]
  | runs ps => ps.flatMap RlePiece.bytes

theorem bytes_eq (s : Segment) : s.bytes = s.content ++ [0xFF] := by
  cases s with
  | record body => rfl
  | metadata m => exact Envelope.frameMeta_ascii m
  | loss => rfl
  | runs ps => rfl

theorem boundary_notMem (s : Segment) : 0xFF ∉ s.content := by
  cases s with
  | record body => exact Cobs.boundary_notMem_ffEncode _
  | metadata m =>
    have htext := notMem_printable (c := 0xFF) (by decide) m.printable
    simp [content, htext]
  | loss => decide
  | runs ps =>
    rw [content, List.mem_flatMap]
    rintro ⟨p, -, hp⟩
    exact p.boundary_notMem hp

/-- A record whose first code is `0xFE` has its type right behind it, and the
type is no printable character. -/
theorem reported_record (body : List UInt8) :
    MetaSniff.reported (Cobs.ffEncode ( TYPE_MDIO :: body)) = none := by
  obtain ⟨code, rest, henc⟩ : ∃ code rest,
      Lib.Cobs.encode Cobs.ffKeying ( TYPE_MDIO :: body) = code :: TYPE_MDIO :: rest :=
    Lib.Cobs.encode_cons (by decide)
  rw [Cobs.ffEncode_eq, henc, MetaSniff.reported, MetaSniff.candidate]
  have htype : ¬ Printable TYPE_MDIO := by decide
  rw [MetaSniff.candidate_unprintable (List.mem_append_right _ (List.mem_singleton_self _)) htype]
  simp [show TYPE_MDIO ≠ 0xFE by decide]

theorem reported_block {txt : List UInt8} (h : ∀ c ∈ txt, Printable c) (rest : List UInt8) :
    MetaSniff.reported (0xFE :: txt ++ 0xFE :: rest) =
      if ModeWord txt ∧ txt.length ≤ 80 then some txt else none := by
  have hopen := notMem_printable (c := 0xFE) (by decide) h
  have hacc : MetaSniff.accepts txt = true ↔ ModeWord txt := by
    rw [MetaSniff.accepts, decide_eq_true_eq, testMode_iff]
    refine ⟨fun hok => hok.2.2, fun hword => ⟨h, ?_, hword⟩⟩
    obtain ⟨tail, rfl, -⟩ := hword
    exact List.append_ne_nil_of_left_ne_nil (by decide +kernel) _
  rw [List.cons_append, MetaSniff.reported, if_pos rfl, MetaSniff.candidate_block (Nat.zero_le _) hopen]
  simp only [List.nil_append, hacc, and_comm]

/-- A telemetry block carries another tag. -/
theorem not_modeWord_telemetry (t : TelemetryText) : ¬ ModeWord t.ascii := by
  rintro ⟨rest, heq, -⟩
  obtain ⟨tail, htag⟩ := t.tag
  have hsecond : (ascii "[MODE" ++ rest)[1]? = some 0x4D := by
    rw [List.getElem?_append_left (by decide +kernel)]
    decide +kernel
  rw [← heq, htag] at hsecond
  exact absurd hsecond (by simp)

/-- Only what leads the segment can be a candidate. -/
theorem reported_runs (ps : List RlePiece) :
    MetaSniff.reported (ps.flatMap RlePiece.bytes) = none := by
  cases ps with
  | nil => rfl
  | cons p ps =>
    rw [List.flatMap_cons]
    cases p with
    | run b low =>
      refine if_neg ?_
      rintro rfl
      exact absurd low (by decide)
    | loss => rfl
    | telemetry t =>
      rw [RlePiece.bytes, List.append_assoc, List.singleton_append, reported_block t.printable]
      exact if_neg fun h => not_modeWord_telemetry t h.1

theorem reported_content (s : Segment) : MetaSniff.reported s.content = s.marker? := by
  cases s with
  | record body => exact reported_record body
  | metadata m => exact reported_block m.printable []
  | loss => rfl
  | runs ps => exact reported_runs ps

end Segment

namespace MetaSniff

theorem sniffMeta_segments (calls : List (List UInt8)) (segs : List Segment) :
    (fresh calls).sniffMeta (segs.flatMap Segment.bytes) =
      fresh (calls ++ segs.filterMap Segment.marker?) := by
  induction segs generalizing calls with
  | nil => rw [List.filterMap_nil, List.append_nil]; rfl
  | cons s segs ih =>
    rw [List.flatMap_cons, sniffMeta_append, s.bytes_eq, sniffMeta_segment calls s.boundary_notMem, ih,
      s.reported_content, List.filterMap_cons]
    cases s.marker? <;> simp

/-- What the reads of a device stream make `handleMeta` be called for. -/
theorem sniffMeta_stream (m : MetaSniff) (segs : List Segment) (chunks : List (List UInt8))
    (hcut : chunks.flatten = 0xFF :: segs.flatMap Segment.bytes) :
    (chunks.foldl sniffMeta m).calls = m.calls ++ segs.filterMap Segment.marker? := by
  have hstart : 0xFF :: segs.flatMap Segment.bytes = [0xFF] ++ segs.flatMap Segment.bytes := rfl
  rw [sniffMeta_chunks, hcut, hstart, sniffMeta_append, sniffMeta_boundary, sniffMeta_segments]
  rfl

/-- However a device stream is cut into reads, `handleMeta` is called for its
mode markers, in order, and for nothing else. -/
theorem mode_not_spoofed (m : MetaSniff) (segs : List Segment) (chunks : List (List UInt8))
    (hcut : chunks.flatten = 0xFF :: segs.flatMap Segment.bytes) :
    (chunks.foldl sniffMeta m).calls = m.calls ++ segs.filterMap Segment.marker? :=
  sniffMeta_stream m segs chunks hcut

/-- A record full of `[MODE` texts whose first code is `0xFE`, a marker that a
read cuts in two, and a longer word. -/
theorem mode_not_spoofed_once :
    let spoof : List UInt8 := (List.replicate 40 (0xFE :: ascii "[MODE]")).flatten
    let marker : MetaText := ⟨ascii "[MODE rle]", by decide +kernel, by decide +kernel⟩
    let other : MetaText := ⟨ascii "[MODEL]", by decide +kernel, by decide +kernel⟩
    let stream := 0xFF ::
      [Segment.record spoof, .metadata marker, .runs [.loss], .metadata other].flatMap Segment.bytes
    (([stream.take 288, stream.drop 288] : List (List UInt8)).foldl sniffMeta {}).calls =
      [ascii "[MODE rle]"] := by
  intro spoof marker other stream
  have hcut : [stream.take 288, stream.drop 288].flatten = stream := by simp
  have hfound : [Segment.record spoof, .metadata marker, .runs [.loss], .metadata other].filterMap
      Segment.marker? = [ascii "[MODE rle]"] := by decide +kernel
  rw [mode_not_spoofed {} _ _ hcut, hfound]
  rfl

/-! ## What the devices send -/

theorem marker?_ofFrame {e : ClockedSniffer.Entry} {f : WireFrame} (h : e.frame? = some f) :
    (Segment.ofFrame f).marker? = e.marker? := by
  cases e with
  | overrun | dropped => cases h
  | delivered r =>
    cases h
    rfl
  | marker =>
    cases h
    exact Segment.marker_clocked

/-- The segments of a clocked sniffer's history, and the markers among them. -/
theorem clocked_segments (log : List ClockedSniffer.Entry) :
    (ClockedSniffer.frames log).flatMap WireFrame.emit =
        ((ClockedSniffer.frames log).map Segment.ofFrame).flatMap Segment.bytes ∧
      ((ClockedSniffer.frames log).map Segment.ofFrame).filterMap Segment.marker? =
        log.reverse.filterMap ClockedSniffer.Entry.marker? := by
  constructor
  · simp only [List.flatMap_map, Segment.bytes_ofFrame]
  · rw [ClockedSniffer.frames, List.filterMap_map, List.filterMap_filterMap]
    refine List.filterMap_congr fun e _ => ?_
    cases hframe : e.frame? with
    | some f => exact marker?_ofFrame hframe
    | none =>
      cases e with
      | overrun | dropped => rfl
      | delivered | marker => cases hframe

/-- However the stream of the clocked sniffer is cut into reads, `handleMeta` is called for
each of its markers, and for nothing else. -/
theorem clocked_heard (m : MetaSniff) (ring : Ring ClockedSniffer.RING_SZ UInt8) (nowMs : UInt32)
    (head : UInt8) (calls : List ClockedSniffer.Readings) {s : ClockedSniffer.Sniffer}
    (hs : s = (ClockedSniffer.Sniffer.begin ring nowMs head).serve calls)
    {chunks : List (List UInt8)} (hcut : chunks.flatten = s.wire ++ s.ring.contents) :
    (chunks.foldl sniffMeta m).calls = m.calls ++ s.log.reverse.filterMap ClockedSniffer.Entry.marker? := by
  have hstaged := ClockedSniffer.staged_invariant.serve (ClockedSniffer.staged_begin ring nowMs head) calls
  obtain ⟨hbytes, hmarkers⟩ := clocked_segments s.log
  rw [← hs, ClockedSniffer.Staged, hbytes] at hstaged
  rw [sniffMeta_stream m _ chunks (hcut.trans hstaged), hmarkers]

/-- The trace of an rle sniffer, cut at its boundaries. -/
theorem rle_segments (B : RleSniffer.Build) {trace : List RleSniffer.Tag}
    (hruns : ∀ k b, .run k b ∈ trace → b ≤ 0x80) (hbanner : ∀ text, .banner text ∉ trace) :
    ∃ (segs : List Segment) (ps : List RlePiece), trace.flatMap (RleSniffer.Tag.bytes B) =
        segs.flatMap Segment.bytes ++ ps.flatMap RlePiece.bytes ∧
      segs.filterMap Segment.marker? = trace.filterMap (RleSniffer.Tag.marker? B) := by
  induction trace using List.reverseRecOn with
  | nil => exact ⟨[], [], rfl, rfl⟩
  | append_singleton trace tag ih =>
    obtain ⟨segs, ps, hbytes, hmarkers⟩ := ih (fun k b h => hruns k b (List.mem_append_left _ h))
      (fun text h => hbanner text (List.mem_append_left _ h))
    have hclose : Segment.marker? (.runs ps) = none := rfl
    cases tag with
    | run k b =>
      exact ⟨segs, ps ++ [.run b (hruns k b (by simp))],
        by simp [hbytes, RleSniffer.Tag.bytes, RlePiece.bytes], by simp [hmarkers, RleSniffer.Tag.marker?]⟩
    | loss =>
      exact ⟨segs, ps ++ [.loss], by simp [hbytes, RleSniffer.Tag.bytes, RlePiece.bytes],
        by simp [hmarkers, RleSniffer.Tag.marker?]⟩
    | report d =>
      refine ⟨segs, ps ++ [.telemetry (.ofBlock d)], ?_, by simp [hmarkers, RleSniffer.Tag.marker?]⟩
      simp [hbytes, RleSniffer.Tag.bytes, RlePiece.bytes_ofBlock]
    | boundary =>
      refine ⟨segs ++ [.runs ps], [], ?_, ?_⟩
      · simp [hbytes, RleSniffer.Tag.bytes, Segment.bytes]
      · simp [hmarkers, RleSniffer.Tag.marker?, hclose]
    | mode =>
      -- the boundary in front of the marker ends the segment that is open
      refine ⟨segs ++ [.runs ps, .metadata (rleMarker B.fcpu)], [], ?_, ?_⟩
      · simp [hbytes, RleSniffer.Tag.bytes, Segment.bytes, rleMarker]
      · simp [hmarkers, RleSniffer.Tag.marker?, hclose, Segment.marker_rle]
    | banner text => exact absurd (by simp) (hbanner text)

/-- However the wire of the rle sniffer is cut into reads, from a boundary to a boundary,
`handleMeta` is called for each of its markers, and for nothing else. -/
theorem rle_heard (m : MetaSniff) (B : RleSniffer.Build) {trace : List RleSniffer.Tag}
    (hruns : ∀ k b, .run k b ∈ trace → b ≤ 0x80) (hbanner : ∀ text, .banner text ∉ trace)
    {chunks : List (List UInt8)}
    (hcut : chunks.flatten = 0xFF :: trace.flatMap (RleSniffer.Tag.bytes B) ++ [0xFF]) :
    (chunks.foldl sniffMeta m).calls = m.calls ++ trace.filterMap (RleSniffer.Tag.marker? B) := by
  obtain ⟨segs, ps, hbytes, hmarkers⟩ := rle_segments B hruns hbanner
  have hstream : chunks.flatten = 0xFF :: (segs ++ [Segment.runs ps]).flatMap Segment.bytes := by
    simp [hcut, hbytes, Segment.bytes]
  rw [sniffMeta_stream m _ chunks hstream, List.filterMap_append, hmarkers]
  exact congrArg (m.calls ++ ·) (List.append_nil _)

end MetaSniff

end Tapioca.WebSniffer

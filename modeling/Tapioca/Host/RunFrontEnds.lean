-- SUMMARY: The two run-length parsers of the browser, batch and incremental, beside the Python one.
import Tapioca.Host.CanRle
import Tapioca.Lib.Lts

/-!
# The run-length front ends

`captureToRunsJS` is the port of `capture_to_runs`; `StreamProc.feed` takes the
capture chunk by chunk. All three read the items of the capture and fold them
into runs the same way.
-/

namespace Tapioca.WebSniffer

open Host Host.CanRle Lib.Lts

def FLUSH_AT : Nat := 64

/-! ## The batch parser -/

/-- The loop over a segment, on the runs so far and `acc`. -/
def segmentRuns (st : List Nat × Nat) (seg : List UInt8) : List Nat × Nat :=
  seg.foldl (fun st b => if b ≥ 128 then (st.1, st.2 + 128) else (st.1 ++ [st.2 + b.toNat], 0)) st

/-- `if (si) …`, in front of every segment but the first. -/
def boundaryRuns (st : List Nat × Nat) : List Nat × Nat :=
  ((if st.2 ≠ 0 then st.1 ++ [st.2] else st.1) ++ [BOUNDARY_RUN], 0)

/-- The scan loop is that of `capture_to_runs`. -/
def captureToRunsJS (data : List UInt8) : List Nat :=
  match segments [] data with
  | [] => []
  | seg :: segs => (segs.foldl (fun st seg => segmentRuns (boundaryRuns st) seg) (segmentRuns ([], 0) seg)).1

/-! ## The incremental parser -/

/-- What `feed` keeps. `appended` is a history variable: every run pushed to
`runbuf`, whether or not a flush has taken it since. -/
structure StreamProc where
  runbuf : List Nat := []
  cont : Nat := 0
  fe : Bool := false
  diag : Option (List UInt8) := none
  diags : List (List UInt8) := []
  losses : Nat := 0
  appended : List Nat := []

namespace StreamProc

def push (p : StreamProc) (r : Nat) : StreamProc :=
  { p with runbuf := p.runbuf ++ [r], appended := p.appended ++ [r] }

/-- The body of the loop behind the tests for a metadata block. -/
def runByte (p : StreamProc) (b : UInt8) : StreamProc :=
  if b = BIN_DIAG then { p with fe := true }
  else if b = BIN_BOUNDARY ∨ b = BIN_LOSS then
    let p := if b = BIN_LOSS then { p with losses := p.losses + 1 } else p
    let p := if p.cont ≠ 0 then { p.push p.cont with cont := 0 } else p
    p.push BOUNDARY_RUN
  else if b = 0x80 then { p with cont := p.cont + 128 }
  else if b < 0x80 then { p.push (p.cont + b.toNat) with cont := 0 }
  else p

def feedByte (p : StreamProc) (b : UInt8) : StreamProc :=
  match p.diag with
  | some text =>
    if b = BIN_DIAG then { p with diags := p.diags ++ [text], diag := none }
    else { p with diag := some (text ++ [b]) }
  | none =>
    if p.fe then
      let p := { p with fe := false }
      if b = 0x5B then { p with diag := some [0x5B] } else p.runByte b
    else p.runByte b

/-- `feed`. A flush takes `taken` runs from the front: frames it has cut, and the
backlog it sheds. -/
def feed (p : StreamProc) (bytes : List UInt8) (taken : Nat) : StreamProc :=
  let p := bytes.foldl feedByte p
  if FLUSH_AT ≤ p.runbuf.length then { p with runbuf := p.runbuf.drop taken } else p

/-- A chunk off the serial port, with what its flush takes. -/
def step (p : StreamProc) (chunk : List UInt8 × Nat) : StreamProc := p.feed chunk.1 chunk.2

end StreamProc

/-! ## Runs of items -/

/-- What one item does to the runs so far and the ticks of the open one. -/
def itemRuns (st : List Nat × Nat) : Item → List Nat × Nat
  | .idleBoundary => boundaryRuns st
  | .byte b => if b ≥ 128 then (st.1, st.2 + 128) else (st.1 ++ [st.2 + b.toNat], 0)

theorem itemRuns_eq (runs : List Nat) (acc : Nat) (xs : List Item) :
    (xs.foldl itemRuns (runs, acc)).1 = runs ++ reconstructContinuation acc xs := by
  induction xs generalizing runs acc with
  | nil => simp [reconstructContinuation]
  | cons x xs ih =>
    cases x with
    | idleBoundary =>
      rw [List.foldl_cons, itemRuns, boundaryRuns, ih, reconstructContinuation]
      split <;> simp
    | byte b =>
      rw [List.foldl_cons, itemRuns, reconstructContinuation]
      split
      · exact ih runs _
      · rw [ih, List.append_assoc]
        rfl

theorem segmentRuns_eq (st : List Nat × Nat) (seg : List UInt8) :
    segmentRuns st seg = (seg.map Item.byte).foldl itemRuns st := by
  rw [List.foldl_map]
  rfl

/-- The nested loops of the batch parser fold the items. -/
theorem captureToRunsJS_eq (data : List UInt8) : captureToRunsJS data = captureToRuns data := by
  have hjoined : ∀ (seg : List UInt8) (segs : List (List UInt8)) (st : List Nat × Nat),
      segs.foldl (fun st seg => segmentRuns (boundaryRuns st) seg) (segmentRuns st seg) =
        (joined (seg :: segs)).foldl itemRuns st := by
    intro seg segs
    induction segs generalizing seg with
    | nil => exact fun st => segmentRuns_eq st seg
    | cons next segs ih =>
      intro st
      rw [List.foldl_cons, joined_cons _ (List.cons_ne_nil _ _), List.foldl_append, List.foldl_cons,
        ← segmentRuns_eq, ih next]
      rfl
  rw [captureToRunsJS, captureToRuns]
  cases hsegs : segments [] data with
  | nil => exact absurd hsegs (segments_ne_nil _ _)
  | cons seg segs =>
    simp only [hjoined seg segs ([], 0), itemRuns_eq, List.nil_append]

/-! ## The incremental parser reads the same items -/

namespace StreamProc

/-- All runs so far, and the ticks of the open one. -/
def runs (p : StreamProc) : List Nat × Nat := (p.appended, p.cont)

/-- A byte outside a metadata block that is no `0xFE`. -/
theorem runByte_eq (p : StreamProc) {b : UInt8} (h : b ≠ BIN_DIAG) (rest : List UInt8) :
    ∃ xs, items (b :: rest) = xs ++ items rest ∧
      (p.runByte b).runs = xs.foldl itemRuns p.runs ∧ (p.runByte b).fe = p.fe ∧
        (p.runByte b).diag = p.diag := by
  rw [runByte, if_neg h]
  by_cases hcut : b = BIN_BOUNDARY ∨ b = BIN_LOSS
  · refine ⟨[.idleBoundary], items_cut hcut rest, ?_⟩
    rw [if_pos hcut]
    -- a cut closes an open continuation first, counted as a loss or not
    have hfold : ∀ q : StreamProc,
        ((if q.cont ≠ 0 then { q.push q.cont with cont := 0 } else q).push BOUNDARY_RUN).runs =
            boundaryRuns q.runs ∧
          ((if q.cont ≠ 0 then { q.push q.cont with cont := 0 } else q).push BOUNDARY_RUN).fe = q.fe ∧
            ((if q.cont ≠ 0 then { q.push q.cont with cont := 0 } else q).push BOUNDARY_RUN).diag =
              q.diag := by
      intro q
      by_cases hcont : q.cont ≠ 0
      · simp [push, runs, boundaryRuns, hcont]
      · simp [push, runs, boundaryRuns, not_not.mp hcont]
    by_cases hloss : b = BIN_LOSS
    · simp only [if_pos hloss]
      exact hfold { p with losses := p.losses + 1 }
    · simp only [if_neg hloss]
      exact hfold p
  · rw [if_neg hcut]
    by_cases hrun : b ≤ 0x80
    · refine ⟨[.byte b], items_run hrun rest, ?_⟩
      by_cases hcont : b = 0x80
      · rw [if_pos hcont, hcont]
        exact ⟨rfl, rfl, rfl⟩
      · have hlt : b < 0x80 := UInt8.lt_of_le_of_ne hrun hcont
        have hterm : ¬ b ≥ 128 := UInt8.not_le.mpr hlt
        rw [if_neg hcont, if_pos hlt]
        refine ⟨?_, rfl, rfl⟩
        rw [List.foldl_cons, List.foldl_nil, itemRuns, if_neg hterm]
        rfl
    · have hcont : ¬ b = 0x80 := fun heq => hrun (heq ▸ UInt8.le_refl _)
      have hterm : ¬ b < 0x80 := fun hlt => hrun (UInt8.le_of_lt hlt)
      refine ⟨[], items_noise hcut hrun fun hopen => h hopen.1, ?_⟩
      rw [if_neg hcont, if_neg hterm]
      exact ⟨rfl, rfl, rfl⟩

/-- What the parser makes of `rest`, the bytes ahead of it: of all of them, behind
a `0xFE` that may open a block, or behind the block that is open. -/
def ahead (p : StreamProc) (rest : List UInt8) : List Item :=
  if p.diag ≠ none then items ((rest.dropWhile (· ≠ BIN_DIAG)).drop 1)
  else if p.fe then items (BIN_DIAG :: rest)
  else items rest

/-- Inside a metadata block no `0xFE` is being held. -/
def Settled (p : StreamProc) : Prop := p.diag ≠ none → p.fe = false

/-- A `0xFE` that opens no metadata block is ignored. -/
theorem items_stray {rest : List UInt8} (h : rest.head? ≠ some 0x5B) :
    items (BIN_DIAG :: rest) = items rest :=
  items_noise (by decide) (by decide) fun hopen => h hopen.2

theorem ahead_nil (p : StreamProc) : p.ahead [] = [] := by
  have hstray : items [BIN_DIAG] = [] := (items_stray (by simp)).trans items_nil
  rw [ahead, hstray, items_nil, List.dropWhile_nil, List.drop_nil, items_nil]
  simp

theorem runByte_ahead {p : StreamProc} (hdiag : p.diag = none) (hfe : p.fe = false) (b : UInt8)
    (rest : List UInt8) :
    (p.runByte b).Settled ∧
      ((p.runByte b).ahead rest).foldl itemRuns (p.runByte b).runs =
        (items (b :: rest)).foldl itemRuns p.runs := by
  by_cases hopen : b = BIN_DIAG
  · rw [runByte, if_pos hopen, hopen]
    refine ⟨fun hsome => absurd hdiag hsome, ?_⟩
    rw [ahead, if_neg (not_not.mpr hdiag), if_pos rfl]
    rfl
  · obtain ⟨xs, hitems, hruns, hfe', hdiag'⟩ := p.runByte_eq hopen rest
    refine ⟨fun _ => hfe'.trans hfe, ?_⟩
    rw [ahead, hdiag', hfe', hdiag, hfe, hruns, hitems, List.foldl_append]
    rfl

/-- A byte fed is a byte less ahead. -/
theorem feedByte_ahead {p : StreamProc} (hp : p.Settled) (b : UInt8) (rest : List UInt8) :
    (p.feedByte b).Settled ∧
      ((p.feedByte b).ahead rest).foldl itemRuns (p.feedByte b).runs =
        (p.ahead (b :: rest)).foldl itemRuns p.runs := by
  cases hdiag : p.diag with
  | some text =>
    have hsome : p.diag ≠ none := by simp [hdiag]
    have hfe := hp hsome
    rw [feedByte, hdiag, ahead, ahead, if_pos hsome]
    by_cases hclose : b = BIN_DIAG
    · simp only [if_pos hclose]
      rw [List.dropWhile_cons_of_neg (by simpa using hclose)]
      exact ⟨fun _ => hfe, by simp [hfe, runs]⟩
    · simp only [if_neg hclose]
      rw [List.dropWhile_cons_of_pos (by simpa using hclose)]
      exact ⟨fun _ => hfe, by simp [runs]⟩
  | none =>
    rw [ahead.eq_1 p, feedByte, hdiag, if_neg (not_not.mpr rfl)]
    by_cases hfe : p.fe = true
    · simp only [if_pos hfe]
      by_cases hbracket : b = 0x5B
      · simp only [if_pos hbracket]
        refine ⟨fun _ => rfl, ?_⟩
        rw [hbracket, items_open, ahead, if_pos (Option.some_ne_none _)]
        rfl
      · simp only [if_neg hbracket]
        rw [items_stray (by simpa using hbracket)]
        exact runByte_ahead (p := { p with fe := false, diag := none }) rfl rfl b rest
    · simp only [if_neg hfe]
      exact runByte_ahead hdiag (Bool.not_eq_true _ ▸ hfe) b rest

theorem foldl_feedByte_ahead {p : StreamProc} (hp : p.Settled) (bytes rest : List UInt8) :
    (bytes.foldl feedByte p).Settled ∧
      ((bytes.foldl feedByte p).ahead rest).foldl itemRuns (bytes.foldl feedByte p).runs =
        (p.ahead (bytes ++ rest)).foldl itemRuns p.runs := by
  induction bytes generalizing p with
  | nil => exact ⟨hp, rfl⟩
  | cons b bytes ih =>
    obtain ⟨hsettled, hahead⟩ := feedByte_ahead hp b (bytes ++ rest)
    obtain ⟨hsettled', hahead'⟩ := ih hsettled
    exact ⟨hsettled', hahead'.trans hahead⟩

/-- The runs that the bytes ahead of the parser complete. -/
def future (p : StreamProc) (rest : List UInt8) : List Nat := reconstructContinuation p.cont (p.ahead rest)

theorem future_nil (p : StreamProc) : p.future [] = [] := by
  rw [future, ahead_nil]
  rfl

/-- Runs pushed are runs less in the future. -/
theorem foldl_feedByte_future {p : StreamProc} (hp : p.Settled) (bytes rest : List UInt8) :
    (bytes.foldl feedByte p).appended ++ (bytes.foldl feedByte p).future rest = p.appended ++ p.future (bytes ++ rest) := by
  have hahead := congrArg Prod.fst (foldl_feedByte_ahead hp bytes rest).2
  rwa [runs, runs, itemRuns_eq, itemRuns_eq] at hahead

/-- A flush takes runs out of the buffer and leaves everything else. -/
theorem feed_frame (p : StreamProc) (bytes : List UInt8) (taken : Nat) :
    p.feed bytes taken = { bytes.foldl feedByte p with runbuf := (p.feed bytes taken).runbuf } := by
  rw [feed]
  split <;> rfl

theorem feed_ahead {p : StreamProc} (hp : p.Settled) (bytes : List UInt8) (taken : Nat)
    (rest : List UInt8) :
    (p.feed bytes taken).Settled ∧
      ((p.feed bytes taken).ahead rest).foldl itemRuns (p.feed bytes taken).runs =
        (p.ahead (bytes ++ rest)).foldl itemRuns p.runs := by
  rw [feed_frame]
  exact foldl_feedByte_ahead hp bytes rest

theorem run_ahead {p : StreamProc} (hp : p.Settled) (chunks : List (List UInt8 × Nat)) :
    (run step p chunks).runs = (p.ahead (chunks.flatMap Prod.fst)).foldl itemRuns p.runs := by
  induction chunks generalizing p with
  | nil =>
    rw [List.flatMap_nil, ahead_nil]
    rfl
  | cons chunk chunks ih =>
    obtain ⟨hsettled, hahead⟩ := feed_ahead hp chunk.1 chunk.2 (chunks.flatMap Prod.fst)
    exact (ih hsettled).trans hahead

/-- Whatever the chunks and whatever a flush takes, the runs pushed are those of
the batch parsers. -/
theorem appended_eq (chunks : List (List UInt8 × Nat)) :
    (run step {} chunks).appended = captureToRuns (chunks.flatMap Prod.fst) := by
  have hrun := run_ahead (p := {}) (fun hsome => absurd rfl hsome) chunks
  have hstart : (({} : StreamProc)).ahead (chunks.flatMap Prod.fst) = items (chunks.flatMap Prod.fst) := rfl
  have hfold := itemRuns_eq [] 0 (items (chunks.flatMap Prod.fst))
  rw [hstart] at hrun
  calc (run step {} chunks).appended
      = ((items (chunks.flatMap Prod.fst)).foldl itemRuns ([], 0)).1 := congrArg Prod.fst hrun
    _ = captureToRuns (chunks.flatMap Prod.fst) := hfold

end StreamProc

/-! ## Metadata blocks put in -/

/-- `0xFE '[' ascii 0xFE`. -/
structure Block where
  ascii : List UInt8
  clean : ∀ c ∈ ascii, c < 0x80

def Block.bytes (m : Block) : List UInt8 := BIN_DIAG :: 0x5B :: m.ascii ++ [BIN_DIAG]

/-- A cut of a stream that lies in no metadata block: it comes behind whole
blocks and bytes that open none. -/
inductive Outside (post : List UInt8) : List UInt8 → Prop where
  | here : Outside post []
  | byte {b : UInt8} {pre : List UInt8} (hb : ¬ (b = BIN_DIAG ∧ (pre ++ post).head? = some 0x5B))
      (h : Outside post pre) : Outside post (b :: pre)
  | block {body pre : List UInt8} (hbody : BIN_DIAG ∉ body) (h : Outside post pre) :
      Outside post (BIN_DIAG :: 0x5B :: body ++ BIN_DIAG :: pre)

/-- A stream with metadata blocks put in, each outside all others. -/
inductive Inserted (data : List UInt8) : List UInt8 → Prop where
  | none : Inserted data data
  | block {pre post : List UInt8} (m : Block) (h : Inserted data (pre ++ post))
      (hpre : Outside post pre) : Inserted data (pre ++ m.bytes ++ post)

theorem Block.items (m : Block) (rest : List UInt8) :
    CanRle.items (m.bytes ++ rest) = CanRle.items rest := by
  have hclean : BIN_DIAG ∉ 0x5B :: m.ascii := by
    rintro (_ | ⟨_, hmem⟩)
    exact absurd (m.clean _ hmem) (by decide)
  have hopen : (0x5B :: m.ascii).head? = some 0x5B := rfl
  have hblock := items_block hopen hclean rest
  rw [Block.bytes, List.append_assoc]
  exact hblock

/-- A byte that opens no block stands for items of its own. -/
theorem items_byte {b : UInt8} {rest : List UInt8}
    (hb : ¬ (b = BIN_DIAG ∧ rest.head? = some 0x5B)) :
    CanRle.items (b :: rest) =
      (if b = BIN_BOUNDARY ∨ b = BIN_LOSS then [.idleBoundary] else if b ≤ 0x80 then [.byte b] else []) ++
        CanRle.items rest := by
  split_ifs with hcut hrun
  · exact items_cut hcut rest
  · exact items_run hrun rest
  · exact items_noise hcut hrun hb

theorem Outside.items {pre post : List UInt8} (h : Outside post pre) (m : Block) :
    CanRle.items (pre ++ m.bytes ++ post) = CanRle.items (pre ++ post) := by
  induction h with
  | here => exact m.items post
  | @byte b pre hb _ ih =>
    have hb' : ¬ (b = BIN_DIAG ∧ (pre ++ m.bytes ++ post).head? = some 0x5B) := by
      rintro ⟨hopen, hhead⟩
      cases pre with
      | nil => exact absurd hhead (by simp [Block.bytes, BIN_DIAG])
      | cons c pre => exact hb ⟨hopen, hhead⟩
    rw [List.cons_append, List.cons_append, List.cons_append, items_byte hb', items_byte hb, ih]
  | @block body pre hbody _ ih =>
    have hclean : BIN_DIAG ∉ 0x5B :: body := by
      rintro (_ | ⟨_, hmem⟩)
      exact hbody hmem
    have hskip : ∀ rest, CanRle.items (BIN_DIAG :: 0x5B :: body ++ BIN_DIAG :: rest) = CanRle.items rest :=
      items_block (rfl : (0x5B :: body).head? = some 0x5B) hclean
    have hassoc : ∀ rest, BIN_DIAG :: 0x5B :: body ++ BIN_DIAG :: pre ++ rest =
        BIN_DIAG :: 0x5B :: body ++ BIN_DIAG :: (pre ++ rest) := by
      intro rest
      simp
    rw [List.append_assoc, hassoc, hassoc, hskip, hskip, ← List.append_assoc, ih]

theorem Inserted.captureToRuns {data data' : List UInt8} (h : Inserted data data') :
    CanRle.captureToRuns data' = CanRle.captureToRuns data := by
  induction h with
  | none => rfl
  | block m _ hpre ih =>
    have hitems := congrArg (reconstructContinuation 0) (hpre.items m)
    exact hitems.trans ih

/-- The three parsers recover the same runs from every capture, and metadata
blocks put in outside others change none of them. -/
theorem front_ends_agree (chunks : List (List UInt8 × Nat)) (data' : List UInt8)
    (h : Inserted (chunks.flatMap Prod.fst) data') :
    (run StreamProc.step {} chunks).appended = CanRle.captureToRuns (chunks.flatMap Prod.fst) ∧
      captureToRunsJS (chunks.flatMap Prod.fst) = CanRle.captureToRuns (chunks.flatMap Prod.fst) ∧
        ∀ chunks', chunks'.flatMap Prod.fst = data' →
          (run StreamProc.step {} chunks').appended = (run StreamProc.step {} chunks).appended ∧
            captureToRunsJS data' = captureToRunsJS (chunks.flatMap Prod.fst) ∧
              CanRle.captureToRuns data' = CanRle.captureToRuns (chunks.flatMap Prod.fst) := by
  refine ⟨StreamProc.appended_eq chunks, captureToRunsJS_eq _, ?_⟩
  rintro chunks' rfl
  rw [StreamProc.appended_eq, StreamProc.appended_eq, captureToRunsJS_eq, captureToRunsJS_eq]
  exact ⟨h.captureToRuns, h.captureToRuns, h.captureToRuns⟩

/-- A block between a continuation byte and its terminal byte, cut across chunks. -/
theorem front_ends_agree_split :
    (run StreamProc.step {} [([0x80, 0x05], 0)]).appended = CanRle.captureToRuns [0x80, 0x05] ∧
      captureToRunsJS [0x80, 0x05] = CanRle.captureToRuns [0x80, 0x05] ∧
        ∀ chunks', chunks'.flatMap Prod.fst = [0x80, 0xFE, 0x5B, 0x54, 0xFE, 0x05] →
          (run StreamProc.step {} chunks').appended =
              (run StreamProc.step {} [([0x80, 0x05], 0)]).appended ∧
            captureToRunsJS [0x80, 0xFE, 0x5B, 0x54, 0xFE, 0x05] = captureToRunsJS [0x80, 0x05] ∧
              CanRle.captureToRuns [0x80, 0xFE, 0x5B, 0x54, 0xFE, 0x05] =
                CanRle.captureToRuns [0x80, 0x05] :=
  front_ends_agree [([0x80, 0x05], 0)] _
    (@Inserted.block _ [0x80] [0x05] ⟨[0x54], List.forall_mem_singleton.mpr (by decide)⟩ .none
      (.byte (by decide) .here))

end Tapioca.WebSniffer

-- SUMMARY: The live CAN reader: bytes to runs to frames, the decode tiers, and what reaches the sink.
import Mathlib.Tactic
import Tapioca.Host.CanFlush
import Tapioca.Host.RunFrontEnds

/-!
# The live reader

`can_rle_decode.py --live` decodes a frame under the calibration of the last one, under
units close to it, or from a fit of its own, of which a flush can afford a few. Frames
with a bad CRC are shown only behind a good one, and again after a loss.
-/

namespace Tapioca.Host.CanRle

open Lib.Rounding (roundEven)
open Lib.Lts (run)

/-! ## Decode tiers -/

/-- A standard frame with its CRC right. -/
def Parsed.ok? : Parsed → Option Frame
  | .extended _ => none
  | .standard f => if f.crcOk then some f else none

def readUnder (rnd : ℚ → ℤ) (cal : Cal) (runs : List ℚ) : Option Frame :=
  (parseFrame (unstuff (expandRuns rnd cal DOMINANT runs))).bind Parsed.ok?

/-- With and without a leading idle tail. -/
def drops {α : Type*} (runs : List α) : List Nat := [0, 1].filter (· < runs.length)

/-- Tier 1. -/
def readCached (rnd : ℚ → ℤ) (cal : Cal) (runs : List ℚ) : Option Frame :=
  (drops runs).findSome? fun drop => readUnder rnd cal (runs.drop drop)

/-- Candidate `k` of the narrow fit: from 0.85 to 1.15 of the unit, for both levels. -/
def Cal.narrow (cal : Cal) (k : Nat) : Cal :=
  let ui := cal.mean * 85 / 100 + (cal.mean * 115 / 100 - cal.mean * 85 / 100) * k / 10
  have hmean : 0 < cal.mean := div_pos (add_pos cal.uiL_pos cal.uiH_pos) two_pos
  have hui : 0 < ui := by
    have hk : 0 ≤ (cal.mean * 115 / 100 - cal.mean * 85 / 100) * k / 10 :=
      div_nonneg (mul_nonneg (by linarith) (Nat.cast_nonneg k)) (by norm_num)
    have hlow : 0 < cal.mean * 85 / 100 := by linarith
    exact add_pos_of_pos_of_nonneg hlow hk
  ⟨ui, cal.cL, ui, cal.cH, hui, hui⟩

/-- Tier 2: the frame and the calibration that read it. -/
def narrowFit (cal : Cal) (runs : List ℚ) : Option (Frame × Cal) :=
  (drops runs).findSome? fun drop => (List.range 11).findSome? fun k =>
    (readUnder roundEven (cal.narrow k) (runs.drop drop)).map (·, cal.narrow k)

/-! ## The sink -/

def hexUpper (n : Nat) : List Char := (Nat.toDigits 16 n).map Char.toUpper

/-- `"0x%X %d %s\n"` with the data as `%02X`. -/
def lineText (canId dlc : Nat) (data : List Nat) : String :=
  "0x" ++ String.ofList (hexUpper canId) ++ " " ++ toString dlc ++ " " ++
    String.intercalate " " (data.map fun b => String.ofList ((hexUpper b).leftpad 2 '0')) ++ "\n"

def frameLine (f : Frame) : String := lineText f.id f.dlc f.data

/-- `_LiveSink`. `calls` is a history variable: the losses and the frames in the order they came. -/
structure Sink where
  ovfPioc : Nat := 0
  ovfRam : Nat := 0
  ok : Nat := 0
  bad : Nat := 0
  loss : Nat := 0
  dropped : Nat := 0
  stdout : List String := []
  calls : List (Option Parsed) := []

namespace Sink

def addFrame (st : Sink) (f : Parsed) : Sink :=
  let st := { st with calls := st.calls ++ [some f] }
  match f.ok? with
  | none => { st with bad := st.bad + 1 }
  | some f => { st with ok := st.ok + 1, stdout := st.stdout ++ [frameLine f] }

def setOvf (st : Sink) (pioc ram : Nat) : Sink := { st with ovfPioc := pioc, ovfRam := ram }

def addLoss (st : Sink) (n : Nat) : Sink := { st with loss := st.loss + n, calls := st.calls ++ [none] }

def addDropped (st : Sink) (n : Nat) : Sink := { st with dropped := st.dropped + n }

/-- Nothing has been shown or given up in between. -/
structure Still (st st' : Sink) : Prop where
  stdout : st'.stdout = st.stdout
  ok : st'.ok = st.ok
  bad : st'.bad = st.bad
  dropped : st'.dropped = st.dropped

theorem Still.refl (st : Sink) : Still st st := ⟨rfl, rfl, rfl, rfl⟩

theorem Still.trans {st st' st'' : Sink} (h : Still st st') (h' : Still st' st'') : Still st st'' :=
  ⟨h'.stdout.trans h.stdout, h'.ok.trans h.ok, h'.bad.trans h.bad, h'.dropped.trans h.dropped⟩

end Sink

/-! ## The reader -/

def FLUSH_AT : Nat := 64
def MAX_BACKLOG : Nat := 8000
def SLOW_BUDGET : Nat := 8

/-- `word(\d+)` searched for in a text: the number of the first match. -/
def searchNumber (word : List UInt8) : List UInt8 → Option Nat
  | [] => none
  | c :: text =>
    let digits := ((c :: text).drop word.length).takeWhile fun d => 0x30 ≤ d ∧ d ≤ 0x39
    if word.isPrefixOf (c :: text) ∧ digits ≠ [] then
      some (digits.foldl (fun n d => 10 * n + (d.toNat - 0x30)) 0)
    else searchNumber word text

/-- `ovf=` -/
def OVF : List UInt8 := [0x6F, 0x76, 0x66, 0x3D]

/-- `drop=` -/
def DROP : List UInt8 := [0x64, 0x72, 0x6F, 0x70, 0x3D]

/-- What `reader` keeps. A `bnd` of 0 is no threshold yet. `appended`, `taken` and `decoded` are
history variables: every run pushed to `runbuf`, what the flushes have made of them, and the frames
handed to the decoder. -/
structure Reader where
  warmup : Bool
  diag : Option (List UInt8) := none
  fe : Bool := false
  cont : Nat := 0
  runbuf : List Nat := []
  cal : Option Cal := none
  bnd : ℤ := 0
  synced : Bool := false
  st : Sink := {}
  appended : List Nat := []
  taken : List Taken := []
  decoded : List (List Nat) := []

namespace Reader

def add (r : Reader) (f : Parsed) : Reader :=
  if f.crcOk then { r with synced := true, st := r.st.addFrame f }
  else if r.synced then { r with st := r.st.addFrame f }
  else r

/-- Tiers 1 and 2. -/
def cached (cal : Option Cal) (runs : List ℚ) : Option (Frame × Cal) :=
  cal.bind fun c => ((readCached roundEven c runs).map (·, c)).or (narrowFit c runs)

/-- Tier 3, with the fits the flush still has. -/
def fitted (r : Reader) (slow : Nat) (counts : List ℚ) : Reader × Nat :=
  if slow = 0 then ({ r with st := r.st.addDropped 1 }, 0)
  else
    match decodeFrameRuns counts with
    | none => (r, slow - 1)
    | some (f, _, drop) =>
      if f.crcOk then
        let c := fitBurstUi (counts.drop drop)
        ({ r with cal := some c, bnd := boundFromUi c }.add f, slow - 1)
      else (r.add f, slow - 1)

def emit (s : Reader × Nat) (runs : List Nat) : Reader × Nat :=
  if runs.length < 8 then s
  else
    let counts := runs.map (Nat.cast : Nat → ℚ)
    let r := { s.1 with decoded := s.1.decoded ++ [runs] }
    match cached r.cal counts with
    | some (f, c) => ({ r with cal := some c }.add (.standard f), s.2)
    | none => r.fitted s.2 counts

/-- Past the ceiling the oldest runs go. -/
def shed (r : Reader) : Reader :=
  if r.runbuf.length > MAX_BACKLOG then
    let n := r.runbuf.length - MAX_BACKLOG
    { r with
      runbuf := r.runbuf.drop n
      st := r.st.addDropped n
      taken := r.taken ++ [.shed (r.runbuf.take n)] }
  else r

/-- The threshold, from the locked unit or from the shortest run, when there is none. -/
def setBound (r : Reader) : Reader :=
  if r.bnd = 0 then
    { r with bnd := match r.cal with
        | some c => boundFromUi c
        | none => frameBoundaryRuns r.runbuf }
  else r

/-- The open piece is a frame of its own when the capture ends. -/
def flushLast (force : Bool) (c : Cutting (Reader × Nat)) (len : Nat) : (Reader × Nat) × Nat :=
  if force ∧ c.cur.length ≥ 8 then (emit c.state c.cur, len) else (c.state, c.last)

/-- The loop of `flush`, and the buffer behind it. -/
def cutAll (r : Reader) (force : Bool) : Reader :=
  let c := cutLoop (fun _ => r.bnd) emit 0 ⟨(r, SLOW_BUDGET), [], 0, []⟩ r.runbuf
  let (s, last) := flushLast force c r.runbuf.length
  let n := if last = 0 ∧ r.runbuf.length > MAX_BACKLOG then 4096 else last
  { s.1 with
    runbuf := r.runbuf.drop n
    taken := r.taken ++ c.pieces.map .piece ++ if force ∧ c.cur.length ≥ 8 then [.last r.bnd c.cur] else [] }

def flush (r : Reader) (force : Bool) : Reader :=
  if r.runbuf = [] ∨ r.runbuf.length < FLUSH_AT ∧ ¬ force then r else r.shed.setBound.cutAll force

/-- The telemetry in a metadata block, whose text is ASCII. -/
def setOvf (r : Reader) (diag : List UInt8) : Reader :=
  let text := diag.filter (· < 0x80)
  let mo := searchNumber OVF text
  let md := searchNumber DROP text
  if mo ≠ none ∨ md ≠ none then
    { r with st := r.st.setOvf (mo.getD r.st.ovfPioc) (md.getD r.st.ovfRam) }
  else r

def push (r : Reader) (n : Nat) : Reader := { r with runbuf := r.runbuf ++ [n], appended := r.appended ++ [n] }

/-- A cut closes an open continuation first. -/
def pushCut (r : Reader) : Reader :=
  (if r.cont ≠ 0 then { r.push r.cont with cont := 0 } else r).push BOUNDARY_RUN

/-- The body of the loop behind the tests for a metadata block. -/
def runByte (r : Reader) (b : UInt8) : Reader :=
  if b = BIN_DIAG then { r with fe := true }
  else if b = BIN_BOUNDARY ∨ b = BIN_LOSS then
    (if b = BIN_LOSS then { r with st := r.st.addLoss 1, synced := false } else r).pushCut
  else if b = 0x80 then { r with cont := r.cont + 128 }
  else if b < 0x80 then { r.push (r.cont + b.toNat) with cont := 0 }
  else r

def readByte (r : Reader) (b : UInt8) : Reader :=
  match r.diag with
  | some text =>
    if b = BIN_DIAG then { r.setOvf text with diag := none } else { r with diag := some (text ++ [b]) }
  | none =>
    if r.fe then
      if b = 0x5B then { r with fe := false, diag := some [0x5B] } else { r with fe := false }.runByte b
    else r.runByte b

/-- A chunk off the port, and whether the warm-up is over when it comes. -/
def readChunk (r : Reader) (chunk : List UInt8 × Bool) : Reader :=
  if r.warmup ∧ ¬ chunk.2 then r
  else (chunk.1.foldl readByte { r with warmup := false }).flush false

/-- All chunks, and the flush at the end of the capture. -/
def live (isatty : Bool) (chunks : List (List UInt8 × Bool)) : Reader :=
  (run readChunk { warmup := isatty } chunks).flush true

/-! ## What a step changes -/

/-- A frame shown changes the gate and the sink. -/
theorem add_eq (r : Reader) (f : Parsed) :
    ∃ synced st, r.add f = { r with synced := synced, st := st } ∧ st.dropped = r.st.dropped := by
  have hadd : (r.st.addFrame f).dropped = r.st.dropped := by
    rw [Sink.addFrame]
    split <;> rfl
  rw [add]
  split_ifs
  · exact ⟨true, r.st.addFrame f, rfl, hadd⟩
  · exact ⟨r.synced, r.st.addFrame f, rfl, hadd⟩
  · exact ⟨r.synced, r.st, rfl, rfl⟩

/-- The decoder leaves the buffer alone. -/
theorem emit_eq {s : Reader × Nat} {runs : List Nat} (h : 8 ≤ runs.length) :
    ∃ cal bnd synced st, (emit s runs).1 =
        { s.1 with cal := cal, bnd := bnd, synced := synced, st := st, decoded := s.1.decoded ++ [runs] } ∧
      s.1.st.dropped ≤ st.dropped := by
  rw [emit, if_neg (not_lt.mpr h)]
  dsimp only
  split
  next f c _ =>
    obtain ⟨synced, st, hadd, hst⟩ :=
      add_eq { s.1 with decoded := s.1.decoded ++ [runs], cal := some c } (.standard f)
    exact ⟨some c, s.1.bnd, synced, st, hadd, hst.ge⟩
  next =>
    rw [fitted]
    split
    next => exact ⟨s.1.cal, s.1.bnd, s.1.synced, s.1.st.addDropped 1, rfl, Nat.le_succ _⟩
    next =>
      split
      next => exact ⟨s.1.cal, s.1.bnd, s.1.synced, s.1.st, rfl, le_rfl⟩
      next f _ drop _ =>
        split
        next =>
          obtain ⟨synced, st, hadd, hst⟩ := add_eq { s.1 with
            decoded := s.1.decoded ++ [runs]
            cal := some (fitBurstUi ((runs.map Nat.cast).drop drop))
            bnd := boundFromUi (fitBurstUi ((runs.map Nat.cast).drop drop)) } f
          exact ⟨_, _, synced, st, hadd, hst.ge⟩
        next =>
          obtain ⟨synced, st, hadd, hst⟩ := add_eq { s.1 with decoded := s.1.decoded ++ [runs] } f
          exact ⟨s.1.cal, s.1.bnd, synced, st, hadd, hst.ge⟩

theorem foldl_emit_eq (s : Reader × Nat) {fs : List (List Nat)} (h : ∀ f ∈ fs, 8 ≤ f.length) :
    ∃ cal bnd synced st, (fs.foldl emit s).1 =
        { s.1 with cal := cal, bnd := bnd, synced := synced, st := st, decoded := s.1.decoded ++ fs } ∧
      s.1.st.dropped ≤ st.dropped := by
  induction fs generalizing s with
  | nil => exact ⟨s.1.cal, s.1.bnd, s.1.synced, s.1.st, by rw [List.append_nil]; rfl, le_rfl⟩
  | cons f fs ih =>
    obtain ⟨hf, hfs⟩ := List.forall_mem_cons.mp h
    obtain ⟨cal, bnd, synced, st, hemit, hst⟩ := @emit_eq s f hf
    obtain ⟨cal', bnd', synced', st', hfold, hst'⟩ := ih (emit s f) hfs
    refine ⟨cal', bnd', synced', st', ?_, ?_⟩
    · rw [List.foldl_cons, hfold, hemit, List.append_assoc, List.singleton_append]
    · rw [hemit] at hst'
      exact hst.trans hst'

def buffer (r : Reader) : Buffer := ⟨r.runbuf, r.taken, r.decoded, r.st.dropped⟩

theorem drop_flushed (r : Reader) (n : Nat) :
    Flushed r.buffer
      ({ r with
        runbuf := r.runbuf.drop n
        st := r.st.addDropped n
        taken := r.taken ++ [Taken.shed (r.runbuf.take n)] } : Reader).buffer
      [.shed (r.runbuf.take n)] :=
  Flushed.shed r.buffer n

theorem shed_flushed (r : Reader) :
    ∃ new, Flushed r.buffer r.shed.buffer new ∧ r.shed.runbuf.length ≤ MAX_BACKLOG ∧
      (new ≠ [] → MAX_BACKLOG < r.runbuf.length) := by
  rw [shed]
  split
  next hfull =>
    refine ⟨_, r.drop_flushed (r.runbuf.length - MAX_BACKLOG), ?_, fun _ => hfull⟩
    rw [List.length_drop]
    omega
  next hroom => exact ⟨[], .refl _, not_lt.mp hroom, fun h => absurd rfl h⟩

theorem shed_eq (r : Reader) : ∃ runbuf taken st, r.shed = { r with runbuf := runbuf, taken := taken, st := st } := by
  rw [shed]
  split
  next => exact ⟨_, _, _, rfl⟩
  next => exact ⟨r.runbuf, r.taken, r.st, rfl⟩

theorem setBound_eq (r : Reader) : ∃ bnd, r.setBound = { r with bnd := bnd } := by
  rw [setBound]
  split
  next => exact ⟨_, rfl⟩
  next => exact ⟨r.bnd, rfl⟩

/-- The ceiling is kept by `shed`, so that the branch for a backlog without a gap is never taken. -/
theorem cutAll_flushed {r : Reader} (force : Bool) (hroom : r.runbuf.length ≤ MAX_BACKLOG) :
    ∃ new, Flushed r.buffer (r.cutAll force).buffer new ∧ (force → (r.cutAll force).runbuf.length < 8) ∧
      (∀ lost, .shed lost ∉ new) ∧
        ∃ runbuf taken decoded cal bnd synced st, r.cutAll force =
          { r with
            runbuf := runbuf, taken := taken, decoded := decoded, cal := cal, bnd := bnd, synced := synced, st := st } := by
  have hat := @cutLoop_at _ _ emit _ _ (Cutting.At.start (fun _ => r.bnd) (r, SLOW_BUDGET)) r.runbuf
  have hstate := cutLoop_state (fun _ => r.bnd) emit 0 ⟨(r, SLOW_BUDGET), [], 0, []⟩ r.runbuf
  rw [cutAll]
  rw [List.length_nil, List.nil_append] at hat
  generalize cutLoop (fun _ => r.bnd) emit 0 ⟨(r, SLOW_BUDGET), [], 0, []⟩ r.runbuf = c at hat hstate
  obtain ⟨pieces, hpieces, hstate⟩ := hstate
  obtain rfl : c.pieces = pieces := hpieces
  have hlong : ∀ f ∈ frames (c.pieces.map Piece.runs), 8 ≤ f.length := fun f hf => by
    simpa using (List.mem_filter.mp hf).2
  obtain ⟨cal, bnd, synced, st, hfold, hst⟩ := foldl_emit_eq (r, SLOW_BUDGET) hlong
  rw [← hstate] at hfold
  have hwork : r.buffer.runbuf = r.runbuf ++ [] := (List.append_nil _).symm
  simp only [if_neg (fun h : _ ∧ r.runbuf.length > MAX_BACKLOG => not_lt.mpr hroom h.2)]
  rw [flushLast]
  by_cases hopen : force = true ∧ c.cur.length ≥ 8
  · obtain ⟨cal', bnd', synced', st', hemit, hst'⟩ := @emit_eq c.state _ hopen.2
    rw [hfold] at hst' hemit
    simp only [if_pos hopen, hemit]
    exact ⟨_, hat.flushed_last hwork hopen.2 (hst.trans hst'), fun _ => by simp, by simp, _, _, _, _, _, _, _, rfl⟩
  · simp only [if_neg hopen, hfold, List.append_nil]
    refine ⟨_, hat.flushed hwork hst, fun hforce => ?_, by simp, _, _, _, _, _, _, _, rfl⟩
    have hdrop : r.runbuf.drop c.last = c.cur := by rw [hat.parts, hat.last, List.drop_left]
    rw [hdrop]
    exact not_le.mp fun h => hopen ⟨hforce, h⟩

theorem flush_flushed (r : Reader) (force : Bool) :
    ∃ new, Flushed r.buffer (r.flush force).buffer new ∧ (force → (r.flush force).runbuf.length < 8) ∧
      ((∃ lost, .shed lost ∈ new) → MAX_BACKLOG < r.runbuf.length) ∧
        ∃ runbuf taken decoded cal bnd synced st, r.flush force =
          { r with
            runbuf := runbuf, taken := taken, decoded := decoded, cal := cal, bnd := bnd, synced := synced, st := st } := by
  rw [flush]
  split
  next hwait =>
    refine ⟨[], .refl _, fun hforce => ?_, by simp, r.runbuf, r.taken, r.decoded, r.cal, r.bnd, r.synced, r.st, rfl⟩
    rcases hwait with hnil | ⟨-, hnot⟩
    · simp [hnil]
    · exact absurd hforce hnot
  next =>
    obtain ⟨lost, hshed, hroom, hfull⟩ := r.shed_flushed
    obtain ⟨runbuf, taken, st, hshedEq⟩ := r.shed_eq
    obtain ⟨bnd, hbound⟩ := r.shed.setBound_eq
    have hroom' : r.shed.setBound.runbuf.length ≤ MAX_BACKLOG := by
      rw [hbound]
      exact hroom
    obtain ⟨new, hcut, hend, hclean, runbuf', taken', decoded', cal', bnd', synced', st', heq⟩ := cutAll_flushed force hroom'
    have hbuffer : r.shed.setBound.buffer = r.shed.buffer := by rw [hbound]; rfl
    rw [hbuffer] at hcut
    refine ⟨lost ++ new, hshed.trans hcut, hend, ?_, runbuf', taken', decoded', cal', bnd', synced', st', ?_⟩
    · rintro ⟨runs, hmem⟩
      apply hfull
      rintro rfl
      exact hclean runs hmem
    · rw [heq, hbound, hshedEq]

/-! ## The front end is that of the browser -/

theorem runByte_eq (r : Reader) (b : UInt8) :
    ∃ new cont fe synced st, r.runByte b = { r with
        runbuf := r.runbuf ++ new, appended := r.appended ++ new, cont := cont, fe := fe, synced := synced, st := st } ∧
      Sink.Still r.st st ∧ new.length + min cont 1 ≤ min r.cont 1 + 1 := by
  have hstill : Sink.Still r.st (r.st.addLoss 1) := ⟨rfl, rfl, rfl, rfl⟩
  rw [runByte]
  split_ifs with hopen hcut hloss hcont hlt
  · exact ⟨[], r.cont, true, r.synced, r.st, by simp, .refl _, by simp⟩
  · by_cases hheld : r.cont = 0
    · exact ⟨[BOUNDARY_RUN], 0, r.fe, false, r.st.addLoss 1, by simp [pushCut, push, hheld], hstill, by simp⟩
    · refine ⟨[r.cont, BOUNDARY_RUN], 0, r.fe, false, r.st.addLoss 1, by simp [pushCut, push, hheld], hstill, ?_⟩
      simp only [List.length_cons, List.length_nil]
      omega
  · by_cases hheld : r.cont = 0
    · exact ⟨[BOUNDARY_RUN], 0, r.fe, r.synced, r.st, by simp [pushCut, push, hheld], .refl _, by simp⟩
    · refine ⟨[r.cont, BOUNDARY_RUN], 0, r.fe, r.synced, r.st, by simp [pushCut, push, hheld], .refl _, ?_⟩
      simp only [List.length_cons, List.length_nil]
      omega
  · refine ⟨[], r.cont + 128, r.fe, r.synced, r.st, by simp, .refl _, ?_⟩
    rw [List.length_nil]
    omega
  · exact ⟨[r.cont + b.toNat], 0, r.fe, r.synced, r.st, by simp [push], .refl _, by simp⟩
  · exact ⟨[], r.cont, r.fe, r.synced, r.st, by simp, .refl _, by simp⟩

/-- A byte pushes runs, one more at most than it leaves open, and has nothing to do with what flushes
have taken. -/
theorem readByte_eq (r : Reader) (b : UInt8) :
    ∃ new cont fe diag synced st, r.readByte b = { r with
        runbuf := r.runbuf ++ new, appended := r.appended ++ new, cont := cont, fe := fe, diag := diag,
        synced := synced, st := st } ∧
      Sink.Still r.st st ∧ new.length + min cont 1 ≤ min r.cont 1 + 1 := by
  rw [readByte]
  split
  next text _ =>
    split
    next =>
      have hovf : ∃ st, r.setOvf text = { r with st := st } ∧ Sink.Still r.st st := by
        rw [setOvf]
        split
        · exact ⟨_, rfl, ⟨rfl, rfl, rfl, rfl⟩⟩
        · exact ⟨r.st, rfl, .refl _⟩
      obtain ⟨st, hovf, hst⟩ := hovf
      exact ⟨[], r.cont, r.fe, none, r.synced, st, by simp [hovf], hst, by simp⟩
    next => exact ⟨[], r.cont, r.fe, some (text ++ [b]), r.synced, r.st, by simp, .refl _, by simp⟩
  next =>
    split
    next =>
      split
      next => exact ⟨[], r.cont, false, some [0x5B], r.synced, r.st, by simp, .refl _, by simp⟩
      next =>
        obtain ⟨new, cont, fe, synced, st, hbyte, hst⟩ := runByte_eq { r with fe := false } b
        exact ⟨new, cont, fe, r.diag, synced, st, hbyte, hst⟩
    next =>
      obtain ⟨new, cont, fe, synced, st, hbyte, hst⟩ := r.runByte_eq b
      exact ⟨new, cont, fe, r.diag, synced, st, hbyte, hst⟩

theorem foldl_readByte_eq (r : Reader) (bytes : List UInt8) :
    ∃ new cont fe diag synced st, bytes.foldl readByte r = { r with
        runbuf := r.runbuf ++ new, appended := r.appended ++ new, cont := cont, fe := fe, diag := diag,
        synced := synced, st := st } ∧
      Sink.Still r.st st ∧ new.length + min cont 1 ≤ min r.cont 1 + bytes.length := by
  induction bytes generalizing r with
  | nil => exact ⟨[], r.cont, r.fe, r.diag, r.synced, r.st, by simp, .refl _, by simp⟩
  | cons b bytes ih =>
    obtain ⟨new, cont, fe, diag, synced, st, hbyte, hst, hlen⟩ := r.readByte_eq b
    obtain ⟨new', cont', fe', diag', synced', st', hbytes, hst', hlen'⟩ := ih (r.readByte b)
    rw [hbyte] at hst' hlen'
    refine ⟨new ++ new', cont', fe', diag', synced', st', ?_, hst.trans hst', ?_⟩
    · rw [List.foldl_cons, hbytes, hbyte, List.append_assoc, List.append_assoc]
    · rw [List.length_append, List.length_cons]
      dsimp only at hlen'
      omega

/-- The two front ends have read the same. -/
structure Like (r : Reader) (p : WebSniffer.StreamProc) : Prop where
  appended : r.appended = p.appended
  cont : r.cont = p.cont
  fe : r.fe = p.fe
  diag : r.diag = p.diag

theorem Like.runByte {r : Reader} {p : WebSniffer.StreamProc} (h : r.Like p) (b : UInt8) :
    (r.runByte b).Like (p.runByte b) := by
  obtain ⟨happ, hcont, hfe, hdiag⟩ := h
  rw [Reader.runByte, WebSniffer.StreamProc.runByte]
  split_ifs with hopen hcut hloss hcont' hlt
  · exact ⟨happ, hcont, rfl, hdiag⟩
  · by_cases hheld : p.cont = 0
    · constructor <;> simp [pushCut, push, WebSniffer.StreamProc.push, hheld, happ, hcont, hfe, hdiag]
    · constructor <;> simp [pushCut, push, WebSniffer.StreamProc.push, hheld, happ, hcont, hfe, hdiag]
  · by_cases hheld : p.cont = 0
    · constructor <;> simp [pushCut, push, WebSniffer.StreamProc.push, hheld, happ, hcont, hfe, hdiag]
    · constructor <;> simp [pushCut, push, WebSniffer.StreamProc.push, hheld, happ, hcont, hfe, hdiag]
  · exact ⟨happ, congrArg (· + 128) hcont, hfe, hdiag⟩
  · constructor <;> simp [push, WebSniffer.StreamProc.push, happ, hcont, hfe, hdiag]
  · exact ⟨happ, hcont, hfe, hdiag⟩

theorem Like.readByte {r : Reader} {p : WebSniffer.StreamProc} (h : r.Like p) (b : UInt8) :
    (r.readByte b).Like (p.feedByte b) := by
  have hfe := h.fe
  have hdiag := h.diag
  rw [Reader.readByte, WebSniffer.StreamProc.feedByte, hdiag]
  cases p.diag with
  | some text =>
    dsimp only
    split
    next =>
      rw [setOvf]
      split
      · exact ⟨h.appended, h.cont, h.fe, rfl⟩
      · exact ⟨h.appended, h.cont, h.fe, rfl⟩
    next => exact ⟨h.appended, h.cont, h.fe, rfl⟩
  | none =>
    dsimp only
    rw [hfe]
    split
    next =>
      split
      next => exact ⟨h.appended, h.cont, rfl, rfl⟩
      next =>
        have hlow : ({ r with fe := false, diag := none } : Reader).Like { p with fe := false, diag := none } :=
          ⟨h.appended, h.cont, rfl, rfl⟩
        exact hlow.runByte b
    next => exact h.runByte b

/-! ## Whole captures -/

abbrev Kept (r : Reader) : Prop := r.buffer.Kept r.appended

theorem Kept.flush {r : Reader} (h : r.Kept) (force : Bool) : (r.flush force).Kept := by
  obtain ⟨new, hflush, -, -, runbuf, taken, decoded, cal, bnd, synced, st, heq⟩ := r.flush_flushed force
  have happ : (r.flush force).appended = r.appended := by rw [heq]
  rw [Kept, happ]
  exact hflush.kept h

theorem Kept.readChunk {r : Reader} (h : r.Kept) (chunk : List UInt8 × Bool) : (r.readChunk chunk).Kept := by
  rw [Reader.readChunk]
  split
  next => exact h
  next =>
    apply Kept.flush
    obtain ⟨new, cont, fe, diag, synced, st, hbytes, hst, -⟩ := foldl_readByte_eq { r with warmup := false } chunk.1
    rw [hbytes]
    obtain ⟨hruns, hcut, hdecoded, hlost⟩ := Buffer.Kept.push h new
    exact ⟨hruns, hcut, hdecoded, hlost.trans hst.dropped.ge⟩

theorem kept_run {r : Reader} (h : r.Kept) (chunks : List (List UInt8 × Bool)) : (run readChunk r chunks).Kept :=
  List.foldlRecOn chunks readChunk h fun _ hr chunk _ => hr.readChunk chunk

/-- The bytes that come behind the warm-up. -/
def heard (warmup : Bool) (chunks : List (List UInt8 × Bool)) : List UInt8 :=
  (chunks.dropWhile fun chunk => warmup && !chunk.2).flatMap Prod.fst

theorem Like.flush {r : Reader} {p : WebSniffer.StreamProc} (h : r.Like p) (force : Bool) : (r.flush force).Like p := by
  obtain ⟨new, -, -, -, runbuf, taken, decoded, cal, bnd, synced, st, heq⟩ := r.flush_flushed force
  rw [heq]
  exact ⟨h.appended, h.cont, h.fe, h.diag⟩

theorem Like.foldl {r : Reader} {p : WebSniffer.StreamProc} (h : r.Like p) (bytes : List UInt8) :
    (bytes.foldl Reader.readByte r).Like (bytes.foldl WebSniffer.StreamProc.feedByte p) := by
  induction bytes generalizing r p with
  | nil => exact h
  | cons b bytes ih => exact ih (h.readByte b)

theorem flush_warmup (r : Reader) (force : Bool) : (r.flush force).warmup = r.warmup := by
  obtain ⟨new, -, -, -, runbuf, taken, decoded, cal, bnd, synced, st, heq⟩ := r.flush_flushed force
  rw [heq]

/-- Past the warm-up a chunk is read and flushed. -/
theorem readChunk_heard {r : Reader} {chunk : List UInt8 × Bool} (h : ¬ (r.warmup = true ∧ ¬ chunk.2 = true)) :
    r.readChunk chunk = (chunk.1.foldl readByte { r with warmup := false }).flush false ∧
      (r.readChunk chunk).warmup = false := by
  have hread : r.readChunk chunk = (chunk.1.foldl readByte { r with warmup := false }).flush false := if_neg h
  refine ⟨hread, ?_⟩
  obtain ⟨new, cont, fe, diag, synced, st, hbytes, -⟩ := foldl_readByte_eq { r with warmup := false } chunk.1
  rw [hread, flush_warmup, hbytes]

/-- The reader reads what the browser's processor does, once the warm-up is over. -/
theorem Like.run {r : Reader} {p : WebSniffer.StreamProc} (h : r.Like p) (hwarm : r.warmup = false)
    (chunks : List (List UInt8 × Bool)) :
    (run readChunk r chunks).Like (run WebSniffer.StreamProc.step p (chunks.map fun chunk => (chunk.1, 0))) := by
  induction chunks generalizing r p with
  | nil => exact h
  | cons chunk chunks ih =>
    obtain ⟨hread, hwarm'⟩ := @readChunk_heard r chunk (by simp [hwarm])
    have hstart : ({ r with warmup := false } : Reader).Like p := ⟨h.appended, h.cont, h.fe, h.diag⟩
    have hnext : (r.readChunk chunk).Like (p.feed chunk.1 0) := by
      obtain ⟨happ, hcont, hfe, hdiag⟩ := (hstart.foldl chunk.1).flush false
      rw [hread, WebSniffer.StreamProc.feed_frame]
      exact ⟨happ, hcont, hfe, hdiag⟩
    exact ih hnext hwarm'

/-- Chunks of the warm-up are not read at all. -/
theorem run_warmup (r : Reader) (chunks : List (List UInt8 × Bool)) :
    run readChunk r chunks = run readChunk r (chunks.dropWhile fun chunk => r.warmup && !chunk.2) := by
  induction chunks with
  | nil => rfl
  | cons chunk chunks ih =>
    rw [List.dropWhile_cons]
    split
    next hdrop =>
      have hskip : r.readChunk chunk = r := if_pos (by simpa using hdrop)
      rw [Lib.Lts.run_cons, hskip]
      exact ih
    next => rfl

/-- All that is heard is cut into runs as the offline parser does. -/
theorem run_appended (isatty : Bool) (chunks : List (List UInt8 × Bool)) :
    (run readChunk { warmup := isatty } chunks).appended = captureToRuns (heard isatty chunks) := by
  rw [run_warmup, heard]
  cases hheard : chunks.dropWhile fun chunk => isatty && !chunk.2 with
  | nil => simp [captureToRuns, segments, joined, reconstructContinuation]
  | cons chunk rest =>
    have hlate : ¬ (isatty && !chunk.2) = true := by
      have hhead := List.head?_dropWhile_not (fun chunk : List UInt8 × Bool => isatty && !chunk.2) chunks
      rw [hheard] at hhead
      simpa using hhead
    obtain ⟨hread, hwarm⟩ := @readChunk_heard { warmup := isatty } chunk (by simpa using hlate)
    obtain ⟨hread', -⟩ := @readChunk_heard { warmup := false } chunk (by simp)
    have hstart : ({ warmup := false } : Reader).Like ({} : WebSniffer.StreamProc) := ⟨rfl, rfl, rfl, rfl⟩
    have hrun := (Like.run hstart rfl (chunk :: rest)).appended
    rw [WebSniffer.StreamProc.appended_eq, Lib.Lts.run_cons, hread'] at hrun
    rw [Lib.Lts.run_cons, hread, hrun, List.flatMap_map]

/-- Of every capture, however it is chunked, the runs are those of the offline parser. Each is cut into
a piece, counted as shed, or one of seven at most that are left over, in order and once. What is decoded
are the frames among the pieces. -/
theorem live_frames (isatty : Bool) (chunks : List (List UInt8 × Bool)) :
    captureToRuns (heard isatty chunks) =
        (live isatty chunks).taken.flatMap Taken.runs ++ (live isatty chunks).runbuf ∧
      (∀ t ∈ (live isatty chunks).taken, t.WellCut) ∧
        (live isatty chunks).decoded = (live isatty chunks).taken.flatMap Taken.frames ∧
          ((live isatty chunks).taken.map Taken.lost).sum ≤ (live isatty chunks).st.dropped ∧
            (live isatty chunks).runbuf.length < 8 := by
  have hstart : Kept { warmup := isatty } := ⟨rfl, by simp [buffer], rfl, le_rfl⟩
  have hkept := (kept_run hstart chunks).flush true
  obtain ⟨new, -, hend, -, runbuf, taken, decoded, cal, bnd, synced, st, heq⟩ :=
    flush_flushed (run readChunk { warmup := isatty } chunks) true
  refine ⟨?_, hkept.cut, hkept.decoded, hkept.lost, hend rfl⟩
  calc captureToRuns (heard isatty chunks)
      = (run readChunk { warmup := isatty } chunks).appended := (run_appended isatty chunks).symm
    _ = (live isatty chunks).appended := by rw [live, heq]
    _ = (live isatty chunks).taken.flatMap Taken.runs ++ (live isatty chunks).runbuf := hkept.runs

end Reader

end Tapioca.Host.CanRle

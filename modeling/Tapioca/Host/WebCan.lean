-- SUMMARY: The browser's CAN stream processor: what its flushes take, and traffic read under a locked calibration.
import Mathlib.Tactic
import Tapioca.Host.CanLive
import Tapioca.Host.CanTraffic

/-!
# The browser's stream processor

`StreamProc` decodes in the page's only thread, so that a flush goes through 600 runs at
most. Its threshold is read anew at every run, and a fit moves it at once. When nothing
decodes any more it forgets the unit and starts over.
-/

namespace Tapioca.WebSniffer

open Host.CanRle
open Lib.Lts (run)

def MAX_WORK : Nat := 600
def MAX_BACKLOG : Nat := 8000
def SLOW_BUDGET : Nat := 8

/-- A call back into the page. -/
inductive Call where
  | frame (f : Parsed)
  | diag (text : List UInt8)
  | loss
  deriving DecidableEq

def Call.frame? : Call → Option Parsed
  | .frame f => some f
  | .diag _ => none
  | .loss => none

/-- `StreamProc` with its decoder; `shed` is the page's. `calls`, `taken` and `decoded` are history
variables: the calls in the order they are made, what the flushes take from the buffer, and the frames
handed to the decoder. -/
structure CanProc extends StreamProc where
  cal : Option Cal := none
  bound : ℤ := 0
  miss : Nat := 0
  shed : Nat := 0
  calls : List Call := []
  taken : List Taken := []
  decoded : List (List Nat) := []

namespace CanProc

/-! ## Decode tiers -/

/-- Tier 2: every candidate with and without the first run. -/
def narrowFit (cal : Cal) (runs : List ℚ) : Option (Frame × Cal) :=
  (List.range 11).findSome? fun j => (drops runs).findSome? fun drop =>
    (readUnder round (cal.narrow j) (runs.drop drop)).map (·, cal.narrow j)

/-- Tiers 1 and 2. -/
def cached (cal : Option Cal) (runs : List ℚ) : Option (Frame × Cal) :=
  cal.bind fun c => ((readCached round c runs).map (·, c)).or (narrowFit c runs)

def call (p : CanProc) (c : Call) : CanProc := { p with calls := p.calls ++ [c] }

/-- Tier 3. -/
def fitted (p : CanProc) (budget : Nat) (counts : List ℚ) : CanProc × Nat :=
  if budget = 0 then ({ p with shed := p.shed + 1 }, 0)
  else
    match decodeFrameRuns counts with
    | none => ({ p with miss := p.miss + 1 }, budget - 1)
    | some (f, _, drop) =>
      if f.crcOk then
        let c := fitBurstUI (counts.drop drop)
        ({ p with cal := some c, bound := boundFromUI c, miss := 0 }.call (.frame f), budget - 1)
      else ({ p with miss := p.miss + 1 }.call (.frame f), budget - 1)

def emit (s : CanProc × Nat) (runs : List Nat) : CanProc × Nat :=
  let counts := runs.map (Nat.cast : Nat → ℚ)
  let p := { s.1 with decoded := s.1.decoded ++ [runs] }
  match cached p.cal counts with
  | some (f, c) => ({ p with cal := some c, miss := 0 }.call (.frame (.standard f)), s.2)
  | none => p.fitted s.2 counts

/-! ## Flushes -/

/-- The lock has collapsed: the unit, the threshold and the page's gate start over. -/
def collapse (p : CanProc) : CanProc :=
  if p.miss > 64 then { p with cal := none, bound := 0, miss := 0 }.call .loss else p

def shedOldest (p : CanProc) : CanProc :=
  if p.runbuf.length > MAX_BACKLOG then
    let drop := p.runbuf.length - MAX_BACKLOG
    { p with
      runbuf := p.runbuf.drop drop
      shed := p.shed + drop
      taken := p.taken ++ [.shed (p.runbuf.take drop)] }
  else p

def setBound (p : CanProc) : CanProc :=
  if p.bound = 0 then
    { p with bound := match p.cal with
        | some c => boundFromUI c
        | none => frameBoundaryRuns (p.runbuf.take MAX_WORK) }
  else p

/-- The loop of `flush` over the first runs, and the buffer behind it. -/
def cutWork (p : CanProc) (force : Bool) : CanProc :=
  let work := p.runbuf.take MAX_WORK
  let c := cutLoop (fun s : CanProc × Nat => s.1.bound) emit 0 ⟨(p, SLOW_BUDGET), [], 0, []⟩ work
  let open? := force ∧ c.cur.length ≥ 8
  let s := if open? then emit c.state c.cur else c.state
  let last := if open? then work.length else c.last
  { s.1 with
    runbuf := p.runbuf.drop last
    taken := p.taken ++ c.pieces.map .piece ++ if open? then [.last c.state.1.bound c.cur] else [] }

def flush (p : CanProc) (force : Bool) : CanProc :=
  if p.runbuf = [] ∨ p.runbuf.length < FLUSH_AT ∧ ¬ force then p
  else p.collapse.shedOldest.setBound.cutWork force

/-! ## Bytes -/

/-- What a byte calls back, from what it adds to the losses and the blocks. -/
def byteCalls (p p' : StreamProc) : List Call :=
  (p'.diags.drop p.diags.length).map .diag ++ List.replicate (p'.losses - p.losses) .loss

def feedByte (p : CanProc) (b : UInt8) : CanProc :=
  let q := p.toStreamProc.feedByte b
  { p with toStreamProc := q, calls := p.calls ++ byteCalls p.toStreamProc q }

def feed (p : CanProc) (bytes : List UInt8) : CanProc :=
  let p := bytes.foldl feedByte p
  if p.runbuf.length ≥ FLUSH_AT then p.flush false else p

/-- `proc.reset()` in `resetCan`, which clears the page's `shed` too. The runs still in the buffer are gone and
counted nowhere; the history variables start anew, but for the calls that have been made. -/
def reset (p : CanProc) : CanProc := { calls := p.calls }

/-- What the page does with its processor. -/
inductive PortEvent where
  /-- A chunk off the serial port. -/
  | chunk (bytes : List UInt8)
  /-- The port is closed. -/
  | closed
  /-- A port is opened, the page is cleared, or the protocol or the demo is switched on. -/
  | reset

def step (p : CanProc) : PortEvent → CanProc
  | .chunk bytes => p.feed bytes
  | .closed => p.flush true
  | .reset => p.reset

/-- The bytes that have come since the last reset. -/
def sinceReset (bytes : List UInt8) : PortEvent → List UInt8
  | .chunk more => bytes ++ more
  | .closed => bytes
  | .reset => []

/-! ## What a step changes -/

/-- The decoder leaves the buffer and the parser alone. -/
theorem emit_eq (s : CanProc × Nat) (runs : List Nat) :
    ∃ cal bound miss shed calls, (emit s runs).1 =
        { s.1 with
          cal := cal, bound := bound, miss := miss, shed := shed, calls := calls, decoded := s.1.decoded ++ [runs] } ∧
      s.1.shed ≤ shed := by
  rw [emit]
  dsimp only
  split
  next f c _ => exact ⟨_, _, _, _, _, rfl, le_rfl⟩
  next =>
    rw [fitted]
    split
    next => exact ⟨s.1.cal, s.1.bound, s.1.miss, s.1.shed + 1, s.1.calls, rfl, Nat.le_succ _⟩
    next =>
      split
      next => exact ⟨s.1.cal, s.1.bound, s.1.miss + 1, s.1.shed, s.1.calls, rfl, le_rfl⟩
      next f _ drop _ =>
        split
        next => exact ⟨_, _, _, _, _, rfl, le_rfl⟩
        next => exact ⟨_, _, _, _, _, rfl, le_rfl⟩

theorem foldl_emit_eq (s : CanProc × Nat) (fs : List (List Nat)) :
    ∃ cal bound miss shed calls, (fs.foldl emit s).1 =
        { s.1 with
          cal := cal, bound := bound, miss := miss, shed := shed, calls := calls, decoded := s.1.decoded ++ fs } ∧
      s.1.shed ≤ shed := by
  induction fs generalizing s with
  | nil => exact ⟨s.1.cal, s.1.bound, s.1.miss, s.1.shed, s.1.calls, by rw [List.append_nil]; rfl, le_rfl⟩
  | cons f fs ih =>
    obtain ⟨cal, bound, miss, shed, calls, hemit, hshed⟩ := emit_eq s f
    obtain ⟨cal', bound', miss', shed', calls', hfold, hshed'⟩ := ih (emit s f)
    refine ⟨cal', bound', miss', shed', calls', ?_, ?_⟩
    · rw [List.foldl_cons, hfold, hemit, List.append_assoc, List.singleton_append]
    · rw [hemit] at hshed'
      exact hshed.trans hshed'

def buffer (p : CanProc) : Buffer := ⟨p.runbuf, p.taken, p.decoded, p.shed⟩

theorem collapse_eq (p : CanProc) :
    ∃ cal bound miss calls, p.collapse = { p with cal := cal, bound := bound, miss := miss, calls := calls } := by
  rw [collapse]
  split
  next => exact ⟨none, 0, 0, _, rfl⟩
  next => exact ⟨p.cal, p.bound, p.miss, p.calls, rfl⟩

theorem drop_flushed (p : CanProc) (n : Nat) :
    Flushed p.buffer
      ({ p with
        runbuf := p.runbuf.drop n
        shed := p.shed + n
        taken := p.taken ++ [Taken.shed (p.runbuf.take n)] } : CanProc).buffer
      [.shed (p.runbuf.take n)] :=
  Flushed.shed p.buffer n

theorem shedOldest_flushed (p : CanProc) :
    ∃ new, Flushed p.buffer p.shedOldest.buffer new ∧
      ∃ runbuf shed taken, p.shedOldest = { p with runbuf := runbuf, shed := shed, taken := taken } := by
  rw [shedOldest]
  split
  next => exact ⟨_, p.drop_flushed (p.runbuf.length - MAX_BACKLOG), _, _, _, rfl⟩
  next => exact ⟨[], .refl _, p.runbuf, p.shed, p.taken, rfl⟩

theorem setBound_eq (p : CanProc) : ∃ bound, p.setBound = { p with bound := bound } := by
  rw [setBound]
  split
  next => exact ⟨_, rfl⟩
  next => exact ⟨p.bound, rfl⟩

theorem cutWork_flushed (p : CanProc) (force : Bool) :
    ∃ new, Flushed p.buffer (p.cutWork force).buffer new ∧
      ∃ runbuf cal bound miss shed calls taken decoded, p.cutWork force =
        { p with
          runbuf := runbuf, cal := cal, bound := bound, miss := miss, shed := shed, calls := calls, taken := taken,
          decoded := decoded } := by
  have hat := @cutLoop_at _ _ emit _ _
    (Cutting.At.start (fun s : CanProc × Nat => s.1.bound) (p, SLOW_BUDGET)) (p.runbuf.take MAX_WORK)
  have hstate := cutLoop_state (fun s : CanProc × Nat => s.1.bound) emit 0 ⟨(p, SLOW_BUDGET), [], 0, []⟩
    (p.runbuf.take MAX_WORK)
  have hwork : p.buffer.runbuf = p.runbuf.take MAX_WORK ++ p.runbuf.drop MAX_WORK :=
    (List.take_append_drop _ _).symm
  rw [cutWork]
  rw [List.length_nil, List.nil_append] at hat
  generalize p.runbuf.take MAX_WORK = work at hat hstate hwork
  generalize cutLoop (fun s : CanProc × Nat => s.1.bound) emit 0 ⟨(p, SLOW_BUDGET), [], 0, []⟩ work = c at hat hstate
  obtain ⟨pieces, hpieces, hstate⟩ := hstate
  obtain rfl : c.pieces = pieces := hpieces
  obtain ⟨cal, bound, miss, shed, calls, hfold, hshed⟩ := foldl_emit_eq (p, SLOW_BUDGET) (frames (c.pieces.map Piece.runs))
  rw [← hstate] at hfold
  by_cases hopen : force = true ∧ c.cur.length ≥ 8
  · obtain ⟨cal', bound', miss', shed', calls', hemit, hshed'⟩ := emit_eq c.state c.cur
    rw [hfold] at hshed' hemit
    have hlast := hat.flushed_last hwork hopen.2 (hshed.trans hshed')
    rw [hfold] at hlast
    simp only [if_pos hopen, hemit, hfold]
    exact ⟨_, hlast, _, _, _, _, _, _, _, _, rfl⟩
  · simp only [if_neg hopen, hfold, List.append_nil]
    exact ⟨_, hat.flushed hwork hshed, _, _, _, _, _, _, _, _, rfl⟩

theorem flush_flushed (p : CanProc) (force : Bool) :
    ∃ new, Flushed p.buffer (p.flush force).buffer new ∧
      ∃ runbuf cal bound miss shed calls taken decoded, p.flush force =
        { p with
          runbuf := runbuf, cal := cal, bound := bound, miss := miss, shed := shed, calls := calls, taken := taken,
          decoded := decoded } := by
  rw [flush]
  split
  next =>
    exact ⟨[], .refl _, p.runbuf, p.cal, p.bound, p.miss, p.shed, p.calls, p.taken, p.decoded, rfl⟩
  next =>
    obtain ⟨cal, bound, miss, calls, hcollapse⟩ := p.collapse_eq
    obtain ⟨lost, hshed, runbuf, shed, taken, hshedEq⟩ := p.collapse.shedOldest_flushed
    obtain ⟨bound', hbound⟩ := p.collapse.shedOldest.setBound_eq
    obtain ⟨new, hcut, runbuf', cal', bound'', miss', shed', calls', taken', decoded', heq⟩ :=
      p.collapse.shedOldest.setBound.cutWork_flushed force
    have hstart : p.collapse.buffer = p.buffer := by rw [hcollapse]; rfl
    have hbuffer : p.collapse.shedOldest.setBound.buffer = p.collapse.shedOldest.buffer := by rw [hbound]; rfl
    rw [hbuffer] at hcut
    rw [hstart] at hshed
    refine ⟨lost ++ new, hshed.trans hcut, runbuf', cal', bound'', miss', shed', calls', taken', decoded', ?_⟩
    rw [heq, hbound, hshedEq, hcollapse]

/-! ## The parser of the chunks -/

/-- A byte pushes the runs it closes: one, or one more where a cut ends a continuation. -/
theorem streamProc_feedByte_push (p : StreamProc) (b : UInt8) :
    ∃ new, (p.feedByte b).runbuf = p.runbuf ++ new ∧ (p.feedByte b).appended = p.appended ++ new ∧
      new.length + min (p.feedByte b).cont 1 ≤ min p.cont 1 + 1 := by
  have hrun : ∀ p : StreamProc, ∃ new, (p.runByte b).runbuf = p.runbuf ++ new ∧
      (p.runByte b).appended = p.appended ++ new ∧ new.length + min (p.runByte b).cont 1 ≤ min p.cont 1 + 1 := by
    intro p
    rw [StreamProc.runByte]
    split_ifs with hopen hcut hloss hcont hlt
    · exact ⟨[], by simp⟩
    · by_cases hheld : p.cont = 0
      · exact ⟨[BOUNDARY_RUN], by simp [StreamProc.push, hheld]⟩
      · exact ⟨[p.cont, BOUNDARY_RUN], by simp [StreamProc.push, hheld]; omega⟩
    · by_cases hheld : p.cont = 0
      · exact ⟨[BOUNDARY_RUN], by simp [StreamProc.push, hheld]⟩
      · exact ⟨[p.cont, BOUNDARY_RUN], by simp [StreamProc.push, hheld]; omega⟩
    · exact ⟨[], by simp⟩
    · exact ⟨[p.cont + b.toNat], by simp [StreamProc.push]⟩
    · exact ⟨[], by simp⟩
  rw [StreamProc.feedByte]
  split
  next text _ =>
    split
    next => exact ⟨[], by simp⟩
    next => exact ⟨[], by simp⟩
  next =>
    split
    next =>
      split
      next => exact ⟨[], by simp⟩
      next => exact hrun { p with fe := false }
    next => exact hrun p

theorem streamProc_foldl_push (p : StreamProc) (bytes : List UInt8) :
    ∃ new, (bytes.foldl StreamProc.feedByte p).runbuf = p.runbuf ++ new ∧
      (bytes.foldl StreamProc.feedByte p).appended = p.appended ++ new ∧ new.length ≤ bytes.length + 1 := by
  have hpush : ∀ p : StreamProc, ∃ new, (bytes.foldl StreamProc.feedByte p).runbuf = p.runbuf ++ new ∧
      (bytes.foldl StreamProc.feedByte p).appended = p.appended ++ new ∧
        new.length + min (bytes.foldl StreamProc.feedByte p).cont 1 ≤ min p.cont 1 + bytes.length := by
    induction bytes with
    | nil => exact fun p => ⟨[], by simp⟩
    | cons b bytes ih =>
      intro p
      obtain ⟨new, hbuf, happ, hlen⟩ := streamProc_feedByte_push p b
      obtain ⟨new', hbuf', happ', hlen'⟩ := ih (p.feedByte b)
      refine ⟨new ++ new', ?_, ?_, ?_⟩
      · rw [List.foldl_cons, hbuf', hbuf, List.append_assoc]
      · rw [List.foldl_cons, happ', happ, List.append_assoc]
      · rw [List.foldl_cons, List.length_append, List.length_cons]
        omega
  obtain ⟨new, hbuf, happ, hlen⟩ := hpush p
  exact ⟨new, hbuf, happ, by omega⟩

theorem foldl_feedByte_toStreamProc (p : CanProc) (bytes : List UInt8) :
    (bytes.foldl feedByte p).toStreamProc = bytes.foldl StreamProc.feedByte p.toStreamProc := by
  induction bytes generalizing p with
  | nil => rfl
  | cons b bytes ih => rw [List.foldl_cons, List.foldl_cons, ih]; rfl

/-- The parser under the decoder is the one of `StreamProc`, with what its flushes take worked out. -/
theorem feed_toStreamProc (p : CanProc) (bytes : List UInt8) :
    ∃ taken, (p.feed bytes).toStreamProc = p.toStreamProc.feed bytes taken := by
  have hbytes := p.foldl_feedByte_toStreamProc bytes
  rw [feed]
  generalize bytes.foldl feedByte p = q at hbytes
  split
  next hfull =>
    obtain ⟨new, hflush, runbuf, cal, bound, miss, shed, calls, taken, decoded, heq⟩ := q.flush_flushed false
    have hruns : q.runbuf = new.flatMap Taken.runs ++ (q.flush false).runbuf := hflush.runs
    have hdrop : (q.flush false).runbuf = q.runbuf.drop (new.flatMap Taken.runs).length := by
      conv => rhs; rw [hruns]
      rw [List.drop_left]
    rw [heq] at hdrop
    refine ⟨(new.flatMap Taken.runs).length, ?_⟩
    rw [StreamProc.feed, ← hbytes, if_pos hfull, ← hdrop, heq]
  next hwait =>
    refine ⟨0, ?_⟩
    rw [StreamProc.feed, ← hbytes, if_neg hwait]

abbrev Kept (p : CanProc) : Prop := p.buffer.Kept p.appended

theorem Kept.flush {p : CanProc} (h : p.Kept) (force : Bool) : (p.flush force).Kept := by
  obtain ⟨new, hflush, runbuf, cal, bound, miss, shed, calls, taken, decoded, heq⟩ := p.flush_flushed force
  have happ : (p.flush force).appended = p.appended := by rw [heq]
  rw [Kept, happ]
  exact hflush.kept h

theorem Kept.feedByte {p : CanProc} (h : p.Kept) (b : UInt8) : (p.feedByte b).Kept := by
  obtain ⟨new, hbuf, happ, -⟩ := streamProc_feedByte_push p.toStreamProc b
  obtain ⟨hruns, hcut, hdecoded, hlost⟩ := Buffer.Kept.push h new
  rw [← happ] at hruns
  exact ⟨by rw [CanProc.feedByte, buffer]; dsimp only; rw [hbuf]; exact hruns, hcut, hdecoded, hlost⟩

theorem kept_reset (p : CanProc) : p.reset.Kept := ⟨rfl, by simp [reset, buffer], rfl, le_rfl⟩

theorem Kept.step {p : CanProc} (h : p.Kept) (ev : PortEvent) : (p.step ev).Kept := by
  cases ev with
  | closed => exact h.flush true
  | reset => exact p.kept_reset
  | chunk bytes =>
    have hbytes : (bytes.foldl CanProc.feedByte p).Kept :=
      List.foldlRecOn bytes CanProc.feedByte h fun _ hp b _ => hp.feedByte b
    rw [CanProc.step, feed]
    split
    next => exact hbytes.flush false
    next => exact hbytes

/-! ## Every run of the page -/

/-- The processor has been fed these bytes since its last reset. -/
structure Fed (p : CanProc) (bytes : List UInt8) : Prop where
  kept : p.Kept
  settled : p.Settled
  runs : ∀ rest, p.appended ++ p.future rest = captureToRuns (bytes ++ rest)

theorem fed_reset (p : CanProc) : Fed p.reset [] :=
  ⟨p.kept_reset, fun hsome => absurd rfl hsome, fun _ => rfl⟩

theorem Fed.step {p : CanProc} {bytes : List UInt8} (h : Fed p bytes) (ev : PortEvent) :
    Fed (p.step ev) (sinceReset bytes ev) := by
  have hkept := h.kept.step ev
  obtain ⟨-, hsettled, hruns⟩ := h
  cases ev with
  | closed =>
    obtain ⟨new, -, runbuf, cal, bound, miss, shed, calls, taken, decoded, heq⟩ := p.flush_flushed true
    refine ⟨hkept, ?_, fun rest => ?_⟩
    · rw [CanProc.step, heq]
      exact hsettled
    · rw [CanProc.step, heq]
      exact hruns rest
  | reset => exact p.fed_reset
  | chunk more =>
    obtain ⟨taken, hfeed⟩ := p.feed_toStreamProc more
    rw [CanProc.step] at hkept ⊢
    refine ⟨hkept, ?_, fun rest => ?_⟩
    · rw [hfeed, StreamProc.feed_frame]
      exact (StreamProc.foldl_feedByte_ahead hsettled more []).1
    · rw [sinceReset, List.append_assoc, ← hruns (more ++ rest), hfeed, StreamProc.feed_frame]
      exact StreamProc.foldl_feedByte_future hsettled more rest

theorem Fed.run {p : CanProc} {bytes : List UInt8} (h : Fed p bytes) (events : List PortEvent) :
    Fed (run CanProc.step p events) (events.foldl sinceReset bytes) := by
  induction events generalizing p bytes with
  | nil => exact h
  | cons ev events ih => exact ih (h.step ev)

/-- Whatever the chunks and whenever the port is closed or the page reset, the runs that have come since the last
reset are cut apart in order, none twice: shed and counted, part of a piece that ends at the first gap, or still in
the buffer. What has been handed to the decoder are the pieces that can be frames. -/
theorem page_frames (events : List PortEvent) :
    let p := run step {} events
    captureToRuns (events.foldl sinceReset []) = p.taken.flatMap Taken.runs ++ p.runbuf ∧
      (∀ t ∈ p.taken, t.WellCut) ∧ p.decoded = p.taken.flatMap Taken.frames ∧
        (p.taken.map Taken.lost).sum ≤ p.shed := by
  have hfed := (fed_reset {}).run events
  obtain ⟨hruns, hcut, hdecoded, hlost⟩ := hfed.kept
  have happ := hfed.runs []
  rw [StreamProc.future_nil, List.append_nil, List.append_nil] at happ
  exact ⟨happ.symm.trans hruns, hcut, hdecoded, hlost⟩

end CanProc

end Tapioca.WebSniffer

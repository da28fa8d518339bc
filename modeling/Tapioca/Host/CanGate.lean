-- SUMMARY: What the live CAN reader shows: bad frames only behind a good one since the last loss, and the counts.
import Mathlib.Tactic
import Tapioca.Host.CanLive

/-!
# The display gate

A capture that starts or goes on in the middle of a frame gives frames with a bad CRC
that were never sent. The reader shows none until a frame is right, and shuts the gate
again at a loss marker, in the order in which it comes upon the two.
-/

namespace Tapioca.Host.CanRle

open Lib.Lts (run)

/-- A good frame has come, and no loss since. -/
def Synced (calls : List (Option Parsed)) : Prop :=
  ∃ before f since, calls = before ++ some f :: since ∧ f.crcOk = true ∧ none ∉ since

/-- Every bad frame comes while the gate is open. -/
def Gated (calls : List (Option Parsed)) : Prop :=
  ∀ before f since, calls = before ++ some f :: since → f.crcOk = false → Synced before

theorem Synced.concat {calls : List (Option Parsed)} (h : Synced calls) (f : Parsed) : Synced (calls ++ [some f]) := by
  obtain ⟨before, g, since, rfl, hg, hsince⟩ := h
  refine ⟨before, g, since ++ [some f], by simp, hg, ?_⟩
  simpa using hsince

theorem synced_concat {f : Parsed} (hf : f.crcOk = true) (calls : List (Option Parsed)) : Synced (calls ++ [some f]) :=
  ⟨calls, f, [], rfl, hf, by simp⟩

/-- The last call of a list, or one before it. -/
theorem Gated.concat {calls : List (Option Parsed)} (h : Gated calls) {c : Option Parsed}
    (hc : ∀ f ∈ c, f.crcOk = false → Synced calls) : Gated (calls ++ [c]) := by
  intro before f since hcalls hbad
  rcases List.eq_nil_or_concat since with rfl | ⟨since, d, rfl⟩
  · obtain ⟨rfl, hlast⟩ := List.append_inj' hcalls rfl
    exact hc f (List.cons.inj hlast).1 hbad
  · have hfront : calls = before ++ some f :: since := by
      have hassoc : before ++ some f :: (since ++ [d]) = before ++ some f :: since ++ [d] := by simp
      rw [List.concat_eq_append, hassoc] at hcalls
      exact (List.append_inj' hcalls rfl).1
    exact h before f since hfront hbad

/-! ## The counts -/

/-- A frame that counts as bad. -/
def isBad (c : Option Parsed) : Bool := c.any fun f => !f.crcOk

theorem ok?_of_crcOk {f : Parsed} (h : f.crcOk = true) : ∃ g, f = .standard g ∧ f.ok? = some g := by
  cases f with
  | extended id => cases h
  | standard g => exact ⟨g, rfl, if_pos h⟩

theorem ok?_of_bad {f : Parsed} (h : f.crcOk = false) : f.ok? = none := by
  cases f with
  | extended id => rfl
  | standard g => exact if_neg (ne_of_eq_of_ne h Bool.false_ne_true)

/-- The sink's counts and its lines, from the calls. -/
structure Sink.Tallied (st : Sink) : Prop where
  stdout : st.stdout = (st.calls.filterMap fun c => c.bind Parsed.ok?).map frameLine
  ok : st.ok = st.stdout.length
  bad : st.bad = st.calls.countP isBad
  loss : st.loss = st.calls.count none

theorem Sink.Tallied.addFrame {st : Sink} (h : st.Tallied) (f : Parsed) : (st.addFrame f).Tallied := by
  obtain ⟨hstdout, hok, hbad, hloss⟩ := h
  rw [Sink.addFrame]
  cases hf : f.crcOk with
  | true =>
    obtain ⟨g, rfl, hg⟩ := ok?_of_crcOk hf
    rw [hg]
    refine ⟨?_, ?_, ?_, ?_⟩
    · simp [hstdout, hg]
    · simp [hok]
    · simp [hbad, isBad, hf]
    · simp [hloss]
  | false =>
    rw [ok?_of_bad hf]
    refine ⟨?_, hok, ?_, ?_⟩
    · simp [hstdout, ok?_of_bad hf]
    · simp [hbad, isBad, hf]
    · simp [hloss]

theorem Sink.Tallied.addLoss {st : Sink} (h : st.Tallied) : (st.addLoss 1).Tallied := by
  obtain ⟨hstdout, hok, hbad, hloss⟩ := h
  refine ⟨?_, hok, ?_, ?_⟩
  · simp [Sink.addLoss, hstdout]
  · simp [Sink.addLoss, hbad, isBad]
  · simp [Sink.addLoss, hloss]

namespace Reader

/-- What the gate and the sink keep. -/
structure Guarded (r : Reader) : Prop where
  tallied : r.st.Tallied
  gated : Gated r.st.calls
  synced : r.synced = true → Synced r.st.calls

/-- Only the gate and the sink matter. -/
theorem Guarded.of_eq {r r' : Reader} (h : r.Guarded) (hsynced : r'.synced = r.synced) (hst : r'.st = r.st) :
    r'.Guarded := by
  obtain ⟨htallied, hgated, hopen⟩ := h
  rw [← hst] at htallied hgated hopen
  exact ⟨htallied, hgated, fun h => hopen (hsynced.symm.trans h)⟩

theorem calls_addFrame (st : Sink) (f : Parsed) : (st.addFrame f).calls = st.calls ++ [some f] := by
  rw [Sink.addFrame]
  split <;> rfl

theorem Guarded.add {r : Reader} (h : r.Guarded) (f : Parsed) : (r.add f).Guarded := by
  obtain ⟨htallied, hgated, hopen⟩ := h
  rw [Reader.add]
  split_ifs with hok hsynced
  · refine ⟨htallied.addFrame f, ?_, fun _ => ?_⟩
    · rw [calls_addFrame]
      apply hgated.concat
      rintro _ ⟨⟩ hbad
      exact absurd (hok.symm.trans hbad) (by decide)
    · rw [calls_addFrame]
      exact synced_concat hok _
  · refine ⟨htallied.addFrame f, ?_, fun _ => ?_⟩
    · rw [calls_addFrame]
      exact hgated.concat fun _ _ _ => hopen hsynced
    · rw [calls_addFrame]
      exact (hopen hsynced).concat f
  · exact ⟨htallied, hgated, hopen⟩

theorem Guarded.addDropped {r : Reader} (h : r.Guarded) (n : Nat) : ({ r with st := r.st.addDropped n }).Guarded :=
  ⟨⟨h.tallied.stdout, h.tallied.ok, h.tallied.bad, h.tallied.loss⟩, h.gated, h.synced⟩

theorem Guarded.emit {s : Reader × Nat} (h : s.1.Guarded) (runs : List Nat) : (Reader.emit s runs).1.Guarded := by
  rw [Reader.emit]
  split
  next => exact h
  next =>
    dsimp only
    split
    next f c _ =>
      have hcal : ({ s.1 with decoded := s.1.decoded ++ [runs], cal := some c }).Guarded := h.of_eq rfl rfl
      exact hcal.add _
    next =>
      rw [fitted]
      split
      next =>
        have hlog : ({ s.1 with decoded := s.1.decoded ++ [runs] }).Guarded := h.of_eq rfl rfl
        exact hlog.addDropped 1
      next =>
        split
        next => exact h.of_eq rfl rfl
        next f _ drop _ =>
          split
          next =>
            have hcal : ({ s.1 with
                decoded := s.1.decoded ++ [runs]
                cal := some (fitBurstUi ((runs.map Nat.cast).drop drop))
                bnd := boundFromUi (fitBurstUi ((runs.map Nat.cast).drop drop)) }).Guarded := h.of_eq rfl rfl
            exact hcal.add f
          next =>
            have hlog : ({ s.1 with decoded := s.1.decoded ++ [runs] }).Guarded := h.of_eq rfl rfl
            exact hlog.add f

theorem Guarded.foldl_emit {s : Reader × Nat} (h : s.1.Guarded) (fs : List (List Nat)) :
    (fs.foldl Reader.emit s).1.Guarded :=
  List.foldlRecOn (motive := fun s => s.1.Guarded) fs Reader.emit h fun _ hs f _ => hs.emit f

theorem Guarded.flush {r : Reader} (h : r.Guarded) (force : Bool) : (r.flush force).Guarded := by
  have hshed : r.shed.Guarded := by
    rw [shed]
    split
    next => exact (h.addDropped (r.runbuf.length - MAX_BACKLOG)).of_eq rfl rfl
    next => exact h
  have hbound : r.shed.setBound.Guarded := by
    rw [setBound]
    split
    next => exact hshed.of_eq rfl rfl
    next => exact hshed
  rw [Reader.flush]
  split
  next => exact h
  next =>
    generalize r.shed.setBound = r1 at hbound
    obtain ⟨pieces, -, hstate⟩ :=
      cutLoop_state (fun _ => r1.bnd) Reader.emit 0 ⟨(r1, SLOW_BUDGET), [], 0, []⟩ r1.runbuf
    have hloop := Guarded.foldl_emit (s := (r1, SLOW_BUDGET)) hbound (frames (pieces.map Piece.runs))
    rw [← hstate] at hloop
    rw [cutAll]
    generalize cutLoop (fun _ => r1.bnd) Reader.emit 0 ⟨(r1, SLOW_BUDGET), [], 0, []⟩ r1.runbuf = c at hloop
    have hlast : (flushLast force c r1.runbuf.length).1.1.Guarded := by
      rw [flushLast]
      split
      next => exact hloop.emit c.cur
      next => exact hloop
    exact hlast.of_eq rfl rfl

theorem Guarded.runByte {r : Reader} (h : r.Guarded) (b : UInt8) : (r.runByte b).Guarded := by
  have hcut : ∀ r : Reader, r.Guarded → r.pushCut.Guarded := by
    intro r h
    rw [pushCut]
    split
    next => exact h.of_eq rfl rfl
    next => exact h.of_eq rfl rfl
  rw [Reader.runByte]
  split_ifs
  · exact h.of_eq rfl rfl
  · apply hcut
    refine ⟨h.tallied.addLoss, h.gated.concat ?_, fun hopen => absurd hopen Bool.false_ne_true⟩
    simp
  · exact hcut r h
  · exact h.of_eq rfl rfl
  · exact h.of_eq rfl rfl
  · exact h

theorem Guarded.readByte {r : Reader} (h : r.Guarded) (b : UInt8) : (r.readByte b).Guarded := by
  rw [Reader.readByte]
  split
  next text _ =>
    split
    next =>
      have hovf : (r.setOvf text).Guarded := by
        rw [setOvf]
        split
        next => exact ⟨⟨h.tallied.stdout, h.tallied.ok, h.tallied.bad, h.tallied.loss⟩, h.gated, h.synced⟩
        next => exact h
      exact hovf.of_eq rfl rfl
    next => exact h.of_eq rfl rfl
  next =>
    have hlow : ({ r with fe := false }).Guarded := h.of_eq rfl rfl
    split
    next =>
      split
      next => exact h.of_eq rfl rfl
      next => exact hlow.runByte b
    next => exact h.runByte b

theorem Guarded.readChunk {r : Reader} (h : r.Guarded) (chunk : List UInt8 × Bool) : (r.readChunk chunk).Guarded := by
  have hwarm : ({ r with warmup := false }).Guarded := h.of_eq rfl rfl
  rw [Reader.readChunk]
  split
  next => exact h
  next =>
    apply Guarded.flush
    exact List.foldlRecOn chunk.1 Reader.readByte hwarm fun _ hr b _ => hr.readByte b

/-- Of every capture, a bad frame is shown only behind a good one with no loss since; the lines printed
are those of the good frames, in order, and the counts are the calls'. -/
theorem live_gated (isatty : Bool) (chunks : List (List UInt8 × Bool)) :
    Gated (live isatty chunks).st.calls ∧ (live isatty chunks).st.Tallied := by
  have hstart : Guarded { warmup := isatty } := by
    refine ⟨⟨rfl, rfl, rfl, rfl⟩, ?_, fun hopen => absurd hopen Bool.false_ne_true⟩
    intro before f since hnil
    simp at hnil
  have hrun : (run readChunk { warmup := isatty } chunks).Guarded :=
    List.foldlRecOn chunks Reader.readChunk hstart fun _ hr chunk _ => hr.readChunk chunk
  obtain ⟨htallied, hgated, -⟩ := hrun.flush true
  exact ⟨hgated, htallied⟩

end Reader

end Tapioca.Host.CanRle

-- SUMMARY: A live reader with a locked calibration prints the traffic of the bus, however it is chunked.
import Mathlib.Tactic
import Tapioca.Host.CanLive
import Tapioca.Host.CanTraffic

/-!
# Traffic read live

Under a locked calibration every frame is read in tier 1, so that the calibration and
the threshold stay as they are, and a flush takes whole frames. What is left over is the
front of the next frame, and the backlog never reaches its ceiling.
-/

namespace Tapioca.Host.CanRle

open Lib.Rounding (roundEven)
open Lib.Lts (run)
open Lib.Splitter (closed opened)

variable {cal : Cal}

/-- Frames that a sink has got, all of them good. -/
structure Shown (st st' : Sink) (sent : List (Sent cal)) : Prop where
  stdout : st'.stdout = st.stdout ++ sent.map fun s => frameLine s.frame
  ok : st'.ok = st.ok + sent.length
  bad : st'.bad = st.bad
  dropped : st'.dropped = st.dropped

theorem Shown.refl (st : Sink) : Shown st st ([] : List (Sent cal)) := ⟨by simp, rfl, rfl, rfl⟩

theorem Shown.trans {st st' st'' : Sink} {xs ys : List (Sent cal)} (h : Shown st st' xs) (h' : Shown st' st'' ys) :
    Shown st st'' (xs ++ ys) := by
  refine ⟨?_, ?_, h'.bad.trans h.bad, h'.dropped.trans h.dropped⟩
  · rw [h'.stdout, h.stdout, List.map_append, List.append_assoc]
  · rw [h'.ok, h.ok, List.length_append, Nat.add_assoc]

namespace Reader

/-- The calibration is known, and the threshold that goes with it in force. -/
structure LockedTo (r : Reader) (cal : Cal) : Prop where
  known : r.cal = some cal
  bound : r.bnd = boundFromUi cal

theorem emit_sent {s : Reader × Nat} (h : s.1.LockedTo cal) (sent : Sent cal) :
    (emit s sent.runs).1.LockedTo cal ∧ Shown s.1.st (emit s sent.runs).1.st [sent] := by
  have hcached : cached s.1.cal (sent.runs.map Nat.cast) = some (sent.frame, cal) := by
    rw [cached, h.known, Option.bind_some, sent.readCached sent.expand]
    rfl
  have hcrc : (Parsed.standard sent.frame).crcOk = true := rfl
  have hf : (Parsed.standard sent.frame).ok? = some sent.frame := rfl
  rw [emit, if_neg (not_lt.mpr sent.runs_ge)]
  dsimp only
  rw [hcached]
  dsimp only
  rw [add, if_pos hcrc, Sink.addFrame, hf]
  exact ⟨⟨rfl, h.bound⟩, ⟨by simp, rfl, rfl, rfl⟩⟩

theorem foldl_emit_sent {s : Reader × Nat} (h : s.1.LockedTo cal) (sent : List (Sent cal)) :
    ((sent.map Sent.runs).foldl emit s).1.LockedTo cal ∧ Shown s.1.st ((sent.map Sent.runs).foldl emit s).1.st sent := by
  induction sent generalizing s with
  | nil => exact ⟨h, .refl _⟩
  | cons f sent ih =>
    obtain ⟨hlocked, hshown⟩ := emit_sent h f
    obtain ⟨hlocked', hshown'⟩ := ih hlocked
    exact ⟨hlocked', hshown.trans hshown'⟩

/-! ## A flush -/

/-- What the reader still has to print: the front of it is in the buffer, `ahead` is to come. -/
structure Holds (r : Reader) (ahead : List Nat) (sent : List (Sent cal)) : Prop where
  traffic : Traffic (boundFromUi cal) (r.runbuf ++ ahead) sent
  locked : r.LockedTo cal

/-- A flush prints the frames that are whole. -/
theorem flush_sent {r : Reader} {ahead : List Nat} {sent : List (Sent cal)}
    (h : r.Holds ahead sent) (hroom : r.runbuf.length ≤ MAX_BACKLOG) (force : Bool) (hforce : force = true → ahead = []) :
    ∃ m, (r.flush force).Holds ahead (sent.drop m) ∧ Shown r.st (r.flush force).st (sent.take m) ∧
      (r.flush force).runbuf.length ≤ 196 ∧ (force = true → (r.flush force).runbuf = []) := by
  obtain ⟨htraffic, hlocked⟩ := h
  rw [flush]
  split
  next hwait =>
    refine ⟨0, ⟨htraffic, hlocked⟩, .refl _, ?_, ?_⟩
    · rcases hwait with hnil | ⟨hshort, -⟩
      · simp [hnil]
      · exact hshort.le.trans (by decide)
    · intro hyes
      rcases hwait with hnil | ⟨-, hno⟩
      · exact hnil
      · exact absurd hyes hno
  next =>
    have hshed : r.shed = r := if_neg (not_lt.mpr hroom)
    have hset : r.setBound = r := by
      have hne : r.bnd ≠ 0 := by
        have hfloor : (56 : ℤ) ≤ boundFromUi cal := le_max_left _ _
        rw [hlocked.bound]
        omega
      exact if_neg hne
    have hat := @cutLoop_at _ _ emit _ _ (Cutting.At.start (fun _ => r.bnd) (r, SLOW_BUDGET)) r.runbuf
    rw [hshed, hset, cutAll]
    rw [List.length_nil, List.nil_append] at hat
    generalize hc : cutLoop (fun _ => r.bnd) emit 0 ⟨(r, SLOW_BUDGET), [], 0, []⟩ r.runbuf = c at *
    obtain ⟨m, hlocked', hstate, hrest, hlen, hend⟩ := htraffic.cutLoop_front hc (fun s => s.1.LockedTo cal)
      (fun _ _ => hlocked.bound) (fun _ hs f => (emit_sent hs f).1) hlocked
    obtain ⟨-, hshown⟩ := foldl_emit_sent (s := (r, SLOW_BUDGET)) hlocked (sent.take m)
    rw [← hstate] at hshown
    have hnone : ¬ (force = true ∧ c.cur.length ≥ 8) := by
      rintro ⟨hyes, hlong⟩
      rw [hend (hforce hyes)] at hlong
      exact absurd hlong (by simp)
    have hbacklog : ¬ (c.last = 0 ∧ r.runbuf.length > MAX_BACKLOG) := fun hfull => not_lt.mpr hroom hfull.2
    simp only [flushLast, if_neg hnone, if_neg hbacklog, hat.drop_last]
    exact ⟨m, ⟨hrest, hlocked'.known, hlocked'.bound⟩, hshown, hlen, fun hyes => hend (hforce hyes)⟩

/-! ## A capture -/

/-- Bytes read move from what is to come into the buffer. -/
theorem foldl_readByte_future {r : Reader} {p : WebSniffer.StreamProc} (hlike : r.Like p) (hp : p.Settled)
    (bytes rest : List UInt8) :
    (bytes.foldl readByte r).runbuf ++ (bytes.foldl WebSniffer.StreamProc.feedByte p).future rest =
      r.runbuf ++ p.future (bytes ++ rest) := by
  obtain ⟨new, cont, fe, diag, synced, st, hbytes, -⟩ := r.foldl_readByte_eq bytes
  have happ := (hlike.foldl bytes).appended
  have hahead := WebSniffer.StreamProc.foldl_feedByte_future hp bytes rest
  rw [← happ, ← hlike.appended, hbytes, List.append_assoc] at hahead
  rw [hbytes, List.append_assoc, List.append_cancel_left hahead]

/-- In the middle of a capture of frames. -/
structure Reading (r : Reader) (p : WebSniffer.StreamProc) (rest : List UInt8) (sent : List (Sent cal)) : Prop where
  like : r.Like p
  settled : p.Settled
  warm : r.warmup = false
  short : r.runbuf.length ≤ 196
  holds : r.Holds (p.future rest) sent

theorem Reading.chunk {r : Reader} {p : WebSniffer.StreamProc} {chunk : List UInt8 × Bool}
    {rest : List UInt8} {sent : List (Sent cal)} (h : Reading r p (chunk.1 ++ rest) sent) (hlen : chunk.1.length ≤ 4096) :
    ∃ m p', Reading (r.readChunk chunk) p' rest (sent.drop m) ∧ Shown r.st (r.readChunk chunk).st (sent.take m) := by
  obtain ⟨hlike, hp, hwarm, hshort, htraffic, hlocked⟩ := h
  obtain ⟨hread, hwarm'⟩ := @readChunk_heard r chunk (by simp [hwarm])
  have hself : { r with warmup := false } = r := by rw [← hwarm]
  rw [hself] at hread
  obtain ⟨new, cont, fe, diag, synced, st, hbytes, hstill, hpushed⟩ := r.foldl_readByte_eq chunk.1
  have hlike' := hlike.foldl chunk.1
  have hp' := (WebSniffer.StreamProc.foldl_feedByte_ahead hp chunk.1 rest).1
  have hholds : Holds (chunk.1.foldl readByte r) ((chunk.1.foldl WebSniffer.StreamProc.feedByte p).future rest) sent := by
    refine ⟨?_, ?_⟩
    · rw [foldl_readByte_future hlike hp chunk.1 rest]
      exact htraffic
    rw [hbytes]
    exact ⟨hlocked.known, hlocked.bound⟩
  have hroom : (chunk.1.foldl readByte r).runbuf.length ≤ MAX_BACKLOG := by
    rw [hbytes, MAX_BACKLOG, List.length_append]
    omega
  obtain ⟨m, hnext, hshown, hshort', -⟩ := flush_sent hholds hroom false (by simp)
  have hst : Shown r.st (chunk.1.foldl readByte r).st ([] : List (Sent cal)) := by
    rw [hbytes]
    exact ⟨by simp [hstill.stdout], hstill.ok, hstill.bad, hstill.dropped⟩
  refine ⟨m, _, ⟨?_, hp', hwarm', ?_, ?_⟩, ?_⟩
  · rw [hread]
    exact hlike'.flush false
  · rwa [hread]
  · rwa [hread]
  · rw [hread]
    exact hst.trans hshown

theorem Reading.run {r : Reader} {p : WebSniffer.StreamProc} {chunks : List (List UInt8 × Bool)}
    {sent : List (Sent cal)} (h : Reading r p (chunks.flatMap Prod.fst) sent)
    (hlen : ∀ chunk ∈ chunks, chunk.1.length ≤ 4096) :
    ∃ m p', Reading (run readChunk r chunks) p' [] (sent.drop m) ∧ Shown r.st (run readChunk r chunks).st (sent.take m) := by
  induction chunks generalizing r p sent with
  | nil => exact ⟨0, p, h, .refl _⟩
  | cons chunk chunks ih =>
    obtain ⟨hchunk, hchunks⟩ := List.forall_mem_cons.mp hlen
    obtain ⟨m, p', hnext, hshown⟩ := h.chunk hchunk
    obtain ⟨n, p'', hend, hshown'⟩ := ih hnext hchunks
    rw [List.drop_drop] at hend
    have hall := hshown.trans hshown'
    rw [← List.take_add] at hall
    exact ⟨m + n, p'', hend, hall⟩

/-- When the port is closed, all frames have been printed. -/
theorem Reading.closed {r : Reader} {p : WebSniffer.StreamProc} {chunks : List (List UInt8 × Bool)}
    {sent : List (Sent cal)} (h : Reading r p (chunks.flatMap Prod.fst) sent)
    (hlen : ∀ chunk ∈ chunks, chunk.1.length ≤ 4096) :
    let r' := (Lib.Lts.run readChunk r chunks).flush true
    Shown r.st r'.st sent ∧ r'.LockedTo cal ∧ r'.runbuf = [] := by
  obtain ⟨m, p', ⟨hlike, hp, hwarm', hshort, hholds⟩, hshown⟩ := h.run hlen
  have hahead := p'.future_nil
  have hroom : (Lib.Lts.run readChunk r chunks).runbuf.length ≤ MAX_BACKLOG := hshort.trans (by decide)
  obtain ⟨n, hnext, hshown', -, hempty⟩ := flush_sent hholds hroom true fun _ => hahead
  have hrest := hnext.traffic
  rw [hahead, hempty rfl, List.append_nil] at hrest
  have hall := hshown.trans hshown'
  rw [hrest.all_taken] at hall
  exact ⟨hall, hnext.locked, hempty rfl⟩

end Reader

end Tapioca.Host.CanRle

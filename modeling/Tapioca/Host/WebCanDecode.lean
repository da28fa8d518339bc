-- SUMMARY: The browser's stream processor with a locked calibration calls back the traffic of the bus, however it is chunked.
import Mathlib.Tactic
import Tapioca.Host.WebCan

/-!
# Traffic read in the browser

As in the live reader, a locked calibration reads every frame in tier 1. A flush goes no
further than 600 runs, so that with longer chunks a backlog builds up; until that is shed
what has been called back is the front of the traffic, frame for frame.
-/

namespace Tapioca.WebSniffer

open Host.CanRle
open Lib.Lts (run)
open Lib.Splitter (closed opened)

variable {cal : Cal}

/-- The page has been called with these frames, all of them good. -/
def Called (calls calls' : List Call) (sent : List (Sent cal)) : Prop :=
  calls'.filterMap Call.frame? = calls.filterMap Call.frame? ++ sent.map fun s => .standard s.frame

theorem Called.refl (calls : List Call) : Called calls calls ([] : List (Sent cal)) := (List.append_nil _).symm

theorem Called.trans {calls calls' calls'' : List Call} {xs ys : List (Sent cal)} (h : Called calls calls' xs)
    (h' : Called calls' calls'' ys) : Called calls calls'' (xs ++ ys) := by
  rw [Called, h', h, List.map_append, List.append_assoc]

namespace CanProc

/-- The calibration is known, and the threshold that goes with it in force. -/
structure LockedTo (p : CanProc) (cal : Cal) : Prop where
  known : p.cal = some cal
  bound : p.bound = boundFromUI cal
  miss : p.miss = 0

theorem emit_sent {s : CanProc × Nat} (h : s.1.LockedTo cal) (sent : Sent cal) :
    (emit s sent.runs).1.LockedTo cal ∧ Called s.1.calls (emit s sent.runs).1.calls [sent] ∧
      (emit s sent.runs).1.shed = s.1.shed := by
  have hcached : cached s.1.cal (sent.runs.map Nat.cast) = some (sent.frame, cal) := by
    rw [cached, h.known, Option.bind_some, sent.readCached sent.expand_round]
    rfl
  rw [emit]
  dsimp only
  rw [hcached]
  refine ⟨⟨rfl, h.bound, rfl⟩, ?_, rfl⟩
  exact List.filterMap_append

theorem foldl_emit_sent {s : CanProc × Nat} (h : s.1.LockedTo cal) (sent : List (Sent cal)) :
    ((sent.map Sent.runs).foldl emit s).1.LockedTo cal ∧
      Called s.1.calls ((sent.map Sent.runs).foldl emit s).1.calls sent ∧
        ((sent.map Sent.runs).foldl emit s).1.shed = s.1.shed := by
  induction sent generalizing s with
  | nil => exact ⟨h, .refl _, rfl⟩
  | cons f sent ih =>
    obtain ⟨hlocked, hcalled, hshed⟩ := emit_sent h f
    obtain ⟨hlocked', hcalled', hshed'⟩ := ih hlocked
    exact ⟨hlocked', hcalled.trans hcalled', hshed'.trans hshed⟩

/-! ## A flush -/

/-- What the page still has to be called with: the front of it is in the buffer, `ahead` is to come. -/
structure Holds (p : CanProc) (ahead : List Nat) (sent : List (Sent cal)) : Prop where
  traffic : Traffic (boundFromUI cal) (p.runbuf ++ ahead) sent
  locked : p.LockedTo cal

/-- A flush calls back frames that are whole. One that reaches all of the buffer leaves less than a frame. -/
theorem flush_sent {p : CanProc} {ahead : List Nat} {sent : List (Sent cal)}
    (h : p.Holds ahead sent) (hroom : p.runbuf.length ≤ MAX_BACKLOG) (force : Bool)
    (hforce : force = true → ahead = [] ∧ p.runbuf.length ≤ MAX_WORK) :
    ∃ m, (p.flush force).Holds ahead (sent.drop m) ∧ Called p.calls (p.flush force).calls (sent.take m) ∧
      (p.flush force).shed = p.shed ∧ (p.runbuf.length ≤ MAX_WORK → (p.flush force).runbuf.length ≤ 196) ∧
        (force = true → (p.flush force).runbuf = []) := by
  obtain ⟨htraffic, hlocked⟩ := h
  rw [flush]
  split
  next hwait =>
    refine ⟨0, ⟨htraffic, hlocked⟩, .refl _, rfl, ?_, ?_⟩
    · rcases hwait with hnil | ⟨hshort, -⟩
      · simp [hnil]
      · exact fun _ => hshort.le.trans (by decide)
    · intro hyes
      rcases hwait with hnil | ⟨-, hno⟩
      · exact hnil
      · exact absurd hyes hno
  next =>
    have hcollapse : p.collapse = p := if_neg (by rw [hlocked.miss]; decide)
    have hshed : p.shedOldest = p := if_neg (not_lt.mpr hroom)
    have hset : p.setBound = p := by
      have hne : p.bound ≠ 0 := by
        have hfloor : (56 : ℤ) ≤ boundFromUI cal := le_max_left _ _
        rw [hlocked.bound]
        omega
      exact if_neg hne
    have hwork : Traffic (boundFromUI cal) (p.runbuf.take MAX_WORK ++ (p.runbuf.drop MAX_WORK ++ ahead)) sent := by
      rwa [← List.append_assoc, List.take_append_drop]
    have hat := @cutLoop_at _ _ emit _ _
      (Cutting.At.start (fun s : CanProc × Nat => s.1.bound) (p, SLOW_BUDGET)) (p.runbuf.take MAX_WORK)
    rw [hcollapse, hshed, hset, cutWork]
    rw [List.length_nil, List.nil_append] at hat
    generalize hc : cutLoop (fun s : CanProc × Nat => s.1.bound) emit 0 ⟨(p, SLOW_BUDGET), [], 0, []⟩
      (p.runbuf.take MAX_WORK) = c at *
    obtain ⟨m, hlocked', hstate, hrest, hlen, hnil⟩ := hwork.cutLoop_front hc (fun s => s.1.LockedTo cal)
      (fun _ hs => hs.bound) (fun _ hs f => (emit_sent hs f).1) hlocked
    obtain ⟨-, hcalled, hshed'⟩ := foldl_emit_sent (s := (p, SLOW_BUDGET)) hlocked (sent.take m)
    rw [← hstate] at hcalled hshed'
    have hdrop : p.runbuf.drop c.last = c.cur ++ p.runbuf.drop MAX_WORK := by
      conv => lhs; rw [← List.take_append_drop MAX_WORK p.runbuf]
      rw [List.drop_append_of_le_length hat.last_le, hat.drop_last]
    have hend : force = true → c.cur = [] ∧ p.runbuf.drop MAX_WORK = [] := by
      intro hyes
      obtain ⟨hahead, hshort⟩ := hforce hyes
      have hback : p.runbuf.drop MAX_WORK = [] := List.drop_eq_nil_of_le hshort
      exact ⟨hnil (by rw [hback, hahead, List.append_nil]), hback⟩
    have hnone : ¬ (force = true ∧ c.cur.length ≥ 8) := by
      rintro ⟨hyes, hlong⟩
      rw [(hend hyes).1] at hlong
      exact absurd hlong (by simp)
    simp only [if_neg hnone, hdrop]
    refine ⟨m, ⟨?_, ?_⟩, hcalled, hshed', ?_, ?_⟩
    · rwa [List.append_assoc]
    · exact ⟨hlocked'.known, hlocked'.bound, hlocked'.miss⟩
    · intro hshort
      rwa [List.drop_eq_nil_of_le hshort, List.append_nil]
    · intro hyes
      rw [(hend hyes).1, (hend hyes).2]
      rfl

/-- A flush that finds too much sheds some of it. -/
theorem shed_lt_flush {p : CanProc} (hfull : p.runbuf.length > MAX_BACKLOG) (force : Bool) :
    p.shed < (p.flush force).shed := by
  have hgo : ¬ (p.runbuf = [] ∨ p.runbuf.length < FLUSH_AT ∧ ¬ force) := by
    rw [MAX_BACKLOG] at hfull
    rw [FLUSH_AT]
    rintro (hnil | ⟨hshort, -⟩)
    · simp [hnil] at hfull
    · omega
  obtain ⟨cal, bound, miss, calls, hcollapse⟩ := p.collapse_eq
  obtain ⟨bound', hset⟩ := p.collapse.shedOldest.setBound_eq
  obtain ⟨new, hcut, -⟩ := p.collapse.shedOldest.setBound.cutWork_flushed force
  have hlost : p.collapse.shedOldest.setBound.shed ≤ (p.flush force).shed := by
    rw [flush, if_neg hgo]
    exact (Nat.le_add_right _ _).trans hcut.lost
  refine lt_of_lt_of_le ?_ hlost
  rw [hset, shedOldest, if_pos (by rw [hcollapse]; exact hfull), hcollapse]
  exact Nat.lt_add_of_pos_right (Nat.sub_pos_of_lt hfull)

theorem shed_le_flush (p : CanProc) (force : Bool) : p.shed ≤ (p.flush force).shed := by
  obtain ⟨new, hflush, -⟩ := p.flush_flushed force
  exact (Nat.le_add_right _ _).trans hflush.lost

/-! ## A capture -/

/-- The bytes of a chunk call back no frame. -/
theorem foldl_feedByte_eq (p : CanProc) (bytes : List UInt8) :
    ∃ calls, bytes.foldl feedByte p =
        { p with toStreamProc := bytes.foldl StreamProc.feedByte p.toStreamProc, calls := calls } ∧
      Called p.calls calls ([] : List (Sent cal)) := by
  induction bytes generalizing p with
  | nil => exact ⟨p.calls, rfl, .refl _⟩
  | cons b bytes ih =>
    obtain ⟨calls, hbytes, hcalled⟩ := ih (p.feedByte b)
    have hnone : ∀ p p' : StreamProc, (byteCalls p p').filterMap Call.frame? = [] := by
      intro p p'
      rw [List.filterMap_eq_nil_iff]
      intro c hc
      rcases List.mem_append.mp hc with hc | hc
      · obtain ⟨text, -, rfl⟩ := List.mem_map.mp hc
        rfl
      · rw [List.eq_of_mem_replicate hc]
        rfl
    have hbyte : Called p.calls (p.feedByte b).calls ([] : List (Sent cal)) := by
      rw [Called, feedByte, List.filterMap_append, hnone]
      rfl
    exact ⟨calls, hbytes, hbyte.trans hcalled⟩

/-- A chunk is read byte by byte and flushed. -/
theorem feed_eq (p : CanProc) (bytes : List UInt8) : p.feed bytes = (bytes.foldl feedByte p).flush false := by
  rw [feed]
  split
  next => rfl
  next hshort => rw [flush, if_pos (.inr ⟨not_le.mp hshort, Bool.false_ne_true⟩)]

/-- In the middle of a capture of frames. -/
structure Reading (p : CanProc) (rest : List UInt8) (sent : List (Sent cal)) : Prop where
  settled : p.Settled
  holds : p.Holds (p.future rest) sent

theorem Reading.bytes {p : CanProc} {bytes rest : List UInt8} {sent : List (Sent cal)} (h : Reading p (bytes ++ rest) sent) :
    Reading (bytes.foldl CanProc.feedByte p) rest sent ∧
      Called p.calls (bytes.foldl CanProc.feedByte p).calls ([] : List (Sent cal)) ∧
        (bytes.foldl CanProc.feedByte p).shed = p.shed ∧
          (bytes.foldl CanProc.feedByte p).runbuf.length ≤ p.runbuf.length + bytes.length + 1 := by
  obtain ⟨hp, htraffic, hlocked⟩ := h
  obtain ⟨calls, hbytes, hcalled⟩ := @foldl_feedByte_eq cal p bytes
  obtain ⟨new, hbuf, happ, hlen⟩ := streamProc_foldl_push p.toStreamProc bytes
  have hfuture := StreamProc.foldl_feedByte_future hp bytes rest
  rw [happ, List.append_assoc] at hfuture
  rw [hbytes]
  refine ⟨⟨(StreamProc.foldl_feedByte_ahead hp bytes rest).1, ⟨?_, ⟨hlocked.known, hlocked.bound, hlocked.miss⟩⟩⟩,
    hcalled, rfl, ?_⟩
  · rw [hbuf, List.append_assoc, List.append_cancel_left hfuture]
    exact htraffic
  · rw [hbuf, List.length_append]
    omega

/-- As long as nothing is shed, a chunk calls back frames that are whole. -/
theorem Reading.feed {p : CanProc} {chunk rest : List UInt8} {sent : List (Sent cal)}
    (h : Reading p (chunk ++ rest) sent) (hshed : (p.feed chunk).shed = p.shed) :
    ∃ m, Reading (p.feed chunk) rest (sent.drop m) ∧ Called p.calls (p.feed chunk).calls (sent.take m) := by
  obtain ⟨hnext, hcalled, hkeep, -⟩ := h.bytes
  rw [feed_eq] at hshed ⊢
  have hroom : (chunk.foldl CanProc.feedByte p).runbuf.length ≤ MAX_BACKLOG := by
    by_contra hfull
    have hlt := shed_lt_flush (not_le.mp hfull) false
    omega
  obtain ⟨m, hholds, hcalled', -⟩ := flush_sent hnext.holds hroom false (by simp)
  obtain ⟨new, -, runbuf, cal', bound, miss, shed, calls, taken, decoded, heq⟩ :=
    (chunk.foldl CanProc.feedByte p).flush_flushed false
  refine ⟨m, ⟨?_, ?_⟩, hcalled.trans hcalled'⟩
  · rw [heq]
    exact hnext.settled
  · have hsame : ((chunk.foldl CanProc.feedByte p).flush false).future rest = (chunk.foldl CanProc.feedByte p).future rest := by
      rw [heq]
      rfl
    rwa [hsame]

/-- Short chunks leave nothing to shed. -/
theorem Reading.feed_short {p : CanProc} {chunk rest : List UInt8} {sent : List (Sent cal)}
    (h : Reading p (chunk ++ rest) sent) (hshort : p.runbuf.length ≤ 196) (hlen : chunk.length ≤ 400) :
    (p.feed chunk).shed = p.shed ∧ (p.feed chunk).runbuf.length ≤ 196 := by
  obtain ⟨hnext, -, hkeep, hgrow⟩ := h.bytes
  have hwork : (chunk.foldl CanProc.feedByte p).runbuf.length ≤ MAX_WORK := by
    rw [MAX_WORK]
    omega
  obtain ⟨m, -, -, hshed, hleft, -⟩ := flush_sent hnext.holds (hwork.trans (by decide)) false (by simp)
  rw [feed_eq]
  exact ⟨hshed.trans hkeep, hleft hwork⟩

theorem shed_le_run (p : CanProc) (chunks : List (List UInt8)) : p.shed ≤ (run CanProc.feed p chunks).shed := by
  induction chunks generalizing p with
  | nil => exact le_rfl
  | cons chunk chunks ih =>
    have hflush := shed_le_flush (chunk.foldl CanProc.feedByte p) false
    obtain ⟨calls, hbytes, -⟩ := @foldl_feedByte_eq cal1Mbit p chunk
    rw [← feed_eq, hbytes] at hflush
    exact hflush.trans (ih (p.feed chunk))

theorem Reading.run {p : CanProc} {chunks : List (List UInt8)} {sent : List (Sent cal)}
    (h : Reading p chunks.flatten sent) (hshed : (Lib.Lts.run CanProc.feed p chunks).shed = p.shed) :
    ∃ m, Reading (Lib.Lts.run CanProc.feed p chunks) [] (sent.drop m) ∧
      Called p.calls (Lib.Lts.run CanProc.feed p chunks).calls (sent.take m) := by
  induction chunks generalizing p sent with
  | nil => exact ⟨0, h, .refl _⟩
  | cons chunk chunks ih =>
    have hfirst := shed_le_run p [chunk]
    have hrest := shed_le_run (p.feed chunk) chunks
    change p.shed ≤ (p.feed chunk).shed at hfirst
    change (Lib.Lts.run CanProc.feed (p.feed chunk) chunks).shed = p.shed at hshed
    obtain ⟨m, hnext, hcalled⟩ := h.feed (by omega)
    obtain ⟨n, hend, hcalled'⟩ := ih hnext (by omega)
    rw [List.drop_drop] at hend
    have hall := hcalled.trans hcalled'
    rw [← List.take_add] at hall
    exact ⟨m + n, hend, hall⟩

theorem Reading.run_short {p : CanProc} {chunks : List (List UInt8)} {sent : List (Sent cal)}
    (h : Reading p chunks.flatten sent) (hshort : p.runbuf.length ≤ 196) (hlen : ∀ chunk ∈ chunks, chunk.length ≤ 400) :
    (Lib.Lts.run CanProc.feed p chunks).shed = p.shed ∧ (Lib.Lts.run CanProc.feed p chunks).runbuf.length ≤ 196 := by
  induction chunks generalizing p sent with
  | nil => exact ⟨rfl, hshort⟩
  | cons chunk chunks ih =>
    obtain ⟨hchunk, hchunks⟩ := List.forall_mem_cons.mp hlen
    obtain ⟨hshed, hleft⟩ := h.feed_short hshort hchunk
    obtain ⟨m, hnext, -⟩ := h.feed hshed
    obtain ⟨hshed', hleft'⟩ := ih hnext hleft hchunks
    exact ⟨hshed'.trans hshed, hleft'⟩

/-- When the port is closed behind short chunks, all frames have been called back. -/
theorem Reading.closed {p : CanProc} {chunks : List (List UInt8)} {sent : List (Sent cal)}
    (h : Reading p chunks.flatten sent) (hshort : p.runbuf.length ≤ 196) (hlen : ∀ chunk ∈ chunks, chunk.length ≤ 400) :
    let p' := (Lib.Lts.run CanProc.feed p chunks).flush true
    Called p.calls p'.calls sent ∧ p'.runbuf = [] ∧ p'.shed = p.shed := by
  obtain ⟨hshed, hleft⟩ := h.run_short hshort hlen
  obtain ⟨m, hend, hcalled⟩ := h.run hshed
  have hwork : (Lib.Lts.run CanProc.feed p chunks).runbuf.length ≤ MAX_WORK := hleft.trans (by decide)
  obtain ⟨n, hnext, hcalled', hshed', -, hempty⟩ :=
    flush_sent hend.holds (hwork.trans (by decide)) true fun _ => ⟨StreamProc.future_nil _, hwork⟩
  have hrest := hnext.traffic
  rw [StreamProc.future_nil, hempty rfl, List.append_nil] at hrest
  have hall := hcalled.trans hcalled'
  rw [hrest.all_taken] at hall
  exact ⟨hall, hempty rfl, hshed'.trans hshed⟩

end CanProc

end Tapioca.WebSniffer

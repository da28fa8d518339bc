-- SUMMARY: DMX packets behind the firmware's boundaries: each region of the time axis is decoded as if it were alone.
import Mathlib.Tactic
import Tapioca.Host.DmxStream

/-!
# Packets between boundaries

The firmware puts a boundary in front of every packet. The decoder takes the time axis
region by region; what comes behind a region makes no difference to it, since the axis
goes on with the MARK of the next boundary.
-/

namespace Tapioca.Host.DmxRle

open CanRle (BOUNDARY_RUN bitsToRuns)
open Lib.Waveform

/-! ## An axis that goes on -/

section Truncate

variable {tl tl' : Timeline} {pEnd stop : ℚ} {back : List (Seg ℚ Bool)}

/-- The axis goes on behind `pEnd`, with MARK. -/
structure Continues (tl tl' : Timeline) (pEnd : ℚ) (back : List (Seg ℚ Bool)) : Prop where
  segs : tl'.segs = tl.segs ++ back
  front : ∀ s ∈ tl.segs, s.start < pEnd ∧ s.stop ≤ pEnd
  mark : ∀ s ∈ back.head?, s.level = HIGH
  behind : ∀ s ∈ back, pEnd ≤ s.start

theorem bisectRight_le (tl : Timeline) (p : ℚ) : Lib.Waveform.bisectRight tl.starts p ≤ tl.segs.length := by
  rw [Lib.Waveform.bisectRight, Timeline.starts]
  exact (List.takeWhile_sublist _).length_le.trans (List.length_map _).le

theorem Continues.bisectRight (h : Continues tl tl' pEnd back) {p : ℚ} (hp : ∀ s ∈ back.head?, p < s.start) :
    Lib.Waveform.bisectRight tl'.starts p = Lib.Waveform.bisectRight tl.starts p := by
  have hnone : (back.map Seg.start).takeWhile (· ≤ p) = [] := by
    cases hback : back with
    | nil => rfl
    | cons s back' => rw [List.map_cons, List.takeWhile_cons_of_neg (by simpa using hp s (by rw [hback]; rfl))]
  rw [Lib.Waveform.bisectRight, Lib.Waveform.bisectRight, Timeline.starts, Timeline.starts, h.segs, List.map_append,
    List.takeWhile_append, hnone, List.append_nil]
  split
  next hall => exact congrArg List.length (List.IsPrefix.eq_of_length (List.takeWhile_prefix _) hall).symm
  next => rfl

theorem Continues.levelAt_before (h : Continues tl tl' pEnd back) {p : ℚ} (hp : ∀ s ∈ back.head?, p < s.start) :
    tl'.levelAt p = tl.levelAt p := by
  have hle := bisectRight_le tl p
  rw [Timeline.levelAt, Timeline.levelAt, h.bisectRight hp]
  cases hplace : Lib.Waveform.bisectRight tl.starts p with
  | zero => rfl
  | succ i =>
    dsimp only
    rw [h.segs, List.getElem?_append_left (by omega)]

/-- At the end itself there is MARK on both. -/
theorem Continues.levelAt_end (h : Continues tl tl' pEnd (⟨pEnd, stop, HIGH⟩ :: back)) : tl'.levelAt pEnd = tl.levelAt pEnd := by
  have hsorted := tl'.sorted
  rw [h.segs, List.pairwise_append] at hsorted
  have hplace : Lib.Waveform.bisectRight tl'.starts pEnd = tl.segs.length + 1 := by
    rw [Timeline.starts, h.segs, List.append_cons, ← List.length_singleton, ← List.length_append]
    refine bisectRight_append (fun s hs => ?_) fun s hs => ?_
    · rcases List.mem_append.mp hs with hs | hs
      · exact (h.front s hs).1.le
      · exact List.mem_singleton.mp hs ▸ le_rfl
    · exact (List.pairwise_cons.mp hsorted.2.1).1 s (List.mem_of_mem_head? hs)
  have hmark : tl'.levelAt pEnd = HIGH := by
    rw [Timeline.levelAt, hplace]
    dsimp only
    rw [h.segs, List.getElem?_append_right le_rfl, Nat.sub_self]
    exact ite_self _
  rw [hmark, Timeline.levelAt]
  cases Lib.Waveform.bisectRight tl.starts pEnd with
  | zero => rfl
  | succ i =>
    dsimp only
    cases hseg : tl.segs[i]? with
    | none => rfl
    | some s => exact (if_neg (not_lt.mpr (h.front s (List.mem_of_getElem? hseg)).2)).symm

theorem Continues.levelAt (h : Continues tl tl' pEnd back) {p : ℚ} (hp : p ≤ pEnd) : tl'.levelAt p = tl.levelAt p := by
  cases back with
  | nil => exact h.levelAt_before (by simp)
  | cons s back =>
    obtain ⟨start, stop, level⟩ := s
    obtain rfl : level = HIGH := h.mark _ rfl
    have hstart : pEnd ≤ start := h.behind _ List.mem_cons_self
    rcases hp.lt_or_eq with hlt | rfl
    · exact h.levelAt_before (by simpa using hlt.trans_le hstart)
    · rcases hstart.lt_or_eq with hlt | rfl
      · exact h.levelAt_before (by simpa using hlt)
      · exact h.levelAt_end

/-- The edges are the same, up to one that is too late. -/
theorem Continues.nextFalling (h : Continues tl tl' pEnd back) {p : ℚ} (hp : p ≤ pEnd) :
    tl'.nextFalling p = tl.nextFalling p ∨ tl.nextFalling p = none ∧ ∀ q ∈ tl'.nextFalling p, pEnd ≤ q := by
  rcases hp.lt_or_eq with hlt | rfl
  · have hbefore : ∀ s ∈ back.head?, p < s.start := fun s hs => hlt.trans_le (h.behind s (List.mem_of_mem_head? hs))
    rw [Timeline.nextFalling, Timeline.nextFalling, h.bisectRight hbefore, h.segs,
      List.drop_append_of_le_length (bisectRight_le tl p), List.find?_append]
    cases hfind : (tl.segs.drop (Lib.Waveform.bisectRight tl.starts p)).find? (·.level = LOW) with
    | some s => exact .inl rfl
    | none =>
      refine .inr ⟨rfl, ?_⟩
      intro q hq
      rw [Option.none_or] at hq
      obtain ⟨s, hs, rfl⟩ := Option.map_eq_some_iff.mp hq
      exact h.behind s (List.mem_of_find?_eq_some hs)
  · refine .inr ⟨?_, ?_⟩
    · cases hnext : tl.nextFalling p with
      | none => rfl
      | some q =>
        obtain ⟨hlt, hmem⟩ := Timeline.nextFalling_spec hnext
        obtain ⟨s, hs, rfl⟩ := List.mem_map.mp hmem
        exact absurd hlt (not_lt.mpr (h.front s hs).1.le)
    · intro q hq
      exact (Timeline.nextFalling_spec hq).1.le

theorem uartLoop_late {p : Option ℚ} (h : ∀ q ∈ p, pEnd ≤ q) : uartLoop tl pEnd p = ([], 0) := by
  cases p with
  | none => rw [uartLoop]
  | some q =>
    have hq := h q rfl
    rw [uartLoop, if_neg (by linarith)]

theorem Continues.uartLoop_next (h : Continues tl tl' pEnd back) {p : ℚ} (hp : p ≤ pEnd)
    (hnext : uartLoop tl' pEnd (tl.nextFalling p) = uartLoop tl pEnd (tl.nextFalling p)) :
    uartLoop tl' pEnd (tl'.nextFalling p) = uartLoop tl pEnd (tl.nextFalling p) := by
  rcases h.nextFalling hp with heq | ⟨hnone, hlate⟩
  · rw [heq, hnext]
  · rw [uartLoop_late hlate, hnone, uartLoop]

/-- The sampler stops before it comes to what is behind. -/
theorem Continues.uartLoop (h : Continues tl tl' pEnd back) (p : Option ℚ) :
    DmxRle.uartLoop tl' pEnd p = DmxRle.uartLoop tl pEnd p := by
  induction p using uartLoop.induct tl pEnd with
  | case1 => rw [DmxRle.uartLoop, DmxRle.uartLoop]
  | case2 p hend hstart ih =>
    have hmiddle : p + 1 / 2 ≤ pEnd := by linarith
    rw [DmxRle.uartLoop, DmxRle.uartLoop, if_pos hend, if_pos hend, h.levelAt hmiddle, if_pos hstart, if_pos hstart,
      h.uartLoop_next hmiddle ih]
  | case3 p hend hstart hstop _ _ _ ih =>
    have hmiddle : p + 1 / 2 ≤ pEnd := by linarith
    rw [DmxRle.uartLoop, DmxRle.uartLoop, if_pos hend, if_pos hend, h.levelAt hmiddle, if_neg hstart, if_neg hstart,
      h.levelAt hend, if_pos hstop, if_pos hstop, h.uartLoop_next hmiddle ih]
  | case4 p hend hstart hstop _ _ _ ih =>
    have hmiddle : p + 1 / 2 ≤ pEnd := by linarith
    have hbyte : sampleByte tl' p = sampleByte tl p := by
      rw [sampleByte, sampleByte]
      refine List.foldl_ext _ _ _ fun val k hk => ?_
      have hk8 : (k : ℚ) ≤ 7 := by exact_mod_cast Nat.le_of_lt_succ (List.mem_range.mp hk)
      rw [h.levelAt (by linarith)]
    rw [DmxRle.uartLoop, DmxRle.uartLoop, if_pos hend, if_pos hend, h.levelAt hmiddle, if_neg hstart, if_neg hstart,
      h.levelAt hend, if_neg hstop, if_neg hstop, h.uartLoop_next hend ih, hbyte]
  | case5 p hend => rw [DmxRle.uartLoop, DmxRle.uartLoop, if_neg hend, if_neg hend]

end Truncate

/-! ## Axes end to end -/

theorem levelsFrom_append {idle lv : Bool} {xs ys : List ℤ} (hys : ∀ y ∈ ys.head?, BOUNDARY_RUN ≤ y) :
    levelsFrom idle lv (xs ++ ys) = levelsFrom idle lv xs ++ levelsFrom idle idle ys := by
  induction xs generalizing lv with
  | nil =>
    cases ys with
    | nil => rfl
    | cons y ys =>
      have hcut : y ≥ BOUNDARY_RUN := hys y rfl
      rw [List.nil_append, levelsFrom, levelsFrom, levelsFrom, if_pos hcut, if_pos hcut]
      rfl
  | cons x xs ih =>
    rw [List.cons_append, levelsFrom, levelsFrom]
    split
    · rw [ih, List.cons_append]
    · rw [ih, List.cons_append]

/-- The axis of runs is that of the first ones, and from its end on that of the rest. -/
theorem axis_append (uiLo uiHi pos : ℚ) (xs ys : List (ℤ × Bool)) :
    segsFrom uiLo uiHi pos (xs ++ ys) = segsFrom uiLo uiHi pos xs ++ segsFrom uiLo uiHi (endFrom uiLo uiHi pos xs) ys ∧
      boundsFrom uiLo uiHi pos (xs ++ ys) =
          boundsFrom uiLo uiHi pos xs ++ boundsFrom uiLo uiHi (endFrom uiLo uiHi pos xs) ys ∧
        endFrom uiLo uiHi pos (xs ++ ys) = endFrom uiLo uiHi (endFrom uiLo uiHi pos xs) ys := by
  induction xs generalizing pos with
  | nil => exact ⟨rfl, rfl, rfl⟩
  | cons x xs ih =>
    obtain ⟨r, lv⟩ := x
    rw [List.cons_append, segsFrom, segsFrom, boundsFrom, boundsFrom, endFrom, endFrom]
    dsimp only
    split
    next hnone =>
      obtain ⟨hsegs, hbounds, hend⟩ := ih pos
      rw [hsegs, hbounds, hend]
      refine ⟨rfl, ?_, rfl⟩
      split
      · rfl
      · rfl
    next hsome =>
      obtain ⟨hsegs, hbounds, hend⟩ := ih (pos + (segment uiLo uiHi r lv).1)
      rw [hsegs, hbounds, hend]
      refine ⟨rfl, ?_, rfl⟩
      split
      · rfl
      · rfl

/-! ## Regions -/

section Framed

variable {ui c : ℤ} {skew pos : ℚ} {leadIdle : Bool}

/-- A boundary and what is behind it: nothing, or a packet. -/
def framed (args : EncodeArgs) (regions : List (Option (List Nat))) : List ℤ :=
  regions.flatMap fun r => BOUNDARY_RUN :: r.elim [] (encodePacket · args)

/-- The runs of a region behind its boundary. -/
def regionRuns (leadIdle : Bool) : Option (List Nat) → List (Bool × Nat)
  | none => []
  | some p => (if leadIdle then [(HIGH, 8)] else []) ++ packetRuns p

theorem one_le_of_mem_regionRuns (r : Option (List Nat)) : ∀ x ∈ regionRuns leadIdle r, 1 ≤ x.2 ∧ x.2 ≤ 24 := by
  cases r with
  | none => simp [regionRuns]
  | some p =>
    have hp : ∀ x ∈ packetRuns p, 1 ≤ x.2 ∧ x.2 ≤ 24 := by
      have hall := @le_of_mem_stream [p]
      rwa [List.flatMap_singleton] at hall
    rw [regionRuns, List.forall_mem_append]
    refine ⟨?_, hp⟩
    cases leadIdle <;> simp

theorem ticks_lt (hui : 1 ≤ ui) (hshort : 24 * ui + c < BOUNDARY_RUN) {x : Bool × Nat} (hx : x.2 ≤ 24) :
    ticks ui c x < BOUNDARY_RUN := by
  have hlong : (x.2 : ℤ) ≤ 24 := by exact_mod_cast hx
  have hmost := mul_le_mul_of_nonneg_right hlong (zero_le_one.trans hui)
  rw [ticks]
  linarith

/-- A packet in ticks, and the level of each of its runs. -/
theorem encodePacket_levels {p : List Nat} (hp : p ≠ []) (hui : 1 ≤ ui) (hshort : 24 * ui + c < BOUNDARY_RUN) :
    encodePacket p { ui, c, leadIdle } = (regionRuns leadIdle (some p)).map (ticks ui c) ∧
      levelsFrom (!leadIdle) leadIdle (encodePacket p { ui, c, leadIdle }) =
        (regionRuns leadIdle (some p)).map Prod.fst := by
  have hticks : encodePacket p { ui, c, leadIdle } = (regionRuns leadIdle (some p)).map (ticks ui c) := by
    cases leadIdle with
    | false => exact (encodePacket_ticks hp).1
    | true => exact (encodePacket_ticks hp).2
  refine ⟨hticks, ?_⟩
  have hbits : regionRuns leadIdle (some p) = bitsToRuns (packetBits p { leadIdle }) := by
    have hstream : bitsToRuns (streamBits [p]) = packetRuns p := by
      rw [bitsToRuns_stream (List.forall_mem_singleton.mpr hp), List.flatMap_singleton]
    cases leadIdle with
    | false =>
      rw [streamBits, List.flatMap_singleton] at hstream
      exact hstream.symm
    | true =>
      have hmark : packetBits p {} = List.replicate 8 HIGH ++ streamBits [p] := by
        rw [streamBits, List.flatMap_singleton, packetBits, packetBits]
        simp only [Bool.false_eq_true, if_true, if_false, List.nil_append, List.append_assoc]
      rw [hmark, bitsToRuns_mark_stream (List.forall_mem_singleton.mpr hp), List.flatMap_singleton]
      rfl
  rw [hticks, hbits]
  refine levelsFrom_bitsToRuns _ _ ?_ fun x hx => ticks_lt hui hshort (one_le_of_mem_regionRuns (some p) x (hbits ▸ hx)).2
  intro x hx
  cases leadIdle with
  | false => exact (Option.some_inj.mp hx).symm
  | true => exact (Option.some_inj.mp hx).symm

/-- The segments of regions from a position on. -/
def regionSegs (skew : ℚ) (leadIdle : Bool) (pos : ℚ) : List (Option (List Nat)) → List (Seg ℚ Bool)
  | [] => []
  | r :: regions =>
    ⟨pos, pos + IDLE_SEP_BITS, HIGH⟩ :: layout (pos + IDLE_SEP_BITS) (skewed skew (regionRuns leadIdle r)) ++
      regionSegs skew leadIdle (pos + IDLE_SEP_BITS + extent (skewed skew (regionRuns leadIdle r))) regions

/-- Where they begin, and where the last one ends. -/
def regionStarts (skew : ℚ) (leadIdle : Bool) (pos : ℚ) : List (Option (List Nat)) → List ℚ × ℚ
  | [] => ([], pos)
  | r :: regions =>
    let (starts, stop) :=
      regionStarts skew leadIdle (pos + IDLE_SEP_BITS + extent (skewed skew (regionRuns leadIdle r))) regions
    (pos :: starts, stop)

/-- The axis of boundaries and packets. -/
theorem axis_framed (hui : 1 ≤ ui) (hbias : 20 * |c| < ui) (hshort : 24 * ui + c < BOUNDARY_RUN)
    {regions : List (Option (List Nat))} (hslots : ∀ p, some p ∈ regions → p ≠ []) (pos : ℚ) (lv : Bool) :
    let runs := framed { ui, c, leadIdle } regions
    let axis := runs.zip (levelsFrom (!leadIdle) lv runs)
    segsFrom ui ui pos axis = regionSegs (c / ui) leadIdle pos regions ∧
      (boundsFrom ui ui pos axis, endFrom ui ui pos axis) = regionStarts (c / ui) leadIdle pos regions := by
  induction regions generalizing pos lv with
  | nil => exact ⟨rfl, rfl⟩
  | cons r regions ih =>
    have hrest := fun pos lv => ih (fun p hp => hslots p (List.mem_cons_of_mem _ hp)) pos lv
    dsimp only at hrest ⊢
    -- the runs of the region and their levels
    have hbody : ∃ body, r.elim [] (encodePacket · { ui, c, leadIdle }) = body ∧
        body = (regionRuns leadIdle r).map (ticks ui c) ∧
          levelsFrom (!leadIdle) leadIdle body = (regionRuns leadIdle r).map Prod.fst := by
      refine ⟨_, rfl, ?_⟩
      cases r with
      | none => exact ⟨rfl, rfl⟩
      | some p => exact encodePacket_levels (hslots p List.mem_cons_self) hui hshort
    obtain ⟨body, hr, hticks, hlevels⟩ := hbody
    have hhead : ∀ y ∈ (framed { ui, c, leadIdle } regions).head?, BOUNDARY_RUN ≤ y := by
      intro y hy
      cases regions with
      | nil => cases hy
      | cons r' regions =>
        obtain rfl := Option.some_inj.mp hy
        exact le_rfl
    have hframed : framed { ui, c, leadIdle } (r :: regions) = (BOUNDARY_RUN : ℤ) :: body ++ framed { ui, c, leadIdle } regions := by
      rw [framed, List.flatMap_cons, hr]
      rfl
    have hfirst : levelsFrom (!leadIdle) lv ((BOUNDARY_RUN : ℤ) :: body ++ framed { ui, c, leadIdle } regions) =
        ((!leadIdle) :: (regionRuns leadIdle r).map Prod.fst) ++
          levelsFrom (!leadIdle) (!leadIdle) (framed { ui, c, leadIdle } regions) := by
      rw [levelsFrom_append hhead, levelsFrom, if_pos le_rfl, Bool.not_not, hlevels]
    have hlen : ((BOUNDARY_RUN : ℤ) :: body).length = ((!leadIdle) :: (regionRuns leadIdle r).map Prod.fst).length := by
      rw [hticks, List.length_cons, List.length_cons, List.length_map, List.length_map]
    have hzip : ((BOUNDARY_RUN : ℤ) :: body).zip ((!leadIdle) :: (regionRuns leadIdle r).map Prod.fst) =
        ((BOUNDARY_RUN : ℤ), !leadIdle) :: (regionRuns leadIdle r).map fun x => (ticks ui c x, x.1) := by
      rw [hticks, List.zip_cons_cons, List.zip_map']
    have hruns := @one_le_of_mem_regionRuns leadIdle r
    obtain ⟨hsegs, hbounds, hend⟩ := axis_ticks hui hbias (fun x hx => (hruns x hx).1)
      (fun x hx => ticks_lt hui hshort (hruns x hx).2) (pos + IDLE_SEP_BITS)
    have hsegment : segment ui ui BOUNDARY_RUN (!leadIdle) = (IDLE_SEP_BITS, HIGH) := if_pos le_rfl
    have hsep : ¬ IDLE_SEP_BITS ≤ 0 := by norm_num [IDLE_SEP_BITS]
    have hcell : ∀ axis : List (ℤ × Bool), axis = ((BOUNDARY_RUN : ℤ), !leadIdle) :: (regionRuns leadIdle r).map (fun x => (ticks ui c x, x.1)) →
        segsFrom ui ui pos axis =
            ⟨pos, pos + IDLE_SEP_BITS, HIGH⟩ :: layout (pos + IDLE_SEP_BITS) (skewed (c / ui : ℚ) (regionRuns leadIdle r)) ∧
          boundsFrom ui ui pos axis = [pos] ∧
            endFrom ui ui pos axis = pos + IDLE_SEP_BITS + extent (skewed (c / ui : ℚ) (regionRuns leadIdle r)) := by
      rintro axis rfl
      rw [segsFrom, boundsFrom, endFrom, hsegment]
      dsimp only
      rw [if_neg hsep, if_neg hsep, if_pos le_rfl, hsegs, hbounds, hend]
      exact ⟨rfl, rfl, rfl⟩
    obtain ⟨hsegs, hbounds, hend⟩ := hcell _ rfl
    obtain ⟨hsegs', hstarts'⟩ := hrest (pos + IDLE_SEP_BITS + extent (skewed (c / ui : ℚ) (regionRuns leadIdle r))) (!leadIdle)
    obtain ⟨happ, happ', happ''⟩ := axis_append ui ui pos
      (((BOUNDARY_RUN : ℤ), !leadIdle) :: (regionRuns leadIdle r).map fun x => (ticks ui c x, x.1))
      ((framed { ui, c, leadIdle } regions).zip (levelsFrom (!leadIdle) (!leadIdle) (framed { ui, c, leadIdle } regions)))
    rw [hframed, hfirst, List.zip_append hlen, hzip, happ, happ', happ'', hsegs, hbounds, hend, hsegs', regionSegs,
      regionStarts, ← hstarts']
    exact ⟨rfl, rfl⟩

/-! ## A region decoded -/

variable {tl : Timeline} {front : List (Seg ℚ Bool)} {regions : List (Option (List Nat))}

theorem regionSegs_head (skew : ℚ) (leadIdle : Bool) (pos : ℚ) (regions : List (Option (List Nat))) :
    ∀ s ∈ (regionSegs skew leadIdle pos regions).head?, s.level = HIGH ∧ s.start = pos := by
  cases regions with
  | nil => simp [regionSegs]
  | cons r regions =>
    intro s hs
    obtain rfl := Option.some_inj.mp hs
    exact ⟨rfl, rfl⟩

theorem regionSegs_ge (hskew : |skew| < 1 / 20) (pos : ℚ) (regions : List (Option (List Nat))) :
    ∀ s ∈ regionSegs skew leadIdle pos regions, pos ≤ s.start := by
  induction regions generalizing pos with
  | nil => simp [regionSegs]
  | cons r regions ih =>
    have hone : ∀ x ∈ regionRuns leadIdle r, 1 ≤ x.2 := fun x hx => (one_le_of_mem_regionRuns r x hx).1
    obtain ⟨hend, hlaid⟩ := bounds_layout (skewed_pos (hskew.trans (by norm_num)) hone) (pos + IDLE_SEP_BITS)
    have hsep : (0 : ℚ) ≤ IDLE_SEP_BITS := by norm_num [IDLE_SEP_BITS]
    intro s hs
    rcases List.mem_append.mp hs with hs | hs
    · rcases List.mem_cons.mp hs with rfl | hs
      · exact le_rfl
      · linarith [(hlaid s hs).1]
    · linarith [ih _ s hs]

/-- Where the next region begins. -/
def regionEnd (skew : ℚ) (leadIdle : Bool) (pos : ℚ) (r : Option (List Nat)) : ℚ :=
  pos + IDLE_SEP_BITS + extent (skewed skew (regionRuns leadIdle r))

/-- The search passes the mark and stops at the end of a BREAK. -/
theorem breakEnd_mark {pEnd : ℚ} {mark segs : List (Seg ℚ Bool)} {brk : Seg ℚ Bool}
    (hmark : ∀ s ∈ mark, s.level = HIGH ∧ s.start < pEnd) (hstart : brk.start < pEnd) (hlevel : brk.level = LOW)
    (hlong : brk.stop - brk.start ≥ BREAK_BITS) : breakEnd pEnd (mark ++ brk :: segs) = some brk.stop := by
  induction mark with
  | nil => rw [List.nil_append, breakEnd, if_neg (not_le.mpr hstart), if_pos ⟨hlevel, hlong⟩]
  | cons s mark ih =>
    obtain ⟨⟨hhigh, hs⟩, hmark⟩ := List.forall_mem_cons.mp hmark
    rw [List.cons_append, breakEnd, if_neg (not_le.mpr hs), if_neg (by simp [hhigh]), ih hmark]

/-- The search for the BREAK begins at the boundary. -/
theorem firstBreakEnd_region {segs : List (Seg ℚ Bool)} {stop : ℚ} (hsegs : tl.segs = front ++ ⟨pos, stop, HIGH⟩ :: segs)
    (hfront : ∀ s ∈ front, s.start < pos) {pEnd : ℚ} (hend : pos < pEnd) :
    firstBreakEnd tl pos pEnd = breakEnd pEnd segs := by
  have hsorted := tl.sorted
  rw [hsegs, List.pairwise_append] at hsorted
  have hplace : bisectRight tl.starts pos = front.length + 1 := by
    rw [Timeline.starts, hsegs, List.append_cons, ← List.length_singleton, ← List.length_append]
    refine bisectRight_append (fun s hs => ?_) fun s hs => ?_
    · rcases List.mem_append.mp hs with hs | hs
      · exact (hfront s hs).le
      · exact List.mem_singleton.mp hs ▸ le_rfl
    · exact (List.pairwise_cons.mp hsorted.2.1).1 s (List.mem_of_mem_head? hs)
  rw [firstBreakEnd, hplace, Nat.add_sub_cancel, hsegs, List.drop_left, breakEnd, if_neg (not_le.mpr hend),
    if_neg (fun hlow => Bool.noConfusion hlow.1)]

/-- A region with nothing behind its boundary. -/
theorem decodeRegion_none (hsegs : tl.segs = front ++ regionSegs skew leadIdle pos (none :: regions))
    (hfront : ∀ s ∈ front, s.start < pos) : decodeRegion tl (pos, regionEnd skew leadIdle pos none) = none := by
  have hsep : pos < regionEnd skew leadIdle pos none := by
    rw [regionEnd, regionRuns, skewed_nil, extent_nil, IDLE_SEP_BITS]
    linarith
  have hbreak : breakEnd (regionEnd skew leadIdle pos none)
      (regionSegs skew leadIdle (regionEnd skew leadIdle pos none) regions) = none := by
    have hhead := regionSegs_head skew leadIdle (regionEnd skew leadIdle pos none) regions
    cases hsegs' : regionSegs skew leadIdle (regionEnd skew leadIdle pos none) regions with
    | nil => rfl
    | cons s segs =>
      rw [hsegs'] at hhead
      rw [breakEnd, if_pos (hhead s rfl).2.ge]
  have hnone : firstBreakEnd tl pos (regionEnd skew leadIdle pos none) = none :=
    (firstBreakEnd_region hsegs hfront hsep).trans hbreak
  rw [decodeRegion, hnone]

/-- What lies before a region, and its own segments, lie before its end. -/
theorem region_ends (hskew : |skew| < 1 / 20) (leadIdle : Bool)
    (hfront : ∀ s ∈ front, s.start < pos ∧ s.stop ≤ pos) (r : Option (List Nat)) :
    ∀ s ∈ front ++ ⟨pos, pos + IDLE_SEP_BITS, HIGH⟩ ::
        layout (pos + IDLE_SEP_BITS) (skewed skew (regionRuns leadIdle r)),
      s.start < regionEnd skew leadIdle pos r ∧ s.stop ≤ regionEnd skew leadIdle pos r := by
  have hone : ∀ x ∈ regionRuns leadIdle r, 1 ≤ x.2 := fun x hx => (one_le_of_mem_regionRuns r x hx).1
  obtain ⟨hend, hlaid⟩ := bounds_layout (skewed_pos (hskew.trans (by norm_num)) hone) (pos + IDLE_SEP_BITS)
  have hsep : (IDLE_SEP_BITS : ℚ) = 4 := rfl
  intro s hs
  rw [regionEnd]
  rcases List.mem_append.mp hs with hs | hs
  · obtain ⟨hstart, hstop⟩ := hfront s hs
    exact ⟨by linarith, by linarith⟩
  · rcases List.mem_cons.mp hs with rfl | hs
    · exact ⟨by dsimp only; linarith, hend⟩
    · obtain ⟨-, hlt, hle⟩ := hlaid s hs
      exact ⟨by linarith, hle⟩

/-- The mark an encoder puts before a packet. -/
def leadRuns (leadIdle : Bool) : List (Bool × Nat) := if leadIdle then [(HIGH, 8)] else []

/-- Where the BREAK of a region begins. -/
def breakStart (skew : ℚ) (leadIdle : Bool) (pos : ℚ) : ℚ := pos + IDLE_SEP_BITS + extent (skewed skew (leadRuns leadIdle))

theorem regionRuns_some (leadIdle : Bool) (p : List Nat) :
    regionRuns leadIdle (some p) = leadRuns leadIdle ++ packetRuns p := rfl

theorem regionEnd_some (skew : ℚ) (leadIdle : Bool) (pos : ℚ) (p : List Nat) :
    regionEnd skew leadIdle pos (some p) =
      breakStart skew leadIdle pos + (24 + skew) + (4 + skew) + extent (skewed skew (slotRuns p)) := by
  rw [regionEnd, regionRuns_some, skewed_append, extent_append, extent_packetRuns, breakStart]
  ring

theorem regionSegs_some (skew : ℚ) (leadIdle : Bool) (pos : ℚ) (p : List Nat) (regions : List (Option (List Nat))) :
    regionSegs skew leadIdle pos (some p :: regions) =
      ⟨pos, pos + IDLE_SEP_BITS, HIGH⟩ :: (layout (pos + IDLE_SEP_BITS) (skewed skew (leadRuns leadIdle)) ++
        layout (breakStart skew leadIdle pos) (skewed skew (packetRuns p))) ++
          regionSegs skew leadIdle (regionEnd skew leadIdle pos (some p)) regions := by
  rw [regionSegs, regionEnd, regionRuns_some, skewed_append, layout_append, breakStart]

/-- The mark before a packet is high and lies before its BREAK. -/
theorem leadRuns_mark (hskew : |skew| < 1 / 20) (leadIdle : Bool) (pos : ℚ) :
    pos + IDLE_SEP_BITS ≤ breakStart skew leadIdle pos ∧
      ∀ s ∈ layout (pos + IDLE_SEP_BITS) (skewed skew (leadRuns leadIdle)),
        s.level = HIGH ∧ s.start < breakStart skew leadIdle pos := by
  have hone : ∀ x ∈ leadRuns leadIdle, 1 ≤ x.2 := by cases leadIdle <;> simp [leadRuns]
  have hhigh : ∀ s ∈ layout (pos + IDLE_SEP_BITS) (skewed skew (leadRuns leadIdle)), s.level = HIGH := by
    cases leadIdle <;> simp [leadRuns, layout, skewed]
  obtain ⟨hend, hlaid⟩ := bounds_layout (skewed_pos (hskew.trans (by norm_num)) hone) (pos + IDLE_SEP_BITS)
  refine ⟨hend, fun s hs => ⟨hhigh s hs, ?_⟩⟩
  obtain ⟨-, hlt, hle⟩ := hlaid s hs
  exact hlt.trans_le hle

/-- The slots of a packet end behind the MAB. -/
theorem mab_le_regionEnd (hskew : |skew| < 1 / 20) (leadIdle : Bool) (pos : ℚ) (p : List Nat) :
    breakStart skew leadIdle pos + (24 + skew) + (4 + skew) ≤ regionEnd skew leadIdle pos (some p) := by
  have hslots := (bounds_layout (skewed_pos (hskew.trans (by norm_num)) (one_le_of_mem_slotRuns p)) pos).1
  rw [regionEnd_some]
  linarith

/-- The BREAK of a region with a packet. -/
theorem firstBreakEnd_some {p : List Nat} (hskew : |skew| < 1 / 20)
    (hsegs : tl.segs = front ++ regionSegs skew leadIdle pos (some p :: regions))
    (hfront : ∀ s ∈ front, s.start < pos) :
    firstBreakEnd tl pos (regionEnd skew leadIdle pos (some p)) = some (breakStart skew leadIdle pos + (24 + skew)) := by
  obtain ⟨hlead, hmark⟩ := leadRuns_mark hskew leadIdle pos
  have hmab := mab_le_regionEnd hskew leadIdle pos p
  have hlow := (abs_lt.mp hskew).1
  have hsep : (IDLE_SEP_BITS : ℚ) = 4 := rfl
  have hlaid : layout (breakStart skew leadIdle pos) (skewed skew (packetRuns p)) =
      ⟨breakStart skew leadIdle pos, breakStart skew leadIdle pos + (24 + skew), LOW⟩ ::
        layout (breakStart skew leadIdle pos + (24 + skew)) (skewed skew ((HIGH, 4) :: slotRuns p)) := rfl
  rw [regionSegs_some, hlaid, List.cons_append, List.append_assoc, List.cons_append] at hsegs
  rw [firstBreakEnd_region hsegs hfront (by linarith)]
  refine breakEnd_mark (fun s hs => ⟨(hmark s hs).1, ?_⟩) (by dsimp only; linarith) rfl ?_
  · linarith [(hmark s hs).2]
  · dsimp only
    rw [BREAK_BITS]
    linarith

/-- A region with a packet. -/
theorem decodeRegion_some {p : List Nat} (hp : p ≠ []) (hbytes : ∀ b ∈ p, b < 256) (hskew : |skew| < 1 / 20)
    (hsegs : tl.segs = front ++ regionSegs skew leadIdle pos (some p :: regions))
    (hfront : ∀ s ∈ front, s.start < pos ∧ s.stop ≤ pos) :
    decodeRegion tl (pos, regionEnd skew leadIdle pos (some p)) = some (p, 0) := by
  have hbreak := firstBreakEnd_some hskew hsegs fun s hs => (hfront s hs).1
  have hmab := mab_le_regionEnd hskew leadIdle pos p
  obtain ⟨hlead, hmark⟩ := leadRuns_mark hskew leadIdle pos
  have hsep : (IDLE_SEP_BITS : ℚ) = 4 := rfl
  have hlow := (abs_lt.mp hskew).1
  -- the same axis cut at the next boundary, where the packet is all there is ahead
  have hsorted := tl.sorted
  have hends := region_ends hskew leadIdle hfront (some p)
  rw [regionRuns_some, skewed_append, layout_append, ← breakStart] at hends
  rw [regionSegs_some] at hsegs
  rw [hsegs, ← List.append_assoc, List.pairwise_append] at hsorted
  obtain ⟨alone, halone⟩ : ∃ alone : Timeline, alone.segs = front ++ ⟨pos, pos + IDLE_SEP_BITS, HIGH⟩ ::
      (layout (pos + IDLE_SEP_BITS) (skewed skew (leadRuns leadIdle)) ++
        layout (breakStart skew leadIdle pos) (skewed skew (packetRuns p))) :=
    ⟨⟨_, [], 0, hsorted.1⟩, rfl⟩
  have hgoes : Continues alone tl (regionEnd skew leadIdle pos (some p))
      (regionSegs skew leadIdle (regionEnd skew leadIdle pos (some p)) regions) :=
    ⟨by rw [hsegs, halone, List.append_assoc, List.cons_append], by rw [halone]; exact hends,
      fun s hs => (regionSegs_head skew leadIdle _ regions s hs).1, regionSegs_ge hskew _ regions⟩
  have hahead : alone.Ahead skew (breakStart skew leadIdle pos) (packetRuns p ++ []) := by
    refine ⟨front ++ ⟨pos, pos + IDLE_SEP_BITS, HIGH⟩ :: layout (pos + IDLE_SEP_BITS) (skewed skew (leadRuns leadIdle)),
      ?_, ?_⟩
    · rw [List.append_nil, halone, List.append_assoc, List.cons_append]
    · intro s hs
      rcases List.mem_append.mp hs with hs | hs
      · linarith [(hfront s hs).1]
      · rcases List.mem_cons.mp hs with rfl | hs
        · dsimp only
          linarith
        · exact (hmark s hs).2
  -- the MAB and the slots
  have hedge := nextFalling_mab hp hahead hskew
  have hedge' : tl.nextFalling (breakStart skew leadIdle pos + (24 + skew) - 1 / 10 ^ 9) =
      some (breakStart skew leadIdle pos + (24 + skew) + (4 + skew)) := by
    rcases hgoes.nextFalling (p := breakStart skew leadIdle pos + (24 + skew) - 1 / 10 ^ 9) (by linarith) with
      heq | ⟨hnone, -⟩
    · rw [heq, hedge]
    · rw [hedge] at hnone
      exact absurd hnone (Option.some_ne_none _)
  have hread := uartLoop_slots hp hbytes (ahead_slots hahead hskew) (by simp) (by simp) hskew
  rw [← regionEnd_some] at hread
  rw [decodeRegion, hbreak]
  dsimp only
  rw [uartSample, hedge', hgoes.uartLoop, hread]
  exact if_pos hp

/-- Region by region. -/
theorem filterMap_decodeRegion_framed (hskew : |skew| < 1 / 20) (hslots : ∀ p, some p ∈ regions → p ≠ [])
    (hbytes : ∀ p, some p ∈ regions → ∀ b ∈ p, b < 256) (hsegs : tl.segs = front ++ regionSegs skew leadIdle pos regions)
    (hfront : ∀ s ∈ front, s.start < pos ∧ s.stop ≤ pos) (hstop : tl.stop = (regionStarts skew leadIdle pos regions).2) :
    (((regionStarts skew leadIdle pos regions).1).zip
        ((regionStarts skew leadIdle pos regions).1.tail ++ [tl.stop])).filterMap (decodeRegion tl) =
      (regions.filterMap id).map fun p => (p, 0) := by
  induction regions generalizing pos front with
  | nil => rfl
  | cons r regions ih =>
    have hdecode : decodeRegion tl (pos, regionEnd skew leadIdle pos r) = r.map fun p => (p, 0) := by
      cases r with
      | none => exact decodeRegion_none hsegs fun s hs => (hfront s hs).1
      | some p => exact decodeRegion_some (hslots p List.mem_cons_self) (hbytes p List.mem_cons_self) hskew hsegs hfront
    have hpast := region_ends hskew leadIdle hfront r
    rw [regionSegs, ← List.append_assoc] at hsegs
    rw [regionStarts] at hstop ⊢
    have hrest := ih (fun p hp => hslots p (List.mem_cons_of_mem _ hp)) (fun p hp => hbytes p (List.mem_cons_of_mem _ hp))
      hsegs hpast hstop
    have hcons : ((r :: regions).filterMap id).map (fun p : List Nat => (p, 0)) =
        (r.map fun p => (p, 0)).toList ++ (regions.filterMap id).map fun p => (p, 0) := by
      cases r <;> rfl
    rw [hcons, ← hrest, ← hdecode]
    dsimp only at hstop ⊢
    rw [List.tail_cons]
    change _ = _ ++ ((regionStarts skew leadIdle (regionEnd skew leadIdle pos r) regions).1.zip
      ((regionStarts skew leadIdle (regionEnd skew leadIdle pos r) regions).1.tail ++ [tl.stop])).filterMap (decodeRegion tl)
    change tl.stop = (regionStarts skew leadIdle (regionEnd skew leadIdle pos r) regions).2 at hstop
    change (((pos :: (regionStarts skew leadIdle (regionEnd skew leadIdle pos r) regions).1).zip
      ((regionStarts skew leadIdle (regionEnd skew leadIdle pos r) regions).1 ++ [tl.stop])).filterMap (decodeRegion tl)) = _
    cases regions with
    | nil =>
      rw [regionStarts] at hstop ⊢
      rw [List.nil_append, List.zip_cons_cons, List.zip_nil_left, hstop, List.filterMap_cons]
      cases decodeRegion tl (pos, regionEnd skew leadIdle pos r) <;> rfl
    | cons r' regions =>
      rw [regionStarts, List.cons_append, List.zip_cons_cons, List.filterMap_cons, List.tail_cons]
      cases decodeRegion tl (pos, regionEnd skew leadIdle pos r) <;> rfl

/-- Packets behind boundaries come back as they were sent, boundary by boundary. -/
theorem decodeWith_framed (hslots : ∀ p, some p ∈ regions → p ≠ []) (hbytes : ∀ p, some p ∈ regions → ∀ b ∈ p, b < 256)
    (hui : 1 ≤ ui) (hbias : 20 * |c| < ui) (hshort : 24 * ui + c < BOUNDARY_RUN) :
    decodeWith (framed { ui, c, leadIdle } regions) ui (!leadIdle) =
      (regions.filterMap id, (regions.filterMap id).map fun _ => 0) := by
  rcases regions.eq_nil_or_concat with rfl | ⟨init, last, hconcat⟩
  · rw [decodeWith, decodeTimeline]
    rfl
  have hne : regions ≠ [] := by simp [hconcat]
  clear hconcat
  obtain ⟨runs, hruns⟩ : ∃ runs, runs = framed { ui, c, leadIdle } regions := ⟨_, rfl⟩
  obtain ⟨hsegs, hstarts⟩ := axis_framed hui hbias hshort hslots 0 (!leadIdle)
  rw [← hruns] at hsegs hstarts ⊢
  rw [decodeWith, decodeTimeline]
  generalize htl : Timeline.new runs (assignLevels runs (!leadIdle)) ui ui = tl
  rw [← assignLevels] at hsegs hstarts
  have hsegs' : tl.segs = [] ++ regionSegs (c / ui : ℚ) leadIdle 0 regions := by rw [← htl]; exact hsegs
  have hbounds : tl.bounds = (regionStarts (c / ui : ℚ) leadIdle 0 regions).1 := by rw [← htl, ← hstarts]; rfl
  have hstop : tl.stop = (regionStarts (c / ui : ℚ) leadIdle 0 regions).2 := by rw [← htl, ← hstarts]; rfl
  have hsome : tl.bounds ≠ [] := by
    rw [hbounds]
    obtain ⟨r, rest, rfl⟩ := List.exists_cons_of_ne_nil hne
    exact List.cons_ne_nil _ _
  have hall := filterMap_decodeRegion_framed (bias_lt hui hbias) hslots hbytes hsegs' (by simp) hstop
  rw [DmxRle.regions, if_pos hsome, hbounds, hall, List.unzip_eq_map, List.map_map, List.map_map]
  exact Prod.ext (List.map_id _) rfl

end Framed

end Tapioca.Host.DmxRle

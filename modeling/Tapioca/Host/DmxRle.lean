-- SUMMARY: The DMX decoder of `scripts/dmx_rle_decode.py`: levels, the fractional time axis, the UART sampler, and packets.
import Tapioca.Lib.Waveform
import Tapioca.Host.CanRle
import Tapioca.Host.CanRuns

/-!
# The DMX decoder

Runs become segments of a time axis whose unit is a bit. The sampler goes from one
falling edge to the next and reads a byte behind each, bit by bit in the middle.
Packets are cut at the firmware's boundaries, or at the BREAKs where there are none.
-/

namespace Tapioca.Host.DmxRle

open CanRle (BOUNDARY_RUN bitsToRuns)
open Lib.Waveform (Seg bisectRight)

abbrev HIGH : Bool := true

abbrev LOW : Bool := false

def BREAK_BITS : ℚ := 16
def IDLE_SEP_BITS : ℚ := 4

/-- The loop of `assign_levels`; `lv` is the level of the next run. -/
def levelsFrom (idle lv : Bool) : List ℤ → List Bool
  | [] => []
  | r :: runs =>
    if r ≥ BOUNDARY_RUN then idle :: levelsFrom idle (!idle) runs
    else lv :: levelsFrom idle (!lv) runs

def assignLevels (runs : List ℤ) (idleHigh : Bool) : List Bool := levelsFrom idleHigh idleHigh runs

-- ---------------------------------------------------------------------------
-- The time axis
-- ---------------------------------------------------------------------------

/-- The bits and the level a run stands for. -/
def segment (uiLo uiHi : ℚ) (r : ℤ) (lv : Bool) : ℚ × Bool :=
  if r ≥ BOUNDARY_RUN then (IDLE_SEP_BITS, HIGH) else (r / if lv = HIGH then uiHi else uiLo, lv)

/-- The loop of `_Timeline`: the segments from a position on; runs that are not positive are left out. -/
def segsFrom (uiLo uiHi pos : ℚ) : List (ℤ × Bool) → List (Seg ℚ Bool)
  | [] => []
  | (r, lv) :: runs =>
    let (dur, l) := segment uiLo uiHi r lv
    if dur ≤ 0 then segsFrom uiLo uiHi pos runs
    else ⟨pos, pos + dur, l⟩ :: segsFrom uiLo uiHi (pos + dur) runs

/-- Where its boundaries are. -/
def boundsFrom (uiLo uiHi pos : ℚ) : List (ℤ × Bool) → List ℚ
  | [] => []
  | (r, lv) :: runs =>
    let (dur, _) := segment uiLo uiHi r lv
    let bounds := boundsFrom uiLo uiHi (if dur ≤ 0 then pos else pos + dur) runs
    if r ≥ BOUNDARY_RUN then pos :: bounds else bounds

/-- Where it ends. -/
def endFrom (uiLo uiHi pos : ℚ) : List (ℤ × Bool) → ℚ
  | [] => pos
  | (r, lv) :: runs =>
    let (dur, _) := segment uiLo uiHi r lv
    endFrom uiLo uiHi (if dur ≤ 0 then pos else pos + dur) runs

structure Timeline where
  segs : List (Seg ℚ Bool)
  bounds : List ℚ
  stop : ℚ
  sorted : segs.Pairwise fun s t => s.start < t.start

theorem le_start_segsFrom (uiLo uiHi pos : ℚ) (runs : List (ℤ × Bool)) :
    ∀ s ∈ segsFrom uiLo uiHi pos runs, pos ≤ s.start := by
  induction runs generalizing pos with
  | nil => simp [segsFrom]
  | cons r runs ih =>
    rw [segsFrom]
    dsimp only
    split
    · exact ih pos
    · rename_i hpos
      refine List.forall_mem_cons.mpr ⟨le_rfl, fun s hs => ?_⟩
      exact (lt_add_of_pos_right _ (not_le.mp hpos)).le.trans (ih _ s hs)

theorem sorted_segsFrom (uiLo uiHi pos : ℚ) (runs : List (ℤ × Bool)) :
    (segsFrom uiLo uiHi pos runs).Pairwise fun s t => s.start < t.start := by
  induction runs generalizing pos with
  | nil => exact .nil
  | cons r runs ih =>
    rw [segsFrom]
    dsimp only
    split
    · exact ih pos
    · rename_i hpos
      refine .cons (fun s hs => ?_) (ih _)
      exact (lt_add_of_pos_right _ (not_le.mp hpos)).trans_le (le_start_segsFrom _ _ _ _ s hs)

namespace Timeline

/-- `_Timeline(runs, levels, ui_lo, ui_hi)` -/
def new (runs : List ℤ) (levels : List Bool) (uiLo uiHi : ℚ) : Timeline where
  segs := segsFrom uiLo uiHi 0 (runs.zip levels)
  bounds := boundsFrom uiLo uiHi 0 (runs.zip levels)
  stop := endFrom uiLo uiHi 0 (runs.zip levels)
  sorted := sorted_segsFrom uiLo uiHi 0 (runs.zip levels)

def starts (tl : Timeline) : List ℚ := tl.segs.map Seg.start

/-- HIGH before and behind the stream. -/
def levelAt (tl : Timeline) (p : ℚ) : Bool :=
  match bisectRight tl.starts p with
  | 0 => HIGH
  | i + 1 =>
    match tl.segs[i]? with
    | none => HIGH
    | some s => if p < s.stop then s.level else HIGH

def nextFalling (tl : Timeline) (p : ℚ) : Option ℚ :=
  ((tl.segs.drop (bisectRight tl.starts p)).find? (·.level = LOW)).map Seg.start

theorem nextFalling_spec {tl : Timeline} {p q : ℚ} (h : tl.nextFalling p = some q) : p < q ∧ q ∈ tl.starts := by
  obtain ⟨s, hs, rfl⟩ := Option.map_eq_some_iff.mp h
  have hmem := List.mem_of_find?_eq_some hs
  exact ⟨Lib.Waveform.lt_of_mem_drop tl.sorted hmem, List.mem_map_of_mem (List.mem_of_mem_drop hmem)⟩

/-- The segments ahead of an edge, and 1 for itself. -/
def ahead (tl : Timeline) : Option ℚ → Nat
  | none => 0
  | some p => (tl.starts.filter (p < ·)).length + 1

theorem ahead_nextFalling_lt (tl : Timeline) {p q : ℚ} (hpq : p ≤ q) : tl.ahead (tl.nextFalling q) < tl.ahead (some p) := by
  cases hnext : tl.nextFalling q with
  | none => exact Nat.succ_pos _
  | some r =>
    obtain ⟨hqr, hmem⟩ := nextFalling_spec hnext
    have hlt := hpq.trans_lt hqr
    have hfilter : tl.starts.filter (r < ·) = (tl.starts.filter (p < ·)).filter (r < ·) := by
      rw [List.filter_filter]
      refine List.filter_congr fun x _ => ?_
      have himp : r < x → p < x := hlt.trans
      by_cases hx : r < x <;> simp [hx, himp]
    have hless : (tl.starts.filter (r < ·)).length < (tl.starts.filter (p < ·)).length := by
      rw [hfilter, List.length_filter_lt_length_iff_exists]
      exact ⟨r, by simpa using ⟨hmem, hlt⟩, by simp⟩
    exact Nat.succ_lt_succ hless

end Timeline

-- ---------------------------------------------------------------------------
-- The sampler
-- ---------------------------------------------------------------------------

/-- The bits in the middle, LSB first. -/
def sampleByte (tl : Timeline) (p : ℚ) : Nat :=
  (List.range 8).foldl (fun (val k : Nat) => if tl.levelAt (p + 3 / 2 + k) then val ||| 1 <<< k else val) 0

/-- The loop of `_uart_sample`: the bytes behind a falling edge, and the framing errors. -/
def uartLoop (tl : Timeline) (pEnd : ℚ) : Option ℚ → List Nat × Nat
  | none => ([], 0)
  | some p =>
    if p + 19 / 2 ≤ pEnd then
      if tl.levelAt (p + 1 / 2) ≠ LOW then uartLoop tl pEnd (tl.nextFalling (p + 1 / 2))
      else if tl.levelAt (p + 19 / 2) ≠ HIGH then
        -- the next edge is behind `p`, so the test for one that is not breaks nothing off
        let (out, errs) := uartLoop tl pEnd (tl.nextFalling (p + 1 / 2))
        (out, errs + 1)
      else
        let (out, errs) := uartLoop tl pEnd (tl.nextFalling (p + 19 / 2))
        (sampleByte tl p :: out, errs)
    else ([], 0)
termination_by p => tl.ahead p
decreasing_by all_goals exact tl.ahead_nextFalling_lt (by linarith)

def uartSample (tl : Timeline) (pStart pEnd : ℚ) : List Nat × Nat :=
  uartLoop tl pEnd (tl.nextFalling (pStart - 1 / 10 ^ 9))

-- ---------------------------------------------------------------------------
-- Packets
-- ---------------------------------------------------------------------------

/-- The loop of `_first_break_end`. -/
def breakEnd (pEnd : ℚ) : List (Seg ℚ Bool) → Option ℚ
  | [] => none
  | s :: segs =>
    if s.start ≥ pEnd then none
    else if s.level = LOW ∧ s.stop - s.start ≥ BREAK_BITS then some s.stop
    else breakEnd pEnd segs

def firstBreakEnd (tl : Timeline) (pStart pEnd : ℚ) : Option ℚ :=
  breakEnd pEnd (tl.segs.drop (bisectRight tl.starts pStart - 1))

/-- Where the segments are that are long enough for a BREAK. -/
def breaks (segs : List (Seg ℚ Bool)) : List ℚ :=
  (segs.filter fun s => s.level = LOW ∧ s.stop - s.start ≥ BREAK_BITS).map Seg.start

/-- From boundary to boundary, or from BREAK to BREAK, or to the end. -/
def regions (tl : Timeline) : List (ℚ × ℚ) :=
  let edges := if tl.bounds ≠ [] then tl.bounds else breaks tl.segs
  edges.zip (edges.tail ++ [tl.stop])

/-- A packet and its framing errors, if the region has one. -/
def decodeRegion (tl : Timeline) (region : ℚ × ℚ) : Option (List Nat × Nat) :=
  match firstBreakEnd tl region.1 region.2 with
  | none => none
  | some mab =>
    let (slots, e) := uartSample tl mab region.2
    if slots ≠ [] then some (slots, e) else none

def decodeTimeline (tl : Timeline) : List (List Nat) × List Nat := ((regions tl).filterMap (decodeRegion tl)).unzip

def decodeWith (runs : List ℤ) (ui : ℚ) (idleHigh : Bool) : List (List Nat) × List Nat :=
  decodeTimeline (.new runs (assignLevels runs idleHigh) ui ui)

-- ---------------------------------------------------------------------------
-- The encoder
-- ---------------------------------------------------------------------------

/-- START, the data LSB first, two STOPs. -/
def slotBits (b : Nat) : List Bool := [LOW] ++ (List.range 8).map b.testBit ++ [HIGH, HIGH]

/-- The keyword arguments of `encode_packet`; `c` is the bias of a run. -/
structure EncodeArgs where
  ui : ℤ := 22
  breakBits : Nat := 24
  mabBits : Nat := 4
  idleBits : Nat := 8
  c : ℤ := 0
  leadIdle : Bool := true

def packetBits (slots : List Nat) (args : EncodeArgs) : List Bool :=
  (if args.leadIdle then List.replicate args.idleBits HIGH else []) ++ List.replicate args.breakBits LOW ++
    List.replicate args.mabBits HIGH ++ slots.flatMap slotBits ++ List.replicate args.idleBits HIGH

/-- The ticks of the runs. -/
def encodePacket (slots : List Nat) (args : EncodeArgs) : List ℤ :=
  (bitsToRuns (packetBits slots args)).map fun run => run.2 * args.ui + args.c

end Tapioca.Host.DmxRle

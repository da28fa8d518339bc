-- SUMMARY: The browser's DMX view: batches cut at the firmware's boundaries, the calibration kept between them, the demo's packets.
import Mathlib.Tactic
import Tapioca.Host.CanTraffic
import Tapioca.Host.DmxFramed
import Tapioca.Host.RunFrontEnds
import Tapioca.Host.WebSniffer

/-!
# The DMX view

`DmxProc` waits until eight boundaries have come in, decodes up to the last of them and
starts the next batch with it. A calibration is kept as long as a batch has a packet with
the start code of dimmers. The decoder itself is a port of the script's.
-/

namespace Tapioca.WebSniffer

open Host.CanRle (BOUNDARY_RUN captureToRuns items runBytes reconstructContinuation)
open Host.DmxRle
open Lib.Lts (run)

/-! ## Calibration -/

def dmxScore (packets : List (List Nat)) (errs : Nat) : ℤ :=
  ((packets.filter (·.head? = some 0)).map List.length).sum - 5 * errs

/-- The units and polarities that are tried, in their order. -/
def dmxCandidates : List (ℚ × Bool) :=
  [true, false].flatMap fun idleHigh => (List.range 37).map fun j => ((150 + 5 * j) / 10, idleHigh)

/-- The first of the best. -/
def dmxCalibrate (runs : List ℤ) : ℚ × Bool :=
  let bidx : List Nat := (List.range runs.length).filter fun (i : Nat) => runs[i]?.any fun r : ℤ => r ≥ BOUNDARY_RUN
  let sub := match bidx[4]? with
    | some i => runs.take i
    | none => runs
  let best := dmxCandidates.foldl (fun (best : Option (ℤ × ℚ × Bool)) cal =>
    let (packets, errs) := decodeWith sub cal.1 cal.2
    let sc := dmxScore packets errs.sum
    match best with
    | none => some (sc, cal)
    | some b => if sc > b.1 then some (sc, cal) else some b) none
  match best with
  | some b => b.2
  | none => (0, true)

/-! ## Batches -/

/-- `DmxProc`; `loss` is the page's. `calls` are the packets handed to the page. -/
structure DmxProc where
  acc : List UInt8 := []
  cal : Option (ℚ × Bool) := none
  loss : Nat := 0
  calls : List (List Nat) := []

namespace DmxProc

def decodeBatch (p : DmxProc) (buf : List UInt8) : DmxProc :=
  let runs := captureToRunsJS buf
  if runs = [] then p
  else
    let cal := match p.cal with
      | some cal => cal
      | none => dmxCalibrate (runs.map Nat.cast)
    let (packets, _) := decodeWith (runs.map Nat.cast) cal.1 cal.2
    { p with
      cal := if packets.any (·.head? = some 0) then some cal else none
      calls := p.calls ++ packets }

def cutBatch (p : DmxProc) : DmxProc :=
  if p.acc.count 0xFF ≥ 8 then
    match lastIndexOf 0xFF p.acc with
    | some cut => { p with acc := p.acc.drop cut }.decodeBatch (p.acc.take (cut + 1))
    | none => p
  else p

def feed (p : DmxProc) (bytes : List UInt8) : DmxProc :=
  let p := { p with acc := p.acc ++ bytes, loss := p.loss + bytes.count 0xFD }.cutBatch
  if p.acc.length > 200000 then { p with acc := p.acc.drop (p.acc.length - 100000) } else p

end DmxProc

/-! ## The demo -/

/-- The bytes of a run, one tick at least. -/
def wireRun (r : ℤ) : List UInt8 := runBytes (max 1 r).toNat

/-- What is behind a boundary on the wire. -/
def regionBytes (args : EncodeArgs) (r : Option (List Nat)) : List UInt8 :=
  (r.elim [] (encodePacket · args)).flatMap wireRun

def framedWire (args : EncodeArgs) (regions : List (Option (List Nat))) : List UInt8 :=
  regions.flatMap fun r => 0xFF :: regionBytes args r

section Wire

variable {args : EncodeArgs} {regions : List (Option (List Nat))}

theorem regionBytes_le (args : EncodeArgs) (r : Option (List Nat)) : ∀ b ∈ regionBytes args r, b ≤ 0x80 := by
  intro b hb
  obtain ⟨x, -, hb⟩ := List.mem_flatMap.mp hb
  exact Host.CanRle.runBytes_le _ b hb

theorem not_boundary_mem (args : EncodeArgs) (r : Option (List Nat)) : (0xFF : UInt8) ∉ regionBytes args r :=
  fun h => absurd (regionBytes_le args r _ h) (by decide)

theorem framedWire_append (xs ys : List (Option (List Nat))) :
    framedWire args (xs ++ ys) = framedWire args xs ++ framedWire args ys := List.flatMap_append

theorem count_framedWire (regions : List (Option (List Nat))) : (framedWire args regions).count 0xFF = regions.length := by
  induction regions with
  | nil => rfl
  | cons r regions ih =>
    have hclean := List.count_eq_zero_of_not_mem (not_boundary_mem args r)
    rw [framedWire, List.flatMap_cons, List.cons_append, List.count_cons_self, List.count_append, hclean, ← framedWire, ih,
      List.length_cons]
    omega

/-- The front of a stream: whole regions, a boundary and a part of what is behind it. -/
theorem framedWire_front {acc rest : List UInt8} (h : acc ++ rest = framedWire args regions) :
    acc = [] ∨ ∃ k t, k < regions.length ∧ acc = framedWire args (regions.take k) ++ 0xFF :: t ∧ (0xFF : UInt8) ∉ t ∧
      0xFF :: t ++ rest = framedWire args (regions.drop k) ∧ ∃ r ∈ regions, t.length ≤ (regionBytes args r).length := by
  induction regions generalizing acc with
  | nil => exact .inl (List.append_eq_nil_iff.mp h).1
  | cons r regions ih =>
    cases acc with
    | nil => exact .inl rfl
    | cons x acc =>
      right
      have hwire : framedWire args (r :: regions) = 0xFF :: (regionBytes args r ++ framedWire args regions) := rfl
      rw [hwire, List.cons_append] at h
      obtain ⟨hx, htail⟩ := List.cons.inj h
      subst hx
      rcases List.append_eq_append_iff.mp htail with ⟨t, hbody, hrest⟩ | ⟨t, hacc, hrest⟩
      · refine ⟨0, acc, Nat.succ_pos _, rfl, ?_, ?_, r, List.mem_cons_self, ?_⟩
        · intro hmem
          exact not_boundary_mem args r (hbody ▸ List.mem_append_left t hmem)
        · rw [List.drop_zero, hwire, hbody, hrest, List.append_assoc]
          rfl
        · rw [hbody, List.length_append]
          exact Nat.le_add_right _ _
      · rcases ih hrest.symm with rfl | ⟨k, t', hk, ht, hclean, hback, r', hr', hlen⟩
        · refine ⟨0, regionBytes args r, Nat.succ_pos _, ?_, not_boundary_mem args r, ?_, r, List.mem_cons_self, le_rfl⟩
          · rw [hacc, List.append_nil]
            rfl
          · rw [List.drop_zero, hwire, hrest]
            rfl
        · refine ⟨k + 1, t', Nat.succ_lt_succ hk, ?_, hclean, ?_, r', List.mem_cons_of_mem _ hr', hlen⟩
          · have hfirst : framedWire args (r :: regions.take k) = 0xFF :: (regionBytes args r ++ framedWire args (regions.take k)) := rfl
            rw [hacc, ht, List.take_succ_cons, hfirst, List.cons_append, List.append_assoc]
          · rw [List.drop_succ_cons, hback]

theorem length_framedWire_le {n : Nat} (h : ∀ r ∈ regions, (regionBytes args r).length ≤ n) :
    (framedWire args regions).length ≤ regions.length * (n + 1) := by
  induction regions with
  | nil => exact Nat.zero_le _
  | cons r regions ih =>
    obtain ⟨hr, hregions⟩ := List.forall_mem_cons.mp h
    have hrest := ih hregions
    rw [framedWire] at hrest
    rw [framedWire, List.flatMap_cons, List.length_append, List.length_cons, List.length_cons, Nat.succ_mul]
    omega

theorem lastIndexOf_append_cons (xs : List UInt8) {t : List UInt8} (h : (0xFF : UInt8) ∉ t) :
    lastIndexOf 0xFF (xs ++ 0xFF :: t) = some xs.length := by
  have hnone : lastIndexOf 0xFF t = none := by
    induction t with
    | nil => rfl
    | cons x t ih =>
      rw [List.mem_cons, not_or] at h
      rw [lastIndexOf, ih h.2, if_neg (Ne.symm h.1)]
  induction xs with
  | nil => rw [List.nil_append, lastIndexOf, hnone, if_pos rfl]; rfl
  | cons x xs ih => rw [List.cons_append, lastIndexOf, ih]; rfl

/-- The runs of a stream are the boundaries and the runs of the packets. -/
theorem captureToRuns_framedWire (hticks : ∀ p, some p ∈ regions → ∀ r ∈ encodePacket p args, 1 ≤ r) :
    (captureToRuns (framedWire args regions)).map (Nat.cast : Nat → ℤ) = framed args regions := by
  have hruns : ∀ (runs : List ℤ) (rest : List UInt8), (∀ r ∈ runs, 1 ≤ r) →
      (reconstructContinuation 0 (items (runs.flatMap wireRun ++ rest))).map (Nat.cast : Nat → ℤ) =
        runs ++ (reconstructContinuation 0 (items rest)).map Nat.cast := by
    intro runs rest hone
    induction runs with
    | nil => rfl
    | cons r runs ih =>
      obtain ⟨hr, hone⟩ := List.forall_mem_cons.mp hone
      have hitems : ∀ (bytes more : List UInt8), (∀ b ∈ bytes, b ≤ 0x80) →
          items (bytes ++ more) = bytes.map .byte ++ items more := by
        intro bytes more hle
        induction bytes with
        | nil => rfl
        | cons b bytes ih =>
          obtain ⟨hb, hle⟩ := List.forall_mem_cons.mp hle
          rw [List.cons_append, Host.CanRle.items_run hb, ih hle, List.map_cons, List.cons_append]
      have hcast : (((0 + (max 1 r).toNat : Nat)) : ℤ) = r := by
        rw [Nat.zero_add, max_eq_right hr, Int.toNat_of_nonneg (zero_le_one.trans hr)]
      rw [List.flatMap_cons, List.append_assoc, wireRun, hitems _ _ (Host.CanRle.runBytes_le _),
        Host.CanRle.reconstruct_runBytes, List.map_cons, hcast, ih hone, List.cons_append]
  have hcapture : ∀ data, captureToRuns data = reconstructContinuation 0 (items data) := fun _ => rfl
  rw [hcapture]
  induction regions with
  | nil =>
    rw [framedWire, List.flatMap_nil, Host.CanRle.items_nil]
    rfl
  | cons r regions ih =>
    have hbody : ∀ x ∈ r.elim [] (encodePacket · args), 1 ≤ x := by
      cases r with
      | none => simp
      | some p => exact hticks p List.mem_cons_self
    have hrest := ih fun p hp => hticks p (List.mem_cons_of_mem _ hp)
    have hcut : items (framedWire args (r :: regions)) = .idleBoundary :: items (regionBytes args r ++ framedWire args regions) :=
      Host.CanRle.items_cut (.inl rfl) _
    rw [hcut, reconstructContinuation, if_neg (not_not.mpr rfl), List.nil_append, List.map_cons, regionBytes, hruns _ _ hbody,
      hrest]
    rfl

end Wire

/-! ## A stream of packets -/

namespace DmxProc

variable {ui c : ℤ} {leadIdle : Bool} {regions : List (Option (List Nat))}

/-- Boundaries and packets of dimmers, none of them longer than a packet is; no two boundaries in a row have nothing
between them. -/
structure Stream (ui c : ℤ) (leadIdle : Bool) (regions : List (Option (List Nat))) : Prop where
  unit : 1 ≤ ui
  bias : 20 * |c| < ui
  short : 24 * ui + c < BOUNDARY_RUN
  start : ∀ p, some p ∈ regions → p.head? = some 0
  byte : ∀ p, some p ∈ regions → ∀ b ∈ p, b < 256
  apart : ∀ i, regions[i]? = some none → regions[i + 1]? ≠ some none
  length : ∀ r ∈ regions, (regionBytes { ui, c, leadIdle } r).length ≤ 25000

namespace Stream

theorem nonempty (h : Stream ui c leadIdle regions) {p : List Nat} (hp : some p ∈ regions) : p ≠ [] := by
  rintro rfl
  exact absurd (h.start [] hp) (by simp)

theorem drop (h : Stream ui c leadIdle regions) (m : Nat) : Stream ui c leadIdle (regions.drop m) := by
  refine ⟨h.unit, h.bias, h.short, fun p hp => h.start p (List.mem_of_mem_drop hp), fun p hp => h.byte p (List.mem_of_mem_drop hp),
    fun i => ?_, fun r hr => h.length r (List.mem_of_mem_drop hr)⟩
  rw [List.getElem?_drop, List.getElem?_drop]
  exact h.apart (m + i)

/-- The runs of a packet are a tick long at least. -/
theorem ticks (h : Stream ui c leadIdle regions) {p : List Nat} (hp : some p ∈ regions) :
    ∀ r ∈ encodePacket p { ui, c, leadIdle }, 1 ≤ r := by
  rw [(encodePacket_levels (h.nonempty hp) h.unit h.short).1, List.forall_mem_map]
  intro x hx
  have hone : (1 : ℤ) ≤ x.2 := by exact_mod_cast (one_le_of_mem_regionRuns _ x hx).1
  have hmost := mul_le_mul_of_nonneg_right hone (zero_le_one.trans h.unit)
  have hbias := h.bias
  have hlow := neg_abs_le c
  have habs := abs_nonneg c
  have hunit := h.unit
  rw [Host.DmxRle.ticks]
  omega

end Stream

/-- A batch of whole regions is decoded to their packets, and the calibration kept. -/
theorem decodeBatch_stream (h : Stream ui c leadIdle regions) {k : Nat} (hk : 2 ≤ k) (hlen : k ≤ regions.length) (p : DmxProc)
    (hcal : p.cal = some ((ui : ℚ), !leadIdle)) :
    p.decodeBatch (framedWire { ui, c, leadIdle } (regions.take k) ++ [0xFF]) =
      { p with calls := p.calls ++ (regions.take k).filterMap id } := by
  have hbatch : framedWire { ui, c, leadIdle } (regions.take k) ++ [0xFF] =
      framedWire { ui, c, leadIdle } (regions.take k ++ [none]) := by
    rw [framedWire_append]
    rfl
  have hmem : ∀ q, some q ∈ regions.take k ++ [none] → some q ∈ regions := by
    intro q hq
    rcases List.mem_append.mp hq with hq | hq
    · exact List.mem_of_mem_take hq
    · simp at hq
  have hruns := @captureToRuns_framedWire { ui, c, leadIdle } _ fun q hq => h.ticks (hmem q hq)
  have hdecode := @decodeWith_framed _ _ leadIdle _ (fun q hq => h.nonempty (hmem q hq))
    (fun q hq => h.byte q (hmem q hq)) h.unit h.bias h.short
  have hpackets : (regions.take k ++ [none]).filterMap id = (regions.take k).filterMap id := by simp
  rw [hpackets] at hdecode
  have hsome : ((regions.take k).filterMap id).any (fun q => q.head? = some 0) = true := by
    -- one of the first two regions is a packet
    obtain ⟨q, hq⟩ : ∃ q, some q ∈ regions.take k := by
      by_contra hnone
      push Not at hnone
      have hfirst : ∀ i < 2, regions[i]? = some none := by
        intro i hi
        have hlt : i < regions.length := by omega
        rw [List.getElem?_eq_getElem hlt, Option.some_inj]
        have hin : regions[i] ∈ regions.take k := by
          rw [List.mem_take_iff_getElem]
          exact ⟨i, by omega, rfl⟩
        cases hr : regions[i] with
        | none => rfl
        | some q => exact absurd (hr ▸ hin) (hnone q)
      exact h.apart 0 (hfirst 0 (by omega)) (hfirst 1 (by omega))
    rw [List.any_eq_true]
    exact ⟨q, List.mem_filterMap.mpr ⟨some q, hq, rfl⟩, decide_eq_true (h.start q (List.mem_of_mem_take hq))⟩
  have hne : captureToRunsJS (framedWire { ui, c, leadIdle } (regions.take k ++ [none])) ≠ [] := by
    rw [captureToRunsJS_eq]
    intro hnil
    rw [hnil] at hruns
    have hframed : framed { ui, c, leadIdle } (regions.take k ++ [none]) =
        framed { ui, c, leadIdle } (regions.take k) ++ [(BOUNDARY_RUN : ℤ)] := List.flatMap_append
    rw [hframed] at hruns
    simp at hruns
  rw [hbatch, decodeBatch, if_neg hne, hcal, captureToRunsJS_eq, hruns]
  dsimp only
  rw [hdecode]
  dsimp only
  rw [if_pos hsome, ← hcal]

/-- Some of the stream is done with, the rest of what has come is kept. -/
structure Behind (ui c : ℤ) (leadIdle : Bool) (regions : List (Option (List Nat))) (p p' : DmxProc) (rest : List UInt8)
    (m : Nat) : Prop where
  acc : p'.acc ++ rest = framedWire { ui, c, leadIdle } (regions.drop m)
  calls : p'.calls = p.calls ++ (regions.take m).filterMap id
  cal : p'.cal = some ((ui : ℚ), !leadIdle)
  few : p'.acc.count 0xFF < 8

/-- A chunk. -/
theorem Behind.feed (h : Stream ui c leadIdle regions) {p p' : DmxProc} {bytes rest : List UInt8} {m : Nat}
    (hp : Behind ui c leadIdle regions p p' (bytes ++ rest) m) :
    ∃ n, Behind ui c leadIdle regions p (p'.feed bytes) rest n := by
  obtain ⟨hacc, hcalls, hcal, hfew⟩ := hp
  rw [← List.append_assoc] at hacc
  have hdrop := h.drop m
  obtain ⟨q, hq⟩ : ∃ q : DmxProc, q = { p' with acc := p'.acc ++ bytes, loss := p'.loss + bytes.count 0xFD } := ⟨_, rfl⟩
  have hqacc : q.acc = p'.acc ++ bytes := by rw [hq]
  have hqcalls : q.calls = p'.calls := by rw [hq]
  have hqcal : q.cal = p'.cal := by rw [hq]
  rw [← hqacc] at hacc
  have hfeed : p'.feed bytes =
      if q.cutBatch.acc.length > 200000 then
        { q.cutBatch with acc := q.cutBatch.acc.drop (q.cutBatch.acc.length - 100000) }
      else q.cutBatch := by rw [hq]; rfl
  rw [hfeed]
  rcases framedWire_front hacc with hnil | ⟨k, t, hk, hfront, hclean, hback, r, hr, hlen⟩
  · have hwait : q.cutBatch = q := if_neg (by rw [hnil]; decide)
    rw [hwait, if_neg (by rw [hnil]; decide)]
    exact ⟨m, hacc, hqcalls.trans hcalls, hqcal.trans hcal, by rw [hnil]; decide⟩
  have hshort := hlen.trans (hdrop.length r hr)
  have hcount : q.acc.count 0xFF = k + 1 := by
    rw [hfront, List.count_append, count_framedWire, List.length_take, min_eq_left hk.le, List.count_cons_self,
      List.count_eq_zero_of_not_mem hclean]
  by_cases hfull : q.acc.count 0xFF ≥ 8
  · -- the batch ends with the last boundary, and the next one begins with it
    have hcut : q.cutBatch = { q with acc := 0xFF :: t, calls := q.calls ++ ((regions.drop m).take k).filterMap id } := by
      have htake : q.acc.take ((framedWire { ui, c, leadIdle } ((regions.drop m).take k)).length + 1) =
          framedWire { ui, c, leadIdle } ((regions.drop m).take k) ++ [0xFF] := by
        rw [hfront, List.append_cons, ← List.length_singleton (a := (0xFF : UInt8)), ← List.length_append, List.take_left]
      have hkeep : q.acc.drop (framedWire { ui, c, leadIdle } ((regions.drop m).take k)).length = 0xFF :: t := by
        rw [hfront, List.drop_left]
      have hlast : lastIndexOf 0xFF q.acc = some (framedWire { ui, c, leadIdle } ((regions.drop m).take k)).length := by
        rw [hfront]
        exact lastIndexOf_append_cons _ hclean
      rw [cutBatch, if_pos hfull, hlast]
      dsimp only
      rw [htake, hkeep]
      exact decodeBatch_stream hdrop (by omega) hk.le { q with acc := 0xFF :: t } (hqcal.trans hcal)
    rw [hcut, if_neg (by rw [List.length_cons]; omega)]
    refine ⟨m + k, ?_, ?_, hqcal.trans hcal, ?_⟩
    · rw [hback, List.drop_drop]
    · dsimp only
      rw [hqcalls, hcalls, List.append_assoc, ← List.filterMap_append, ← List.take_add]
    · rw [List.count_cons_self, List.count_eq_zero_of_not_mem hclean]
      omega
  · have hwait : q.cutBatch = q := if_neg hfull
    have hsize : q.acc.length ≤ 200000 := by
      have hwire := @length_framedWire_le { ui, c, leadIdle } ((regions.drop m).take k) _
        fun r hr => hdrop.length r (List.mem_of_mem_take hr)
      have hk7 : k * (25000 + 1) ≤ 6 * (25000 + 1) := Nat.mul_le_mul_right _ (by omega)
      rw [List.length_take, min_eq_left hk.le] at hwire
      rw [hfront, List.length_append, List.length_cons]
      omega
    rw [hwait, if_neg (not_lt.mpr hsize)]
    exact ⟨m, hacc, hqcalls.trans hcalls, hqcal.trans hcal, not_le.mp hfull⟩

theorem Behind.run (h : Stream ui c leadIdle regions) {p p' : DmxProc} {chunks : List (List UInt8)} {m : Nat}
    (hp : Behind ui c leadIdle regions p p' chunks.flatten m) :
    ∃ n, Behind ui c leadIdle regions p (Lib.Lts.run DmxProc.feed p' chunks) [] n := by
  induction chunks generalizing p' m with
  | nil => exact ⟨m, hp⟩
  | cons chunk chunks ih =>
    rw [List.flatten_cons] at hp
    obtain ⟨n, hnext⟩ := hp.feed h
    exact ih hnext

end DmxProc

end Tapioca.WebSniffer

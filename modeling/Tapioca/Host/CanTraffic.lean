-- SUMMARY: CAN traffic on the bus, as runs and gaps: what a locked calibration makes of each frame.
import Mathlib.Tactic
import Tapioca.Host.CanLive
import Tapioca.Host.CanParse

/-!
# Traffic

A data frame is measured run by run, each within half a bit, up to the recessive run it
ends in, which merges into the gap behind it. A locked calibration cuts the frames apart
and reads each of them whole.
-/

namespace Tapioca.Host.CanRle

open Lib.Bits (ofBits toBits)
open Lib.Rounding (roundEven)

/-! ## Runs of a stuffed string -/

/-- The runs of a string start where its levels change. -/
theorem length_bitsToRuns (bits : List Bool) : (bitsToRuns bits).length = Lib.Stuffing.starts none bits := by
  have hskip : ∀ (b : Bool) (bits : List Bool), Lib.Stuffing.starts (some b) bits =
      Lib.Stuffing.starts none (bits.dropWhile (· == b)) := by
    intro b bits
    induction bits with
    | nil => rfl
    | cons c bits ih =>
      by_cases hc : c = b
      · rw [Lib.Stuffing.starts, if_pos (congrArg some hc), List.dropWhile_cons_of_pos (by simpa using hc), hc, ih,
          Nat.zero_add]
      · rw [Lib.Stuffing.starts, if_neg (by simpa using hc), List.dropWhile_cons_of_neg (by simpa using hc),
          Lib.Stuffing.starts, if_neg (Option.some_ne_none c)]
  induction bits using CanRle.bitsToRuns.induct with
  | case1 => rw [bitsToRuns]; rfl
  | case2 b bits ih =>
    rw [bitsToRuns, List.length_cons, ih, Lib.Stuffing.starts, if_neg (Option.some_ne_none b), hskip, Nat.add_comm]

theorem limited_dropWhile {k run : Nat} {b : Bool} {bits : List Bool} (hrun : run ≤ k)
    (h : Lib.Stuffing.Limited k run (some b) bits) :
    run + (bits.takeWhile (· == b)).length ≤ k ∧
      ∀ n, Lib.Stuffing.Limited k n none (bits.dropWhile (· == b)) := by
  induction bits generalizing run with
  | nil => exact ⟨hrun, fun _ => trivial⟩
  | cons c bits ih =>
    obtain ⟨hcount, hrest⟩ := h
    by_cases hc : c = b
    · have hgrow : Lib.Stuffing.count run (some b) c = run + 1 := if_pos (congrArg some hc)
      rw [hgrow, hc] at hrest
      rw [hgrow] at hcount
      obtain ⟨hlen, hback⟩ := ih hcount hrest
      rw [List.takeWhile_cons_of_pos (by simpa using hc), List.dropWhile_cons_of_pos (by simpa using hc),
        List.length_cons]
      exact ⟨by omega, hback⟩
    · have hfirst : Lib.Stuffing.count run (some b) c = 1 := if_neg (by simpa using hc)
      have hnone : ∀ n, Lib.Stuffing.count n none c = 1 := fun n => if_neg (Option.some_ne_none c)
      rw [List.takeWhile_cons_of_neg (by simpa using hc), List.dropWhile_cons_of_neg (by simpa using hc)]
      refine ⟨by simpa using hrun, fun n => ⟨?_, ?_⟩⟩
      · rwa [hnone, ← hfirst]
      · rwa [hnone, ← hfirst]

theorem bitsToRuns_le {k n : Nat} {bits : List Bool} (h : Lib.Stuffing.Limited k n none bits) :
    ∀ run ∈ bitsToRuns bits, run.2 ≤ k := by
  induction bits using CanRle.bitsToRuns.induct generalizing n with
  | case1 => simp [bitsToRuns]
  | case2 b bits ih =>
    have hfirst : Lib.Stuffing.count n none b = 1 := if_neg (Option.some_ne_none b)
    obtain ⟨hcount, hrest⟩ := h
    rw [hfirst] at hcount hrest
    obtain ⟨hlen, hback⟩ := limited_dropWhile hcount hrest
    rw [bitsToRuns, List.forall_mem_cons]
    exact ⟨hlen, ih (hback 0)⟩

theorem length_bitsToRuns_le (bits : List Bool) : (bitsToRuns bits).length ≤ bits.length := by
  induction bits using CanRle.bitsToRuns.induct with
  | case1 => simp [bitsToRuns]
  | case2 b bits ih =>
    have hback := (List.dropWhile_sublist (l := bits) (· == b)).length_le
    rw [bitsToRuns, List.length_cons, List.length_cons]
    omega

/-! ## A frame up to its gap -/

/-- The bits of a frame in front of the recessive run it ends in. -/
def sentBits (canId : Nat) (data : List Nat) : List Bool := dropGap (buildFrameBits canId data)

/-- The CRC leaves its last bit in front of the gap, where there is no data to make up for it. -/
def EndsInSight (canId : Nat) (data : List Nat) : Prop :=
  data ≠ [] ∨ (canCrc15 (coreBits canId data)).testBit 0 = DOMINANT ∨
    (stuff (crcBits (coreBits canId data))).getLast? = some DOMINANT

variable {canId : Nat} {data : List Nat}

/-- What the gap takes from a frame are recessive bits, none where there is no data. -/
theorem exists_sent (h : EndsInSight canId data) :
    ∃ j ≤ 5, crcBits (coreBits canId data) = unstuff (sentBits canId data) ++ List.replicate j RECESSIVE ∧
      (data = [] → j = 0) := by
  obtain ⟨j, hj, hcore⟩ := unstuff_dropGap (crcBits (coreBits canId data))
  rw [sentBits, buildFrameBits, dropGap_append_ones]
  refine ⟨j, hj, hcore, fun hnil => ?_⟩
  rcases h with hdata | hbit | hend
  · exact absurd hnil hdata
  · obtain ⟨front, hlast⟩ := crcBits_concat (coreBits canId data)
    rcases j with _ | j
    · rfl
    · rw [hlast, hbit, List.replicate_succ', ← List.append_assoc] at hcore
      cases (List.append_inj' hcore rfl).2
  · rw [dropGap_of_dominant hend, unstuff_stuff, ← List.append_nil (crcBits _), List.append_assoc] at hcore
    have hlen := congrArg List.length (List.append_cancel_left hcore)
    simpa using hlen.symm

theorem length_crcBits_coreBits (canId : Nat) (data : List Nat) :
    (crcBits (coreBits canId data)).length = 34 + data.length * 8 := by
  rw [length_crcBits, length_coreBits]
  omega

/-- Enough bits are left to find the fields. -/
theorem length_unstuff_sent (h : EndsInSight canId data) : 34 ≤ (unstuff (sentBits canId data)).length := by
  obtain ⟨j, hj, hcore, hnil⟩ := exists_sent h
  have hlen := congrArg List.length hcore
  rw [length_crcBits_coreBits, List.length_append, List.length_replicate] at hlen
  rcases data with _ | ⟨b, data⟩
  · rw [hnil rfl, List.length_nil] at hlen
    omega
  · rw [List.length_cons] at hlen
    omega

/-- What a data frame parses to. -/
def sentFrame (canId : Nat) (data : List Nat) : Frame :=
  ⟨canId, 0, data.length, data, canCrc15 (coreBits canId data), canCrc15 (coreBits canId data), true⟩

/-- The bits in front of the gap are enough to read the frame whole. -/
theorem parse_sent (hid : canId < 2 ^ 11) (hlen : data.length ≤ 8) (hbyte : ∀ b ∈ data, b < 256)
    (h : EndsInSight canId data) : parseFrame (unstuff (sentBits canId data)) = some (.standard (sentFrame canId data)) := by
  obtain ⟨j, hj, hcore, -⟩ := exists_sent h
  have hmin : min data.length 8 = data.length := min_eq_left hlen
  have hall := congrArg List.length hcore
  rw [length_crcBits_coreBits, List.length_append, List.length_replicate] at hall
  have hpad : 19 + min data.length 8 * 8 + 15 - (unstuff (sentBits canId data)).length = j := by omega
  have hcrc : ofBits (toBits 15 (canCrc15 (coreBits canId data))) = canCrc15 (coreBits canId data) := by
    rw [Lib.Bits.ofBits_toBits, Nat.mod_eq_of_lt (canCrc15_lt _)]
  have hbits : unstuff (sentBits canId data) ++
      List.replicate (19 + min data.length 8 * 8 + 15 - (unstuff (sentBits canId data)).length) RECESSIVE =
        header canId false false data.length ++ data.flatMap (toBits 8) ++ toBits 15 (canCrc15 (coreBits canId data)) ++
          [] := by
    rw [hpad, ← hcore, List.append_nil, crcBits, coreBits_eq]
  have hparse := parseFrame_fields hid (by omega) hmin.symm hbyte (Lib.Bits.length_toBits 15 _)
    (length_unstuff_sent h) hbits
  rw [← coreBits_eq, hcrc, beq_self_eq_true] at hparse
  exact hparse

theorem limited_sent (canId : Nat) (data : List Nat) : Lib.Stuffing.Limited 5 0 none (sentBits canId data) := by
  have hstuff : Lib.Stuffing.Limited 5 0 none (Lib.Stuffing.stuff 5 (crcBits (coreBits canId data))) :=
    Lib.Stuffing.limited_stuffFrom (by omega) (by omega) none _
  obtain ⟨t, hgap⟩ := dropGap_append (stuff (crcBits (coreBits canId data)))
  rw [← stuff_eq, hgap] at hstuff
  rw [sentBits, buildFrameBits, dropGap_append_ones]
  exact hstuff.prefix

/-- A frame has runs enough to be taken for one. -/
theorem sent_runs_ge (h : EndsInSight canId data) : 8 ≤ (bitsToRuns (sentBits canId data)).length := by
  have hlong := length_unstuff_sent h
  have hstarts := Lib.Stuffing.length_unstuffFrom_le (Nat.zero_le 5) (limited_sent canId data)
  rw [← Lib.Stuffing.unstuff, ← unstuff_eq, ← length_bitsToRuns] at hstarts
  omega

theorem sent_runs_le (hlen : data.length ≤ 8) : (bitsToRuns (sentBits canId data)).length ≤ 196 := by
  have hruns := length_bitsToRuns_le (sentBits canId data)
  have hstuff := Lib.Stuffing.length_stuffFrom_le 5 0 none (crcBits (coreBits canId data))
  obtain ⟨t, hgap⟩ := dropGap_append (stuff (crcBits (coreBits canId data)))
  have hcut := congrArg List.length hgap
  rw [List.length_append] at hcut
  rw [← Lib.Stuffing.stuff, ← stuff_eq, length_crcBits_coreBits] at hstuff
  rw [sentBits, buildFrameBits, dropGap_append_ones] at hruns ⊢
  omega

theorem head_sentBits (h : EndsInSight canId data) : ∀ b ∈ (sentBits canId data).head?, b = DOMINANT := by
  obtain ⟨t, hgap⟩ := dropGap_append (buildFrameBits canId data)
  have hhead := head_buildFrameBits canId data
  have hne : sentBits canId data ≠ [] := by
    intro hnil
    have hlen := length_unstuff_sent h
    rw [hnil] at hlen
    simp [unstuff] at hlen
  rw [hgap, ← sentBits, List.head?_append_of_ne_nil _ hne] at hhead
  intro b hb
  exact Option.some.inj (hb.symm.trans hhead)

/-! ## Frames as they are measured -/

/-- A data frame, and the ticks its runs are measured at up to the recessive run it ends in. -/
structure Sent (cal : Cal) where
  canId : Nat
  data : List Nat
  runs : List Nat
  id_lt : canId < 2 ^ 11
  data_le : data.length ≤ 8
  byte_lt : ∀ b ∈ data, b < 256
  ends : EndsInSight canId data
  measured : List.Forall₂ (Jittered cal) (bitsToRuns (sentBits canId data)) (runs.map (Nat.cast : Nat → ℚ))

variable {cal : Cal}

/-- Half a bit of jitter does not take a run to the threshold. -/
theorem Cal.Locked.jittered_below (h : cal.Locked) {run : Bool × Nat} {x : ℚ} (hrun : run.2 ≤ 5)
    (hx : Jittered cal run x) : x < boundFromUi cal := by
  obtain ⟨e, rfl, he⟩ := hx
  obtain ⟨hlo, hhi⟩ := h.uiH_bounds
  have hui : cal.ui run.1 ≤ cal.uiL := by
    rw [Cal.ui]
    split
    · exact le_rfl
    · exact hhi
  have hbits : (run.2 : ℚ) * cal.ui run.1 ≤ 5 * cal.uiL :=
    mul_le_mul (by exact_mod_cast hrun) hui (cal.ui_pos _).le (by norm_num)
  have hbias := (abs_le.mp (h.bias run.1)).2
  have hjitter := le_abs_self e
  have hfloor := floor_le_boundFromUi cal
  have hmean := mean_le_boundFromUi cal
  -- the floor is above five and a half short bits, the mean above as many long ones
  rcases lt_or_ge cal.uiL 10 with hfast | hslow <;> linarith

/-- A run within half a bit is not half a bit off. -/
theorem not_split_of_jittered {level : Bool} {k : Nat} {x : ℚ} (h : Jittered cal (level, k) x) :
    ¬ SplitRun cal level x := by
  obtain ⟨e, rfl, he⟩ := h
  rintro ⟨m, -, -, hm⟩
  have hui := cal.ui_pos level
  have hlen : cal.length level (k * cal.ui level + cal.c level + e) = k + e / cal.ui level := by
    rw [Cal.length]
    field_simp
    ring
  have hsmall : |e / cal.ui level| < 1 / 2 := by
    rw [abs_div, abs_of_pos hui, div_lt_iff₀ hui]
    linarith
  obtain ⟨hlow, hhigh⟩ := abs_lt.mp hsmall
  rw [hlen] at hm
  have h1 : (m : ℚ) < k := by linarith
  have h2 : (k : ℚ) < m + 1 := by linarith
  have h1' : m < (k : ℤ) := by exact_mod_cast h1
  have h2' : (k : ℤ) < m + 1 := by exact_mod_cast h2
  omega

theorem expandRuns_round_of_jittered {bits : List Bool} {level : Bool} {xs : List ℚ}
    (hlevel : ∀ b ∈ bits.head?, b = level) (h : List.Forall₂ (Jittered cal) (bitsToRuns bits) xs) :
    expandRuns round cal level xs = expandRuns roundEven cal level xs := by
  induction bits using CanRle.bitsToRuns.induct generalizing level xs with
  | case1 =>
    rw [bitsToRuns, List.forall₂_nil_left_iff] at h
    rw [h, expandRuns, expandRuns]
  | case2 b bits ih =>
    obtain rfl : b = level := hlevel b rfl
    rw [bitsToRuns, List.forall₂_cons_left_iff] at h
    obtain ⟨x, xs, hx, hxs, rfl⟩ := h
    have hnext : ∀ c ∈ (bits.dropWhile (· == b)).head?, c = !b := by
      intro c hc
      have hne := List.head?_dropWhile_not (· == b) bits
      rw [Option.mem_def.mp hc] at hne
      exact Bool.eq_not.mpr (beq_eq_false_iff_ne.mp hne)
    rw [expandRuns, expandRuns, (bitCount_eq_iff cal b x).mpr (not_split_of_jittered hx), ih hnext hxs]

namespace Sent

variable (s : Sent cal)

theorem length_runs : s.runs.length = (bitsToRuns (sentBits s.canId s.data)).length := by
  rw [s.measured.length_eq, List.length_map]

theorem runs_ge : 8 ≤ s.runs.length := s.length_runs ▸ sent_runs_ge s.ends

theorem runs_le : s.runs.length ≤ 196 := s.length_runs ▸ sent_runs_le s.data_le

theorem below (h : cal.Locked) : ∀ r ∈ s.runs, (r : ℤ) < boundFromUi cal := by
  intro r hr
  obtain ⟨i, hi, hget⟩ := List.getElem_of_mem hr
  have hrun : ((bitsToRuns (sentBits s.canId s.data)).get ⟨i, s.length_runs ▸ hi⟩).2 ≤ 5 :=
    bitsToRuns_le (limited_sent s.canId s.data) _ (List.get_mem _ _)
  have hjitter := s.measured.get (s.length_runs ▸ hi) (by simpa using hi)
  rw [List.get_eq_getElem, List.get_eq_getElem, List.getElem_map] at hjitter
  have hlt := h.jittered_below hrun hjitter
  rw [hget] at hlt
  exact_mod_cast hlt

/-- The runs of a frame expand to its bits. -/
theorem expand : expandRuns roundEven cal DOMINANT (s.runs.map Nat.cast) = sentBits s.canId s.data :=
  expandRuns_of_jittered (head_sentBits s.ends) s.measured

/-- The other rounding makes no difference to them. -/
theorem expand_round : expandRuns round cal DOMINANT (s.runs.map Nat.cast) = sentBits s.canId s.data :=
  (expandRuns_round_of_jittered (head_sentBits s.ends) s.measured).trans s.expand

def frame : Frame := sentFrame s.canId s.data

theorem parse : parseFrame (unstuff (sentBits s.canId s.data)) = some (.standard s.frame) :=
  parse_sent s.id_lt s.data_le s.byte_lt s.ends

/-- Tier 1 reads a frame, with nothing dropped, where the runs expand to its bits. -/
theorem readCached {rnd : ℚ → ℤ} (hexpand : expandRuns rnd cal DOMINANT (s.runs.map Nat.cast) = sentBits s.canId s.data) :
    CanRle.readCached rnd cal (s.runs.map Nat.cast) = some s.frame := by
  have hread : readUnder rnd cal (s.runs.map Nat.cast) = some s.frame := by
    rw [readUnder, hexpand, s.parse]
    rfl
  have hdrops : drops (s.runs.map (Nat.cast : Nat → ℚ)) = [0, 1] := by
    have hlen := s.runs_ge
    rw [drops, List.filter_eq_self]
    intro i hi
    simp only [List.mem_cons, List.not_mem_nil, or_false] at hi
    rw [List.length_map, decide_eq_true_eq]
    omega
  rw [CanRle.readCached, hdrops, List.findSome?_cons, List.drop_zero, hread]

end Sent

open Lib.Splitter (closed opened)

/-- A run that closes a frame. -/
abbrev Cuts (bound : ℤ) (r : Nat) : Prop := bound ≤ r

/-- The traffic in a capture: what a cut leaves that is long enough for a frame are the frames sent, and the
capture ends behind a gap. -/
structure Traffic (bound : ℤ) (runs : List Nat) (sent : List (Sent cal)) : Prop where
  frames : frames (closed (Cuts bound) [] runs) = sent.map Sent.runs
  whole : opened (Cuts bound) [] runs = []

namespace Traffic

variable {bound : ℤ} {runs : List Nat} {sent : List (Sent cal)}

/-- In front of a capture stand whole frames and less than one more. -/
theorem front {xs ys : List Nat} (h : Traffic bound (xs ++ ys) sent) :
    ∃ m, CanRle.frames (closed (Cuts bound) [] xs) = (sent.take m).map Sent.runs ∧
      Traffic bound (opened (Cuts bound) [] xs ++ ys) (sent.drop m) ∧ (opened (Cuts bound) [] xs).length ≤ 196 := by
  obtain ⟨hframes, hwhole⟩ := h
  have hshort : ∀ f ∈ closed (Cuts bound) [] (xs ++ ys), f.length ≤ 196 := by
    intro f hf
    by_cases hlong : 8 ≤ f.length
    · have hmem : f ∈ CanRle.frames (closed (Cuts bound) [] (xs ++ ys)) := List.mem_filter.mpr ⟨hf, decide_eq_true hlong⟩
      rw [hframes] at hmem
      obtain ⟨s, -, rfl⟩ := List.mem_map.mp hmem
      exact s.runs_le
    · omega
  rw [Lib.Splitter.closed_append] at hshort
  rw [Lib.Splitter.closed_batch, frames_append] at hframes
  rw [Lib.Splitter.opened_append] at hwhole
  obtain ⟨front, back, hsent, hfront, hback⟩ := List.map_eq_append_iff.mp hframes.symm
  refine ⟨front.length, ?_, ⟨?_, ?_⟩, ?_⟩
  · rw [hsent, List.take_left, hfront]
  · rw [hsent, List.drop_left, hback]
  · rw [← Lib.Splitter.opened_batch, Lib.Splitter.opened_append, hwhole]
  · by_cases hnil : opened (Cuts bound) [] xs = []
    · simp [hnil]
    · obtain ⟨f, hf, hprefix⟩ := Lib.Splitter.exists_prefix_closed hnil hwhole
      exact hprefix.length_le.trans (hshort f (List.mem_append_right _ hf))

/-- A capture does not end in the middle of a frame. -/
theorem clean_nil {xs : List Nat} (h : Traffic bound (opened (Cuts bound) [] xs) sent) :
    opened (Cuts bound) [] xs = [] ∧ sent = [] := by
  have hrest := Lib.Splitter.not_cut_of_mem_rest (Cuts bound) xs
  have hwhole := h.whole
  have hframes := h.frames
  rw [Lib.Splitter.opened_clean hrest] at hwhole
  rw [Lib.Splitter.closed_clean hrest] at hframes
  exact ⟨hwhole, List.map_eq_nil_iff.mp hframes.symm⟩

/-- When nothing is left of a capture, all of it has been taken. -/
theorem all_taken {m n : Nat} (h : Traffic bound [] ((sent.drop m).drop n)) :
    sent.take m ++ (sent.drop m).take n = sent := by
  have hdone : sent.drop (m + n) = [] := by
    rw [← List.drop_drop]
    exact (@clean_nil _ _ _ [] h).2
  rw [← List.take_add]
  exact List.take_of_length_le (List.drop_eq_nil_iff.mp hdone)

/-- The loop of a flush emits the frames that are whole, and keeps the front of the next one. -/
theorem cutLoop_front {σ : Type*} {threshold : σ → ℤ} {emit : σ → List Nat → σ} {s : σ} {c : Cutting σ} {xs ys : List Nat}
    (h : Traffic bound (xs ++ ys) sent) (hc : cutLoop threshold emit 0 ⟨s, [], 0, []⟩ xs = c) (I : σ → Prop)
    (hbound : ∀ s, I s → threshold s = bound) (hemit : ∀ s, I s → ∀ f : Sent cal, I (emit s f.runs)) (hs : I s) :
    ∃ m, I c.state ∧ c.state = ((sent.take m).map Sent.runs).foldl emit s ∧ Traffic bound (c.cur ++ ys) (sent.drop m) ∧
      c.cur.length ≤ 196 ∧ (ys = [] → c.cur = []) := by
  obtain ⟨m, hframes, hrest, hlen⟩ := h.front
  have hloop := @cutLoop_splits _ threshold emit bound I 0 ⟨s, [], 0, []⟩ xs hbound
  rw [hframes, hc] at hloop
  obtain ⟨hI, hstate, hcur⟩ := hloop (fun s hs f hf => by
    obtain ⟨sent', -, rfl⟩ := List.mem_map.mp hf
    exact hemit s hs sent') hs
  rw [← hcur] at hrest hlen
  refine ⟨m, hI, hstate, hrest, hlen, fun hnil => ?_⟩
  rw [hnil, List.append_nil, hcur] at hrest
  rw [hcur]
  exact hrest.clean_nil.1

end Traffic

/-! ## On the wire -/

/-- The loop of `frame_to_bytes_continuation` over a run. -/
def runBytes (t : Nat) : List UInt8 := if t ≥ 128 then 0x80 :: runBytes (t - 128) else [UInt8.ofNat t]

theorem runBytes_le (t : Nat) : ∀ b ∈ runBytes t, b ≤ 0x80 := by
  induction t using runBytes.induct with
  | case1 t ht ih =>
    rw [runBytes, if_pos ht]
    exact List.forall_mem_cons.mpr ⟨UInt8.le_refl _, ih⟩
  | case2 t ht =>
    rw [runBytes, if_neg ht, List.forall_mem_singleton, UInt8.le_iff_toNat_le, UInt8.toNat_ofNat']
    exact (Nat.mod_le _ _).trans (le_of_lt (not_le.mp ht))

theorem reconstruct_runBytes (acc t : Nat) (xs : List Item) :
    reconstructContinuation acc ((runBytes t).map Item.byte ++ xs) = (acc + t) :: reconstructContinuation 0 xs := by
  induction t using runBytes.induct generalizing acc with
  | case1 t ht ih =>
    have hcap : (0x80 : UInt8) ≥ 128 := by decide
    have hsum : acc + 128 + (t - 128) = acc + t := by omega
    rw [runBytes, if_pos ht, List.map_cons, List.cons_append, reconstructContinuation, if_pos hcap, ih, hsum]
  | case2 t ht =>
    have hterm : ¬ UInt8.ofNat t ≥ 128 := by
      rw [ge_iff_le, UInt8.le_iff_toNat_le, UInt8.toNat_ofNat', not_le]
      exact (Nat.mod_le _ _).trans_lt (not_le.mp ht)
    have ht' : (UInt8.ofNat t).toNat = t := by
      rw [UInt8.toNat_ofNat']
      omega
    rw [runBytes, if_neg ht, List.map_singleton, List.singleton_append, reconstructContinuation, if_neg hterm, ht']

end Tapioca.Host.CanRle

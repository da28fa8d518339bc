-- SUMMARY: A stream of DMX packets decoded to its slots without framing errors, whatever the bias below a twentieth of a bit.
import Tapioca.Host.DmxPackets

/-!
# DMX streams

Without a boundary the decoder cuts at the BREAKs, which are the only LOW runs of a
packet as long as `BREAK_BITS`. Each region then is one packet.
-/

namespace Tapioca.Host.DmxRle

open CanRle (BOUNDARY_RUN bitsToRuns)
open Lib.Waveform

/-! ## The runs of a stream -/

def streamBits (packets : List (List Nat)) : List Bool := packets.flatMap (packetBits · { leadIdle := false })

theorem bitsToRuns_packet {slots : List Nat} (hslots : slots ≠ []) (more : List Bool)
    (hmore : ∀ x ∈ more.head?, x = LOW) :
    bitsToRuns (packetBits slots { leadIdle := false } ++ more) = packetRuns slots ++ bitsToRuns more := by
  obtain ⟨b, slots, rfl⟩ := List.exists_cons_of_ne_nil hslots
  obtain ⟨S, hS⟩ : ∃ S, S = (b :: slots).flatMap slotBits ++ List.replicate 8 HIGH := ⟨_, rfl⟩
  have hhead : S.head? = some LOW := hS ▸ rfl
  have hlast : S.getLast? = some HIGH := by
    rw [hS, List.getLast?_append_of_ne_nil _ (by simp)]
    rfl
  have hbits : packetBits (b :: slots) { leadIdle := false } ++ more =
      List.replicate 24 LOW ++ (List.replicate 4 HIGH ++ (S ++ more)) := by
    rw [hS, packetBits]
    simp only [Bool.false_eq_true, if_false, List.nil_append, List.append_assoc]
  have hbreak : ∀ x ∈ (List.replicate 24 LOW).getLast?,
      ∀ y ∈ (List.replicate 4 HIGH ++ (S ++ more)).head?, x ≠ y := by
    intro x hx y hy
    obtain rfl := Option.some_inj.mp hx
    obtain rfl := Option.some_inj.mp hy
    exact Bool.noConfusion
  have hmab : ∀ x ∈ (List.replicate 4 HIGH).getLast?, ∀ y ∈ (S ++ more).head?, x ≠ y := by
    intro x hx y hy
    rw [List.head?_append, hhead, Option.some_or] at hy
    obtain rfl := Option.some_inj.mp hx
    obtain rfl := Option.some_inj.mp hy
    exact Bool.noConfusion
  have hend : ∀ x ∈ S.getLast?, ∀ y ∈ more.head?, x ≠ y := by
    intro x hx y hy
    rw [hlast] at hx
    obtain rfl := Option.some_inj.mp hx
    exact hmore y hy ▸ Bool.noConfusion
  rw [hbits, bitsToRuns_append hbreak, bitsToRuns_append hmab, bitsToRuns_append hend, bitsToRuns_replicate (by norm_num),
    bitsToRuns_replicate (by norm_num), packetRuns, slotRuns, hS]
  simp only [List.cons_append, List.nil_append]

theorem head_streamBits (packets : List (List Nat)) : ∀ x ∈ (streamBits packets).head?, x = LOW := by
  cases packets with
  | nil => simp [streamBits]
  | cons p packets =>
    intro x hx
    exact (Option.some_inj.mp hx).symm

theorem bitsToRuns_stream {packets : List (List Nat)} (hslots : ∀ p ∈ packets, p ≠ []) :
    bitsToRuns (streamBits packets) = packets.flatMap packetRuns := by
  induction packets with
  | nil => simp [streamBits, bitsToRuns]
  | cons p packets ih =>
    obtain ⟨hp, hslots⟩ := List.forall_mem_cons.mp hslots
    have hbits : streamBits (p :: packets) = packetBits p { leadIdle := false } ++ streamBits packets := rfl
    rw [hbits, bitsToRuns_packet hp _ (head_streamBits packets), ih hslots, List.flatMap_cons]

/-- The first packet with its leading MARK, and the others without. -/
theorem bitsToRuns_mark_stream {packets : List (List Nat)} (hslots : ∀ p ∈ packets, p ≠ []) :
    bitsToRuns (List.replicate 8 HIGH ++ streamBits packets) = (HIGH, 8) :: packets.flatMap packetRuns := by
  rw [bitsToRuns_append, bitsToRuns_replicate (by norm_num), bitsToRuns_stream hslots, List.singleton_append]
  intro x hx y hy
  obtain rfl := Option.some_inj.mp hx
  exact head_streamBits packets y hy ▸ Bool.noConfusion

/-- No run is longer than the BREAK, and no other LOW run is nearly as long. -/
theorem length_slotRuns (slots : List Nat) : ∀ r ∈ slotRuns slots, r.2 ≤ 19 ∧ (r.1 = LOW → r.2 ≤ 9) := by
  have hbyte : ∀ b n, n ≠ 0 → n ≤ 10 → ∀ r ∈ bitsToRuns (byteBits b n), r.2 ≤ 19 ∧ (r.1 = LOW → r.2 ≤ 9) := by
    intro b n hn hle r hr
    constructor
    · have hlen := le_length_expand hr
      rw [expand_bitsToRuns, length_byteBits] at hlen
      omega
    · intro hlow
      obtain ⟨init, m, hruns, -, hinit⟩ := bitsToRuns_byteBits b hn
      rw [hruns] at hr
      rcases List.mem_append.mp hr with hr | hr
      · exact (le_length_expand hr).trans hinit
      · rw [List.mem_singleton.mp hr] at hlow
        exact Bool.noConfusion hlow
  induction slots with
  | nil =>
    rw [slotRuns, List.flatMap_nil, List.nil_append, bitsToRuns_replicate (by norm_num)]
    decide
  | cons b slots ih =>
    by_cases hmore : slots = []
    · rw [hmore, slotRuns_singleton]
      exact hbyte b 10 (by norm_num) le_rfl
    · rw [slotRuns_cons b hmore, List.forall_mem_append]
      exact ⟨hbyte b 2 (by norm_num) (by norm_num), ih⟩

theorem le_of_mem_stream {packets : List (List Nat)} : ∀ r ∈ packets.flatMap packetRuns, 1 ≤ r.2 ∧ r.2 ≤ 24 := by
  intro r hr
  obtain ⟨p, -, hr⟩ := List.mem_flatMap.mp hr
  refine ⟨one_le_of_mem_packetRuns p r hr, ?_⟩
  rw [packetRuns] at hr
  rcases List.mem_append.mp hr with hr | hr
  · have hhead : ∀ r ∈ [(LOW, 24), (HIGH, 4)], r.2 ≤ 24 := by decide
    exact hhead r hr
  · exact (length_slotRuns p r hr).1.trans (by norm_num)

/-! ## From ticks to the axis -/

section Ticks

variable {ui c : ℤ}

def ticks (ui c : ℤ) (run : Bool × Nat) : ℤ := run.2 * ui + c

/-- Runs of bits alternate, and so do the levels given to them. -/
theorem levelsFrom_bitsToRuns (idle lv : Bool) {bits : List Bool} (hhead : ∀ x ∈ bits.head?, x = lv)
    (hshort : ∀ r ∈ bitsToRuns bits, ticks ui c r < BOUNDARY_RUN) :
    levelsFrom idle lv ((bitsToRuns bits).map (ticks ui c)) = (bitsToRuns bits).map Prod.fst := by
  induction bits using CanRle.bitsToRuns.induct generalizing lv with
  | case1 => simp [bitsToRuns, levelsFrom]
  | case2 b bits ih =>
    obtain rfl := hhead b rfl
    rw [bitsToRuns] at hshort ⊢
    obtain ⟨hrun, hshort⟩ := List.forall_mem_cons.mp hshort
    have hflip : ∀ x ∈ (bits.dropWhile (· == b)).head?, x = !b := by
      intro x hx
      have hne := List.head?_dropWhile_not (· == b) bits
      rw [hx] at hne
      exact Bool.eq_not_of_ne fun heq => by simp [heq] at hne
    rw [List.map_cons, levelsFrom, if_neg (not_le.mpr hrun), ih (!b) hflip hshort, List.map_cons]

theorem bias_lt (hui : 1 ≤ ui) (hbias : 20 * |c| < ui) : |(c : ℚ) / ui| < 1 / 20 := by
  have hpos : (0 : ℚ) < ui := by exact_mod_cast hui
  have hbias : 20 * |(c : ℚ)| < ui := by exact_mod_cast hbias
  rw [abs_div, abs_of_pos hpos, div_lt_iff₀ hpos]
  linarith

theorem segment_ticks (hui : 1 ≤ ui) {r : Bool × Nat} (hshort : ticks ui c r < BOUNDARY_RUN) :
    segment ui ui (ticks ui c r) r.1 = (r.2 + (c : ℚ) / ui, r.1) := by
  have hpos : (ui : ℚ) ≠ 0 := by exact_mod_cast (Int.lt_of_lt_of_le Int.zero_lt_one hui).ne'
  rw [segment, if_neg (not_le.mpr hshort), ite_self, ticks]
  push_cast
  rw [add_div, mul_div_cancel_right₀ _ hpos]

/-- The axis of runs that are no boundary. -/
theorem axis_ticks (hui : 1 ≤ ui) (hbias : 20 * |c| < ui) {runs : List (Bool × Nat)} (hruns : ∀ r ∈ runs, 1 ≤ r.2)
    (hshort : ∀ r ∈ runs, ticks ui c r < BOUNDARY_RUN) (pos : ℚ) :
    segsFrom ui ui pos (runs.map fun r => (ticks ui c r, r.1)) = layout pos (skewed (c / ui : ℚ) runs) ∧
      boundsFrom ui ui pos (runs.map fun r => (ticks ui c r, r.1)) = [] ∧
      endFrom ui ui pos (runs.map fun r => (ticks ui c r, r.1)) = pos + extent (skewed (c / ui : ℚ) runs) := by
  have hskew := bias_lt hui hbias
  have hpositive := skewed_pos (hskew.trans (by norm_num)) hruns
  induction runs generalizing pos with
  | nil => simp [segsFrom, boundsFrom, endFrom, layout, skewed]
  | cons r runs ih =>
    obtain ⟨-, hruns⟩ := List.forall_mem_cons.mp hruns
    obtain ⟨hr, hshort⟩ := List.forall_mem_cons.mp hshort
    have hcons : skewed ((c : ℚ) / ui) (r :: runs) = (r.2 + (c : ℚ) / ui, r.1) :: skewed (c / ui) runs := rfl
    rw [hcons] at hpositive ⊢
    obtain ⟨hdur, hpositive⟩ := List.forall_mem_cons.mp hpositive
    obtain ⟨hsegs, hbounds, hend⟩ := ih hruns hshort (pos + (r.2 + (c : ℚ) / ui)) hpositive
    rw [List.map_cons, segsFrom, boundsFrom, endFrom, segment_ticks hui hr]
    dsimp only
    rw [if_neg (not_le.mpr hdur), if_neg (not_le.mpr hdur), if_neg (not_le.mpr hr), hsegs, hbounds, hend, layout,
      extent_cons, add_assoc]
    exact ⟨rfl, rfl, rfl⟩

end Ticks

/-! ## Regions -/

section Regions

variable {skew : ℚ}

/-- Where the BREAKs of a stream begin. -/
def breakStarts (skew pos : ℚ) : List (List Nat) → List ℚ
  | [] => []
  | p :: packets => pos :: breakStarts skew (pos + extent (skewed skew (packetRuns p))) packets

theorem breaks_append (xs ys : List (Seg ℚ Bool)) : breaks (xs ++ ys) = breaks xs ++ breaks ys := by
  rw [breaks, List.filter_append, List.map_append, breaks, breaks]

/-- Runs of which none is LOW for long. -/
theorem breaks_eq_nil {runs : List (Bool × Nat)} (hskew : |skew| < 1 / 20) (hlow : ∀ r ∈ runs, r.1 = LOW → r.2 ≤ 9)
    (pos : ℚ) : breaks (layout pos (skewed skew runs)) = [] := by
  rw [breaks, List.map_eq_nil_iff, List.filter_eq_nil_iff]
  intro s hs hbreak
  obtain ⟨hlevel, hlong⟩ := of_decide_eq_true hbreak
  obtain ⟨r, hr, heq⟩ := List.mem_map.mp (run_of_mem_layout hs)
  obtain ⟨hdur, hsame⟩ := Prod.mk.inj heq
  have hnine : (r.2 : ℚ) ≤ 9 := by exact_mod_cast hlow r hr (hsame.trans hlevel)
  have hhigh := (abs_lt.mp hskew).2
  rw [← hdur, BREAK_BITS] at hlong
  linarith

theorem breaks_packet (hskew : |skew| < 1 / 20) (pos : ℚ) (slots : List Nat) :
    breaks (layout pos (skewed skew (packetRuns slots))) = [pos] := by
  have hlaid : layout pos (skewed skew (packetRuns slots)) =
      ⟨pos, pos + ((24 : Nat) + skew), LOW⟩ ::
        layout (pos + ((24 : Nat) + skew)) (skewed skew ((HIGH, 4) :: slotRuns slots)) := rfl
  have hrest : ∀ r ∈ (HIGH, 4) :: slotRuns slots, r.1 = LOW → r.2 ≤ 9 :=
    List.forall_mem_cons.mpr ⟨fun h => Bool.noConfusion h, fun r hr => (length_slotRuns slots r hr).2⟩
  have hfirst : breaks [(⟨pos, pos + ((24 : Nat) + skew), LOW⟩ : Seg ℚ Bool)] = [pos] := by
    have hlow := (abs_lt.mp hskew).1
    have hlong : pos + ((24 : Nat) + skew) - pos ≥ BREAK_BITS := by
      rw [BREAK_BITS]
      push_cast
      linarith
    rw [breaks, List.filter_cons, if_pos (decide_eq_true ⟨rfl, hlong⟩), List.filter_nil, List.map_singleton]
  rw [hlaid, ← List.singleton_append, breaks_append, breaks_eq_nil hskew hrest, hfirst, List.append_nil]

theorem breaks_stream (hskew : |skew| < 1 / 20) (pos : ℚ) (packets : List (List Nat)) :
    breaks (layout pos (skewed skew (packets.flatMap packetRuns))) = breakStarts skew pos packets := by
  induction packets generalizing pos with
  | nil => rfl
  | cons p packets ih =>
    rw [List.flatMap_cons, skewed_append, layout_append, breaks_append, breaks_packet hskew, ih, breakStarts,
      List.singleton_append]

/-- From BREAK to BREAK, and from the last one to the end, a region is a packet. -/
theorem filterMap_decodeRegion {tl : Timeline} (hskew : |skew| < 1 / 20) {packets : List (List Nat)}
    (hslots : ∀ p ∈ packets, p ≠ []) (hbytes : ∀ p ∈ packets, ∀ b ∈ p, b < 256) {pos : ℚ}
    (h : tl.Ahead skew pos (packets.flatMap packetRuns))
    (hstop : tl.stop = pos + extent (skewed skew (packets.flatMap packetRuns))) :
    ((breakStarts skew pos packets).zip ((breakStarts skew pos packets).tail ++ [tl.stop])).filterMap (decodeRegion tl) =
      packets.map fun p => (p, 0) := by
  induction packets generalizing pos with
  | nil => rfl
  | cons p packets ih =>
    obtain ⟨hp, hslots⟩ := List.forall_mem_cons.mp hslots
    obtain ⟨hb, hbytes⟩ := List.forall_mem_cons.mp hbytes
    rw [List.flatMap_cons] at h hstop
    rw [skewed_append, extent_append, ← add_assoc] at hstop
    have hlow : ∀ r ∈ (packets.flatMap packetRuns).head?, r.1 = LOW := by
      intro r hr
      cases packets with
      | nil => cases hr
      | cons q packets => exact congrArg Prod.fst (Option.some_inj.mp hr).symm
    have hnext := h.append (hskew.trans (by norm_num)) (one_le_of_mem_packetRuns p)
    have hread := decodeRegion_packet hp hb h (fun r hr => (le_of_mem_stream r hr).1) hlow hskew
    have hrest := ih hslots hbytes hnext hstop
    rw [breakStarts, List.tail_cons, List.map_cons]
    cases packets with
    | nil =>
      rw [List.flatMap_nil, skewed_nil, extent_nil, add_zero] at hstop
      rw [breakStarts, List.nil_append, hstop, List.zip_cons_cons, List.zip_nil_left, List.filterMap_cons_some hread]
      rfl
    | cons q packets =>
      rw [breakStarts, List.tail_cons] at hrest
      rw [breakStarts, List.cons_append, List.zip_cons_cons, List.filterMap_cons_some hread, hrest]

end Regions

/-! ## The round trip -/

section RoundTrip

variable {ui c : ℤ} {packets : List (List Nat)}

theorem encodePacket_ticks {slots : List Nat} (hslots : slots ≠ []) :
    encodePacket slots { ui, c, leadIdle := false } = (packetRuns slots).map (ticks ui c) ∧
      encodePacket slots { ui, c } = ((HIGH, 8) :: packetRuns slots).map (ticks ui c) := by
  have hmark : packetBits slots {} = List.replicate 8 HIGH ++ streamBits [slots] := by
    rw [streamBits, List.flatMap_singleton, packetBits, packetBits]
    simp only [Bool.false_eq_true, if_true, if_false, List.nil_append, List.append_assoc]
  have hbare := bitsToRuns_packet hslots [] (by simp)
  rw [List.append_nil, bitsToRuns, List.append_nil] at hbare
  have hone : ∀ p ∈ [slots], p ≠ [] := List.forall_mem_singleton.mpr hslots
  have hscale : ∀ lead, packetBits slots { ui, c, leadIdle := lead } = packetBits slots { leadIdle := lead } := fun _ => rfl
  constructor
  · rw [encodePacket, hscale, hbare]
    rfl
  · rw [encodePacket, hscale, hmark, bitsToRuns_mark_stream hone, List.flatMap_singleton]
    rfl

theorem encodePackets_ticks {first : List Nat} {rest : List (List Nat)} (hslots : ∀ p ∈ first :: rest, p ≠ []) :
    (encodePacket first { ui, c } ++ rest.flatMap fun p => encodePacket p { ui, c, leadIdle := false }) =
      ((HIGH, 8) :: (first :: rest).flatMap packetRuns).map (ticks ui c) := by
  obtain ⟨hfirst, hrest⟩ := List.forall_mem_cons.mp hslots
  have hothers : (rest.flatMap fun p => encodePacket p { ui, c, leadIdle := false }) =
      (rest.flatMap packetRuns).map (ticks ui c) := by
    rw [List.map_flatMap]
    exact List.flatMap_congr fun p hp => (encodePacket_ticks (hrest p hp)).1
  rw [(encodePacket_ticks hfirst).2, hothers, List.flatMap_cons, ← List.cons_append, List.map_append]

/-- The axis of a stream whose BREAKs are no boundaries. -/
theorem axis_stream (hslots : ∀ p ∈ packets, p ≠ []) (hui : 1 ≤ ui) (hbias : 20 * |c| < ui)
    (hshort : 24 * ui + c < BOUNDARY_RUN) {tl : Timeline} {runs : List ℤ}
    (hruns : runs = ((HIGH, 8) :: packets.flatMap packetRuns).map (ticks ui c))
    (htl : tl = .new runs (assignLevels runs HIGH) ui ui) :
    tl.segs = layout 0 (skewed (c / ui : ℚ) ((HIGH, 8) :: packets.flatMap packetRuns)) ∧ tl.bounds = [] ∧
      tl.stop = 0 + extent (skewed (c / ui : ℚ) ((HIGH, 8) :: packets.flatMap packetRuns)) := by
  have hlengths : ∀ r ∈ (HIGH, 8) :: packets.flatMap packetRuns, 1 ≤ r.2 ∧ r.2 ≤ 24 :=
    List.forall_mem_cons.mpr ⟨by decide, le_of_mem_stream⟩
  have hticks : ∀ r ∈ (HIGH, 8) :: packets.flatMap packetRuns, ticks ui c r < BOUNDARY_RUN := by
    intro r hr
    have hlong : (r.2 : ℤ) ≤ 24 := by exact_mod_cast (hlengths r hr).2
    have hmost := mul_le_mul_of_nonneg_right hlong (zero_le_one.trans hui)
    rw [ticks]
    linarith
  have hlevels : assignLevels runs HIGH = ((HIGH, 8) :: packets.flatMap packetRuns).map Prod.fst := by
    rw [← bitsToRuns_mark_stream hslots] at hruns hticks ⊢
    rw [assignLevels, hruns]
    exact levelsFrom_bitsToRuns HIGH HIGH (fun x hx => (Option.some_inj.mp hx).symm) hticks
  have haxis := axis_ticks hui hbias (fun r hr => (hlengths r hr).1) hticks 0
  rw [htl, Timeline.new]
  dsimp only
  rw [hlevels, hruns, List.zip_map']
  exact haxis

/-- Packets come back as they were sent. -/
theorem decodeWith_encodePacket {first : List Nat} {rest : List (List Nat)} (hslots : ∀ p ∈ first :: rest, p ≠ [])
    (hbytes : ∀ p ∈ first :: rest, ∀ b ∈ p, b < 256) (hui : 1 ≤ ui) (hbias : 20 * |c| < ui)
    (hshort : 24 * ui + c < BOUNDARY_RUN) :
    decodeWith (encodePacket first { ui, c } ++ rest.flatMap fun p => encodePacket p { ui, c, leadIdle := false }) ui HIGH =
      (first :: rest, (first :: rest).map fun _ => 0) := by
  obtain ⟨packets, hpackets⟩ : ∃ packets, packets = first :: rest := ⟨_, rfl⟩
  obtain ⟨runs, hruns⟩ : ∃ runs, runs = ((HIGH, 8) :: packets.flatMap packetRuns).map (ticks ui c) := ⟨_, rfl⟩
  rw [encodePackets_ticks hslots, ← hpackets, ← hruns, decodeWith]
  generalize htl : Timeline.new runs (assignLevels runs HIGH) ui ui = tl
  rw [← hpackets] at hslots hbytes
  obtain ⟨hsegs, hbounds, hstop⟩ := axis_stream hslots hui hbias hshort hruns htl.symm
  have hskew := bias_lt hui hbias
  generalize (c : ℚ) / ui = skew at hsegs hstop hskew
  -- the leading MARK is no BREAK, and everything behind it is the stream
  have hsplit : skewed skew ((HIGH, 8) :: packets.flatMap packetRuns) =
      skewed skew [(HIGH, 8)] ++ skewed skew (packets.flatMap packetRuns) := rfl
  have hahead : tl.Ahead skew 0 ([(HIGH, 8)] ++ packets.flatMap packetRuns) := ⟨[], hsegs, by simp⟩
  have hstream := hahead.append (hskew.trans (by norm_num)) (by decide)
  rw [hsplit, extent_append, ← add_assoc] at hstop
  rw [hsplit, layout_append] at hsegs
  have hmark : ∀ r ∈ [(HIGH, 8)], r.1 = LOW → r.2 ≤ 9 := by decide
  have hbreaks : breaks tl.segs = breakStarts skew (0 + extent (skewed skew [(HIGH, 8)])) packets := by
    rw [hsegs, breaks_append, breaks_eq_nil hskew hmark, breaks_stream hskew, List.nil_append]
  have hregions := filterMap_decodeRegion hskew hslots hbytes hstream hstop
  rw [decodeTimeline, regions, if_neg (not_not.mpr hbounds), hbreaks, hregions, List.unzip_eq_map, List.map_map, List.map_map]
  exact Prod.ext (List.map_id _) rfl

/-- Two packets back to back, as the self-test sends them. -/
theorem decodeWith_back_to_back :
    decodeWith (encodePacket [0, 255, 1] { c := -1 } ++
      [[0, 128]].flatMap fun p => encodePacket p { c := -1, leadIdle := false }) 22 HIGH = ([[0, 255, 1], [0, 128]], [0, 0]) :=
  decodeWith_encodePacket (by decide) (by decide) (by decide) (by decide) (by decide)

/-- At so many ticks a bit the BREAK reads as a boundary. -/
theorem decodeWith_break_as_boundary :
    decodeWith (encodePacket [0] { ui := 2 ^ 30 } ++
      [].flatMap fun p => encodePacket p { ui := 2 ^ 30, leadIdle := false }) (2 ^ 30) HIGH ≠ ([[0]], [0]) := by
  decide +kernel

end RoundTrip

end Tapioca.Host.DmxRle

-- SUMMARY: DMX packets read back from runs with a constant bias: a byte behind its START edge, a packet behind its BREAK, a stream of packets.
import Tapioca.Host.DmxRle

/-!
# DMX packets

On the time axis every edge is displaced by the bias of the runs in front of it. The
sampler starts anew at each START edge, and no byte has more than ten runs up to its
STOP bit: below a twentieth of a bit per run each sample falls into its own bit.
-/

namespace Tapioca.Host.DmxRle

open CanRle (BOUNDARY_RUN bitsToRuns)
open Lib.Waveform

/-! ## Runs of bits -/

theorem expand_bitsToRuns (bits : List Bool) : expand (bitsToRuns bits) = bits := by
  induction bits using CanRle.bitsToRuns.induct with
  | case1 => simp [bitsToRuns, expand]
  | case2 b bits ih =>
    have hsame : List.replicate (bits.takeWhile (· == b)).length b = bits.takeWhile (· == b) := by
      refine (List.eq_replicate_of_mem fun c hc => ?_).symm
      have hc := List.mem_takeWhile_imp hc
      exact eq_of_beq hc
    rw [bitsToRuns, expand, List.flatMap_cons, ← expand, ih, Nat.add_comm, List.replicate_succ, List.cons_append, hsame,
      List.takeWhile_append_dropWhile]

theorem one_le_of_mem_bitsToRuns (bits : List Bool) : ∀ r ∈ bitsToRuns bits, 1 ≤ r.2 := by
  induction bits using CanRle.bitsToRuns.induct with
  | case1 => simp [bitsToRuns]
  | case2 b bits ih =>
    rw [bitsToRuns]
    exact List.forall_mem_cons.mpr ⟨Nat.le_add_right 1 _, ih⟩

/-- Two strings of bits with an edge between them. -/
theorem bitsToRuns_append {xs ys : List Bool} (h : ∀ x ∈ xs.getLast?, ∀ y ∈ ys.head?, x ≠ y) :
    bitsToRuns (xs ++ ys) = bitsToRuns xs ++ bitsToRuns ys := by
  induction xs using CanRle.bitsToRuns.induct with
  | case1 => simp [bitsToRuns]
  | case2 b bits ih =>
    rw [List.cons_append, bitsToRuns, bitsToRuns, List.cons_append]
    by_cases hall : ∀ c ∈ bits, c = b
    · -- one run, and what follows does not continue it
      have hbits : bits = List.replicate bits.length b := List.eq_replicate_of_mem hall
      have hlast : (b :: bits).getLast? = some b := by
        rw [hbits, ← List.replicate_succ, List.getLast?_replicate, if_neg (Nat.succ_ne_zero _)]
      have htake : (bits ++ ys).takeWhile (· == b) = bits ∧ (bits ++ ys).dropWhile (· == b) = ys := by
        have hpass : ∀ c ∈ bits, (c == b) = true := fun c hc => beq_iff_eq.mpr (hall c hc)
        rw [List.takeWhile_append_of_pos hpass, List.dropWhile_append_of_pos hpass]
        cases ys with
        | nil => simp
        | cons y ys =>
          have hne : y ≠ b := fun heq => h b hlast y rfl heq.symm
          simp [hne]
      have hdrop : bits.dropWhile (· == b) = [] ∧ bits.takeWhile (· == b) = bits := by
        constructor
        · exact List.dropWhile_eq_nil_iff.mpr fun c hc => beq_iff_eq.mpr (hall c hc)
        · exact List.takeWhile_eq_self_iff.mpr fun c hc => beq_iff_eq.mpr (hall c hc)
      rw [htake.1, htake.2, hdrop.1, hdrop.2, bitsToRuns, List.nil_append]
    · -- the first run ends among the first bits
      have hne : bits.dropWhile (· == b) ≠ [] := by
        intro hnil
        exact hall fun c hc => eq_of_beq (List.dropWhile_eq_nil_iff.mp hnil c hc)
      have hshort : ¬ (bits.takeWhile (· == b)).length = bits.length := by
        intro hlen
        have hsplit := congrArg List.length (List.takeWhile_append_dropWhile (p := (· == b)) (l := bits))
        rw [List.length_append, hlen] at hsplit
        exact hne (List.length_eq_zero_iff.mp (by omega))
      have hlast : (bits.dropWhile (· == b)).getLast? = (b :: bits).getLast? := by
        obtain ⟨front, hfront⟩ := List.dropWhile_suffix (l := bits) (· == b)
        have hsplit : b :: bits = (b :: front) ++ bits.dropWhile (· == b) := by rw [List.cons_append, hfront]
        rw [hsplit, List.getLast?_append_of_ne_nil _ hne]
      rw [List.takeWhile_append, if_neg hshort, List.dropWhile_append, if_neg (by simpa using hne)]
      rw [ih fun x hx => h x (hlast ▸ hx)]

theorem bitsToRuns_replicate {k : Nat} (hk : k ≠ 0) (b : Bool) : bitsToRuns (List.replicate k b) = [(b, k)] := by
  obtain ⟨k, rfl⟩ := Nat.exists_eq_succ_of_ne_zero hk
  rw [List.replicate_succ, bitsToRuns]
  simp [bitsToRuns, Nat.add_comm]

/-- The last run holds the last bits, and whatever is equal before them. -/
theorem bitsToRuns_append_replicate (xs : List Bool) {n : Nat} (hn : n ≠ 0) (b : Bool) :
    ∃ init m, bitsToRuns (xs ++ List.replicate n b) = init ++ [(b, m)] ∧ (expand init).length ≤ xs.length := by
  obtain ⟨ys, hys⟩ : ∃ ys, ys = xs.rdropWhile (· == b) := ⟨_, rfl⟩
  have hsame : xs.rtakeWhile (· == b) = List.replicate (xs.rtakeWhile (· == b)).length b := by
    refine List.eq_replicate_of_mem fun c hc => ?_
    have hc := List.mem_rtakeWhile_imp hc
    exact eq_of_beq hc
  have hxs : xs = ys ++ List.replicate (xs.rtakeWhile (· == b)).length b := by
    rw [← hsame, hys, List.rdropWhile_append_rtakeWhile]
  have hlast : ∀ y ∈ ys.getLast?, y ≠ b := by
    intro y hy heq
    have hne : ys ≠ [] := fun hnil => by simp [hnil] at hy
    have hnot := List.rdropWhile_last_not (· == b) xs (hys ▸ hne)
    rw [List.getLast?_eq_getLast_of_ne_nil hne] at hy
    obtain rfl := Option.some_inj.mp hy
    subst hys
    exact hnot (beq_iff_eq.mpr heq)
  generalize (xs.rtakeWhile (· == b)).length = j at hxs
  have hjn : j + n ≠ 0 := by omega
  have hedge : ∀ y ∈ ys.getLast?, ∀ c ∈ (List.replicate (j + n) b).head?, y ≠ c := by
    intro y hy c hc
    rw [List.head?_replicate, if_neg hjn] at hc
    exact Option.some_inj.mp hc ▸ hlast y hy
  refine ⟨bitsToRuns ys, j + n, ?_, ?_⟩
  · rw [hxs, List.append_assoc, List.replicate_append_replicate, bitsToRuns_append hedge, bitsToRuns_replicate hjn]
  · rw [expand_bitsToRuns, hxs, List.length_append]
    exact Nat.le_add_right _ _

/-! ## On the axis -/

section Axis

variable {tl : Timeline} {skew pos : ℚ} {xs ys runs : List (Bool × Nat)}

theorem levelAt_of_under {p : ℚ} {l : Bool} (h : (under tl.segs p).map Seg.level = some l) : tl.levelAt p = l := by
  rw [under] at h
  rw [Timeline.levelAt, Timeline.starts]
  cases hplace : bisectRight (tl.segs.map Seg.start) p with
  | zero => simp [hplace] at h
  | succ i =>
    rw [hplace] at h
    dsimp only at h ⊢
    cases hseg : tl.segs[i]? with
    | none => simp [hseg] at h
    | some s =>
      rw [hseg] at h
      by_cases hstop : p < s.stop
      · simpa [hstop] using h
      · simp [hstop] at h

/-- The runs that begin at a position, with everything else in front of it. -/
def Timeline.Ahead (tl : Timeline) (skew pos : ℚ) (runs : List (Bool × Nat)) : Prop :=
  ∃ front, tl.segs = front ++ layout pos (skewed skew runs) ∧ ∀ s ∈ front, s.start < pos

namespace Timeline.Ahead

theorem append (h : tl.Ahead skew pos (xs ++ ys)) (hskew : |skew| < 1) (hxs : ∀ r ∈ xs, 1 ≤ r.2) :
    tl.Ahead skew (pos + extent (skewed skew xs)) ys := by
  obtain ⟨front, hsegs, hfront⟩ := h
  obtain ⟨hend, hlaid⟩ := bounds_layout (skewed_pos hskew hxs) pos
  rw [skewed_append, layout_append, ← List.append_assoc] at hsegs
  refine ⟨_, hsegs, fun s hs => ?_⟩
  rcases List.mem_append.mp hs with hs | hs
  · exact (hfront s hs).trans_le hend
  · obtain ⟨-, hlt, hle⟩ := hlaid s hs
    exact hlt.trans_le hle

theorem levelAt (h : tl.Ahead skew pos runs) (hruns : ∀ r ∈ runs, 1 ≤ r.2) {i : Nat} (hskew : (i + 1) * |skew| < 1 / 2)
    {l : Bool} (hi : (expand runs)[i]? = some l) : tl.levelAt (pos + i + 1 / 2) = l := by
  obtain ⟨front, hsegs, hfront⟩ := h
  have hdrift : |(0 : ℚ)| + (i + 1) * |skew| < 1 / 2 := by rwa [abs_zero, zero_add]
  have hsample := under_skewed hruns (fun s hs => (hfront s hs).le) hdrift hi
  rw [sub_zero, ← hsegs] at hsample
  exact levelAt_of_under hsample

/-- A position behind the start of the one and before the other. -/
theorem bisectRight (h : tl.Ahead skew pos (xs ++ ys)) {q : ℚ} (hpos : pos ≤ q)
    (hbefore : ∀ s ∈ layout pos (skewed skew xs), s.start ≤ q) (hbehind : q < pos + extent (skewed skew xs)) :
    ∃ front, tl.segs = front ++ layout (pos + extent (skewed skew xs)) (skewed skew ys) ∧
      Lib.Waveform.bisectRight tl.starts q = front.length := by
  obtain ⟨front, hsegs, hfront⟩ := h
  rw [skewed_append, layout_append, ← List.append_assoc] at hsegs
  refine ⟨_, hsegs, ?_⟩
  rw [starts, hsegs]
  refine bisectRight_append (fun s hs => ?_) fun s hs => ?_
  · rcases List.mem_append.mp hs with hs | hs
    · exact (hfront s hs).le.trans hpos
    · exact hbefore s hs
  · cases ys with
    | nil => cases hs
    | cons r ys =>
      obtain rfl := Option.some_inj.mp hs
      exact hbehind

theorem nextFalling (h : tl.Ahead skew pos (xs ++ ys)) {q : ℚ} (hpos : pos ≤ q)
    (hbefore : ∀ s ∈ layout pos (skewed skew xs), s.start ≤ q) (hbehind : q < pos + extent (skewed skew xs)) :
    tl.nextFalling q =
      ((layout (pos + extent (skewed skew xs)) (skewed skew ys)).find? (·.level = LOW)).map Seg.start := by
  obtain ⟨front, hsegs, hplace⟩ := h.bisectRight hpos hbefore hbehind
  rw [Timeline.nextFalling, hplace, hsegs, List.drop_left]

end Timeline.Ahead

/-! ## A byte -/

/-- A byte with some bits of MARK behind it. -/
def byteBits (b n : Nat) : List Bool := [LOW] ++ (List.range 8).map b.testBit ++ List.replicate n HIGH

theorem length_byteBits (b n : Nat) : (byteBits b n).length = 9 + n := by
  simp [byteBits]
  omega

theorem byteBits_start (b n : Nat) : (byteBits b n)[0]? = some LOW := rfl

theorem byteBits_data (b n : Nat) {k : Nat} (hk : k < 8) : (byteBits b n)[k + 1]? = some (b.testBit k) := by
  have hlen : k + 1 < ([LOW] ++ (List.range 8).map b.testBit).length := by simpa using Nat.succ_lt_succ hk
  rw [byteBits, List.getElem?_append_left hlen, List.singleton_append, List.getElem?_cons_succ, List.getElem?_map,
    List.getElem?_range hk, Option.map_some]

theorem byteBits_stop (b : Nat) {n : Nat} (hn : n ≠ 0) : (byteBits b n)[9]? = some HIGH := by
  have hlen : ([LOW] ++ (List.range 8).map b.testBit).length = 9 := by simp
  rw [byteBits, List.getElem?_append_right hlen.le, hlen, List.getElem?_replicate_of_lt (Nat.pos_of_ne_zero hn)]

theorem foldl_testBit {b : Nat} (hb : b < 256) :
    (List.range 8).foldl (fun (val k : Nat) => if b.testBit k then val ||| 1 <<< k else val) 0 = b := by
  have hall : ∀ b < 256,
      (List.range 8).foldl (fun (val k : Nat) => if b.testBit k then val ||| 1 <<< k else val) 0 = b := by
    decide +kernel
  exact hall b hb

theorem abs_mul_skew_le {k n : Nat} (h : k ≤ n) (skew : ℚ) : |(k : ℚ) * skew| ≤ n * |skew| := by
  rw [abs_mul, Nat.abs_cast]
  exact mul_le_mul_of_nonneg_right (by exact_mod_cast h) (abs_nonneg skew)

/-- Every run but the last is within the first nine bits. -/
theorem bitsToRuns_byteBits (b : Nat) {n : Nat} (hn : n ≠ 0) :
    ∃ init m, bitsToRuns (byteBits b n) = init ++ [(HIGH, m)] ∧ (∀ r ∈ init, 1 ≤ r.2) ∧ (expand init).length ≤ 9 := by
  obtain ⟨init, m, hruns, hinit⟩ := bitsToRuns_append_replicate ([LOW] ++ (List.range 8).map b.testBit) hn HIGH
  refine ⟨init, m, hruns, fun r hr => ?_, by simpa using hinit⟩
  exact one_le_of_mem_bitsToRuns (byteBits b n) r (hruns ▸ List.mem_append_left _ hr)

section Byte

variable {b n : Nat}

/-- The last edge of a byte is in front of the middle of its first STOP bit. -/
theorem start_le_of_byte (hn : n ≠ 0) (hskew : |skew| < 1 / 20) :
    ∀ s ∈ layout pos (skewed skew (bitsToRuns (byteBits b n))), s.start ≤ pos + 19 / 2 := by
  obtain ⟨init, m, hruns, hone, hinit⟩ := bitsToRuns_byteBits b hn
  have hnine : ((expand init).length : ℚ) ≤ 9 := by exact_mod_cast hinit
  have hdrift := (abs_le.mp (abs_mul_skew_le ((length_le_expand hone).trans hinit) skew)).2
  push_cast at hdrift
  have hextent : extent (skewed skew init) ≤ 19 / 2 := by
    rw [extent_skewed]
    linarith
  have hpos := skewed_pos (hskew.trans (by norm_num)) hone
  rw [hruns, skewed_append, layout_append]
  intro s hs
  rcases List.mem_append.mp hs with hs | hs
  · obtain ⟨-, hlt, hle⟩ := (bounds_layout hpos pos).2 s hs
    linarith
  · obtain rfl := List.mem_singleton.mp hs
    dsimp only
    linarith

/-- The next byte begins behind the middle of the first STOP bit. -/
theorem lt_extent_of_byte (hn : 2 ≤ n) (hskew : |skew| < 1 / 20) :
    19 / 2 < extent (skewed skew (bitsToRuns (byteBits b n))) := by
  have hn0 : n ≠ 0 := by omega
  obtain ⟨init, m, hruns, hone, hinit⟩ := bitsToRuns_byteBits b hn0
  have hlen : (bitsToRuns (byteBits b n)).length ≤ 10 := by
    rw [hruns, List.length_append, List.length_singleton]
    exact Nat.succ_le_succ ((length_le_expand hone).trans hinit)
  have hdrift := (abs_le.mp (abs_mul_skew_le hlen skew)).1
  have htwo : (2 : ℚ) ≤ n := by exact_mod_cast hn
  rw [extent_skewed, expand_bitsToRuns, length_byteBits]
  push_cast at hdrift ⊢
  linarith

variable {rest : List (Bool × Nat)}

theorem levelAt_byte (h : tl.Ahead skew pos (bitsToRuns (byteBits b n) ++ rest)) (hrest : ∀ r ∈ rest, 1 ≤ r.2)
    (hskew : |skew| < 1 / 20) {i : Nat} (hi : i ≤ 9) {l : Bool} (hbit : (byteBits b n)[i]? = some l) :
    tl.levelAt (pos + i + 1 / 2) = l := by
  refine h.levelAt (fun r hr => ?_) ?_ ?_
  · rcases List.mem_append.mp hr with hr | hr
    · exact one_le_of_mem_bitsToRuns _ r hr
    · exact hrest r hr
  · have hten : (i : ℚ) ≤ 9 := by exact_mod_cast hi
    have hdrift := mul_le_mul_of_nonneg_right hten (abs_nonneg skew)
    linarith
  · have hinside := (List.getElem?_eq_some_iff.mp hbit).1
    have hexpand : expand (bitsToRuns (byteBits b n) ++ rest) = byteBits b n ++ expand rest := by
      rw [expand, List.flatMap_append, ← expand, ← expand, expand_bitsToRuns]
    rw [hexpand, List.getElem?_append_left hinside]
    exact hbit

theorem sampleByte_byte (hb : b < 256) (h : tl.Ahead skew pos (bitsToRuns (byteBits b n) ++ rest))
    (hrest : ∀ r ∈ rest, 1 ≤ r.2) (hskew : |skew| < 1 / 20) : sampleByte tl pos = b := by
  rw [sampleByte, ← foldl_testBit hb]
  refine List.foldl_ext _ _ _ fun val k hk => ?_
  have hk := List.mem_range.mp hk
  have hlevel := levelAt_byte h hrest hskew (Nat.succ_le_succ hk.le) (byteBits_data b n hk)
  have hmiddle : pos + 3 / 2 + k = pos + (k + 1 : Nat) + 1 / 2 := by
    push_cast
    ring
  rw [hmiddle, hlevel]

/-- One round of the sampler. -/
theorem uartLoop_byte (hb : b < 256) (hn : 2 ≤ n) (h : tl.Ahead skew pos (bitsToRuns (byteBits b n) ++ rest))
    (hrest : ∀ r ∈ rest, 1 ≤ r.2) (hskew : |skew| < 1 / 20) {pEnd : ℚ} (hend : pos + 19 / 2 ≤ pEnd) {next : Option ℚ}
    (hnext : ((layout (pos + extent (skewed skew (bitsToRuns (byteBits b n)))) (skewed skew rest)).find?
      (·.level = LOW)).map Seg.start = next) :
    uartLoop tl pEnd (some pos) = (b :: (uartLoop tl pEnd next).1, (uartLoop tl pEnd next).2) := by
  have hn0 : n ≠ 0 := by omega
  have hstart : tl.levelAt (pos + 1 / 2) = LOW := by
    simpa using levelAt_byte h hrest hskew (Nat.zero_le 9) (byteBits_start b n)
  have hstop : tl.levelAt (pos + 19 / 2) = HIGH := by
    have hlevel := levelAt_byte h hrest hskew le_rfl (byteBits_stop b hn0)
    have hmiddle : pos + 19 / 2 = pos + (9 : Nat) + 1 / 2 := by
      push_cast
      ring
    rw [hmiddle, hlevel]
  have hedge : tl.nextFalling (pos + 19 / 2) = next := by
    rw [h.nextFalling (by linarith) (start_le_of_byte hn0 hskew)]
    · exact hnext
    · linarith [lt_extent_of_byte (b := b) hn hskew]
  rw [uartLoop, if_pos hend, if_neg (not_not.mpr hstart), if_neg (not_not.mpr hstop), hedge,
    sampleByte_byte hb h hrest hskew]

end Byte

/-! ## A packet -/

/-- The slots of a packet and the MARK behind them. -/
def slotRuns (slots : List Nat) : List (Bool × Nat) := bitsToRuns (slots.flatMap slotBits ++ List.replicate 8 HIGH)

theorem slotRuns_singleton (b : Nat) : slotRuns [b] = bitsToRuns (byteBits b 10) := by
  rw [slotRuns, byteBits, List.flatMap_singleton, slotBits, List.append_assoc]
  rfl

theorem slotRuns_cons (b : Nat) {slots : List Nat} (hslots : slots ≠ []) :
    slotRuns (b :: slots) = bitsToRuns (byteBits b 2) ++ slotRuns slots := by
  obtain ⟨c, slots, rfl⟩ := List.exists_cons_of_ne_nil hslots
  have hedge : ∀ x ∈ (byteBits b 2).getLast?, ∀ y ∈ ((c :: slots).flatMap slotBits ++ List.replicate 8 HIGH).head?, x ≠ y := by
    intro x hx y hy
    have hhigh : (byteBits b 2).getLast? = some HIGH := by
      rw [byteBits, List.getLast?_append_of_ne_nil _ (by simp)]
      rfl
    obtain rfl := Option.some_inj.mp (hhigh.symm.trans hx)
    obtain rfl := Option.some_inj.mp hy
    exact Bool.noConfusion
  rw [slotRuns, List.flatMap_cons, List.append_assoc]
  exact bitsToRuns_append hedge

theorem slotRuns_eq_cons {slots : List Nat} (hslots : slots ≠ []) : ∃ k runs, slotRuns slots = (LOW, k) :: runs := by
  obtain ⟨b, slots, rfl⟩ := List.exists_cons_of_ne_nil hslots
  have hbits : (b :: slots).flatMap slotBits ++ List.replicate 8 HIGH =
      LOW :: ((List.range 8).map b.testBit ++ [HIGH, HIGH] ++ slots.flatMap slotBits ++ List.replicate 8 HIGH) := rfl
  rw [slotRuns, hbits, bitsToRuns]
  exact ⟨_, _, rfl⟩

theorem one_le_of_mem_slotRuns (slots : List Nat) : ∀ r ∈ slotRuns slots, 1 ≤ r.2 := one_le_of_mem_bitsToRuns _

theorem find?_layout_low (skew pos : ℚ) (k : Nat) (runs : List (Bool × Nat)) :
    ((layout pos (skewed skew ((LOW, k) :: runs))).find? (·.level = LOW)).map Seg.start = some pos := rfl

section Slots

variable {rest : List (Bool × Nat)}

/-- From the first START edge on the sampler reads the slots and stops in the MARK behind them. -/
theorem uartLoop_slots {slots : List Nat} (hslots : slots ≠ []) (hbytes : ∀ b ∈ slots, b < 256)
    (h : tl.Ahead skew pos (slotRuns slots ++ rest)) (hrest : ∀ r ∈ rest, 1 ≤ r.2) (hlow : ∀ r ∈ rest.head?, r.1 = LOW)
    (hskew : |skew| < 1 / 20) : uartLoop tl (pos + extent (skewed skew (slotRuns slots))) (some pos) = (slots, 0) := by
  induction slots generalizing pos with
  | nil => exact absurd rfl hslots
  | cons b slots ih =>
    obtain ⟨hb, hbytes⟩ := List.forall_mem_cons.mp hbytes
    by_cases hmore : slots = []
    · -- the last slot: the next edge, if there is one, is where the sampler has to stop
      subst hmore
      rw [slotRuns_singleton] at h ⊢
      have hend := lt_extent_of_byte (b := b) (n := 10) (by norm_num) hskew
      generalize hpEnd : pos + extent (skewed skew (bitsToRuns (byteBits b 10))) = pEnd at hend ⊢
      have hdone : ∀ next, ((layout pEnd (skewed skew rest)).find? (·.level = LOW)).map Seg.start = next →
          uartLoop tl pEnd next = ([], 0) := by
        rintro next rfl
        cases rest with
        | nil => exact uartLoop.eq_1 tl pEnd
        | cons r rest =>
          obtain ⟨l, k⟩ := r
          obtain rfl : l = LOW := hlow _ rfl
          rw [find?_layout_low, uartLoop, if_neg (by linarith)]
      rw [uartLoop_byte hb (by norm_num) h hrest hskew (by linarith) (by rw [hpEnd]), hdone _ rfl]
    · rw [slotRuns_cons b hmore, List.append_assoc] at h
      obtain ⟨k, runs, hfirst⟩ := slotRuns_eq_cons hmore
      have hnext := h.append (hskew.trans (by norm_num)) (one_le_of_mem_bitsToRuns _)
      have hone : ∀ r ∈ slotRuns slots ++ rest, 1 ≤ r.2 := by
        intro r hr
        rcases List.mem_append.mp hr with hr | hr
        · exact one_le_of_mem_slotRuns slots r hr
        · exact hrest r hr
      have hbehind := bounds_layout (skewed_pos (hskew.trans (by norm_num)) (one_le_of_mem_slotRuns slots))
        (pos + extent (skewed skew (bitsToRuns (byteBits b 2))))
      have hend := lt_extent_of_byte (b := b) (n := 2) le_rfl hskew
      have hedge := find?_layout_low skew (pos + extent (skewed skew (bitsToRuns (byteBits b 2)))) k (runs ++ rest)
      rw [← List.cons_append, ← hfirst] at hedge
      rw [slotRuns_cons b hmore, skewed_append, extent_append, ← add_assoc]
      rw [uartLoop_byte hb le_rfl h hone hskew (by linarith [hbehind.1]) hedge, ih hmore hbytes hnext]

/-- A packet from its BREAK on. -/
def packetRuns (slots : List Nat) : List (Bool × Nat) := [(LOW, 24), (HIGH, 4)] ++ slotRuns slots

theorem one_le_of_mem_packetRuns (slots : List Nat) : ∀ r ∈ packetRuns slots, 1 ≤ r.2 := by
  rw [packetRuns, List.forall_mem_append]
  exact ⟨by decide, one_le_of_mem_slotRuns slots⟩

theorem extent_packetRuns (slots : List Nat) :
    extent (skewed skew (packetRuns slots)) = 24 + skew + (4 + skew) + extent (skewed skew (slotRuns slots)) := by
  have hhead : skewed skew [(LOW, 24), (HIGH, 4)] = [((24 : Nat) + skew, LOW), ((4 : Nat) + skew, HIGH)] := rfl
  rw [packetRuns, skewed_append, extent_append, hhead]
  simp

theorem firstBreakEnd_packet {slots : List Nat} (h : tl.Ahead skew pos (packetRuns slots ++ rest))
    (hskew : |skew| < 1 / 20) {pEnd : ℚ} (hend : pos < pEnd) : firstBreakEnd tl pos pEnd = some (pos + (24 + skew)) := by
  obtain ⟨front, hsegs, hfront⟩ := h
  have hlow := (abs_lt.mp hskew).1
  have hlaid : layout pos (skewed skew (packetRuns slots ++ rest)) =
      ⟨pos, pos + (24 + skew), LOW⟩ :: layout (pos + (24 + skew)) (skewed skew ((HIGH, 4) :: slotRuns slots ++ rest)) := rfl
  rw [hlaid, ← List.singleton_append, ← List.append_assoc] at hsegs
  have hplace : bisectRight tl.starts pos = front.length + 1 := by
    rw [Timeline.starts, hsegs, ← List.length_singleton, ← List.length_append]
    refine bisectRight_append (fun s hs => ?_) fun s hs => ?_
    · rcases List.mem_append.mp hs with hs | hs
      · exact (hfront s hs).le
      · exact (List.mem_singleton.mp hs ▸ le_rfl)
    · obtain rfl := Option.some_inj.mp hs
      dsimp only
      linarith
  have hlong : pos + (24 + skew) - pos ≥ BREAK_BITS := by
    rw [BREAK_BITS]
    linarith
  rw [firstBreakEnd, hplace, Nat.add_sub_cancel, hsegs, List.append_assoc, List.drop_left, List.singleton_append, breakEnd,
    if_neg (not_le.mpr hend), if_pos ⟨rfl, hlong⟩]

/-- The slots begin behind the BREAK and the MAB. -/
theorem ahead_slots {slots : List Nat} (h : tl.Ahead skew pos (packetRuns slots ++ rest)) (hskew : |skew| < 1 / 20) :
    tl.Ahead skew (pos + (24 + skew) + (4 + skew)) (slotRuns slots ++ rest) := by
  have hpair : skewed skew [(LOW, 24), (HIGH, 4)] = [((24 : Nat) + skew, LOW), ((4 : Nat) + skew, HIGH)] := rfl
  rw [packetRuns, List.append_assoc] at h
  have hmoved := h.append (hskew.trans (by norm_num)) (by decide)
  rw [hpair, extent_cons, extent_cons, extent_nil, add_zero, ← add_assoc] at hmoved
  exact hmoved

/-- From the end of the BREAK the next edge is the START of the first slot. -/
theorem nextFalling_mab {slots : List Nat} (hslots : slots ≠ []) (h : tl.Ahead skew pos (packetRuns slots ++ rest))
    (hskew : |skew| < 1 / 20) :
    tl.nextFalling (pos + (24 + skew) - 1 / 10 ^ 9) = some (pos + (24 + skew) + (4 + skew)) := by
  have hsplit : packetRuns slots ++ rest = [(LOW, 24)] ++ ((HIGH, 4) :: (slotRuns slots ++ rest)) := rfl
  have hbreak : skewed skew [(LOW, 24)] = [((24 : Nat) + skew, LOW)] := rfl
  have hlow := (abs_lt.mp hskew).1
  obtain ⟨k, runs, hfirst⟩ := slotRuns_eq_cons hslots
  rw [hsplit] at h
  rw [h.nextFalling, hbreak, hfirst, extent_cons, extent_nil, add_zero]
  · rfl
  · linarith
  · intro s hs
    obtain rfl := List.mem_singleton.mp hs
    dsimp only
    linarith
  · rw [hbreak, extent_cons, extent_nil, add_zero]
    push_cast
    linarith

/-- A region that is a packet. -/
theorem decodeRegion_packet {slots : List Nat} (hslots : slots ≠ []) (hbytes : ∀ b ∈ slots, b < 256)
    (h : tl.Ahead skew pos (packetRuns slots ++ rest)) (hrest : ∀ r ∈ rest, 1 ≤ r.2) (hlow : ∀ r ∈ rest.head?, r.1 = LOW)
    (hskew : |skew| < 1 / 20) :
    decodeRegion tl (pos, pos + extent (skewed skew (packetRuns slots))) = some (slots, 0) := by
  have hend : pos + extent (skewed skew (packetRuns slots)) =
      pos + (24 + skew) + (4 + skew) + extent (skewed skew (slotRuns slots)) := by
    rw [extent_packetRuns]
    ring
  have hbreak : firstBreakEnd tl pos (pos + extent (skewed skew (packetRuns slots))) = some (pos + (24 + skew)) := by
    have hsize := (bounds_layout (skewed_pos (hskew.trans (by norm_num)) (one_le_of_mem_slotRuns slots)) pos).1
    refine firstBreakEnd_packet h hskew ?_
    linarith [(abs_lt.mp hskew).1]
  have hread := uartLoop_slots hslots hbytes (ahead_slots h hskew) hrest hlow hskew
  rw [decodeRegion, hbreak]
  dsimp only
  rw [uartSample, nextFalling_mab hslots h hskew, hend, hread]
  exact if_pos hslots

end Slots

end Axis

end Tapioca.Host.DmxRle

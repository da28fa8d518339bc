-- SUMMARY: Run lengths against bits: what a calibration makes of jittered runs, in Python and in the browser.
import Mathlib.Tactic
import Tapioca.Lib.Rounding
import Tapioca.Host.CanParse

/-!
# Runs and bits

A run of `k` bits is `k` unit intervals long and off by a constant bias. The decoder
takes the bias away, divides and rounds. `decode_burst_cal` and its port round
differently, which shows where a run is exactly half a bit too long.
-/

namespace Tapioca.Host.CanRle

open Lib.Rounding (EvenHalf roundEven)

/-- `bits_to_runs`. -/
def bitsToRuns : List Bool → List (Bool × Nat)
  | [] => []
  | b :: bits => (b, 1 + (bits.takeWhile (· == b)).length) :: bitsToRuns (bits.dropWhile (· == b))
termination_by bits => bits.length
decreasing_by exact Nat.lt_succ_of_le (List.dropWhile_sublist _).length_le

/-- `(ui_l, c_l, ui_h, c_h)`, the ticks of a bit and the bias, of each level. `fit_burst_ui`
never returns a unit of 0. -/
structure Cal where
  uiL : ℚ
  cL : ℚ
  uiH : ℚ
  cH : ℚ
  uiL_pos : 0 < uiL
  uiH_pos : 0 < uiH

def Cal.ui (cal : Cal) (level : Bool) : ℚ := if level = DOMINANT then cal.uiL else cal.uiH

def Cal.c (cal : Cal) (level : Bool) : ℚ := if level = DOMINANT then cal.cL else cal.cH

/-- The length of a run in bits, not yet rounded. -/
def Cal.length (cal : Cal) (level : Bool) (cnt : ℚ) : ℚ := (cnt - cal.c level) / cal.ui level

/-- The bits of a run, under a rounding. -/
def bitCount (rnd : ℚ → ℤ) (cal : Cal) (level : Bool) (cnt : ℚ) : Nat :=
  (max 1 (rnd (cal.length level cnt))).toNat

/-- The loop of `decode_burst_cal`, under a rounding. -/
def expandRuns (rnd : ℚ → ℤ) (cal : Cal) (level : Bool) : List ℚ → List Bool
  | [] => []
  | cnt :: runs => List.replicate (bitCount rnd cal level cnt) level ++ expandRuns rnd cal (!level) runs

/-- `round` takes halves to the even number. -/
def decodeBurstCal (runs : List ℚ) (cal : Cal) : List Bool := expandRuns roundEven cal DOMINANT runs

end Tapioca.Host.CanRle

/-- The browser's: `Math.round` takes halves up. -/
def Tapioca.WebSniffer.decodeBurstCal (runs : List ℚ) (cal : Tapioca.Host.CanRle.Cal) : List Bool :=
  Tapioca.Host.CanRle.expandRuns round cal Tapioca.Host.CanRle.DOMINANT runs

namespace Tapioca.Host.CanRle

open Lib.Rounding (EvenHalf roundEven)

/-! ## Jittered runs -/

/-- `x` ticks are measured for a run, off by less than half a bit. -/
def Jittered (cal : Cal) (run : Bool × Nat) (x : ℚ) : Prop :=
  ∃ e, x = run.2 * cal.ui run.1 + cal.c run.1 + e ∧ 2 * |e| < cal.ui run.1

theorem Cal.ui_pos (cal : Cal) (level : Bool) : 0 < cal.ui level := by
  rw [Cal.ui]
  split
  · exact cal.uiL_pos
  · exact cal.uiH_pos

theorem bitCount_of_jittered {cal : Cal} {level : Bool} {k : Nat} {x : ℚ} (hk : 1 ≤ k)
    (h : Jittered cal (level, k) x) : bitCount roundEven cal level x = k := by
  obtain ⟨e, rfl, he⟩ := h
  have hui := cal.ui_pos level
  have hlen : cal.length level (k * cal.ui level + cal.c level + e) - (k : ℤ) = e / cal.ui level := by
    rw [Cal.length]
    field_simp
    push_cast
    ring
  have hround : roundEven (cal.length level (k * cal.ui level + cal.c level + e)) = k := by
    apply Lib.Rounding.roundEven_eq
    rw [hlen, abs_div, abs_of_pos hui, div_lt_iff₀ hui]
    linarith
  rw [bitCount, hround]
  omega

/-- Runs measured within half a bit expand to the bits they are of. -/
theorem expandRuns_of_jittered {cal : Cal} {bits : List Bool} {level : Bool} {xs : List ℚ}
    (hlevel : ∀ b ∈ bits.head?, b = level) (h : List.Forall₂ (Jittered cal) (bitsToRuns bits) xs) :
    expandRuns roundEven cal level xs = bits := by
  induction bits using bitsToRuns.induct generalizing level xs with
  | case1 =>
    rw [bitsToRuns, List.forall₂_nil_left_iff] at h
    rw [h, expandRuns]
  | case2 b bits ih =>
    obtain rfl : b = level := hlevel b rfl
    rw [bitsToRuns, List.forall₂_cons_left_iff] at h
    obtain ⟨x, xs, hx, hxs, rfl⟩ := h
    have hnext : ∀ c ∈ (bits.dropWhile (· == b)).head?, c = !b := by
      intro c hc
      have hne := List.head?_dropWhile_not (· == b) bits
      rw [Option.mem_def.mp hc] at hne
      exact Bool.eq_not.mpr (beq_eq_false_iff_ne.mp hne)
    have hsame : List.replicate (bits.takeWhile (· == b)).length b = bits.takeWhile (· == b) := by
      refine (List.eq_replicate_of_mem fun c hc => ?_).symm
      have hc := List.mem_takeWhile_imp hc
      exact eq_of_beq hc
    rw [expandRuns, bitCount_of_jittered (Nat.le_add_right 1 _) hx, ih hnext hxs, Nat.add_comm,
      List.replicate_succ, List.cons_append, hsame, List.takeWhile_append_dropWhile]

theorem buildFrameBits_reads {canId : Nat} {data : List Nat} (hid : canId < 2 ^ 11) (hlen : data.length ≤ 8)
    (hbyte : ∀ b ∈ data, b < 256) : Reads (unstuff (buildFrameBits canId data)) canId 0 data.length data := by
  obtain ⟨tail, htail⟩ := unstuff_stuff_append (crcBits (coreBits canId data)) (List.replicate 13 RECESSIVE)
  have hmin : min data.length 8 = data.length := min_eq_left hlen
  have hall := congrArg List.length htail
  rw [List.length_append, length_crcBits, length_coreBits] at hall
  rw [buildFrameBits]
  refine reads_of_fields false false tail hid (by omega) hmin.symm hbyte (by omega) ?_
  rw [Nat.sub_eq_zero_of_le (by omega), List.replicate_zero, List.append_nil, ← htail, coreBits_eq]

theorem head_buildFrameBits (canId : Nat) (data : List Nat) : (buildFrameBits canId data).head? = some DOMINANT := by
  rw [buildFrameBits, stuff, crcBits, coreBits, List.append_assoc, List.append_assoc, List.append_assoc,
    List.append_assoc, List.singleton_append, stuffLoop]
  rfl

/-- A data frame reads back from runs that are off by less than half a bit each. -/
theorem jittered_frame_reads {canId : Nat} {data : List Nat} {cal : Cal} {xs : List ℚ} (hid : canId < 2 ^ 11)
    (hlen : data.length ≤ 8) (hbyte : ∀ b ∈ data, b < 256)
    (hruns : List.Forall₂ (Jittered cal) (bitsToRuns (buildFrameBits canId data)) xs) :
    Reads (unstuff (decodeBurstCal xs cal)) canId 0 data.length data := by
  have hlevel : ∀ b ∈ (buildFrameBits canId data).head?, b = DOMINANT := by
    intro b hb
    rw [head_buildFrameBits] at hb
    exact (Option.some.inj hb).symm
  rw [decodeBurstCal, expandRuns_of_jittered hlevel hruns]
  exact buildFrameBits_reads hid hlen hbyte

theorem six_pos : (0 : ℚ) < 6 := by norm_num

theorem sixteen_thirds_pos : (0 : ℚ) < 16 / 3 := by norm_num

/-- A 1 Mbit bus: 48 MHz over 8 and 9 cycles a tick. -/
def cal1Mbit : Cal := ⟨6, 0, 16 / 3, 0, six_pos, sixteen_thirds_pos⟩

theorem jittered_frame_reads_1Mbit :
    Reads (unstuff (decodeBurstCal ((bitsToRuns (buildFrameBits 0x123 [0xDE, 0xAD])).map fun run =>
      run.2 * cal1Mbit.ui run.1 + cal1Mbit.c run.1 + 1) cal1Mbit)) 0x123 0 [0xDE, 0xAD].length [0xDE, 0xAD] := by
  refine jittered_frame_reads ?_ ?_ ?_ ?_
  · decide
  · decide
  · decide
  · rw [List.forall₂_map_right_iff, List.forall₂_same]
    rintro ⟨level, k⟩ -
    refine ⟨1, rfl, ?_⟩
    cases level <;> norm_num [Cal.ui, cal1Mbit]

/-! ## The two roundings -/

/-- The level of run `i` of a burst that starts at `level`. -/
def levelAt (level : Bool) (i : Nat) : Bool := not^[i] level

/-- A run half a bit longer than an even number of bits, two at least. -/
def SplitRun (cal : Cal) (level : Bool) (cnt : ℚ) : Prop :=
  ∃ m : ℤ, Even m ∧ 2 ≤ m ∧ cal.length level cnt = m + 1 / 2

theorem bitCount_le (cal : Cal) (level : Bool) (cnt : ℚ) :
    bitCount roundEven cal level cnt ≤ bitCount round cal level cnt :=
  Int.toNat_le_toNat (max_le_max le_rfl (Lib.Rounding.roundEven_le_round _))

theorem bitCount_eq_iff (cal : Cal) (level : Bool) (cnt : ℚ) :
    bitCount round cal level cnt = bitCount roundEven cal level cnt ↔ ¬ SplitRun cal level cnt := by
  by_cases hhalf : EvenHalf (cal.length level cnt)
  · rw [bitCount, bitCount, Lib.Rounding.round_of_half hhalf, Lib.Rounding.roundEven_of_half hhalf]
    have hsplit : SplitRun cal level cnt ↔ 2 ≤ ⌊cal.length level cnt⌋ := by
      constructor
      · rintro ⟨m, -, htwo, hm⟩
        rwa [hm, Lib.Rounding.floor_add_half]
      · exact fun htwo => ⟨_, hhalf.2, htwo, hhalf.eq⟩
    obtain ⟨m, hm⟩ := hhalf.2
    rw [hsplit]
    omega
  · rw [bitCount, bitCount, Lib.Rounding.roundEven_of_not_half hhalf]
    refine iff_of_true rfl ?_
    rintro ⟨m, heven, -, hm⟩
    exact hhalf (hm ▸ Lib.Rounding.evenHalf_add_half heven)

theorem length_expandRuns_le (cal : Cal) (level : Bool) (runs : List ℚ) :
    (expandRuns roundEven cal level runs).length ≤ (expandRuns round cal level runs).length := by
  induction runs generalizing level with
  | nil => exact le_rfl
  | cons cnt runs ih =>
    rw [expandRuns, expandRuns, List.length_append, List.length_append, List.length_replicate,
      List.length_replicate]
    exact Nat.add_le_add (bitCount_le cal level cnt) (ih _)

/-- No later run makes up for one that is a bit longer. -/
theorem expandRuns_eq_iff (cal : Cal) (level : Bool) (runs : List ℚ) :
    expandRuns round cal level runs = expandRuns roundEven cal level runs ↔
      ∀ i, ∀ cnt ∈ runs[i]?, ¬ SplitRun cal (levelAt level i) cnt := by
  induction runs generalizing level with
  | nil => simp [expandRuns]
  | cons cnt runs ih =>
    have hfirst := bitCount_eq_iff cal level cnt
    constructor
    · intro heq
      rw [expandRuns, expandRuns] at heq
      have hlen := congrArg List.length heq
      simp only [List.length_append, List.length_replicate] at hlen
      have hle := bitCount_le cal level cnt
      have hrest := length_expandRuns_le cal (!level) runs
      have hcount : bitCount round cal level cnt = bitCount roundEven cal level cnt := by omega
      rw [hcount] at heq
      rintro (_ | i) x hx
      · obtain rfl : cnt = x := Option.some.inj hx
        exact hfirst.mp hcount
      · exact (ih _).mp (List.append_cancel_left heq) i x hx
    · intro hall
      rw [expandRuns, expandRuns, hfirst.mpr (hall 0 cnt rfl), (ih _).mpr fun i x hx => hall (i + 1) x hx]

/-- The port expands a burst like the original exactly when no run is half a bit longer than
an even number of bits. -/
theorem decodeBurstCal_eq_iff (runs : List ℚ) (cal : Cal) :
    WebSniffer.decodeBurstCal runs cal = decodeBurstCal runs cal ↔
      ∀ i, ∀ cnt ∈ runs[i]?, ¬ SplitRun cal (levelAt DOMINANT i) cnt :=
  expandRuns_eq_iff cal DOMINANT runs

/-- 2.5 dominant bits: two in Python, three in the browser. -/
theorem decodeBurstCal_ne : WebSniffer.decodeBurstCal [15] cal1Mbit ≠ decodeBurstCal [15] cal1Mbit := by
  decide +kernel

end Tapioca.Host.CanRle

-- SUMMARY: `CAP_IDLE_K` against the longest legal in-frame run, for every minimum rate, actual rate and level.
import Mathlib.Algebra.Order.Archimedean.Real.Basic
import Tapioca.Sniffer.RleRoundTrip

/-!
# The squelch bound

`CAP_IDLE_K` is computed from `RLE_MIN_KBPS` so that a run of 16 bit-times, at
that rate and with the shorter tick, counts as many full caps as it allows. The
squelch cuts a run off at that count, not behind it.
-/

namespace Tapioca.RleSniffer

/-- `SystemCoreClock`, in cycles per millisecond. -/
def CYCLES_PER_MS : Nat := 48000

/-- A legal frame holds its line for this many bit-times at most. -/
def MONO_BITS : Nat := 16

/-- The cycles of a tick. -/
def tickCyc (high : Bool) : Nat := if high then TICK_HI_CYC else TICK_LO_CYC

/-- A run of `t` ticks is at most 16 bit-times long, at `r` kbit/s. -/
def InFrame (high : Bool) (r : ℝ) (t : Nat) : Prop := t * tickCyc high * r ≤ MONO_BITS * CYCLES_PER_MS

namespace Squelch

variable (K : Nat)

/-- What the filter puts out for bytes in a row. -/
def puts (q : Squelch) : List UInt8 → List UInt8
  | [] => []
  | b :: bs => q.emits K b ++ (q.next K b).puts bs

variable {K}

/-- Behind a terminal byte the squelch starts afresh. -/
theorem next_terminal (q : Squelch) {b : UInt8} (hb : b < 128) : q.next K b = ⟨0, false⟩ :=
  if_neg (UInt8.not_le.mpr hb)

/-- A run below the threshold passes. -/
theorem puts_short {n m : Nat} (hshort : n + m < K) {b : UInt8} (hb : b < 128) :
    puts K ⟨n, false⟩ (List.replicate m 0x80 ++ [b]) = List.replicate m 0x80 ++ [b] := by
  have hnot : ¬ b ≥ 128 := UInt8.not_le.mpr hb
  induction m generalizing n with
  | zero => simp [puts, emits, verdict, hnot]
  | succ m ih =>
    have hcont : (0x80 : UInt8) ≥ 128 := by decide
    have hbelow : ¬ (K ≠ 0 ∧ n + 1 ≥ K) := by omega
    rw [List.replicate_succ, List.cons_append, puts]
    simp only [emits, verdict, next, if_pos hcont, Bool.false_eq_true, and_false, if_false, hbelow,
      decide_false, or_self, List.singleton_append]
    rw [ih (by omega)]

end Squelch

/-- The rounds of the filter loop put out what the squelch does. -/
theorem loopRounds_out (B : Build) (n : Nat) (s : Sniffer) (l : Loop) :
    (((fun p : Sniffer × Loop => p.1.loopRound B p.2)^[n] (s, l)).2.out =
      l.out ++ l.squelch.puts B.capIdleK ((List.range' l.i n).map s.ram.peek)) := by
  induction n generalizing s l with
  | zero => simp [Squelch.puts]
  | succ n ih =>
    rw [Function.iterate_succ_apply, ih, List.range'_succ, List.map_cons, Squelch.puts, ← List.append_assoc]
    rfl

-- ---------------------------------------------------------------------------
-- The bound
-- ---------------------------------------------------------------------------

/-- No legal run reaches the threshold, and every one is forwarded as it is behind
the terminal byte of the run before. -/
def Uncut (minKbps : Nat) (high : Bool) (r : ℝ) : Prop :=
  ∀ t, InFrame high r t →
    t / 128 < capIdleK minKbps ∧
      ∀ (q : Squelch) (b : UInt8), b < 128 →
        (q.next (capIdleK minKbps) b).puts (capIdleK minKbps) (encodeRun t) = encodeRun t

/-- The filter loop forwards a legal run that waits in the ring, byte for byte. -/
theorem Uncut.forwarded {minKbps : Nat} {high : Bool} {r : ℝ} (h : Uncut minKbps high r) {t : Nat}
    (hlegal : InFrame high r t) {B : Build} (hB : B.capIdleK = capIdleK minKbps) (s : Sniffer) {l : Loop}
    {q : Squelch} {b : UInt8} (hb : b < 128) (hbehind : l.squelch = q.next (capIdleK minKbps) b)
    (hwaits : (List.range' l.i (encodeRun t).length).map s.ram.peek = encodeRun t) :
    ((fun p : Sniffer × Loop => p.1.loopRound B p.2)^[(encodeRun t).length] (s, l)).2.out =
      l.out ++ encodeRun t := by
  rw [loopRounds_out, hwaits, hB, hbehind, (h t hlegal).2 q b hb]

/-- At a rate the threshold is out of reach if and only if as many caps as it
counts take more than 16 bit-times. -/
theorem uncut_iff (minKbps : Nat) (high : Bool) (r : ℝ) :
    Uncut minKbps high r ↔
      (MONO_BITS * CYCLES_PER_MS : ℝ) < 128 * capIdleK minKbps * tickCyc high * r := by
  constructor
  · intro h
    by_contra hreached
    have hlegal : InFrame high r (128 * capIdleK minKbps) := by
      rw [InFrame]
      push_cast
      exact not_lt.mp hreached
    have hlt := (h _ hlegal).1
    rw [Nat.mul_div_cancel_left _ (by decide)] at hlt
    exact lt_irrefl _ hlt
  · intro hlt t hlegal
    have hcaps : (0 : ℝ) ≤ 128 * capIdleK minKbps * tickCyc high := by positivity
    have hpos : (0 : ℝ) < 128 * capIdleK minKbps * tickCyc high * r := lt_of_le_of_lt (by positivity) hlt
    have hr : 0 < r := pos_of_mul_pos_right hpos hcaps
    have hshort : t < 128 * capIdleK minKbps := by
      by_contra hlong
      have hcast : (128 * capIdleK minKbps : ℝ) ≤ t := by exact_mod_cast not_lt.mp hlong
      have hle : 128 * capIdleK minKbps * tickCyc high * r ≤ (t : ℝ) * tickCyc high * r := by gcongr
      exact absurd (hlt.trans_le hle) (not_lt.mpr hlegal)
    have hdiv : t / 128 < capIdleK minKbps := by omega
    refine ⟨hdiv, fun q b hb => ?_⟩
    rw [Squelch.next_terminal q hb]
    exact Squelch.puts_short (by omega) (terminal_lt t)

theorem capIdleK_mul_le {minKbps : Nat} (hpos : 0 < minKbps) (hle : minKbps ≤ 750) :
    capIdleK minKbps * minKbps ≤ 750 := by
  have hdiv : 750 / minKbps ≠ 0 := (Nat.div_pos hle hpos).ne'
  rw [capIdleK, if_neg hpos.ne', if_pos hdiv]
  exact Nat.div_mul_le_self 750 minKbps

/-- A build keeps every legal run of every rate it claims if and only if it claims
none up to 750 kbit/s; at each rate and level, if and only if the threshold's caps
take more than 16 bit-times. -/
theorem squelch_keeps_runs_iff (minKbps : Nat) :
    (∀ (high : Bool) (r : ℝ), Uncut minKbps high r ↔
      (MONO_BITS * CYCLES_PER_MS : ℝ) < 128 * capIdleK minKbps * tickCyc high * r) ∧
    ((∀ (high : Bool) (r : ℝ), minKbps ≤ r → Uncut minKbps high r) ↔ 750 < minKbps) := by
  refine ⟨uncut_iff minKbps, ?_⟩
  constructor
  · intro h
    -- the slowest rate, with the shorter tick
    have hslow := (uncut_iff minKbps false minKbps).mp (h false minKbps le_rfl)
    simp only [MONO_BITS, CYCLES_PER_MS, tickCyc, TICK_LO_CYC] at hslow
    have hnat : 16 * 48000 < 128 * capIdleK minKbps * 8 * minKbps := by exact_mod_cast hslow
    by_contra hle
    rcases Nat.eq_zero_or_pos minKbps with hzero | hpos
    · rw [hzero] at hnat
      exact absurd hnat (by decide)
    · have hmul := capIdleK_mul_le hpos (not_lt.mp hle)
      have hassoc : 128 * capIdleK minKbps * 8 * minKbps = 1024 * (capIdleK minKbps * minKbps) := by ring
      omega
  · intro hfast high r hr
    have hone : capIdleK minKbps = 1 := by
      have hdiv : 750 / minKbps = 0 := Nat.div_eq_of_lt hfast
      rw [capIdleK, if_neg (by omega), hdiv]
      rfl
    have hcyc : (8 : ℝ) ≤ tickCyc high := by
      cases high <;> norm_num [tickCyc, TICK_HI_CYC, TICK_LO_CYC]
    have hrate : (751 : ℝ) ≤ r := by
      have hnat : (751 : ℝ) ≤ minKbps := by exact_mod_cast hfast
      exact hnat.trans hr
    rw [uncut_iff, hone]
    calc (MONO_BITS * CYCLES_PER_MS : ℝ) < 128 * (1 : ℕ) * 8 * 751 := by
          norm_num [MONO_BITS, CYCLES_PER_MS]
      _ ≤ 128 * (1 : ℕ) * tickCyc high * r := by gcongr

/-- A build for 100 kbit/s at its own minimum: 16 bit-times of a low line lose their
7th cap and their terminal byte. They take 7680 cycles, which leaves 73 for each of
the caps to be stored in. -/
theorem slowest_run_cut :
    InFrame false 100 960 ∧ ¬ 960 / 128 < capIdleK 100 ∧
      Squelch.puts (capIdleK 100) ⟨0, false⟩ (encodeRun 960) = List.replicate 6 0x80 ++ [0xFF] := by
  refine ⟨?_, by decide, by decide +kernel⟩
  norm_num [InFrame, MONO_BITS, CYCLES_PER_MS, tickCyc, TICK_LO_CYC]

end Tapioca.RleSniffer

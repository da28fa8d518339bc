-- SUMMARY: The run-length round trip: what the host reads from the wire against the runs the eMCU measured.
import Tapioca.Host.CanRle
import Tapioca.Sniffer.RleQueue

/-!
# The run-length round trip

A run of `t` ticks is delivered as `t / 128` continuation bytes and a terminal
byte. The squelch cuts long ones off, `service()` puts markers between the
bytes, and the host sums up what is left. The squelch over a whole stream
(`Squelch.sift`) is the reference: whatever the chunks, the wire carries its
items, with telemetry anywhere and boundaries only next to boundaries.
-/

namespace Tapioca.RleSniffer

open Pioc RecordFramer Lib.Lts Lib.SlotRing Host.CanRle

-- ---------------------------------------------------------------------------
-- Texts
-- ---------------------------------------------------------------------------

theorem decimal_printable (n : Nat) : ∀ c ∈ decimal n, Printable c := by
  intro c hc
  obtain ⟨d, hd, rfl⟩ := List.mem_map.mp hc
  have hdigit := Nat.isDigit_of_mem_toDigits (by decide) (by decide) hd
  rw [Char.isDigit, Bool.and_eq_true, decide_eq_true_eq, decide_eq_true_eq] at hdigit
  have hlo : 48 ≤ d.toNat := hdigit.1
  have hhi : d.toNat ≤ 57 := hdigit.2
  constructor <;> rw [UInt8.le_iff_toNat_le, UInt8.toNat_ofNat', Nat.mod_eq_of_lt (by omega)]
  · exact le_trans (by decide) hlo
  · exact hhi.trans (by decide)

theorem forall_decimal (n : Nat) : (∀ c ∈ decimal n, Printable c) ↔ True :=
  iff_true_intro (decimal_printable n)

theorem marker_printable (fcpu : UInt32) : ∀ c ∈ marker fcpu, Printable c := by
  simp only [marker, List.forall_mem_append, forall_decimal, and_true]
  decide +kernel

theorem Telemetry.text_printable (d : Telemetry) : ∀ c ∈ d.text, Printable c := by
  unfold Telemetry.text
  simp only [List.forall_mem_append, forall_decimal, and_true]
  decide +kernel

theorem marker_bracket (fcpu : UInt32) : (marker fcpu).head? = some 0x5B := by
  have hopen : (ascii "[MODE rle wire=2 thi=").head? = some 0x5B := by decide +kernel
  simp only [marker, List.head?_append, hopen, Option.some_or]

theorem Telemetry.text_bracket (d : Telemetry) : d.text.head? = some 0x5B := by
  have hopen : (ascii "[T t=").head? = some 0x5B := by decide +kernel
  unfold Telemetry.text
  simp only [List.head?_append, hopen, Option.some_or]

theorem diag_notMem {text : List UInt8} (h : ∀ c ∈ text, Printable c) : BIN_DIAG ∉ text :=
  fun hmem => absurd (h _ hmem).2 (by decide)

-- ---------------------------------------------------------------------------
-- Items
-- ---------------------------------------------------------------------------

/-- What the host makes of a tag. -/
def Tag.items : Tag → List Item
  | .run _ b => [.byte b]
  | .boundary | .loss => [.idleBoundary]
  | .mode => [.idleBoundary, .idleBoundary]
  | .report _ | .banner _ => []

theorem items_mode (B : Build) (rest : List UInt8) :
    items (Tag.bytes B .mode ++ rest) = .idleBoundary :: .idleBoundary :: items rest := by
  have hmeta : frameMeta (marker B.fcpu) = [0xFE] ++ marker B.fcpu ++ [0xFE, 0xFF] := by
    rw [frameMeta, if_neg (not_not.mpr (marker_bracket _)), if_pos (marker_printable _)]
  have hbytes : Tag.bytes B .mode ++ rest =
      BIN_BOUNDARY :: (BIN_DIAG :: marker B.fcpu ++ BIN_DIAG :: BIN_BOUNDARY :: rest) := by
    rw [Tag.bytes, hmeta]
    simp [BIN_BOUNDARY, BIN_DIAG]
  rw [hbytes, items_cut (.inl rfl), items_block (marker_bracket _) (diag_notMem (marker_printable _)),
    items_cut (.inl rfl)]

theorem items_report (d : TelemetryBlock) (rest : List UInt8) :
    items (d.bytes ++ rest) = items rest := by
  have hbytes : d.bytes ++ rest = BIN_DIAG :: d.numbers.text ++ BIN_DIAG :: rest := by
    rw [TelemetryBlock.bytes]
    simp [BIN_DIAG]
  rw [hbytes, items_block d.numbers.text_bracket (diag_notMem d.numbers.text_printable)]

/-- The host reads what the trace says, from the first run-byte on. -/
theorem items_trace (B : Build) {trace : List Tag} (hruns : ∀ k b, Tag.run k b ∈ trace → b ≤ 0x80)
    (hbanner : ∀ text, Tag.banner text ∉ trace) :
    items (trace.flatMap (Tag.bytes B)) = trace.flatMap Tag.items := by
  induction trace with
  | nil => exact items_nil
  | cons t trace ih =>
    have ih := ih (fun k b hmem => hruns k b (List.mem_cons_of_mem _ hmem))
      fun text hmem => hbanner text (List.mem_cons_of_mem _ hmem)
    rw [List.flatMap_cons, List.flatMap_cons, ← ih]
    cases t with
    | run k b => exact items_run (hruns k b List.mem_cons_self) _
    | boundary => exact items_cut (.inl rfl) _
    | loss => exact items_cut (.inr rfl) _
    | mode => exact items_mode B _
    | report d => exact items_report d _
    | banner text => exact absurd List.mem_cons_self (hbanner text)

-- ---------------------------------------------------------------------------
-- The squelch over a stream
-- ---------------------------------------------------------------------------

def Verdict.items (b : UInt8) : Verdict → List Item
  | .pass => [.byte b]
  | .boundary => [.idleBoundary]
  | .drop | .dropTail => []

theorem Verdict.flatMap_items (v : Verdict) (k : Nat) (b : UInt8) :
    (v.tags k b).flatMap Tag.items = v.items b := by
  cases v <;> rfl

namespace Squelch

variable (K : Nat)

/-- The items the squelch leaves of a stream, and its state behind it. -/
def sift (q : Squelch) : List UInt8 → List Item
  | [] => []
  | b :: bs => (q.verdict K b).items b ++ (q.next K b).sift bs

def through (q : Squelch) (bs : List UInt8) : Squelch := bs.foldl (·.next K) q

variable {K}

theorem sift_append (q : Squelch) (xs ys : List UInt8) :
    q.sift K (xs ++ ys) = q.sift K xs ++ (q.through K xs).sift K ys := by
  induction xs generalizing q with
  | nil => rfl
  | cons b xs ih =>
    rw [List.cons_append, sift, sift, ih, List.append_assoc]
    rfl

/-- Past the threshold everything up to the terminal byte is dropped. -/
theorem sift_piped (hK : K ≠ 0) (n m : Nat) {b : UInt8} (hb : b < 128) (rest : List UInt8) :
    sift K ⟨n, true⟩ (List.replicate m 0x80 ++ b :: rest) = sift K ⟨0, false⟩ rest := by
  have hnot : ¬ b ≥ 128 := UInt8.not_le.mpr hb
  induction m with
  | zero => simp [sift, verdict, next, Verdict.items, hnot]
  | succ m ih =>
    have hcont : (0x80 : UInt8) ≥ 128 := by decide
    rw [List.replicate_succ, List.cons_append, sift]
    simp only [verdict, next, if_pos hcont, hK, ne_eq, not_false_eq_true, and_self, if_true,
      Verdict.items, List.nil_append]
    exact ih

/-- A run below the threshold passes. -/
theorem sift_short {n m : Nat} (hshort : K = 0 ∨ n + m < K) {b : UInt8} (hb : b < 128)
    (rest : List UInt8) :
    sift K ⟨n, false⟩ (List.replicate m 0x80 ++ b :: rest) =
      List.replicate m (.byte 0x80) ++ .byte b :: sift K ⟨0, false⟩ rest := by
  have hnot : ¬ b ≥ 128 := UInt8.not_le.mpr hb
  induction m generalizing n with
  | zero => simp [sift, verdict, next, Verdict.items, hnot]
  | succ m ih =>
    have hcont : (0x80 : UInt8) ≥ 128 := by decide
    have hbelow : ¬ (K ≠ 0 ∧ n + 1 ≥ K) := by omega
    rw [List.replicate_succ, List.cons_append, sift]
    simp only [verdict, next, if_pos hcont, Bool.false_eq_true, and_false, if_false, hbelow,
      decide_false, or_self, Verdict.items, List.singleton_append]
    rw [ih (by omega), List.replicate_succ, List.cons_append]

/-- A run that reaches it is cut off there. -/
theorem sift_long (hK : K ≠ 0) {n m : Nat} (hn : n < K) (hlong : K ≤ n + m) {b : UInt8} (hb : b < 128)
    (rest : List UInt8) :
    sift K ⟨n, false⟩ (List.replicate m 0x80 ++ b :: rest) =
      List.replicate (K - 1 - n) (.byte 0x80) ++ .idleBoundary :: sift K ⟨0, false⟩ rest := by
  have hcont : (0x80 : UInt8) ≥ 128 := by decide
  induction m generalizing n with
  | zero => omega
  | succ m ih =>
    rw [List.replicate_succ, List.cons_append, sift]
    by_cases hidle : n + 1 ≥ K
    · have hzero : K - 1 - n = 0 := by omega
      simp only [verdict, next, if_pos hcont, Bool.false_eq_true, and_false, if_false, hK, ne_eq,
        not_false_eq_true, true_and, hidle, or_true, decide_true, Verdict.items, hzero,
        List.replicate_zero, List.nil_append]
      rw [sift_piped hK _ _ hb]
      rfl
    · have hone : K - 1 - n = K - 1 - (n + 1) + 1 := by omega
      have hbelow : ¬ (K ≠ 0 ∧ n + 1 ≥ K) := fun h => hidle h.2
      simp only [verdict, next, if_pos hcont, Bool.false_eq_true, and_false, if_false, hbelow,
        or_self, decide_false, Verdict.items]
      rw [ih (by omega) (by omega), hone, List.replicate_succ]
      rfl

end Squelch

-- ---------------------------------------------------------------------------
-- Runs
-- ---------------------------------------------------------------------------

/-- How the eMCU delivers a run of `t` ticks. -/
def encodeRun (t : Nat) : List UInt8 := List.replicate (t / 128) 0x80 ++ [UInt8.ofNat (t % 128)]

/-- What the host is to make of it: the run, or what is below the idle threshold
and a boundary. -/
def expectedRuns (K t : Nat) : List Nat :=
  if K = 0 ∨ t / 128 < K then [t]
  else (if K = 1 then [] else [128 * (K - 1)]) ++ [BOUNDARY_RUN]

theorem terminal_lt (t : Nat) : UInt8.ofNat (t % 128) < 128 := by
  rw [UInt8.lt_iff_toNat_lt, UInt8.toNat_ofNat']
  have hlt := Nat.mod_lt t (by decide : 0 < 128)
  change t % 128 % 256 < 128
  omega

theorem encodeRun_le (t : Nat) : ∀ b ∈ encodeRun t, b ≤ 0x80 := by
  intro b hb
  rcases List.mem_append.mp hb with hb | hb
  · rw [List.eq_of_mem_replicate hb]
    decide
  · rw [List.mem_singleton.mp hb]
    exact UInt8.le_of_lt (terminal_lt t)

theorem reconstruct_replicate (acc m : Nat) (xs : List Item) :
    reconstructContinuation acc (List.replicate m (.byte 0x80) ++ xs) =
      reconstructContinuation (acc + 128 * m) xs := by
  induction m generalizing acc with
  | zero => rfl
  | succ m ih =>
    have hcont : (0x80 : UInt8) ≥ 128 := by decide
    rw [List.replicate_succ, List.cons_append, reconstructContinuation, if_pos hcont, ih]
    congr 1
    omega

/-- Squelch and host together, over the front of a stream. -/
theorem reconstruct_sift_append (K : Nat) (ts : List Nat) (rest : List UInt8) :
    reconstructContinuation 0 (Squelch.sift K ⟨0, false⟩ (ts.flatMap encodeRun ++ rest)) =
      ts.flatMap (expectedRuns K) ++ reconstructContinuation 0 (Squelch.sift K ⟨0, false⟩ rest) := by
  induction ts with
  | nil => rfl
  | cons t ts ih =>
    have hb := terminal_lt t
    have hsplit := Nat.div_add_mod t 128
    rw [List.flatMap_cons, List.flatMap_cons, encodeRun, List.append_assoc, List.append_assoc,
      List.singleton_append, expectedRuns]
    by_cases hshort : K = 0 ∨ t / 128 < K
    · have hval : (UInt8.ofNat (t % 128)).toNat = t % 128 := by
        rw [UInt8.toNat_ofNat', Nat.mod_eq_of_lt (by omega)]
      rw [if_pos hshort, Squelch.sift_short (by omega) hb, reconstruct_replicate,
        reconstructContinuation, if_neg (UInt8.not_le.mpr hb), ih, hval, List.append_assoc,
        List.singleton_append]
      congr 1
      omega
    · rw [if_neg hshort, Squelch.sift_long (by omega) (by omega) (by omega) hb, reconstruct_replicate,
        reconstructContinuation, ih, List.append_assoc, List.append_assoc, List.singleton_append]
      congr 1
      by_cases hone : K = 1
      · subst hone
        rfl
      · rw [if_neg hone, if_pos (by omega)]
        congr 1
        omega

/-- Squelch and host together, over a whole stream. -/
theorem reconstruct_sift (K : Nat) (ts : List Nat) :
    reconstructContinuation 0 (Squelch.sift K ⟨0, false⟩ (ts.flatMap encodeRun)) =
      ts.flatMap (expectedRuns K) := by
  have hall := reconstruct_sift_append K ts []
  rwa [List.append_nil, Squelch.sift, reconstructContinuation, List.append_nil] at hall

-- ---------------------------------------------------------------------------
-- Whole runs
-- ---------------------------------------------------------------------------

namespace System

/-- `service()` is about to take its idle-gap path. -/
def idleGap (s : System) : Bool :=
  match s.pc with
  | .finish nowMs saw => (s.host.trackActivity nowMs saw).idleGap nowMs
  | .idle | .filter .. | .readDrop .. | .mark .. | .report _ => false

/-- No byte is dropped: a drain finds its bytes in their slots and room for all
of them. And no call takes the idle-gap path. -/
def Calm (s : System) : Event → Prop
  | .drain => s.fifo.stored.length ≤ s.cursor + 30 ∧ s.toCopy = s.gap
  | .finish .. => s.idleGap = false
  | _ => True

instance decidableCalm (s : System) : ∀ e, Decidable (s.Calm e)
  | .drain => inferInstanceAs (Decidable (_ ≤ _ ∧ _ = _))
  | .finish .. => inferInstanceAs (Decidable (_ = _))
  | .store _ | .publish | .enter .. | .round | .readDrop | .mark _ | .report .. => .isTrue trivial

end System

/-- Behind `front` the wire carries the items the squelch leaves of the bytes
taken so far, up to boundaries that stand next to boundaries. Mode markers are
such boundaries: while `service()` sees no activity, none is open. -/
structure Sifted (B : Build) (front body : List Tag) (bytes : List UInt8) (s : System) : Prop where
  queued : Queued B s
  trace : s.trace = front ++ body
  banner : ∀ text, Tag.banner text ∉ body
  took : bytes ++ s.ahead.map Prod.snd = s.fifo.stored.take s.cursor
  squelch : s.squelch = Squelch.through B.capIdleK ⟨0, false⟩ bytes
  same : squeeze true (body.flatMap Tag.items) =
    squeeze true (Squelch.sift B.capIdleK ⟨0, false⟩ bytes)
  quiet : s.host.sniffActive = false → s.sawActivity = false →
    (body.flatMap Tag.items).foldl Item.cut true = true
  ramDrop : s.host.ramDrop = 0
  lossSeen : s.host.lossSeen = 0
  rd : ∀ nowMs saw rd, s.pc = .mark nowMs saw rd → rd = 0

namespace Sifted

variable {B : Build} {front body : List Tag} {bytes : List UInt8} {s : System}

theorem first_eq (h : Sifted B front body bytes s) (hstored : s.fifo.stored.length ≤ s.cursor + 30) :
    s.first = s.cursor ∧ s.gap = s.fifo.published - s.cursor ∧ Near s := by
  have hpub := s.fifo.published_le
  have hcursor := h.queued.aligned.cursor_le
  have hnear : Near s := by rw [Near]; omega
  have hgap := h.queued.aligned.gap_eq hnear
  have hall : s.gap = s.fifo.published - s.cursor := by omega
  exact ⟨by rw [System.first]; omega, hall, hnear⟩

theorem whole (h : Sifted B front body bytes s) {e : Event} (hcalm : s.Calm e) : s.DrainsWhole e := by
  cases e with
  | drain =>
    obtain ⟨hfirst, -, hnear⟩ := h.first_eq hcalm.1
    exact ⟨hnear, .inr (by rw [hfirst]; exact hcalm.1)⟩
  | _ => trivial

theorem drain (h : Sifted B front body bytes s) (hcalm : s.Calm .drain) :
    Sifted B front body bytes s.drain := by
  have hwhole := h.whole hcalm
  obtain ⟨hstored, hcopy⟩ := hcalm
  obtain ⟨hfirst, hgap, hnear⟩ := h.first_eq hstored
  have hpub := s.fifo.published_le
  have hcursor := h.queued.aligned.cursor_le
  have hfresh : s.fresh.map Prod.snd =
      (s.fifo.stored.drop s.cursor).take (s.fifo.published - s.cursor) := by
    have hlen : (s.host.copied s.fifo.regs).length ≤ ((List.range s.toCopy).map (s.first + ·)).length := by
      rw [length_copied, List.length_map, List.length_range]
      exact le_refl _
    rw [System.fresh, List.map_snd_zip hlen, h.queued.aligned.copied_eq hnear hwhole.2, hfirst, hcopy,
      hgap]
  have htake : s.fifo.stored.take s.fifo.published = s.fifo.stored.take s.cursor ++
      (s.fifo.stored.drop s.cursor).take (s.fifo.published - s.cursor) := by
    rw [← List.take_add]
    congr 1
    omega
  refine ⟨h.queued.drain hwhole, ?_, h.banner, ?_, ?_, h.same, ?_, ?_, ?_, ?_⟩
  · rw [System.drain_trace, h.trace]
  · rw [h.queued.ahead_drain, List.map_append, ← List.append_assoc, h.took, hfresh, ← htake]
    simp only [System.drain]
  · rw [System.drain_squelch, h.squelch]
  · simp only [System.sawActivity, System.drain, Sniffer.drainPioc]
    exact h.quiet
  · rw [System.drain_ramDrop, hcopy, Nat.sub_self, h.ramDrop]
    rfl
  · simp only [System.drain, Sniffer.drainPioc]
    exact h.lossSeen
  · simp only [System.drain]
    exact h.rd

theorem round (h : Sifted B front body bytes s) {nowMs : UInt32} {l : Loop}
    (hpc : s.pc = .filter nowMs l) (hrun : l.running = true) :
    ∃ tags b, Sifted B front (body ++ tags) (bytes ++ [b]) (s.round B nowMs l) := by
  obtain ⟨b, hb⟩ : ∃ b, b = s.host.ram.peek l.i := ⟨_, rfl⟩
  obtain ⟨v, hv⟩ : ∃ v, v = l.squelch.verdict B.capIdleK b := ⟨_, rfl⟩
  have hsquelch : l.squelch = Squelch.through B.capIdleK ⟨0, false⟩ bytes := by
    rw [← h.squelch, System.squelch, hpc]
  -- the verdict on this byte is the next step of the sift the host's view is compared with
  have hsift : Squelch.sift B.capIdleK ⟨0, false⟩ (bytes ++ [b]) =
      Squelch.sift B.capIdleK ⟨0, false⟩ bytes ++ v.items b := by
    rw [Squelch.sift_append, ← hsquelch, hv, Squelch.sift, Squelch.sift, List.append_nil]
  have htrace : (s.round B nowMs l).trace = s.trace ++ v.tags (s.queued.getD l.i 0) b := by
    rw [System.round, if_pos hrun, hv, hb]
  have hnext : (s.round B nowMs l).squelch = l.squelch.next B.capIdleK b := by
    rw [System.round, if_pos hrun, hb]
    rfl
  have hactive : (s.round B nowMs l).host.sniffActive =
      if v = .boundary then false else s.host.sniffActive := by
    rw [System.round, if_pos hrun, hv, hb]
    rfl
  -- activity stays unseen only behind a byte that the squelch ends or drops
  have hsaw : (s.round B nowMs l).sawActivity = false →
      v = .boundary ∨ v = .drop ∧ s.sawActivity = false := by
    have hloop : (s.round B nowMs l).pc = .filter nowMs (s.host.loopRound B l).2 := by
      rw [System.round, if_pos hrun]
    rw [System.sawActivity, hloop, System.sawActivity, hpc, hv, hb]
    simp only [Sniffer.loopRound]
    cases l.squelch.verdict B.capIdleK (s.host.ram.peek l.i) <;> simp
  have hqueued := h.queued.round hpc hrun
  refine ⟨v.tags (s.queued.getD l.i 0) b, b, hqueued, ?_, ?_, ?_, ?_, ?_, ?_, ?_, ?_, ?_⟩
  · rw [htrace, h.trace, List.append_assoc]
  · intro text hmem
    rcases List.mem_append.mp hmem with hold | hnew
    · exact h.banner text hold
    · cases v <;> simp [Verdict.tags] at hnew
  · have htook := h.took
    rw [h.queued.ahead_round hpc hrun, List.map_cons, ← hb] at htook
    have hkeep : (s.round B nowMs l).fifo = s.fifo ∧ (s.round B nowMs l).cursor = s.cursor := by
      rw [System.round, if_pos hrun]
      exact ⟨rfl, rfl⟩
    rw [hkeep.1, hkeep.2, List.append_assoc]
    exact htook
  · rw [hnext, hsquelch]
    exact (List.foldl_concat ..).symm
  · rw [hsift, List.flatMap_append, Verdict.flatMap_items]
    exact squeeze_append_congr h.same _
  · intro hidle hunseen
    rw [List.flatMap_append, Verdict.flatMap_items, List.foldl_append]
    rcases hsaw hunseen with hboundary | ⟨hdrop, hunseen'⟩
    · rw [hboundary]
      rfl
    · rw [hactive, hdrop] at hidle
      rw [hdrop]
      exact h.quiet hidle hunseen'
  · rw [System.round, if_pos hrun]
    exact h.ramDrop
  · rw [System.round, if_pos hrun]
    exact h.lossSeen
  · rw [System.round, if_pos hrun]
    rintro _ _ _ ⟨⟩

/-- Steps that only add tags. -/
theorem keep (h : Sifted B front body bytes s) {t : System} (hqueued : Queued B t) {ms : List Tag}
    (htrace : t.trace = s.trace ++ ms) (hbanner : ∀ text, Tag.banner text ∉ ms)
    (hcut : ms.flatMap Tag.items ≠ [] → (body.flatMap Tag.items).foldl Item.cut true = true)
    (hmarks : ∀ item ∈ ms.flatMap Tag.items, item = .idleBoundary)
    (htake : t.fifo.stored.take t.cursor = s.fifo.stored.take s.cursor)
    (hahead : t.ahead = s.ahead) (hsquelch : t.squelch = s.squelch)
    (hquiet : t.host.sniffActive = false → t.sawActivity = false →
      s.host.sniffActive = false ∧ s.sawActivity = false)
    (hramDrop : t.host.ramDrop = 0) (hlossSeen : t.host.lossSeen = 0)
    (hrd : ∀ nowMs saw rd, t.pc = .mark nowMs saw rd → rd = 0) :
    Sifted B front (body ++ ms) bytes t := by
  have hall : ∀ items : List Item, (∀ item ∈ items, item = .idleBoundary) →
      squeeze true items = [] ∧ items.foldl Item.cut true = true := by
    intro items hitems
    induction items with
    | nil => exact ⟨rfl, rfl⟩
    | cons item items ih =>
      obtain rfl := hitems item List.mem_cons_self
      exact ih fun item hmem => hitems item (List.mem_cons_of_mem _ hmem)
  refine ⟨hqueued, ?_, ?_, ?_, ?_, ?_, ?_, hramDrop, hlossSeen, hrd⟩
  · rw [htrace, h.trace, List.append_assoc]
  · intro text hmem
    exact (List.mem_append.mp hmem).elim (h.banner text) (hbanner text)
  · rw [hahead, htake, h.took]
  · rw [hsquelch, h.squelch]
  · rw [List.flatMap_append, squeeze_append, h.same]
    by_cases hnone : ms.flatMap Tag.items = []
    · rw [hnone]
      exact List.append_nil _
    · rw [hcut hnone, (hall _ hmarks).1, List.append_nil]
  · intro hidle hunseen
    obtain ⟨hidle', hunseen'⟩ := hquiet hidle hunseen
    rw [List.flatMap_append, List.foldl_append, h.quiet hidle' hunseen']
    exact (hall _ hmarks).2

theorem trackActivity_idle (u : Sniffer) {nowMs : UInt32} {saw : Bool}
    (h : (u.trackActivity nowMs saw).sniffActive = false) : u.sniffActive = false ∧ saw = false := by
  rw [Sniffer.trackActivity] at h
  split at h
  · cases h
  · rename_i hnone
    exact ⟨h, by simpa using fun hsaw => hnone (.inl hsaw)⟩

/-- Without the idle-gap path a call ends active where it has seen activity. -/
theorem finish_sniffActive (B : Build) (u : Sniffer) {nowMs : UInt32} {saw : Bool} (room : Bool)
    (space : Nat) (hgap : ¬ (u.trackActivity nowMs saw).idleGap nowMs) :
    (u.finish B nowMs saw room space).sniffActive = (u.trackActivity nowMs saw).sniffActive := by
  have hseparate : (u.trackActivity nowMs saw).separate nowMs room = u.trackActivity nowMs saw :=
    if_neg fun hdue => hgap hdue.1
  rw [Sniffer.finish, hseparate, Sniffer.heartbeat]
  split
  · rw [Sniffer.emitModeMarker_frame]
  · rfl

theorem finish (h : Sifted B front body bytes s) {room saw : Bool} {space : Nat} {nowMs : UInt32}
    (hpc : s.pc = .finish nowMs saw) (hgap : ¬ (s.host.trackActivity nowMs saw).idleGap nowMs) :
    Sifted B front (body ++ s.finishTags B nowMs saw room space) bytes
      (s.finish B nowMs saw room space) := by
  have hseparate : (s.host.trackActivity nowMs saw).separate nowMs room =
      s.host.trackActivity nowMs saw := if_neg fun hdue => hgap hdue.1
  have htags : s.finishTags B nowMs saw room space =
      if (s.host.trackActivity nowMs saw).beatDue nowMs ∧ Sniffer.markerFits B space then [.mode]
      else [] := by
    rw [System.finishTags, hseparate, if_neg fun hdue => hgap hdue.1]
    rfl
  have hsaw : s.sawActivity = saw := by rw [System.sawActivity, hpc]
  have hactive := finish_sniffActive B s.host room space hgap
  have hqueued : Queued B (s.finish B nowMs saw room space) := by
    have hstep := h.queued.step (e := .finish room space) trivial
    simpa only [System.step, hpc] using hstep
  refine h.keep hqueued (s.finish_trace B nowMs saw room space) ?_ ?_ ?_ rfl ?_ ?_ ?_ ?_ ?_ (by rintro _ _ _ ⟨⟩)
  · intro text hmem
    rw [htags] at hmem
    split at hmem <;> simp at hmem
  · intro hsome
    rw [htags] at hsome
    split at hsome
    · rename_i hdue
      have hbeat : (s.host.trackActivity nowMs saw).sniffActive = false := by
        have hbeat := hdue.1
        rw [Sniffer.beatDue, decide_eq_true_eq] at hbeat
        simpa using hbeat.1
      obtain ⟨hidle, hunseen⟩ := trackActivity_idle s.host hbeat
      exact h.quiet hidle (hsaw.trans hunseen)
    · exact absurd rfl hsome
  · intro item hmem
    rw [htags] at hmem
    split at hmem
    · simpa [Tag.items] using hmem
    · simp at hmem
  · rw [System.finish, Sniffer.finish_frame, System.ahead, System.ahead, System.taken, System.taken, hpc]
  · rw [System.finish, Sniffer.finish_frame, System.squelch, System.squelch, hpc]
  · intro hidle _
    rw [System.finish] at hidle
    obtain ⟨hidle', hunseen⟩ := trackActivity_idle s.host (hactive.symm.trans hidle)
    exact ⟨hidle', hsaw.trans hunseen⟩
  · rw [System.finish, Sniffer.finish_frame]
    exact h.ramDrop
  · rw [System.finish, Sniffer.finish_frame]
    exact h.lossSeen

theorem report (h : Sifted B front body bytes s) {d : TelemetryBlock} {space : Nat} {nowMs : UInt32}
    (hpc : s.pc = .report nowMs) :
    ∃ ms, Sifted B front (body ++ ms) bytes (s.report B nowMs d space) := by
  have hqueued : Queued B (s.report B nowMs d space) := by
    have hstep := h.queued.step (e := .report d space) trivial
    simpa only [System.step, hpc] using hstep
  have hsilent : ∀ due : Prop, [Decidable due] →
      (if due then [Tag.report d] else []).flatMap Tag.items = [] := by
    intro due _
    split <;> rfl
  refine ⟨_, h.keep hqueued rfl ?_ ?_ ?_ rfl ?_ ?_ ?_ ?_ ?_ (by rintro _ _ _ ⟨⟩)⟩
  · intro text hmem
    split at hmem <;> simp at hmem
  · intro hsome
    exact absurd (hsilent _) hsome
  · intro item hmem
    rw [hsilent] at hmem
    cases hmem
  · rw [System.report, Sniffer.report_frame, System.ahead, System.ahead, System.taken, System.taken, hpc]
  · rw [System.report, Sniffer.report_frame, System.squelch, System.squelch, hpc]
  · intro hidle _
    rw [System.report, Sniffer.report_frame] at hidle
    exact ⟨hidle, by rw [System.sawActivity, hpc]⟩
  · simp only [System.report, Sniffer.report]
    split
    · rfl
    · exact h.ramDrop
  · rw [System.report, Sniffer.report_frame]
    exact h.lossSeen

/-- A step without a drop and without an idle gap. -/
theorem step (h : Sifted B front body bytes s) {e : Event} (hcalm : s.Calm e) :
    ∃ body' bytes', Sifted B front body' bytes' (s.step B e) := by
  have hqueued := h.queued.step (h.whole hcalm)
  have hto := s.stepTo B e
  generalize s.step B e = t at hqueued hto
  -- most events write no tag and take no byte: body and bytes stay
  have hsame : ∀ {t : System}, Queued B t → t.trace = s.trace → t.ahead = s.ahead →
      t.squelch = s.squelch → t.fifo.stored.take t.cursor = s.fifo.stored.take s.cursor →
      t.host.sniffActive = s.host.sniffActive → t.sawActivity = s.sawActivity →
      t.host.ramDrop = 0 → t.host.lossSeen = 0 →
      (∀ nowMs saw rd, t.pc = .mark nowMs saw rd → rd = 0) →
      ∃ body' bytes', Sifted B front body' bytes' t := by
    intro t hqueued htrace hahead hsquelch htake hactive hsaw hramDrop hlossSeen hrd
    refine ⟨body ++ [], bytes, h.keep hqueued ?_ (by simp) (by simp) (by simp) htake hahead hsquelch ?_
      hramDrop hlossSeen hrd⟩
    · rw [htrace, List.append_nil]
    · rw [hactive, hsaw]
      exact And.intro
  cases hto with
  | stay => exact ⟨body, bytes, h⟩
  | store v hnext =>
    refine hsame hqueued rfl rfl rfl ?_ rfl rfl h.ramDrop h.lossSeen h.rd
    have hcursor := h.queued.aligned.cursor_le
    exact List.take_append_of_le_length (hcursor.trans s.fifo.published_le)
  | publish hpub => exact hsame hqueued rfl rfl rfl rfl rfl rfl h.ramDrop h.lossSeen h.rd
  | drain => exact ⟨body, bytes, h.drain hcalm⟩
  | enter nowMs writeSpace cap hpc =>
    refine hsame hqueued rfl ?_ ?_ rfl rfl ?_ h.ramDrop h.lossSeen (by rintro _ _ _ ⟨⟩)
    · rw [System.ahead, System.ahead, System.taken, System.taken, hpc]
      rfl
    · rw [System.squelch, System.squelch, hpc]
      rfl
    · rw [System.sawActivity, System.sawActivity, hpc]
      rfl
  | round nowMs l hpc hrun =>
    obtain ⟨tags, b, hround⟩ := h.round hpc hrun
    exact ⟨_, _, hround⟩
  | commit nowMs l hpc hstop =>
    have hahead := h.queued.ahead_commit hpc hstop
    rw [System.round, hstop, if_neg Bool.false_ne_true] at hqueued hahead ⊢
    refine hsame hqueued rfl hahead ?_ rfl rfl ?_ h.ramDrop h.lossSeen (by rintro _ _ _ ⟨⟩)
    · rw [System.squelch, System.squelch, hpc]
      rfl
    · rw [System.sawActivity, System.sawActivity, hpc]
  | readDrop nowMs saw hpc =>
    refine hsame hqueued rfl ?_ ?_ rfl rfl ?_ h.ramDrop h.lossSeen ?_
    · rw [System.ahead, System.ahead, System.taken, System.taken, hpc]
    · rw [System.squelch, System.squelch, hpc]
    · rw [System.sawActivity, System.sawActivity, hpc]
    · rintro _ _ _ hpc'
      obtain ⟨-, -, rfl⟩ := Pc.mark.inj hpc'
      exact h.ramDrop
  | mark room nowMs saw rd hpc =>
    -- without a drop the value read is the watermark, so the marker is not due
    have hnone : ¬ (rd ≠ s.host.lossSeen ∧ room = true) := by
      rw [h.rd _ _ _ hpc, h.lossSeen]
      exact fun hdue => hdue.1 rfl
    have hkeep : s.host.markLoss rd room = s.host := if_neg hnone
    have htrace : (s.mark nowMs saw rd room).trace = s.trace := by
      rw [System.mark_trace, if_neg hnone, List.append_nil]
    refine hsame hqueued htrace ?_ ?_ rfl ?_ ?_ ?_ ?_ (by rintro _ _ _ ⟨⟩)
    · rw [System.mark, hkeep, System.ahead, System.ahead, System.taken, System.taken, hpc]
    · rw [System.mark, hkeep, System.squelch, System.squelch, hpc]
    · rw [System.mark, hkeep]
    · rw [System.mark, System.sawActivity, System.sawActivity, hpc]
    · rw [System.mark, hkeep]
      exact h.ramDrop
    · rw [System.mark, hkeep]
      exact h.lossSeen
  | finish room space nowMs saw hpc =>
    have hgap : s.idleGap = false := hcalm
    rw [System.idleGap, hpc] at hgap
    exact ⟨_, _, h.finish hpc (by simp [hgap])⟩
  | report d space nowMs hpc =>
    obtain ⟨ms, hreport⟩ := h.report hpc
    exact ⟨_, _, hreport⟩

end Sifted

theorem sifted_begin (B : Build) (regs : Regs) (mem : Nat → UInt8) (lastT nowMs : UInt32)
    (space printed : Nat) :
    let s := System.begin B regs mem lastT nowMs space printed
    Sifted B s.trace [] [] s := by
  intro s
  have hhost : s.host = Sniffer.begin B mem lastT nowMs space printed := rfl
  refine
    { queued := queued_begin B regs mem lastT nowMs space printed
      trace := (List.append_nil _).symm
      banner := fun _ => List.not_mem_nil
      took := rfl
      squelch := ?_
      same := rfl
      quiet := fun _ _ => rfl
      ramDrop := ?_
      lossSeen := ?_
      rd := by rintro _ _ _ ⟨⟩ }
  · change s.host.squelch = _
    rw [hhost, Sniffer.begin_frame]
    rfl
  · rw [hhost, Sniffer.begin_frame]
  · rw [hhost, Sniffer.begin_frame]

/-- What the host makes of tags that agree with the squelch over the bytes taken. -/
theorem Sifted.collapse_sift {B : Build} {front body : List Tag} {bytes : List UInt8} {s : System}
    (h : Sifted B front body bytes s) (hle : ∀ b ∈ s.fifo.stored, b ≤ 0x80) {tags : List Tag}
    (htags : squeeze true (tags.flatMap Tag.items) = squeeze true (body.flatMap Tag.items))
    (hruns : ∀ k b, Tag.run k b ∈ tags → Tag.run k b ∈ s.trace)
    (hbanner : ∀ text, Tag.banner text ∉ tags) :
    collapse (BOUNDARY_RUN :: captureToRuns (tags.flatMap (Tag.bytes B))) =
      collapse (BOUNDARY_RUN ::
        reconstructContinuation 0 (Squelch.sift B.capIdleK ⟨0, false⟩ bytes)) := by
  have hrun : ∀ k b, Tag.run k b ∈ tags → b ≤ 0x80 := by
    intro k b hmem
    exact hle b (List.mem_of_getElem? (h.queued.runs k b (hruns k b hmem)))
  have hitems : captureToRuns (tags.flatMap (Tag.bytes B)) =
      reconstructContinuation 0 (tags.flatMap Tag.items) := by
    rw [← items_trace B hrun hbanner]
    rfl
  calc collapse (BOUNDARY_RUN :: captureToRuns (tags.flatMap (Tag.bytes B)))
      = collapse (BOUNDARY_RUN :: reconstructContinuation 0 (squeeze true (tags.flatMap Tag.items))) := by
        rw [hitems, (collapse_squeeze _).1]
    _ = collapse (BOUNDARY_RUN :: reconstructContinuation 0
          (squeeze true (Squelch.sift B.capIdleK ⟨0, false⟩ bytes))) := by
        rw [htags, h.same]
    _ = collapse (BOUNDARY_RUN ::
          reconstructContinuation 0 (Squelch.sift B.capIdleK ⟨0, false⟩ bytes)) := by
        rw [← (collapse_squeeze _).1]

/-- What the host makes of a body of tags and of a front of nothing but mode
markers and telemetry before it. -/
theorem Sifted.collapse_eq {B : Build} {front body : List Tag} {ts : List Nat} {s : System}
    (h : Sifted B front body (ts.flatMap encodeRun) s)
    (hstored : s.fifo.stored = ts.flatMap encodeRun) {tags : List Tag}
    (htags : squeeze true (tags.flatMap Tag.items) = squeeze true (body.flatMap Tag.items))
    (hruns : ∀ k b, Tag.run k b ∈ tags → Tag.run k b ∈ s.trace)
    (hbanner : ∀ text, Tag.banner text ∉ tags) :
    collapse (BOUNDARY_RUN :: captureToRuns (tags.flatMap (Tag.bytes B))) =
      collapse (BOUNDARY_RUN :: ts.flatMap (expectedRuns B.capIdleK)) := by
  have hle : ∀ b ∈ s.fifo.stored, b ≤ 0x80 := by
    intro b hb
    rw [hstored] at hb
    obtain ⟨t, -, hb⟩ := List.mem_flatMap.mp hb
    exact encodeRun_le t b hb
  rw [h.collapse_sift hle htags hruns hbanner, reconstruct_sift]

/-- From the wire behind `begin()` the host recovers the runs the eMCU has
delivered, up to repeated and leading boundaries; in a build that prints no banner,
from the whole wire. -/
theorem runs_recovered (B : Build) (regs : Regs) (mem : Nat → UInt8) (lastT nowMs : UInt32)
    (space printed : Nat) (evs : List Event) (ts : List Nat)
    (hcalm : AllSteps (System.step B) System.Calm
      (System.begin B regs mem lastT nowMs space printed) evs)
    (hdelivered : (run (System.step B) (System.begin B regs mem lastT nowMs space printed)
      evs).fifo.stored = ts.flatMap encodeRun)
    (hdrained : (run (System.step B) (System.begin B regs mem lastT nowMs space printed) evs).cursor =
      (ts.flatMap encodeRun).length)
    (hpassed : (run (System.step B) (System.begin B regs mem lastT nowMs space printed)
      evs).queued = [])
    (hreturned : (run (System.step B) (System.begin B regs mem lastT nowMs space printed) evs).pc =
      .idle) :
    let s := System.begin B regs mem lastT nowMs space printed
    let t := run (System.step B) s evs
    let expected := collapse (BOUNDARY_RUN :: ts.flatMap (expectedRuns B.capIdleK))
    (∃ body, t.host.wire = s.host.wire ++ body ∧
      collapse (BOUNDARY_RUN :: captureToRuns body) = expected) ∧
    (B.diag = false → collapse (BOUNDARY_RUN :: captureToRuns t.host.wire) = expected) := by
  intro s t expected
  obtain ⟨body, bytes, h⟩ : ∃ body bytes, Sifted B s.trace body bytes t := by
    refine hcalm.invariant (I := fun t => ∃ body bytes, Sifted B s.trace body bytes t) ?_
      ⟨[], [], sifted_begin B regs mem lastT nowMs space printed⟩
    rintro u e ⟨body, bytes, h⟩ he
    exact h.step he
  -- everything is drained and passed on: what was taken is what was stored
  have hbytes : bytes = ts.flatMap encodeRun := by
    have htook := h.took
    have hahead : t.ahead = [] := by
      change (t.queued.zip _).drop _ = []
      rw [hpassed, List.zip_nil_left, List.drop_nil]
    rw [hahead, List.map_nil, List.append_nil, hdelivered, hdrained, List.take_length] at htook
    exact htook
  subst hbytes
  have hwire : ∀ {u : System}, Queued B u → u.pc = .idle →
      u.host.wire = u.trace.flatMap (Tag.bytes B) := by
    intro u hu hpc
    have hreserved : u.reserved = [] := by rw [System.reserved, hpc]
    rw [← hu.wire, hreserved, List.append_nil]
  have hfront := hwire (queued_begin B regs mem lastT nowMs space printed) rfl
  have hall := hwire h.queued hreturned
  -- a mode marker in front is an item the collapse swallows behind a boundary
  refine ⟨⟨body.flatMap (Tag.bytes B), ?_, ?_⟩, fun hdiag => ?_⟩
  · rw [hall, h.trace, List.flatMap_append, hfront]
  · refine h.collapse_eq hdelivered rfl (fun k b hmem => ?_) h.banner
    rw [h.trace]
    exact List.mem_append_right _ hmem
  · have hmode : s.trace = [] ∨ s.trace = [.mode] := by
      have htrace : s.trace = (if Sniffer.markerFits B space then [.mode] else []) ++
          if B.diag then [.banner (banner.take printed)] else [] := rfl
      rw [htrace, hdiag, if_neg Bool.false_ne_true, List.append_nil]
      split
      · exact .inr rfl
      · exact .inl rfl
    rw [hall]
    refine h.collapse_eq hdelivered ?_ (fun _ _ => id) ?_
    · rw [h.trace, List.flatMap_append]
      rcases hmode with hmode | hmode <;> rw [hmode] <;> rfl
    · intro text hmem
      rw [h.trace, List.mem_append] at hmem
      rcases hmem with hmem | hmem
      · rcases hmode with hmode | hmode <;> rw [hmode] at hmem <;> simp at hmem
      · exact h.banner text hmem

/-- Two continuation bytes are an idle line. -/
def idleAfterTwo : Build where
  capIdleK := 2
  diag := false
  fcpu := 48000000

/-- A run of 7 and one of 300 ticks go through in one call. -/
def twoRuns : List Event :=
  ([⟨7, by decide⟩, ⟨0x80, by decide⟩, ⟨0x80, by decide⟩, ⟨44, by decide⟩] : List RunByte).flatMap
      (fun b => [.store b, .publish, .drain]) ++
    .enter 0 192 192 :: List.replicate 5 .round ++
      [.readDrop, .mark true, .finish true 100, .report noReadings 0]

theorem runs_recovered_two :
    let s := System.begin idleAfterTwo (fun _ => 0) (fun _ => 0) 0 0 100 0
    (∃ body, (run (System.step idleAfterTwo) s twoRuns).host.wire = s.host.wire ++ body ∧
      collapse (BOUNDARY_RUN :: captureToRuns body) =
        collapse (BOUNDARY_RUN :: [7, 300].flatMap (expectedRuns 2))) ∧
    (idleAfterTwo.diag = false → collapse
      (BOUNDARY_RUN :: captureToRuns (run (System.step idleAfterTwo) s twoRuns).host.wire) =
        collapse (BOUNDARY_RUN :: [7, 300].flatMap (expectedRuns 2))) :=
  runs_recovered idleAfterTwo (fun _ => 0) (fun _ => 0) 0 0 100 0 twoRuns [7, 300] (by decide +kernel)
    (by decide +kernel) (by decide +kernel) (by decide +kernel) (by decide +kernel)

/-- A mode marker in front of the first run reads as a boundary that no run has
left: not as a repeated one. -/
theorem marker_leads :
    let t := run (System.step idleAfterTwo)
      (System.begin idleAfterTwo (fun _ => 0) (fun _ => 0) 0 0 100 0) twoRuns
    AllSteps (System.step idleAfterTwo) System.Calm
        (System.begin idleAfterTwo (fun _ => 0) (fun _ => 0) 0 0 100 0) twoRuns ∧
      t.fifo.stored = [7, 300].flatMap encodeRun ∧ t.queued = [] ∧ t.pc = .idle ∧
        collapse (captureToRuns t.host.wire) ≠ collapse ([7, 300].flatMap (expectedRuns 2)) := by
  refine ⟨by decide +kernel, by decide +kernel, by decide +kernel, by decide +kernel, by decide +kernel⟩

end Tapioca.RleSniffer

-- SUMMARY: When a loss marker is owed, and where it stands: the markers of the run-length sniffer against the bytes it lost.
import Tapioca.Sniffer.RleQueue

/-!
# Loss markers

Bytes get lost in two places. A full RAM ring drops the newest ones and counts
them in `ramDrop`, which makes `service()` write a marker; a lapped FIFO loses
the oldest ones and is counted in `ovfPioc`, which nothing outside telemetry
reads.
-/

namespace Tapioca.RleSniffer

open Pioc Lib.Lts Lib.SlotRing

-- ---------------------------------------------------------------------------
-- Owed markers
-- ---------------------------------------------------------------------------

namespace System

/-- The condition under which `service()` writes a `0xFD`. -/
def owed (s : System) : Prop := s.host.ramDrop ≠ s.host.lossSeen

instance decidableOwed (s : System) : Decidable s.owed := inferInstanceAs (Decidable (_ ≠ _))

/-- Behind an overrun a marker is owed until one is written. -/
def OverrunOwed (s : System) : Prop := s.lapped = true → s.owed

instance decidableOverrunOwed (s : System) : Decidable s.OverrunOwed :=
  inferInstanceAs (Decidable (_ → _))

/-- The captured bytes a drain still finds in the FIFO: those HEAD is ahead of the
cursor, at most the 30 the FIFO holds. -/
def waiting (s : System) : Nat := min (s.fifo.regs RING_HEAD - s.host.sniffTail).toNat 30

/-- An overrun finds a marker owed already, or a RAM ring that has no room for the
30 bytes left; and no drain at or behind one makes the drops without a marker wrap
to none. -/
def SpillsAtOverrun (s : System) : Event → Prop
  | .drain =>
    (s.overrun = true → s.owed ∨ s.host.ram.space < 30) ∧
      (s.overrun = true ∨ s.lapped = true →
        (s.host.ramDrop - s.host.lossSeen).toNat + (s.waiting - s.host.ram.space) ≠ 2 ^ 32)
  | _ => True

instance decidableSpillsAtOverrun (s : System) : ∀ e, Decidable (s.SpillsAtOverrun e)
  | .drain => inferInstanceAs (Decidable ((_ → _) ∧ (_ ∨ _ → _)))
  | .store _ | .publish | .enter .. | .round | .readDrop | .mark _ | .finish .. | .report .. =>
    .isTrue trivial

theorem gap_eq_waiting (s : System) : s.gap = s.waiting := by
  have hring : RING_SLOTS.toNat = 30 := rfl
  rw [gap, Sniffer.gap, Sniffer.rawGap, waiting]
  split
  · rename_i hlap
    have hmore : RING_SLOTS.toNat < (s.fifo.regs RING_HEAD - s.host.sniffTail).toNat := hlap
    rw [hring, min_eq_right (by omega)]
  · rename_i hin
    have hless : (s.fifo.regs RING_HEAD - s.host.sniffTail).toNat ≤ RING_SLOTS.toNat := not_lt.mp hin
    rw [min_eq_left (by omega)]

/-- The bytes a drain has no room for. -/
theorem gap_sub_toCopy (s : System) : s.gap - s.toCopy = s.waiting - s.host.ram.space := by
  have hcopy : s.toCopy = min s.gap s.host.ram.space := rfl
  rw [hcopy, gap_eq_waiting]
  omega

theorem waiting_of_overrun {s : System} (h : s.overrun = true) : s.waiting = 30 := by
  have hmore : RING_SLOTS < s.fifo.regs RING_HEAD - s.host.sniffTail := of_decide_eq_true h
  exact min_eq_right (le_of_lt (UInt8.lt_iff_toNat_lt.mp hmore))

theorem drain_owed_iff (s : System) :
    s.drain.owed ↔ ((s.host.ramDrop - s.host.lossSeen).toNat + (s.gap - s.toCopy)) % 2 ^ 32 ≠ 0 := by
  have hcount : (s.host.ramDrop - s.host.lossSeen + UInt32.ofNat (s.gap - s.toCopy)).toNat =
      ((s.host.ramDrop - s.host.lossSeen).toNat + (s.gap - s.toCopy)) % 2 ^ 32 := by
    rw [UInt32.toNat_add, UInt32.toNat_ofNat', Nat.add_mod_mod]
  have hseen : s.drain.host.lossSeen = s.host.lossSeen := by simp only [drain, Sniffer.drainPioc]
  rw [← hcount, owed, drain_ramDrop, hseen, not_iff_not]
  generalize UInt32.ofNat (s.gap - s.toCopy) = n
  constructor
  · intro heq
    rw [← heq]
    have hzero : s.host.ramDrop - (s.host.ramDrop + n) + n = 0 := by grind
    rw [hzero]
    rfl
  · intro hzero
    have : s.host.ramDrop - s.host.lossSeen + n = 0 := UInt32.toNat_inj.mp hzero
    grind

/-- The drops behind a drain are some if there were some, or if it adds some. -/
theorem drain_spills_iff {s : System} (h : s.OverrunOwed) :
    (s.overrun = true ∨ s.lapped = true →
      ((s.host.ramDrop - s.host.lossSeen).toNat + (s.waiting - s.host.ram.space)) % 2 ^ 32 ≠ 0) ↔
        s.SpillsAtOverrun .drain := by
  have hlt : (s.host.ramDrop - s.host.lossSeen).toNat < 2 ^ 32 := UInt32.toNat_lt _
  have howed : s.owed ↔ (s.host.ramDrop - s.host.lossSeen).toNat ≠ 0 := by
    rw [owed, ne_eq, ne_eq, not_iff_not, ← UInt32.toNat_zero, UInt32.toNat_inj]
    constructor <;> intro heq <;> grind
  have hfew : s.waiting ≤ 30 := min_le_right _ _
  rw [OverrunOwed, howed] at h
  simp only [SpillsAtOverrun, howed]
  generalize (s.host.ramDrop - s.host.lossSeen).toNat = seen at *
  constructor
  · intro hall
    refine ⟨fun hover => ?_, fun hbehind => ?_⟩
    · have hsome := hall (.inl hover)
      have hfull := waiting_of_overrun hover
      omega
    · have hsome := hall hbehind
      omega
  · rintro ⟨hover, hwrap⟩ hbehind
    have hnot := hwrap hbehind
    rcases hbehind with hlap | hlap
    · have hroom := hover hlap
      have hfull := waiting_of_overrun hlap
      omega
    · have hseen := h hlap
      omega

/-- Only a drain can leave an overrun without a marker owed. -/
theorem overrunOwed_step_iff {s : System} (h : s.OverrunOwed) {B : Build} (hdiag : B.diag = false)
    (e : Event) : (s.step B e).OverrunOwed ↔ s.SpillsAtOverrun e := by
  have hto := s.stepTo B e
  generalize s.step B e = t at hto
  cases hto with
  | stay _ hstay =>
    cases e with
    | drain => exact absurd rfl hstay
    | _ => exact iff_of_true h trivial
  | drain =>
    have hlapped : s.drain.lapped = true ↔ s.overrun = true ∨ s.lapped = true := by
      simp only [drain, Bool.decide_or, Bool.decide_eq_true, Bool.or_eq_true]
      exact or_comm
    rw [OverrunOwed, hlapped, drain_owed_iff, gap_sub_toCopy]
    exact drain_spills_iff h
  | store | publish | enter | readDrop => exact iff_of_true h trivial
  | round nowMs l hpc hrun =>
    rw [System.round, if_pos hrun]
    exact iff_of_true h trivial
  | commit nowMs l hpc hstop =>
    rw [System.round, hstop, if_neg Bool.false_ne_true]
    exact iff_of_true h trivial
  | mark room nowMs saw rd hpc =>
    refine iff_of_true ?_ trivial
    by_cases hwritten : rd ≠ s.host.lossSeen ∧ room = true
    · intro hlapped
      simp [System.mark, hwritten.1, hwritten.2] at hlapped
    · have hkeep : s.host.markLoss rd room = s.host := if_neg hwritten
      intro hlapped
      simp only [System.mark, hkeep] at hlapped ⊢
      exact h (by simp_all)
  | finish =>
    rw [System.finish, Sniffer.finish_frame]
    exact iff_of_true h trivial
  | report d space nowMs hpc =>
    have hnever : s.host.reportDue B nowMs = false := by simp [Sniffer.reportDue, hdiag]
    have hkeep : s.host.report B nowMs d space = s.host := by
      rw [Sniffer.report, hnever]
      exact if_neg Bool.false_ne_true
    simp only [System.report, hkeep]
    exact iff_of_true h trivial

end System

/-- Without the telemetry, an overrun keeps a marker owed in every state of a run
until it is written if and only if each overrun comes when a marker is owed or the
RAM ring spills. -/
theorem overrun_owed_iff (B : Build) (hdiag : B.diag = false) (regs : Regs) (mem : Nat → UInt8)
    (lastT nowMs : UInt32) (space printed : Nat) (evs : List Event) :
    let s := System.begin B regs mem lastT nowMs space printed
    (∀ pre, pre <+: evs → (run (System.step B) s pre).OverrunOwed) ↔
      AllSteps (System.step B) System.SpillsAtOverrun s evs := by
  intro s
  have hbegin : s.OverrunOwed := by
    intro hlapped
    cases hlapped
  rw [forall_prefix_iff, and_iff_right hbegin]
  exact allSteps_iff_of_invariant (I := System.OverrunOwed)
    (fun _ e h => System.overrunOwed_step_iff h hdiag e)
    (fun _ e h he => (System.overrunOwed_step_iff h hdiag e).mpr he) hbegin evs

/-- A build without telemetry. -/
def plain : Build where
  capIdleK := 1
  diag := false
  fcpu := 48000000

/-- Bytes drained in time. -/
theorem overrun_owed_in_time :
    (run (System.step plain) (System.begin plain (fun _ => 0) (fun _ => 0) 0 0 0 0)
      (List.replicate 3 [Event.store ⟨5, by decide⟩, .publish, .drain]).flatten).OverrunOwed :=
  (overrun_owed_iff plain rfl (fun _ => 0) (fun _ => 0) 0 0 0 0 _).mpr (by decide +kernel) _
    (List.prefix_refl _)

/-- One byte too many between two drains, and no marker is owed for it. -/
theorem overrun_not_owed :
    ¬ (run (System.step plain) (System.begin plain (fun _ => 0) (fun _ => 0) 0 0 0 0)
      ((List.replicate 31 [Event.store ⟨5, by decide⟩, .publish]).flatten ++ [.drain])).OverrunOwed := by
  decide +kernel

-- ---------------------------------------------------------------------------
-- Placed markers
-- ---------------------------------------------------------------------------

/-- The run-byte the wire ends in behind a tag, if no separator follows it. -/
def Tag.after (o : Option Nat) : Tag → Option Nat
  | .run k _ => some k
  | .report _ | .banner _ => o
  | .boundary | .loss | .mode => none

def lastRun (trace : List Tag) : Option Nat := trace.foldl Tag.after none

/-- From a run-byte `o` on, the run-bytes that no separator parts follow each
other in the captured stream. -/
def Consecutive : Option Nat → List Tag → Prop
  | _, [] => True
  | o, .run k _ :: ts => (∀ j ∈ o, k = j + 1) ∧ Consecutive (some k) ts
  | o, .report _ :: ts | o, .banner _ :: ts => Consecutive o ts
  | _, .boundary :: ts | _, .loss :: ts | _, .mode :: ts => Consecutive none ts

theorem consecutive_append {o : Option Nat} {xs ys : List Tag} :
    Consecutive o (xs ++ ys) ↔ Consecutive o xs ∧ Consecutive (xs.foldl Tag.after o) ys := by
  induction xs generalizing o with
  | nil => simp [Consecutive]
  | cons t xs ih =>
    cases t with
    | run k b =>
      simp only [List.cons_append, Consecutive, ih, and_assoc]
      exact Iff.rfl
    | report _ | banner _ => exact ih
    | boundary | loss | mode => exact ih

theorem Consecutive.start {o : Option Nat} {ts : List Tag} (h : Consecutive o ts) :
    Consecutive none ts := by
  induction ts with
  | nil => trivial
  | cons t ts ih =>
    cases t with
    | run k b => exact ⟨nofun, h.2⟩
    | report _ | banner _ => exact ih h
    | boundary | loss | mode => exact h

/-- Tags that are no run-bytes can stand anywhere. -/
theorem Consecutive.insert {o : Option Nat} {ms ts : List Tag} (hms : ∀ k b, Tag.run k b ∉ ms)
    (h : Consecutive o ts) : Consecutive o (ms ++ ts) := by
  induction ms generalizing o with
  | nil => exact h
  | cons t ms ih =>
    have hrest : ∀ k b, Tag.run k b ∉ ms := fun k b hmem => hms k b (List.mem_cons_of_mem _ hmem)
    cases t with
    | run k b => exact absurd List.mem_cons_self (hms k b)
    | report _ | banner _ => exact ih hrest h
    | boundary | loss | mode => exact ih hrest h.start

theorem lastRun_append_marks {trace ms : List Tag} (hms : ∀ k b, Tag.run k b ∉ ms)
    (h : lastRun trace = none) : lastRun (trace ++ ms) = none := by
  rw [lastRun, List.foldl_append, ← lastRun, h]
  induction ms with
  | nil => rfl
  | cons t ms ih =>
    have hrest := ih fun k b hmem => hms k b (List.mem_cons_of_mem _ hmem)
    cases t with
    | run k b => exact absurd List.mem_cons_self (hms k b)
    | report _ | banner _ | boundary | loss | mode => exact hrest

/-- Two run-bytes with nothing but telemetry between them were consecutive. -/
theorem Consecutive.adjacent {trace : List Tag} (h : Consecutive none trace) {pre mid post : List Tag}
    {k k' : Nat} {b b' : UInt8} (htrace : trace = pre ++ .run k b :: (mid ++ .run k' b' :: post))
    (hmid : ∀ t ∈ mid, ∃ d, t = .report d) : k' = k + 1 := by
  rw [htrace, consecutive_append, Consecutive] at h
  have hbehind := h.2.2
  clear htrace h
  induction mid with
  | nil => exact hbehind.1 k rfl
  | cons t mid ih =>
    obtain ⟨d, rfl⟩ := hmid t List.mem_cons_self
    exact ih (fun t ht => hmid t (List.mem_cons_of_mem _ ht)) hbehind

-- ---------------------------------------------------------------------------
-- What the squelch leaves
-- ---------------------------------------------------------------------------

namespace Squelch

variable (K : Nat)

/-- What the filter puts out for bytes, and the state it is left in. -/
def tags (q : Squelch) : List (Nat × UInt8) → List Tag
  | [] => []
  | (k, b) :: items => (q.verdict K b).tags k b ++ (q.next K b).tags items

def after (q : Squelch) (items : List (Nat × UInt8)) : Squelch :=
  items.foldl (fun q item => q.next K item.2) q

variable {K}

theorem tags_append (q : Squelch) (xs ys : List (Nat × UInt8)) :
    q.tags K (xs ++ ys) = q.tags K xs ++ (q.after K xs).tags K ys := by
  induction xs generalizing q with
  | nil => rfl
  | cons x xs ih => rw [List.cons_append, tags, tags, ih, List.append_assoc]; rfl

/-- Behind a boundary the squelch has something to drop, and only there. -/
def Behind (K : Nat) (q : Squelch) (o : Option Nat) : Prop := q.capPiped = true → K ≠ 0 ∧ o = none

theorem Behind.next {q : Squelch} {o : Option Nat} (h : Behind K q o) (k : Nat) (b : UInt8) :
    Behind K (q.next K b) (((q.verdict K b).tags k b).foldl Tag.after o) := by
  unfold Squelch.next verdict
  by_cases hb : b ≥ 128
  · by_cases hpiped : K ≠ 0 ∧ q.capPiped = true
    · simp only [if_pos hb, if_pos hpiped]
      exact h
    · by_cases hidle : K ≠ 0 ∧ q.capRun + 1 ≥ K
      · simp only [if_pos hb, if_neg hpiped, if_pos hidle]
        exact fun _ => ⟨hidle.1, rfl⟩
      · have hnot : q.capPiped = false := by
          by_contra hcap
          have hcap : q.capPiped = true := by simpa using hcap
          exact hpiped ⟨(h hcap).1, hcap⟩
        simp only [if_pos hb, if_neg hidle, hnot]
        intro hcap
        simp [hidle] at hcap
  · simp only [if_neg hb]
    exact nofun

theorem Behind.after {q : Squelch} {o : Option Nat} (h : Behind K q o) (items : List (Nat × UInt8)) :
    Behind K (q.after K items) ((q.tags K items).foldl Tag.after o) := by
  induction items generalizing q o with
  | nil => exact h
  | cons item items ih =>
    rw [tags, List.foldl_append]
    exact ih (h.next item.1 item.2)

/-- What the squelch drops, it drops behind a boundary. -/
theorem Behind.dropped {q : Squelch} {o : Option Nat} (h : Behind K q o) {b : UInt8}
    (hdrop : q.verdict K b = .drop ∨ q.verdict K b = .dropTail) : o = none := by
  refine (h ?_).2
  by_contra hcap
  unfold verdict at hdrop
  split at hdrop
  · split at hdrop
    · rename_i hpiped
      exact hcap hpiped.2
    · split at hdrop <;> simp at hdrop
  · simp at hdrop

/-- Bytes captured one after the other stay so. -/
theorem consecutive_tags {q : Squelch} {o : Option Nat} (h : Behind K q o) {n : Nat}
    (hnext : ∀ j ∈ o, n = j + 1) (bs : List UInt8) :
    Consecutive o (q.tags K ((List.range' n bs.length).zip bs)) := by
  induction bs generalizing q o n with
  | nil => trivial
  | cons b bs ih =>
    have hbehind := h.next n b
    rw [List.length_cons, List.range'_succ, List.zip_cons_cons, tags]
    cases hv : q.verdict K b with
    | pass =>
      rw [hv] at hbehind
      refine ⟨hnext, ih hbehind ?_⟩
      intro j hj
      rw [← Option.mem_some_iff.mp hj]
    | boundary =>
      rw [hv] at hbehind
      exact ih hbehind nofun
    | drop | dropTail =>
      have hnone := h.dropped (b := b) (by rw [hv]; simp)
      rw [hv] at hbehind
      subst hnone
      exact ih hbehind nofun

end Squelch

-- ---------------------------------------------------------------------------
-- Seams
-- ---------------------------------------------------------------------------

namespace System

variable (B : Build)

/-- The trace once the filter has taken all bytes ahead. -/
def forecast (s : System) : List Tag := s.trace ++ s.squelch.tags B.capIdleK s.ahead

/-- HEAD is never more than a ring ahead of a drain. -/
def NoOverrun (s : System) : Event → Prop
  | .drain => s.fifo.published ≤ s.cursor + 30
  | _ => True

/-- A drain that copies bytes reads no slot that has been stored over; and its
first byte comes right behind the last run-byte ahead of it, unless a separator
stands or will stand between them. -/
def Joins (s : System) : Event → Prop
  | .drain =>
    s.toCopy = 0 ∨
      s.fifo.stored.length ≤ s.first + 30 ∧ ∀ j ∈ lastRun (s.forecast B), s.first = j + 1
  | _ => True

instance decidableNoOverrun (s : System) : ∀ e, Decidable (s.NoOverrun e)
  | .drain => inferInstanceAs (Decidable (_ ≤ _))
  | .store _ | .publish | .enter .. | .round | .readDrop | .mark _ | .finish .. | .report .. =>
    .isTrue trivial

instance decidableJoins (B : Build) (s : System) : ∀ e, Decidable (s.Joins B e)
  | .drain => inferInstanceAs (Decidable (_ ∨ _ ∧ ∀ j ∈ lastRun (s.forecast B), s.first = j + 1))
  | .store _ | .publish | .enter .. | .round | .readDrop | .mark _ | .finish .. | .report .. =>
    .isTrue trivial

/-- Run-bytes on the wire carry captured bytes, and two of them with nothing but
telemetry between them were captured one right after the other. -/
structure Parted (s : System) : Prop where
  wire : s.host.wire ++ s.reserved = s.trace.flatMap (Tag.bytes B)
  runs : ∀ k b, Tag.run k b ∈ s.trace → s.fifo.stored[k]? = some b
  adjacent : ∀ pre mid post k b k' b',
    s.trace = pre ++ .run k b :: (mid ++ .run k' b' :: post) → (∀ t ∈ mid, ∃ d, t = .report d) →
      k' = k + 1

/-- The bytes ahead will not be joined to what they did not follow. -/
structure Seamless (s : System) : Prop where
  queued : Queued B s
  behind : Squelch.Behind B.capIdleK s.squelch (lastRun s.trace)
  forecast : Consecutive none (s.forecast B)

variable {B}

theorem Seamless.parted {s : System} (h : s.Seamless B) : s.Parted B where
  wire := h.queued.wire
  runs := h.queued.runs
  adjacent _ _ _ _ _ _ _ htrace hmid := (consecutive_append.mp h.forecast).1.adjacent htrace hmid

theorem fresh_eq (s : System) :
    s.fresh = (List.range' s.first (s.host.copied s.fifo.regs).length).zip
      (s.host.copied s.fifo.regs) := by
  rw [fresh, length_copied, List.range'_eq_map_range]
  rfl

/-- Marks go between what is on the wire and what the filter has still to take. -/
theorem Seamless.mark {s t : System} (h : s.Seamless B) (hqueued : Queued B t) (ms : List Tag)
    (hms : ∀ k b, Tag.run k b ∉ ms) (htrace : t.trace = s.trace ++ ms)
    (hsquelch : t.squelch = s.squelch) (hahead : t.ahead = s.ahead) : t.Seamless B := by
  refine ⟨hqueued, ?_, ?_⟩
  · rw [hsquelch, htrace]
    exact fun hpiped => ⟨(h.behind hpiped).1, lastRun_append_marks hms (h.behind hpiped).2⟩
  · obtain ⟨hwire, hrest⟩ := consecutive_append.mp h.forecast
    rw [System.forecast, htrace, hsquelch, hahead, List.append_assoc, consecutive_append]
    exact ⟨hwire, hrest.insert hms⟩

theorem NoOverrun.near {s : System} (h : s.NoOverrun .drain) : Near s :=
  Nat.lt_of_le_of_lt h (by omega)

theorem Joins.whole {s : System} (hover : s.NoOverrun .drain) (h : s.Joins B .drain) :
    s.DrainsWhole .drain := by
  refine ⟨hover.near, ?_⟩
  rcases h with hzero | ⟨hlap, -⟩
  · exact .inl hzero
  · exact .inr hlap

theorem Seamless.drain {s : System} (h : s.Seamless B) (hover : s.NoOverrun .drain)
    (hjoins : s.Joins B .drain) : s.drain.Seamless B := by
  have hbehind : Squelch.Behind B.capIdleK (s.squelch.after B.capIdleK s.ahead)
      (lastRun (s.forecast B)) := by
    rw [System.forecast, lastRun, List.foldl_append]
    exact h.behind.after s.ahead
  have hforecast : s.drain.forecast B =
      s.forecast B ++ (s.squelch.after B.capIdleK s.ahead).tags B.capIdleK s.fresh := by
    rw [System.forecast, h.queued.ahead_drain, drain_squelch, drain_trace, Squelch.tags_append,
      ← List.append_assoc, System.forecast]
  have hfresh : Consecutive (lastRun (s.forecast B))
      ((s.squelch.after B.capIdleK s.ahead).tags B.capIdleK s.fresh) := by
    rcases hjoins with hzero | ⟨-, hjoins⟩
    · rw [fresh, hzero]
      trivial
    · rw [fresh_eq]
      generalize s.host.copied s.fifo.regs = bs
      exact Squelch.consecutive_tags hbehind hjoins bs
  refine ⟨h.queued.drain (hjoins.whole hover), ?_, ?_⟩
  · rw [drain_squelch, drain_trace]
    exact h.behind
  · rw [hforecast]
    exact consecutive_append.mpr ⟨h.forecast, hfresh⟩

theorem Seamless.round {s : System} (h : s.Seamless B) {nowMs : UInt32} {l : Loop}
    (hpc : s.pc = .filter nowMs l) (hrun : l.running = true) : (s.round B nowMs l).Seamless B := by
  have hahead := h.queued.ahead_round hpc hrun
  have hsquelch : s.squelch = l.squelch := by rw [System.squelch, hpc]
  have hround := h.queued.round hpc hrun
  have htrace : (s.round B nowMs l).trace = s.trace ++
      (l.squelch.verdict B.capIdleK (s.host.ram.peek l.i)).tags (s.queued.getD l.i 0)
        (s.host.ram.peek l.i) := by
    rw [System.round, if_pos hrun]
  have hnext : (s.round B nowMs l).squelch = l.squelch.next B.capIdleK (s.host.ram.peek l.i) := by
    rw [System.round, if_pos hrun]
    rfl
  refine ⟨hround, ?_, ?_⟩
  · rw [hnext, htrace, lastRun, List.foldl_append, ← hsquelch]
    exact h.behind.next _ _
  · have hforecast := h.forecast
    rw [System.forecast, hahead, hsquelch, Squelch.tags, ← List.append_assoc] at hforecast
    rw [System.forecast, htrace, hnext]
    exact hforecast

theorem Seamless.step {s : System} (h : s.Seamless B) {e : Event} (hover : s.NoOverrun e)
    (hjoins : s.Joins B e) : (s.step B e).Seamless B := by
  have hwhole : s.DrainsWhole e := by
    cases e with
    | drain => exact hjoins.whole hover
    | _ => trivial
  have hqueued := h.queued.step hwhole
  have hto := s.stepTo B e
  generalize s.step B e = t at hqueued hto
  cases hto with
  | stay => exact h
  | store v hnext => exact ⟨hqueued, h.behind, h.forecast⟩
  | publish hpub => exact ⟨hqueued, h.behind, h.forecast⟩
  | drain => exact h.drain hover hjoins
  | enter nowMs writeSpace cap hpc =>
    -- a piece of service() that moves no byte leaves the forecast alone; mark asks for just that
    refine h.mark hqueued [] (by simp) (List.append_nil _).symm ?_ ?_
    · rw [System.squelch, System.squelch, hpc]
      rfl
    · rw [System.ahead, System.ahead, System.taken, System.taken, hpc]
      rfl
  | round nowMs l hpc hrun => exact h.round hpc hrun
  | commit nowMs l hpc hstop =>
    refine h.mark hqueued [] (by simp) ?_ ?_ (h.queued.ahead_commit hpc hstop)
    · rw [System.round, hstop, if_neg Bool.false_ne_true, List.append_nil]
    · rw [System.round, hstop, if_neg Bool.false_ne_true, System.squelch, System.squelch, hpc]
      rfl
  | readDrop nowMs saw hpc =>
    refine h.mark hqueued [] (by simp) (List.append_nil _).symm ?_ ?_
    · rw [System.squelch, System.squelch, hpc]
    · rw [System.ahead, System.ahead, System.taken, System.taken, hpc]
  | mark room nowMs saw rd hpc =>
    refine h.mark hqueued _ ?_ (s.mark_trace nowMs saw rd room) ?_ ?_
    · intro k b hmem
      split at hmem <;> simp at hmem
    · rw [System.mark, Sniffer.markLoss_frame, System.squelch, System.squelch, hpc]
    · rw [System.mark, Sniffer.markLoss_frame, System.ahead, System.ahead, System.taken, System.taken,
        hpc]
  | finish room space nowMs saw hpc =>
    refine h.mark hqueued _ (s.run_notMem_finishTags B nowMs saw room space)
      (s.finish_trace B nowMs saw room space) ?_ ?_
    · rw [System.finish, Sniffer.finish_frame, System.squelch, System.squelch, hpc]
    · rw [System.finish, Sniffer.finish_frame, System.ahead, System.ahead, System.taken, System.taken,
        hpc]
  | report d space nowMs hpc =>
    refine h.mark hqueued _ ?_ rfl ?_ ?_
    · intro k b hmem
      split at hmem <;> simp at hmem
    · rw [System.report, Sniffer.report_frame, System.squelch, System.squelch, hpc]
    · rw [System.report, Sniffer.report_frame, System.ahead, System.ahead, System.taken, System.taken,
        hpc]

theorem seamless_begin (B : Build) (regs : Regs) (mem : Nat → UInt8) (lastT nowMs : UInt32)
    (space printed : Nat) : (System.begin B regs mem lastT nowMs space printed).Seamless B := by
  have hsquelch : (System.begin B regs mem lastT nowMs space printed).squelch = ⟨0, false⟩ := by
    rw [System.squelch, System.begin, Sniffer.begin_frame]
  have hahead : (System.begin B regs mem lastT nowMs space printed).ahead = [] := rfl
  refine ⟨queued_begin B regs mem lastT nowMs space printed, ?_, ?_⟩
  · rw [hsquelch]
    rintro ⟨⟩
  · rw [System.forecast, hahead]
    simp only [System.begin]
    split <;> split <;> trivial

end System

/-- In a run without overrun in which each drain that copies bytes joins them to
the byte in front of them or to a separator, run-bytes on the wire that no
separator parts were captured one right after the other. -/
theorem markers_placed (B : Build) (regs : Regs) (mem : Nat → UInt8) (lastT nowMs : UInt32)
    (space printed : Nat) (evs : List Event)
    (hrun : AllSteps (System.step B) (fun s e => s.NoOverrun e ∧ s.Joins B e)
      (System.begin B regs mem lastT nowMs space printed) evs) :
    ∀ pre, pre <+: evs →
      (run (System.step B) (System.begin B regs mem lastT nowMs space printed) pre).Parted B := by
  rintro pre ⟨rest, rfl⟩
  exact (((allSteps_append _ _ _).mp hrun).1.invariant (I := System.Seamless B)
    (fun _ _ h he => h.step he.1 he.2) (System.seamless_begin B regs mem lastT nowMs space printed)).parted

/-- Byte 5 is captured and drained. -/
def fillOne : List Event := [.store ⟨5, by decide⟩, .publish, .drain]

/-- A call of `service()` with room for one byte, and then for a marker. -/
def serveOne : List Event :=
  [.enter 0 1 1, .round, .round, .readDrop, .mark true, .finish false 0, .report noReadings 0]

/-- Three bytes go through. -/
theorem markers_placed_three :
    (run (System.step plain) (System.begin plain (fun _ => 0) (fun _ => 0) 0 0 0 0)
      (List.replicate 3 (fillOne ++ serveOne)).flatten).Parted plain :=
  markers_placed plain (fun _ => 0) (fun _ => 0) 0 0 0 0 _ (by decide +kernel) _
    (List.prefix_refl _)

/-- Between calls of `service()`, with these bytes of value 5 in the RAM ring and
nothing in the FIFO. -/
structure Backlog (s : System) (queue : List Nat) (next : Nat) (drop seen : UInt32) : Prop where
  queued : Queued plain s
  pc : s.pc = .idle
  stored : s.fifo.stored = List.replicate next 5
  published : s.fifo.published = next
  cursor : s.cursor = next
  queue : s.queued = queue
  squelch : s.host.squelch = ⟨0, false⟩
  ramDrop : s.host.ramDrop = drop
  lossSeen : s.host.lossSeen = seen

/-- A byte captured and published. -/
theorem Backlog.publish {s : System} {queue : List Nat} {next : Nat} {drop seen : UInt32}
    (h : Backlog s queue next drop seen) :
    ∃ f : Fifo layout, f.stored = List.replicate (next + 1) 5 ∧ f.published = next + 1 ∧
      Queued plain { s with fifo := f } ∧
      (s.step plain (.store ⟨5, by decide⟩)).step plain .publish = { s with fifo := f } := by
  have hstored : s.fifo.published = s.fifo.stored.length := by
    rw [h.published, h.stored, List.length_replicate]
  have hstore : s.step plain (.store ⟨5, by decide⟩) = { s with fifo := s.fifo.store 5 hstored } :=
    dif_pos hstored
  have hpub : (s.fifo.store 5 hstored).published < (s.fifo.store 5 hstored).stored.length := by
    rw [Fifo.store_published, Fifo.store_stored, List.length_append, ← hstored]
    exact Nat.lt_succ_self _
  have hpublish : System.step plain { s with fifo := s.fifo.store 5 hstored } .publish =
      { s with fifo := (s.fifo.store 5 hstored).publish hpub } :=
    dif_pos hpub
  refine ⟨(s.fifo.store 5 hstored).publish hpub, ?_, ?_, ?_, ?_⟩
  · rw [Fifo.publish_stored, Fifo.store_stored, h.stored, List.replicate_succ']
  · rw [Fifo.publish_published, Fifo.store_published, h.published]
  · rw [← hpublish, ← hstore]
    exact (h.queued.step (e := .store ⟨5, by decide⟩) trivial).step (e := .publish) trivial
  · rw [hstore, hpublish]

/-- What the byte captured next does: it is queued, or dropped and counted. -/
theorem Backlog.fill {s : System} {queue : List Nat} {next : Nat} {drop seen : UInt32}
    (h : Backlog s queue next drop seen) :
    AllSteps (System.step plain) System.NoOverrun s fillOne ∧
      let t := run (System.step plain) s fillOne
      t.trace = s.trace ∧
        (queue.length < 2047 → Backlog t (queue ++ [next]) (next + 1) drop seen) ∧
        (queue.length = 2047 → Backlog t queue (next + 1) (drop + 1) seen) := by
  obtain ⟨f, hstored, hpublished, hqueued, hsteps⟩ := h.publish
  obtain ⟨u, hu⟩ : ∃ u : System, u = { s with fifo := f } := ⟨_, rfl⟩
  rw [← hu] at hqueued hsteps
  have hfill : run (System.step plain) s fillOne = u.drain := by
    rw [fillOne, run_cons, run_cons, hsteps]
    rfl
  have hcursor : u.cursor = next := by rw [hu]; exact h.cursor
  have hstored' : u.fifo.stored = List.replicate (next + 1) 5 := by rw [hu]; exact hstored
  have hpublished' : u.fifo.published = next + 1 := by rw [hu]; exact hpublished
  have hqueue : u.queued = queue := by rw [hu]; exact h.queue
  have hcount : u.host.ram.count = queue.length := by rw [← hqueued.length_queued, hqueue]
  have hnear : Near u := by rw [Near]; omega
  have hover : u.NoOverrun .drain := by
    change u.fifo.published ≤ u.cursor + 30
    omega
  have hgap : u.gap = 1 := by rw [hqueued.aligned.gap_eq hnear]; omega
  have hfirst : u.first = next := by rw [System.first]; omega
  -- the copy is cut at the room that is left, and this is all the two outcomes differ in
  have hcopy : u.toCopy = min 1 (2047 - queue.length) := by
    rw [← hgap, ← hcount, ← RamRing.space_eq]
    rfl
  have hwhole : u.DrainsWhole .drain := by
    refine ⟨hnear, .inr ?_⟩
    rw [hstored', List.length_replicate]
    omega
  have hdrain := hqueued.drain hwhole
  have hcursor' : u.drain.cursor = next + 1 := by simpa only [System.drain] using hpublished'
  have hfifo : u.drain.fifo = u.fifo := by simp only [System.drain]
  rw [← hfifo] at hstored' hpublished'
  have hpc : u.drain.pc = .idle := by
    simp only [System.drain]
    rw [hu]
    exact h.pc
  have hsquelch : u.drain.host.squelch = ⟨0, false⟩ := by
    simp only [System.drain, Sniffer.drainPioc]
    rw [hu]
    exact h.squelch
  have hseen : u.drain.host.lossSeen = seen := by
    simp only [System.drain, Sniffer.drainPioc]
    rw [hu]
    exact h.lossSeen
  have hdrop : u.drain.host.ramDrop = drop + UInt32.ofNat (1 - u.toCopy) := by
    rw [System.drain_ramDrop, hgap, hu, h.ramDrop]
  have htail : u.drain.queued = queue ++ (List.range u.toCopy).map (next + ·) := by
    rw [← hqueue, ← hfirst]
    rfl
  refine ⟨⟨trivial, trivial, ?_, trivial⟩, ?_⟩
  · rw [hsteps]
    exact hover
  · rw [hfill]
    refine ⟨?_, fun hroom => ?_, fun hfull => ?_⟩
    · rw [System.drain_trace, hu]
    · have hone : u.toCopy = 1 := by omega
      refine ⟨hdrain, hpc, hstored', hpublished', hcursor', ?_, hsquelch, ?_, hseen⟩
      · rw [htail, hone]
        rfl
      · rw [hdrop, hone]
        exact UInt32.add_zero _
    · have hnone : u.toCopy = 0 := by omega
      refine ⟨hdrain, hpc, hstored', hpublished', hcursor', ?_, hsquelch, ?_, hseen⟩
      · rw [htail, hnone]
        exact List.append_nil _
      · rw [hdrop, hnone]
        rfl

/-- Without room for a separator `service()` only marks activity behind a call
that has taken a byte. -/
theorem finish_active (s : Sniffer) :
    s.finish plain 0 true false 0 = { s with sniffLastMs := 0, sniffActive := true } := by
  have htrack : s.trackActivity 0 true = { s with sniffLastMs := 0, sniffActive := true } :=
    if_pos (.inl rfl)
  have hseparate : ∀ u : Sniffer, u.separate 0 false = u := fun u => if_neg (by simp)
  have hbeat : ∀ u : Sniffer, u.sniffActive = true → u.heartbeat plain 0 0 = u := by
    intro u hactive
    refine if_neg ?_
    simp [Sniffer.beatDue, hactive]
  rw [Sniffer.finish, htrack, hseparate, hbeat _ rfl]

theorem finishTags_active (s : System) : s.finishTags plain 0 true false 0 = [] := by
  have htrack : s.host.trackActivity 0 true = { s.host with sniffLastMs := 0, sniffActive := true } :=
    if_pos (.inl rfl)
  have hseparate : ∀ u : Sniffer, u.separate 0 false = u := fun u => if_neg (by simp)
  simp [System.finishTags, htrack, hseparate, Sniffer.beatDue]

/-- The rest of a call that has taken a byte. -/
theorem serve_rest (s : System) (hpc : s.pc = .readDrop 0 true) :
    ∃ lapped, run (System.step plain) s
        [.readDrop, .mark true, .finish false 0, .report noReadings 0] =
      { s with
        host := { s.host.markLoss s.host.ramDrop true with sniffLastMs := 0, sniffActive := true }
        pc := .idle
        trace := s.trace ++ if s.host.ramDrop ≠ s.host.lossSeen then [.loss] else []
        lapped } := by
  have hread : s.step plain .readDrop = { s with pc := .mark 0 true s.host.ramDrop } := by
    simp only [System.step, hpc]
  have hmark : ∃ lapped, System.mark { s with pc := .mark 0 true s.host.ramDrop } 0 true
      s.host.ramDrop true =
      { s with
        host := s.host.markLoss s.host.ramDrop true
        pc := .finish 0 true
        trace := s.trace ++ if s.host.ramDrop ≠ s.host.lossSeen then [.loss] else []
        lapped } := by
    by_cases howed : s.host.ramDrop = s.host.lossSeen
    · exact ⟨s.lapped, by simp [System.mark, howed]⟩
    · exact ⟨false, by simp [System.mark, howed]⟩
  obtain ⟨lapped, hmark⟩ := hmark
  refine ⟨lapped, ?_⟩
  obtain ⟨u, hu⟩ : ∃ u : System, u =
      { s with
        host := s.host.markLoss s.host.ramDrop true
        pc := .finish 0 true
        trace := s.trace ++ if s.host.ramDrop ≠ s.host.lossSeen then [.loss] else []
        lapped } := ⟨_, rfl⟩
  rw [← hu] at hmark
  have hfinish : u.step plain (.finish false 0) = u.finish plain 0 true false 0 := by
    simp only [hu, System.step]
  have hactive : u.finish plain 0 true false 0 =
      { u with host := { u.host with sniffLastMs := 0, sniffActive := true }, pc := .report 0 } := by
    have htrace := u.finish_trace plain 0 true false 0
    rw [finishTags_active, List.append_nil] at htrace
    simp only [System.finish] at htrace ⊢
    rw [htrace, finish_active]
  have hreport : System.step plain
      { u with host := { u.host with sniffLastMs := 0, sniffActive := true }, pc := .report 0 }
        (.report noReadings 0) =
      { u with host := { u.host with sniffLastMs := 0, sniffActive := true }, pc := .idle } := by
    have hnever : ∀ v : Sniffer, v.reportDue plain 0 = false := fun v => rfl
    simp only [System.step, System.report, Sniffer.report, hnever, Bool.false_eq_true, if_false,
      false_and, List.append_nil]
  rw [run_cons, hread, run_cons]
  change run (System.step plain) (System.mark _ 0 true s.host.ramDrop true) _ = _
  rw [hmark, run_cons, hfinish, hactive, run_cons, hreport, run_nil, hu]

/-- A call takes the oldest byte, and writes a marker if one is owed. -/
theorem Backlog.serve {s : System} {k : Nat} {queue : List Nat} {next : Nat} {drop seen : UInt32}
    (h : Backlog s (k :: queue) next drop seen) :
    AllSteps (System.step plain) System.NoOverrun s serveOne ∧
      let t := run (System.step plain) s serveOne
      Backlog t queue next drop drop ∧
        t.trace = s.trace ++ .run k 5 :: if drop ≠ seen then [.loss] else [] := by
  have hcount : s.host.ram.count = queue.length + 1 := by
    rw [← h.queued.length_queued, h.queue, List.length_cons]
  have hpeek : s.host.ram.peek 0 = 5 := by
    have hbyte := h.queued.getElem?_contents (i := 0) (by omega)
    rw [h.stored, List.getElem?_replicate] at hbyte
    split at hbyte
    · exact (Option.some_inj.mp hbyte).symm
    · cases hbyte
  -- the loop starts with one byte to take and no squelched run
  have hstart : s.host.startLoop plain 1 1 = ⟨1, 1, 0, [], ⟨0, false⟩, false⟩ := by
    have hn : min s.host.ram.count (min (1 : UInt16).toNat 192) = 1 := by
      rw [hcount]
      simp
    rw [Sniffer.startLoop, h.squelch]
    simp only [plain, Bool.false_eq_true, if_false, hn]
  have henter : s.step plain (.enter 0 1 1) =
      { s with pc := .filter 0 ⟨1, 1, 0, [], ⟨0, false⟩, false⟩ } := by
    simp only [System.step, h.pc, hstart]
  have hround : System.round plain s 0 ⟨1, 1, 0, [], ⟨0, false⟩, false⟩ =
      { s with
        pc := .filter 0 ⟨1, 1, 1, [5], ⟨0, false⟩, true⟩, consumed := s.consumed ++ [k]
        trace := s.trace ++ [.run k 5] } := by
    have hfirst : s.queued.getD 0 0 = k := by rw [h.queue]; rfl
    have hpass : ({ capRun := 0, capPiped := false } : Squelch).verdict plain.capIdleK 5 = .pass := rfl
    have hnext : ({ capRun := 0, capPiped := false } : Squelch).next plain.capIdleK 5 =
        ⟨0, false⟩ := rfl
    have hemits : ({ capRun := 0, capPiped := false } : Squelch).emits plain.capIdleK 5 = [5] := rfl
    rw [System.round, if_pos (by rfl)]
    simp only [Sniffer.loopRound, hpeek, hpass, hnext, hemits, hfirst, reduceCtorEq, if_false,
      Verdict.tags, List.nil_append, Nat.zero_add]
  -- u: the loop has committed, and the drop count is not yet read
  obtain ⟨u, hu⟩ : ∃ u : System, u =
      { s with
        host := s.host.commitLoop ⟨1, 1, 1, [5], ⟨0, false⟩, true⟩
        pc := .readDrop 0 true
        queued := s.queued.drop 1, consumed := s.consumed ++ [k]
        trace := s.trace ++ [.run k 5] } := ⟨_, rfl⟩
  have hcommit : System.step plain
      { s with
        pc := .filter 0 ⟨1, 1, 1, [5], ⟨0, false⟩, true⟩, consumed := s.consumed ++ [k]
        trace := s.trace ++ [.run k 5] } .round = u := by
    rw [hu]
    simp only [System.step, System.round]
    rw [if_neg (by simp [Loop.running])]
  obtain ⟨lapped, hrest⟩ := serve_rest u (by rw [hu])
  have hdrop : u.host.ramDrop = drop := by rw [hu]; exact h.ramDrop
  have hseen : u.host.lossSeen = seen := by rw [hu]; exact h.lossSeen
  have hrun : run (System.step plain) s serveOne =
      run (System.step plain) u [.readDrop, .mark true, .finish false 0, .report noReadings 0] := by
    rw [serveOne, run_cons, henter, run_cons]
    change run (System.step plain) (System.step plain (System.round plain s 0 _) .round) _ = _
    rw [hround, hcommit]
  rw [hrest, hdrop, hseen] at hrun
  -- nothing in the call drains, so nothing overruns
  refine ⟨⟨trivial, trivial, trivial, trivial, trivial, trivial, trivial, trivial⟩, ?_, ?_⟩
  · have hlossSeen : (u.host.markLoss drop true).lossSeen = drop := by
      rw [Sniffer.markLoss, hseen]
      by_cases howed : drop = seen
      · simp [howed, hseen]
      · simp [howed]
    refine ⟨?_, ?_, ?_, ?_, ?_, ?_, ?_, ?_, ?_⟩
    · have hwhole : AllSteps (System.step plain) System.DrainsWhole s serveOne :=
        ⟨trivial, trivial, trivial, trivial, trivial, trivial, trivial, trivial⟩
      exact hwhole.invariant (fun _ _ hq he => hq.step he) h.queued
    all_goals rw [hrun]
    · rw [hu]
      exact h.stored
    · rw [hu]
      exact h.published
    · rw [hu]
      exact h.cursor
    · rw [hu]
      simp only [h.queue, List.drop_succ_cons, List.drop_zero]
    · rw [hu, Sniffer.markLoss_frame]
      rfl
    · rw [Sniffer.markLoss_frame]
      exact hdrop
    · exact hlossSeen
  · rw [hrun, hu, List.append_assoc]
    rfl

theorem backlog_begin : Backlog (System.begin plain (fun _ => 0) (fun _ => 0) 0 0 0 0) [] 0 0 0 := by
  refine ⟨queued_begin plain _ _ _ _ _ _, rfl, rfl, rfl, rfl, rfl, ?_, ?_, ?_⟩ <;>
    rw [System.begin, Sniffer.begin_frame]

/-- The RAM ring takes 2047 bytes. -/
theorem filled (n : Nat) (hn : n ≤ 2047) :
    let s := System.begin plain (fun _ => 0) (fun _ => 0) 0 0 0 0
    let evs := (List.replicate n fillOne).flatten
    AllSteps (System.step plain) System.NoOverrun s evs ∧
      (run (System.step plain) s evs).trace = [] ∧
        Backlog (run (System.step plain) s evs) (List.range n) n 0 0 := by
  induction n with
  | zero =>
    refine ⟨trivial, ?_, backlog_begin⟩
    have hfits : Sniffer.markerFits plain 0 = false := by simp [Sniffer.markerFits]
    have hdiag : plain.diag = false := rfl
    simp [System.begin, hfits, hdiag]
  | succ n ih =>
    obtain ⟨hall, htrace, hbacklog⟩ := ih (by omega)
    obtain ⟨hall', htrace', hroom, -⟩ := hbacklog.fill
    have hqueue := hroom (by rw [List.length_range]; omega)
    simp only [List.replicate_succ', List.flatten_append, List.flatten_cons, List.flatten_nil,
      List.append_nil, allSteps_append, run_append, List.range_succ]
    exact ⟨⟨hall, hall'⟩, htrace'.trans htrace, hqueue⟩

/-- One call after the other empties it. -/
theorem Backlog.serveAll {queue : List Nat} {s : System} {next : Nat} {drop : UInt32}
    (h : Backlog s queue next drop drop) :
    let evs := (List.replicate queue.length serveOne).flatten
    AllSteps (System.step plain) System.NoOverrun s evs ∧
      (run (System.step plain) s evs).trace = s.trace ++ queue.map (Tag.run · 5) := by
  induction queue generalizing s with
  | nil => exact ⟨trivial, (List.append_nil _).symm⟩
  | cons k queue ih =>
    obtain ⟨hall, hbacklog, htrace⟩ := h.serve
    obtain ⟨hall', htrace'⟩ := ih hbacklog
    rw [if_neg (not_not.mpr rfl)] at htrace
    simp only [List.length_cons, List.replicate_succ, List.flatten_cons, allSteps_append, run_append]
    exact ⟨⟨hall, hall'⟩, by rw [htrace', htrace, List.append_assoc]; rfl⟩

/-- The RAM ring is filled, one byte is dropped, the next call of `service()`
takes one byte and writes the marker, another byte is captured, and `service()`
empties the ring. -/
def markerAhead (ring : Nat) : List Event :=
  (List.replicate ring fillOne).flatten ++ fillOne ++ serveOne ++ fillOne ++
    (List.replicate ring serveOne).flatten

/-- The marker is written in front of the bytes captured before the drop, and
nothing parts the last of them from the byte captured behind it. -/
theorem marker_misplaced :
    let s := System.begin plain (fun _ => 0) (fun _ => 0) 0 0 0 0
    AllSteps (System.step plain) System.NoOverrun s (markerAhead 2047) ∧
      ¬ (run (System.step plain) s (markerAhead 2047)).Parted plain := by
  intro s
  obtain ⟨n, hn⟩ : ∃ n, n + 1 = 2047 := ⟨2046, rfl⟩
  rw [← hn]
  obtain ⟨hall₁, htrace₁, hbacklog₁⟩ := filled (n + 1) (by omega)
  obtain ⟨hall₂, htrace₂, -, hfull⟩ := hbacklog₁.fill
  have hbacklog₂ := hfull (by rw [List.length_range]; exact hn)
  rw [List.range_eq_range', List.range'_succ] at hbacklog₂
  obtain ⟨hall₃, hbacklog₃, htrace₃⟩ := hbacklog₂.serve
  obtain ⟨hall₄, htrace₄, hroom, -⟩ := hbacklog₃.fill
  have hbacklog₄ := hroom (by rw [List.length_range']; omega)
  obtain ⟨hall₅, htrace₅⟩ := hbacklog₄.serveAll
  have hlen : (List.range' (0 + 1) n ++ [n + 1 + 1]).length = n + 1 := by simp
  rw [hlen] at hall₅ htrace₅
  have hall : AllSteps (System.step plain) System.NoOverrun s (markerAhead (n + 1)) := by
    simp only [markerAhead, allSteps_append, run_append]
    exact ⟨⟨⟨⟨hall₁, hall₂⟩, hall₃⟩, hall₄⟩, hall₅⟩
  refine ⟨hall, fun hparted => ?_⟩
  have htrace : (run (System.step plain) s (markerAhead (n + 1))).trace =
      [.run 0 5, .loss] ++ (List.range' 1 n).map (Tag.run · 5) ++ [.run (n + 1 + 1) 5] := by
    simp only [markerAhead, run_append]
    rw [htrace₅, htrace₄, htrace₃, htrace₂, htrace₁, List.map_append, ← List.append_assoc]
    rfl
  obtain ⟨m, rfl⟩ : ∃ m, n = m + 1 := ⟨2045, by omega⟩
  rw [List.range'_concat, List.map_append] at htrace
  have hjoined := hparted.adjacent ([.run 0 5, .loss] ++ (List.range' 1 m).map (Tag.run · 5)) [] []
    (1 + 1 * m) 5 (m + 1 + 1 + 1) 5 (by rw [htrace]; simp) (by simp)
  omega

end Tapioca.RleSniffer

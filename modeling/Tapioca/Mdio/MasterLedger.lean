-- SUMMARY: Every run of the MDIO master follows a ledger that reads the submissions and the ticks only.
import Tapioca.Mdio.MasterIntegrity

/-!
# The ledger of the MDIO master

What becomes of a request is fixed by the submissions and by what the ticks find
in the mailbox. The ledger keeps just that: the sessions that have ended, and
the open request with the ticks since it was submitted. A run of the master
follows it in what it answers its clients, in what it puts on the bus, and in
what their `Response` objects hold.
-/

namespace Tapioca.Mdio

open Lib.Lts

/-! ## What the ticks make of a request -/

/-- The outcomes that `n` transactions take from the ticks. The first was started at
`sinceMs`, each other one at the tick that confirmed the one before; a failure is the last. -/
def outcomes : Nat → UInt32 → List Tick → List Outcome
  | 0, _, _ => []
  | _, _, [] => []
  | n + 1, sinceMs, t :: ts =>
    match outcome? sinceMs t with
    | none => outcomes (n + 1) sinceMs ts
    | some o => o :: if o.Ok then outcomes n t.1 ts else []

/-- The outcomes of a request's transactions, the first of which starts at the first tick. -/
def Request.outcomes (q : Request) : List Tick → List Outcome
  | [] => []
  | t :: ts => Mdio.outcomes q.transactions.length t.1 (t :: ts)

instance (p : Session) : Decidable p.Open :=
  inferInstanceAs (Decidable ((∀ o ∈ p.outcomes, o.Ok) ∧ p.outcomes.length < p.request.transactions.length))

theorem outcomes_none {n : Nat} {sinceMs : UInt32} {t : Tick} (h : outcome? sinceMs t = none)
    (ts : List Tick) : outcomes n sinceMs (t :: ts) = outcomes n sinceMs ts := by
  cases n with
  | zero => cases ts <;> rfl
  | succ n => simp only [outcomes, h]

theorem outcomes_some {n : Nat} {sinceMs : UInt32} {t : Tick} {o : Outcome}
    (h : outcome? sinceMs t = some o) (ts : List Tick) :
    outcomes (n + 1) sinceMs (t :: ts) = o :: if o.Ok then outcomes n t.1 ts else [] := by
  simp only [outcomes, h]

theorem outcomes_nil (n : Nat) (sinceMs : UInt32) : outcomes n sinceMs [] = [] := by
  cases n <;> rfl

/-! ## The ledger -/

/-- The request an event submits. -/
def Event.request? : Event → Option Request
  | .read phy reg resp => some ⟨.read, phy, 0, reg.toUInt16, 0, resp⟩
  | .write phy reg val resp => some ⟨.write, phy, 0, reg.toUInt16, val, resp⟩
  | .readMmd phy mmd reg resp => some ⟨.readMmd, phy, mmd, reg, 0, resp⟩
  | .writeMmd phy mmd reg val resp => some ⟨.writeMmd, phy, mmd, reg, val, resp⟩
  | .tick _ _ => none

/-- The sessions that have ended, and the open request with the ticks since its submission. -/
structure Ledger where
  past : List Session := []
  current : Option (Request × List Tick) := none

namespace Ledger

def submit (l : Ledger) (q : Request) : Ledger :=
  if l.current.isSome then l else { l with current := some (q, []) }

def tick (l : Ledger) (t : Tick) : Ledger :=
  match l.current with
  | none => l
  | some (q, ticks) =>
    if Session.Open ⟨q, q.outcomes (ticks ++ [t])⟩ then { l with current := some (q, ticks ++ [t]) }
    else ⟨l.past ++ [⟨q, q.outcomes (ticks ++ [t])⟩], none⟩

def event (l : Ledger) : Event → Ledger
  | .tick nowMs r => l.tick (nowMs, r)
  | ev => ev.request?.elim l l.submit

/-- Every request accepted. -/
def requests (l : Ledger) : List Request :=
  l.past.map Session.request ++ (l.current.map Prod.fst).toList

/-- What the master has done for the open request. -/
def openLog : Option (Request × List Tick) → List Entry
  | none => []
  | some (q, []) => [.accepted q]
  | some (q, t :: ts) => Session.log ⟨q, q.outcomes (t :: ts)⟩

/-- What the master has done. -/
def log (l : Ledger) : List Entry :=
  l.past.flatMap Session.log ++ openLog l.current

/-- What the clients' `Response` objects hold, the open request's Pending. -/
def responses (l : Ledger) (before : Nat → Response) : Nat → Response :=
  l.current.elim (settle before l.past) fun o =>
    Function.update (settle before l.past) o.1.resp { status := .pending }

/-- The answers that the `Response` at `a` has had. -/
def answers (l : Ledger) (a : Nat) : List Response :=
  (l.past.filter (·.request.resp = a)).map Session.answer

end Ledger

/-! ## What a client sees -/

/-- What a submission returns. -/
def Master.result (m : Master) : Event → Option Result
  | .read phy reg resp => some (m.read phy reg resp).1
  | .write phy reg val resp => some (m.write phy reg val resp).1
  | .readMmd phy mmd reg resp => some (m.readMmd phy mmd reg resp).1
  | .writeMmd phy mmd reg val resp => some (m.writeMmd phy mmd reg val resp).1
  | .tick _ _ => none

/-- The request that an event has accepted. -/
def accepts (m : Master) (ev : Event) : List Request :=
  if m.result ev = some .ok then ev.request?.toList else []

/-- The `Response` at `a` leaves Pending, with what it then holds. -/
def leavesPending (a : Nat) (m : Master) (ev : Event) : List Response :=
  if (m.responses a).status = .pending ∧ ((m.event ev).responses a).status ≠ .pending then
    [(m.event ev).responses a]
  else []

/-- The master does what the ledger says. -/
structure Follows (before : Nat → Response) (m : Master) (l : Ledger) : Prop where
  /-- A submission is accepted unless a request is open. -/
  result : ∀ ev q, ev.request? = some q → m.result ev = some (if l.current.isSome then .busy else .ok)
  /-- A refused submission changes nothing. -/
  busy : ∀ ev q, ev.request? = some q → l.current.isSome → m.event ev = m
  active : m.active = l.current.isSome
  ended : ∀ p ∈ l.past, p.Ended
  opened : ∀ o ∈ l.current, Session.Open ⟨o.1, o.1.outcomes o.2⟩
  log : m.log = l.log
  responses : m.responses = l.responses before
  /-- On the bus are, request after request, the transactions of each in their order. -/
  commands : ∃ runs, started m.log = runs.flatten ∧
    List.Forall₂ (fun cs q => cs <+: q.transactions.map Transaction.command) runs l.requests

/-! ## The ledger keeps up -/

variable {before : Nat → Response} {m : Master} {l : Ledger} {past : List Session} {q : Request}
  {pre : List Entry} {os : List Outcome} {ticks : List Tick} {t : Tick}

/-- What the next ticks will add to the outcomes of the request on the bus. -/
def Plays (m : Master) (q : Request) (ticks : List Tick) : Prop :=
  ∀ more, q.outcomes (ticks ++ more) = q.outcomes ticks ++
    outcomes (q.transactions.length - (q.outcomes ticks).length) m.startedMs more

/-- The master's state beside the ledger's. -/
inductive Keeps (before : Nat → Response) (m : Master) : Ledger → Prop
  | idle {past : List Session} (hpast : ∀ p ∈ past, p.Ended) (hidle : m.active = false)
      (hlog : m.log = past.flatMap Session.log) (hresp : m.responses = settle before past) :
      Keeps before m ⟨past, none⟩
  | submitted {past : List Session} {q : Request} (hpast : ∀ p ∈ past, p.Ended) (hholds : Holds m q)
      (hstarted : m.started = false) (hstep : m.step = .start)
      (hlog : m.log = past.flatMap Session.log ++ [.accepted q])
      (hresp : m.responses = Function.update (settle before past) q.resp { status := .pending }) :
      Keeps before m ⟨past, some (q, [])⟩
  | onBus {past : List Session} {q : Request} {t : Tick} {ticks : List Tick}
      (hpast : ∀ p ∈ past, p.Ended)
      (hbus : OnBus m q (past.flatMap Session.log) (q.outcomes (t :: ticks)))
      (hstarted : m.started = true) (hplays : Plays m q (t :: ticks))
      (hresp : m.responses = Function.update (settle before past) q.resp { status := .pending }) :
      Keeps before m ⟨past, some (q, t :: ticks)⟩

theorem OnBus.keeps (h : OnBus m q (past.flatMap Session.log) (q.outcomes ticks)) (hne : ticks ≠ [])
    (hpast : ∀ p ∈ past, p.Ended) (hstarted : m.started = true) (hplays : Plays m q ticks)
    (hresp : m.responses = Function.update (settle before past) q.resp { status := .pending }) :
    Keeps before m ⟨past, some (q, ticks)⟩ := by
  cases ticks with
  | nil => exact absurd rfl hne
  | cons t ticks => exact .onBus hpast h hstarted hplays hresp

theorem Session.Ended.not_open {p : Session} (h : p.Ended) : ¬ p.Open := by
  obtain ⟨q, outcomes⟩ := p
  obtain ⟨os, o, rfl, -, hlast⟩ := h
  rintro ⟨hall, hlen⟩
  have hdone := hlast (hall o (by simp))
  simp [hdone] at hlen

theorem Ledger.tick_open (hopen : Session.Open ⟨q, q.outcomes (ticks ++ [t])⟩) :
    Ledger.tick ⟨past, some (q, ticks)⟩ t = ⟨past, some (q, ticks ++ [t])⟩ := if_pos hopen

theorem Ledger.tick_ended (hended : Session.Ended ⟨q, q.outcomes (ticks ++ [t])⟩) :
    Ledger.tick ⟨past, some (q, ticks)⟩ t = ⟨past ++ [⟨q, q.outcomes (ticks ++ [t])⟩], none⟩ :=
  if_neg hended.not_open

/-- A poll takes the master where the ledger goes. -/
theorem OnBus.poll_keeps (h : OnBus m q (past.flatMap Session.log) os) (hpast : ∀ p ∈ past, p.Ended)
    (hstarted : m.started = true)
    (hresp : m.responses = Function.update (settle before past) q.resp { status := .pending })
    (hplays : ∀ more, q.outcomes (ticks ++ t :: more) =
      os ++ outcomes (q.transactions.length - os.length) m.startedMs (t :: more)) :
    Keeps before (m.poll t.1 t.2) (Ledger.tick ⟨past, some (q, ticks)⟩ t) := by
  have hlen := h.opened.2
  obtain ⟨k, hk⟩ : ∃ k, q.transactions.length - os.length = k + 1 := by
    simp only at hlen
    exact ⟨q.transactions.length - os.length - 1, by omega⟩
  rw [hk] at hplays
  have hmore : ticks ++ [t] ≠ [] := by simp
  have hpolled := h.poll t.1 t.2
  generalize m.poll t.1 t.2 = m' at hpolled ⊢
  cases hpolled with
  | waits hfound =>
    have hnow : q.outcomes (ticks ++ [t]) = os := by
      rw [hplays, outcomes_none hfound, outcomes_nil, List.append_nil]
    have hbus : OnBus m q (past.flatMap Session.log) (q.outcomes (ticks ++ [t])) := hnow ▸ h
    rw [Ledger.tick_open hbus.opened]
    refine hbus.keeps hmore hpast hstarted (fun more => ?_) hresp
    rw [List.append_assoc, List.singleton_append, hplays, outcomes_none hfound, hnow, hk]
  | next o hfound hok hbus hstarted' hsince hkept =>
    have hnow : q.outcomes (ticks ++ [t]) = os ++ [o] := by
      rw [hplays, outcomes_some hfound, if_pos hok, outcomes_nil]
    have hbus : OnBus m' q (past.flatMap Session.log) (q.outcomes (ticks ++ [t])) := hnow ▸ hbus
    rw [Ledger.tick_open hbus.opened]
    refine hbus.keeps hmore hpast hstarted' (fun more => ?_) (hkept.trans hresp)
    have hleft : q.transactions.length - (os ++ [o]).length = k := by
      rw [List.length_append, List.length_singleton]
      omega
    rw [List.append_assoc, List.singleton_append, hplays, outcomes_some hfound, if_pos hok, hnow,
      hleft, hsince, List.append_assoc, List.singleton_append]
  | ends o hfound hlast hidle hlog hanswer =>
    have hnow : q.outcomes (ticks ++ [t]) = os ++ [o] := by
      rw [hplays, outcomes_some hfound, outcomes_nil, ite_self]
    have hended := h.concat_ended hpast hlast
    rw [← hnow] at hlog hended
    rw [Ledger.tick_ended (hended _ (by simp))]
    refine .idle hended hidle ?_ ?_
    · simpa using hlog
    · rw [hanswer, settle_answered hresp, hnow]

theorem Keeps.tick (h : Keeps before m l) (t : Tick) : Keeps before (m.tick t.1 t.2) (l.tick t) := by
  rw [Master.tick]
  cases h with
  | idle hpast hidle hlog hresp =>
    rw [if_pos (by simp [hidle])]
    exact .idle hpast hidle hlog hresp
  | submitted hpast hholds hstarted hstep hlog hresp =>
    rw [if_neg (not_not.mpr hholds.active), if_pos (by simp [hstarted])]
    obtain ⟨m', hstart, hbus, hstarted', hsince, hkept⟩ := hholds.first hstep hlog t.1
    rw [hstart]
    refine hbus.poll_keeps hpast hstarted' (hkept.trans hresp) fun more => ?_
    rw [hsince]
    rfl
  | onBus hpast hbus hstarted hplays hresp =>
    rw [if_neg (not_not.mpr hbus.holds.active), if_neg (not_not.mpr hstarted)]
    exact hbus.poll_keeps hpast hstarted hresp fun more => hplays _

theorem Keeps.active (h : Keeps before m l) : m.active = l.current.isSome := by
  cases h with
  | idle hpast hidle hlog hresp => exact hidle
  | submitted hpast hholds hstarted hstep hlog hresp => exact hholds.active
  | onBus hpast hbus hstarted hplays hresp => exact hbus.holds.active

theorem Keeps.submit (h : Keeps before m l) (q : Request) : Keeps before (m.submit q).2 (l.submit q) := by
  rw [Master.submit, Ledger.submit, h.active]
  cases hopen : l.current.isSome with
  | true => simpa using h
  | false =>
    cases h with
    | idle hpast hidle hlog hresp =>
      refine .submitted hpast ⟨rfl, rfl, rfl, rfl, rfl, rfl, rfl⟩ rfl rfl ?_ ?_
      · exact congrArg (· ++ _) hlog
      · exact congrArg (Function.update · q.resp _) hresp
    | submitted | onBus => cases hopen

theorem Keeps.event (h : Keeps before m l) (ev : Event) : Keeps before (m.event ev) (l.event ev) := by
  cases ev with
  | read phy reg resp => exact h.submit _
  | write phy reg val resp => exact h.submit _
  | readMmd phy mmd reg resp => exact h.submit _
  | writeMmd phy mmd reg val resp => exact h.submit _
  | tick nowMs r => exact h.tick (nowMs, r)

theorem Keeps.ended (h : Keeps before m l) : ∀ p ∈ l.past, p.Ended := by
  cases h <;> assumption

theorem Keeps.opened (h : Keeps before m l) : ∀ o ∈ l.current, Session.Open ⟨o.1, o.1.outcomes o.2⟩ := by
  intro o ho
  cases h with
  | idle => cases ho
  | submitted =>
    cases ho
    exact ⟨nofun, transactions_ne_nil _⟩
  | onBus hpast hbus hstarted hplays hresp =>
    cases ho
    exact hbus.opened

theorem Keeps.log (h : Keeps before m l) : m.log = l.log := by
  cases h with
  | idle hpast hidle hlog hresp => exact hlog.trans (List.append_nil _).symm
  | submitted hpast hholds hstarted hstep hlog hresp => exact hlog
  | onBus hpast hbus hstarted hplays hresp => exact hbus.log

theorem Keeps.responses (h : Keeps before m l) : m.responses = l.responses before := by
  cases h <;> assumption

theorem keeps_begin (before : Nat → Response) : Keeps before (.begin before) {} :=
  .idle nofun rfl rfl rfl

/-! ## What the clients get -/

theorem Event.request?_eq {ev : Event} (h : ev.request? = some q) (m : Master) :
    m.result ev = some (m.submit q).1 ∧ m.event ev = (m.submit q).2 ∧ l.event ev = l.submit q := by
  cases ev with
  | tick => cases h
  | read | write | readMmd | writeMmd =>
    cases h
    exact ⟨rfl, rfl, rfl⟩

theorem Keeps.submit_eq (h : Keeps before m l) (q : Request) :
    (m.submit q).1 = (if l.current.isSome then .busy else .ok) ∧ (l.current.isSome → (m.submit q).2 = m) := by
  rw [Master.submit, h.active]
  cases l.current.isSome <;> simp

theorem started_sessions (past : List Session) :
    started (past.flatMap Session.log) = (past.map fun p => started p.log).flatten := by
  induction past with
  | nil => rfl
  | cons p past ih => rw [List.flatMap_cons, started_append, ih, List.map_cons, List.flatten_cons]

/-- The sessions' starts, and those of the open request. -/
theorem Ledger.commands (l : Ledger) : ∃ runs, started l.log = runs.flatten ∧
    List.Forall₂ (fun cs q => cs <+: q.transactions.map Transaction.command) runs l.requests := by
  obtain ⟨past, current⟩ := l
  have hpast : List.Forall₂ (fun cs q => cs <+: q.transactions.map Transaction.command)
      (past.map fun p => started p.log) (past.map Session.request) := by
    rw [List.forall₂_map_left_iff, List.forall₂_map_right_iff, List.forall₂_same]
    exact fun p _ => p.started_prefix
  have hflat := started_sessions past
  obtain _ | ⟨q, ticks⟩ := current
  · refine ⟨past.map fun p => started p.log, ?_, ?_⟩
    · rw [← hflat, Ledger.log, started_append]
      exact List.append_nil _
    · rw [Ledger.requests]
      exact (List.append_nil (past.map Session.request)).symm ▸ hpast
  · refine ⟨_ ++ [started (Ledger.openLog (some (q, ticks)))], ?_, List.rel_append hpast (.cons ?_ .nil)⟩
    · simp [Ledger.log, started_append, hflat]
    · cases ticks with
      | nil => exact List.nil_prefix
      | cons t ticks => exact Session.started_prefix _

theorem Keeps.follows (h : Keeps before m l) : Follows before m l where
  result ev q hq := by rw [(Event.request?_eq (l := l) hq m).1, (h.submit_eq q).1]
  busy ev q hq hopen := by rw [(Event.request?_eq (l := l) hq m).2.1, (h.submit_eq q).2 hopen]
  active := h.active
  ended := h.ended
  opened := h.opened
  log := h.log
  responses := h.responses
  commands := h.log ▸ l.commands

theorem Ledger.tick_cases (past : List Session) (q : Request) (ticks : List Tick) (t : Tick) :
    Ledger.tick ⟨past, some (q, ticks)⟩ t = ⟨past, some (q, ticks ++ [t])⟩ ∨
      ∃ os, Ledger.tick ⟨past, some (q, ticks)⟩ t = ⟨past ++ [⟨q, os⟩], none⟩ := by
  by_cases hopen : Session.Open ⟨q, q.outcomes (ticks ++ [t])⟩
  · exact .inl (if_pos hopen)
  · exact .inr ⟨_, if_neg hopen⟩

/-- What is accepted is entered. -/
theorem Keeps.requests (h : Keeps before m l) (ev : Event) :
    (l.event ev).requests = l.requests ++ accepts m ev := by
  cases hq : ev.request? with
  | some q =>
    obtain ⟨hresult, -, hl⟩ := Event.request?_eq (l := l) hq m
    rw [accepts, hresult, (h.submit_eq q).1, hl, hq, Ledger.submit]
    obtain ⟨past, _ | o⟩ := l <;> simp [Ledger.requests]
  | none =>
    cases ev with
    | read | write | readMmd | writeMmd => cases hq
    | tick nowMs r =>
      have hnone : accepts m (.tick nowMs r) = [] := rfl
      rw [hnone, List.append_nil, Ledger.event]
      obtain ⟨past, _ | ⟨q, ticks⟩⟩ := l
      · rfl
      · rcases Ledger.tick_cases past q ticks (nowMs, r) with hl | ⟨os, hl⟩
        · rw [hl]
          rfl
        · rw [hl]
          simp [Ledger.requests]

theorem leavesPending_unchanged {a : Nat} {ev : Event} (h : (m.event ev).responses a = m.responses a) :
    leavesPending a m ev = [] := by
  rw [leavesPending, h]
  exact if_neg fun ⟨hpending, hleft⟩ => hleft hpending

theorem leavesPending_stays {a : Nat} {ev : Event} (h : ((m.event ev).responses a).status = .pending) :
    leavesPending a m ev = [] := if_neg fun ⟨_, hleft⟩ => hleft h

/-- A `Response` leaves Pending as its session ends, and with the answer. -/
theorem Keeps.answers (h : Keeps before m l) (a : Nat) (ev : Event) :
    (l.event ev).answers a = l.answers a ++ leavesPending a m ev := by
  have hnow := h.responses
  have hnext := (h.event ev).responses
  cases hq : ev.request? with
  | some q =>
    have hl := (Event.request?_eq (l := l) hq m).2.2
    have hsame : (l.event ev).answers a = l.answers a := by
      rw [hl, Ledger.submit]
      split <;> rfl
    have hnone : leavesPending a m ev = [] := by
      rw [hl] at hnext
      obtain ⟨past, _ | o⟩ := l
      · by_cases ha : a = q.resp
        · exact leavesPending_stays (by simp [hnext, Ledger.submit, Ledger.responses, ha])
        · exact leavesPending_unchanged (by simp [hnow, hnext, Ledger.submit, Ledger.responses, ha])
      · exact leavesPending_unchanged (by rw [hnow, hnext]; rfl)
    rw [hsame, hnone, List.append_nil]
  | none =>
    cases ev with
    | read | write | readMmd | writeMmd => cases hq
    | tick nowMs r =>
      have hended := (h.event (.tick nowMs r)).ended
      rw [Ledger.event] at hnext hended ⊢
      obtain ⟨past, _ | ⟨q, ticks⟩⟩ := l
      · have hnone : leavesPending a m (.tick nowMs r) = [] := leavesPending_unchanged (by rw [hnow, hnext]; rfl)
        rw [hnone, List.append_nil]
        rfl
      · rcases Ledger.tick_cases past q ticks (nowMs, r) with hl | ⟨os, hl⟩
        · have hnone : leavesPending a m (.tick nowMs r) = [] := leavesPending_unchanged (by rw [hnow, hnext, hl]; rfl)
          rw [hnone, List.append_nil, hl]
          rfl
        · rw [hl] at hnext hended ⊢
          have hended : Session.Ended ⟨q, os⟩ := hended _ (by simp)
          by_cases ha : q.resp = a
          · have hleft : (Session.answer ⟨q, os⟩).status ≠ .pending := by
              rcases hended.status with hs | hs | hs <;> rw [hs] <;> decide
            have hpending : (m.responses a).status = .pending := by
              simp [hnow, Ledger.responses, ha]
            have hgot : (m.event (.tick nowMs r)).responses a = Session.answer ⟨q, os⟩ := by
              simp [hnext, Ledger.responses, settle_concat, ha]
            rw [leavesPending, hgot, if_pos ⟨hpending, hleft⟩]
            simp [Ledger.answers, ha]
          · have hkept : (m.event (.tick nowMs r)).responses a = m.responses a := by
              have ha' : a ≠ q.resp := fun h => ha h.symm
              simp [hnow, hnext, Ledger.responses, settle_concat, ha']
            rw [leavesPending_unchanged hkept, List.append_nil]
            simp [Ledger.answers, ha]

/-- The open request is answered by the time it has had one tick more than it has transactions. -/
theorem Keeps.answered (h : Keeps before m l) {o : Request × List Tick} (ho : l.current = some o)
    {more : List Tick} (hspaced : Spaced more) (hmore : o.1.transactions.length < more.length) :
    (run Master.event m (more.map Tick.event)).active = false := by
  cases h with
  | idle => cases ho
  | submitted hpast hholds hstarted hstep hlog hresp =>
    obtain rfl := Option.some_inj.mp ho
    exact hholds.answered hstarted hstep hlog hspaced hmore
  | onBus hpast hbus hstarted hplays hresp =>
    obtain rfl := Option.some_inj.mp ho
    exact hbus.answered hstarted hspaced (Nat.lt_of_le_of_lt (Nat.sub_le _ _) hmore)

/-! ## Runs -/

/-- In every run the master does what the ledger of its submissions and ticks says: it accepts
the requests that are entered, each `Response` leaves Pending once for each session that ended,
with its answer, and ticks that go on end the request that is open. -/
theorem master_integrity (before : Nat → Response) (evs : List Event) :
    let m := run Master.event (.begin before) evs
    let l := run Ledger.event {} evs
    Follows before m l ∧
      outputs Master.event accepts (.begin before) evs = l.requests ∧
      (∀ a, outputs Master.event (leavesPending a) (.begin before) evs = l.answers a) ∧
      ∀ q ticks more, l.current = some (q, ticks) → Spaced more → q.transactions.length < more.length →
        (run Master.event m (more.map Tick.event)).active = false := by
  intro m l
  have hstep : ∀ m l ev, Keeps before m l → Keeps before (m.event ev) (l.event ev) :=
    fun _ _ ev h => h.event ev
  have hbegin := keeps_begin before
  have hkeeps : Keeps before m l := run_simulates hstep hbegin evs
  refine ⟨hkeeps.follows, ?_, fun a => ?_, fun q ticks more hq => hkeeps.answered hq⟩
  · exact (outputs_collected hstep (fun _ _ ev h => h.requests ev) hbegin evs).symm
  · exact (outputs_collected (f := fun l => l.answers a) hstep (fun _ _ ev h => h.answers a ev) hbegin evs).symm

/-- A write that the blob confirms at its second poll. -/
example : (run Master.event (.begin fun _ => {})
    [.write 1 4 0x1A2B 7, .tick 0 ⟨0, 0, 0⟩, .tick 1 ⟨ST_OK, 0, 0⟩]).responses 7 = ⟨.done, 0⟩ := by
  decide

end Tapioca.Mdio

-- SUMMARY: Every run of the MDIO master is a sequence of sessions, each one request's own transactions.
import Tapioca.Mdio.Master

/-!
# Request integrity of the MDIO master

What a request asks of the bus is its reference sequence of transactions. A
session is a request with the outcomes of the transactions started for it; its
log is fixed by the two. A run's log is the sessions that ended, one after the
other, and then the one that is open.
-/

namespace Tapioca.Mdio

open Lib.Lts

/-! ## Reference sequences -/

/-- One Clause-22 access to the bus. -/
structure Transaction where
  isRead : Bool
  phy : UInt8
  reg : UInt8
  val : UInt16
  deriving DecidableEq, Repr

def Transaction.command (t : Transaction) : Command := Mdio.command t.isRead t.phy t.reg t.val

def Request.isRead (q : Request) : Bool :=
  match q.op with
  | .read | .readMmd => true
  | .write | .writeMmd => false

/-- One Clause-22 frame; or REGCR, ADDAR, REGCR, and ADDAR again for the data. -/
def Request.transactions (q : Request) : List Transaction :=
  match q.op with
  | .read | .write => [⟨q.isRead, q.phy, (q.reg &&& 0x1F).toUInt8, q.val⟩]
  | .readMmd | .writeMmd =>
    [⟨false, q.phy, REGCR, MMD_ADDR ||| (q.mmd &&& 0x1F).toUInt16⟩,
     ⟨false, q.phy, ADDAR, q.reg⟩,
     ⟨false, q.phy, REGCR, MMD_DATA ||| (q.mmd &&& 0x1F).toUInt16⟩,
     ⟨q.isRead, q.phy, ADDAR, q.val⟩]

/-! ## Sessions -/

/-- The blob reported success. -/
def Outcome.Ok : Outcome → Prop
  | .answered r => r.status = ST_OK
  | .expired => False

instance : DecidablePred Outcome.Ok
  | .answered r => inferInstanceAs (Decidable (r.status = ST_OK))
  | .expired => .isFalse id

/-- What a tick brings: the time, and what the mailbox holds. -/
abbrev Tick : Type := UInt32 × Reading

/-- What a tick says of a transaction started at `sinceMs`: nothing while the blob is
busy and has its time. -/
def outcome? (sinceMs : UInt32) (t : Tick) : Option Outcome :=
  if t.2.status = 0 then
    if t.1 - sinceMs > MDIO_TIMEOUT_MS then some .expired else none
  else some (.answered t.2)

/-- What a request that ends on this outcome answers. -/
def Outcome.answer (isRead : Bool) : Outcome → Response
  | .answered r =>
    if r.status = ST_OK then ⟨.done, if isRead then r.result else 0⟩
    else if r.status = ST_NORESP then ⟨.noResp, 0⟩
    else ⟨.timeout, 0⟩
  | .expired => ⟨.timeout, 0⟩

/-- Transactions in order, each started after the one before it reported OK;
the first other outcome, or the last one, finishes the request. -/
def steps (isRead : Bool) : List Transaction → List Outcome → List Entry
  | [], _ => []
  | t :: _, [] => [.started t.command]
  | t :: ts, o :: os =>
    .started t.command :: .reported o ::
      if o.Ok ∧ ts ≠ [] then steps isRead ts os
      else [.finished (o.answer isRead).status (o.answer isRead).value]

/-- A request and the outcomes of the transactions started for it. -/
structure Session where
  request : Request
  outcomes : List Outcome

namespace Session

def log (p : Session) : List Entry :=
  .accepted p.request :: steps p.request.isRead p.request.transactions p.outcomes

/-- A transaction is on the bus: those before it reported OK. -/
def Open (p : Session) : Prop :=
  (∀ o ∈ p.outcomes, o.Ok) ∧ p.outcomes.length < p.request.transactions.length

/-- The last outcome is the first failure, or the last transaction's. -/
def Ended (p : Session) : Prop :=
  ∃ os o, p.outcomes = os ++ [o] ∧ Open ⟨p.request, os⟩ ∧
    (o.Ok → os.length + 1 = p.request.transactions.length)

/-- The answer of the outcome that ended the session. -/
def answer (p : Session) : Response :=
  (p.outcomes.getLast?).elim { status := .pending } (Outcome.answer p.request.isRead)

end Session

/-- An answer is a result, no answer, or a timeout. -/
theorem Session.Ended.status {p : Session} (h : p.Ended) :
    p.answer.status = .done ∨ p.answer.status = .noResp ∨ p.answer.status = .timeout := by
  obtain ⟨os, o, hos, -, -⟩ := h
  have hanswer : p.answer = o.answer p.request.isRead := by
    rw [Session.answer, hos]
    simp
  rw [hanswer]
  cases o with
  | expired => exact .inr (.inr rfl)
  | answered r =>
    rw [Outcome.answer]
    split
    · exact .inl rfl
    · split
      · exact .inr (.inl rfl)
      · exact .inr (.inr rfl)

/-- The clients' memory once these sessions have answered. -/
def settle (responses : Nat → Response) (past : List Session) : Nat → Response :=
  past.foldl (fun m p => Function.update m p.request.resp p.answer) responses

theorem settle_concat (responses : Nat → Response) (past : List Session) (p : Session) :
    settle responses (past ++ [p]) =
      Function.update (settle responses past) p.request.resp p.answer := by
  simp [settle]

/-- The state of a run: the sessions `past` have ended, and the open one, if
any, is the only one with anything on the bus. -/
structure History (responses : Nat → Response) (m : Master) (past : List Session) : Prop where
  ended : ∀ p ∈ past, p.Ended
  idle : m.active = false →
    m.log = past.flatMap Session.log ∧ m.responses = settle responses past
  active : m.active = true → ∃ q,
    m.responses = Function.update (settle responses past) q.resp { status := .pending } ∧
      (m.log = past.flatMap Session.log ++ [.accepted q] ∨
        ∃ os, Session.Open ⟨q, os⟩ ∧ m.log = past.flatMap Session.log ++ Session.log ⟨q, os⟩)

/-- The commands on the bus, in order. -/
def started (log : List Entry) : List Command :=
  log.filterMap fun
    | .started c => some c
    | _ => none

theorem started_append (front tail : List Entry) :
    started (front ++ tail) = started front ++ started tail := by
  rw [started, List.filterMap_append]
  rfl

theorem started_steps_prefix (isRead : Bool) (ts : List Transaction) (os : List Outcome) :
    started (steps isRead ts os) <+: ts.map Transaction.command := by
  induction ts generalizing os with
  | nil => exact List.nil_prefix
  | cons t ts ih =>
    cases os with
    | nil => simp [steps, started]
    | cons o os =>
      rw [steps]
      split
      · simpa [started] using ih os
      · simp [started]

/-- A session starts the transactions of its own request, in order. -/
theorem Session.started_prefix (p : Session) :
    started p.log <+: p.request.transactions.map Transaction.command :=
  started_steps_prefix _ _ _

/-! ## One more outcome -/

/-- An OK with a transaction left starts that one. -/
theorem steps_concat_next (isRead : Bool) {ts : List Transaction} {os : List Outcome} {o : Outcome}
    {t : Transaction} (hos : ∀ o ∈ os, o.Ok) (ho : o.Ok) (ht : ts[os.length + 1]? = some t) :
    steps isRead ts (os ++ [o]) = steps isRead ts os ++ [.reported o, .started t.command] := by
  induction os generalizing ts with
  | nil =>
    match ts, ht with
    | t₀ :: t₁ :: ts, ht =>
      obtain rfl : t₁ = t := by simpa using ht
      simp [steps, ho]
  | cons o' os ih =>
    obtain ⟨ho', hos⟩ := List.forall_mem_cons.mp hos
    match ts, ht with
    | t₀ :: t₁ :: ts, ht =>
      have ht : (t₁ :: ts)[os.length + 1]? = some t := by simpa using ht
      have hih := ih hos ht
      simp [steps, ho', hih]

/-- A failure, or the outcome of the last transaction, finishes the request. -/
theorem steps_concat_last (isRead : Bool) {ts : List Transaction} {os : List Outcome} {o : Outcome}
    (hos : ∀ o ∈ os, o.Ok) (hlen : os.length < ts.length) (ho : o.Ok → os.length + 1 = ts.length) :
    steps isRead ts (os ++ [o]) = steps isRead ts os ++
      [.reported o, .finished (o.answer isRead).status (o.answer isRead).value] := by
  induction os generalizing ts with
  | nil =>
    match ts, hlen with
    | t :: ts, _ =>
      have hlast : ¬ (o.Ok ∧ ts ≠ []) := fun ⟨hok, hts⟩ => hts (by simpa using ho hok)
      simp [steps, hlast]
  | cons o' os ih =>
    obtain ⟨ho', hos⟩ := List.forall_mem_cons.mp hos
    match ts, hlen with
    | t :: ts, hlen =>
      have hlen : os.length < ts.length := by simpa using hlen
      have hmore : ts ≠ [] := List.ne_nil_of_length_pos (by omega)
      have hih := ih hos hlen (by simpa using ho)
      simp [steps, ho', hmore, hih]

/-- With every outcome so far OK, one more transaction than outcomes is started. -/
theorem started_steps (isRead : Bool) {ts : List Transaction} {os : List Outcome}
    (hos : ∀ o ∈ os, o.Ok) (hlen : os.length < ts.length) :
    started (steps isRead ts os) = (ts.take (os.length + 1)).map Transaction.command := by
  induction os generalizing ts with
  | nil =>
    match ts, hlen with
    | t :: ts, _ => simp [steps, started]
  | cons o os ih =>
    obtain ⟨ho, hos⟩ := List.forall_mem_cons.mp hos
    match ts, hlen with
    | t :: ts, hlen =>
      have hlen : os.length < ts.length := by simpa using hlen
      have hmore : ts ≠ [] := List.ne_nil_of_length_pos (by omega)
      have hih := ih hos hlen
      simp only [started] at hih
      simp [steps, started, ho, hmore, hih]

theorem Outcome.ok_of_done {isRead : Bool} {o : Outcome} (h : (o.answer isRead).status = .done) :
    o.Ok := by
  cases o with
  | expired => cases h
  | answered r =>
    by_contra hbad
    rw [Outcome.answer, if_neg (show ¬ r.status = ST_OK from hbad)] at h
    split at h <;> cases h

/-- A session answered Done has started the whole reference sequence. -/
theorem Session.Ended.started_eq {p : Session} (h : p.Ended) (hdone : p.answer.status = .done) :
    started p.log = p.request.transactions.map Transaction.command := by
  obtain ⟨q, outcomes⟩ := p
  obtain ⟨os, o, rfl, ⟨hos, hlen⟩, hlast⟩ := h
  have hanswer : (o.answer q.isRead).status = .done := by simpa [Session.answer] using hdone
  have hok := Outcome.ok_of_done hanswer
  have hall := hlast hok
  have hsteps := started_steps q.isRead hos hlen
  simp only at hall hlen
  rw [hall, List.take_length] at hsteps
  simp only [started] at hsteps
  simp [Session.log, started, steps_concat_last q.isRead hos hlen hlast, hsteps]

/-! ## The open request -/

/-- `step_` once `k` transactions of a request have been started. -/
def stepAt (op : Op) (k : Nat) : Step :=
  match op, k with
  | _, 0 => .start
  | .read, _ | .write, _ => .done
  | _, 1 => .mmdAddrMode
  | _, 2 => .mmdSetAddr
  | _, 3 => .mmdDataMode
  | _, _ => .mmdData

/-- The slot holds the request `q`. -/
structure Holds (m : Master) (q : Request) : Prop where
  active : m.active = true
  op : m.op = q.op
  phy : m.phy = q.phy
  mmd : m.mmd = q.mmd
  reg : m.reg = q.reg
  val : m.val = q.val
  resp : m.resp = some q.resp

theorem Holds.unique {m : Master} {q q' : Request} (h : Holds m q) (h' : Holds m q') : q = q' := by
  obtain ⟨op, phy, mmd, reg, val, resp⟩ := q
  obtain ⟨op', phy', mmd', reg', val', resp'⟩ := q'
  obtain ⟨-, rfl, rfl, rfl, rfl, rfl, hresp⟩ := h
  obtain ⟨-, rfl, rfl, rfl, rfl, rfl, hresp'⟩ := h'
  obtain rfl := Option.some_inj.mp (hresp.symm.trans hresp')
  rfl

theorem Holds.submit {m : Master} (hidle : m.active = false) (q : Request) :
    (m.submit q).1 = .ok ∧ Holds (m.submit q).2 q := by
  rw [Master.submit, if_neg (by simp [hidle])]
  exact ⟨rfl, rfl, rfl, rfl, rfl, rfl, rfl, rfl⟩

/-- The next transaction started is the reference sequence's next. -/
theorem Holds.startNextTransaction {m : Master} {q : Request} (h : Holds m q) (nowMs : UInt32)
    {k : Nat} (hk : k < q.transactions.length) (hstep : m.step = stepAt q.op k) :
    ∃ t, q.transactions[k]? = some t ∧
      m.startNextTransaction nowMs =
        { m with
          started := true, startedMs := nowMs, step := stepAt q.op (k + 1), wireRead := t.isRead
          wireReg := t.reg, wireVal := t.val, log := m.log ++ [.started t.command] } := by
  refine ⟨q.transactions[k], List.getElem?_eq_getElem hk, ?_⟩
  obtain ⟨op, phy, mmd, reg, val, resp⟩ := q
  obtain ⟨-, hop, hphy, hmmd, hreg, hval, -⟩ := h
  simp only at hop hphy hmmd hreg hval hstep
  cases op
  case read | write =>
    obtain rfl : k = 0 := by simpa [Request.transactions] using hk
    simp [Master.startNextTransaction, Master.prepareNext, Master.startTransaction, hop, hphy, hreg,
      hval, stepAt, Request.transactions, Request.isRead, Transaction.command]
  case readMmd | writeMmd =>
    have hk : k < 4 := by simpa [Request.transactions] using hk
    interval_cases k <;>
      simp [Master.startNextTransaction, Master.prepareNext, Master.startTransaction, hop, hphy,
        hmmd, hreg, hval, hstep, stepAt, Request.transactions, Request.isRead, Transaction.command]

/-- The last transaction leaves `step_` where a completion finishes, and only
the last one does. -/
theorem stepAt_last (q : Request) {k : Nat} (hk : k < q.transactions.length) :
    stepAt q.op (k + 1) = .done ∨ stepAt q.op (k + 1) = .mmdData ↔ k + 1 = q.transactions.length := by
  obtain ⟨op, phy, mmd, reg, val, resp⟩ := q
  cases op
  case read | write =>
    obtain rfl : k = 0 := by simpa [Request.transactions] using hk
    simp [stepAt, Request.transactions]
  case readMmd | writeMmd =>
    have hk : k < 4 := by simpa [Request.transactions] using hk
    interval_cases k <;> simp [stepAt, Request.transactions]

theorem stepAt_mmdData {op : Op} {k : Nat} (h : stepAt op k = .mmdData) :
    op = .readMmd ∨ op = .writeMmd := by
  cases op
  case read | write => cases k <;> simp [stepAt] at h
  case readMmd => exact .inl rfl
  case writeMmd => exact .inr rfl

/-- The last transaction is the one in the request's own direction. -/
theorem transactions_last (q : Request) {t : Transaction} {k : Nat}
    (ht : q.transactions[k]? = some t) (hk : k + 1 = q.transactions.length) : t.isRead = q.isRead := by
  obtain ⟨op, phy, mmd, reg, val, resp⟩ := q
  cases op
  case read | write =>
    obtain rfl : k = 0 := by simpa [Request.transactions] using hk
    obtain rfl := Option.some_inj.mp ht
    rfl
  case readMmd | writeMmd =>
    obtain rfl : k = 3 := by simpa [Request.transactions] using hk
    obtain rfl := Option.some_inj.mp ht
    rfl

theorem transactions_ne_nil (q : Request) : 0 < q.transactions.length := by
  rw [Request.transactions]
  split <;> simp

/-- The request `q` has a transaction on the bus, behind the log `pre`. -/
structure OnBus (m : Master) (q : Request) (pre : List Entry) (os : List Outcome) : Prop where
  holds : Holds m q
  opened : Session.Open ⟨q, os⟩
  step : m.step = stepAt q.op (os.length + 1)
  wire : ∃ t, q.transactions[os.length]? = some t ∧ m.wireRead = t.isRead
  log : m.log = pre ++ Session.log ⟨q, os⟩

/-- What a poll makes of the transaction on the bus: it waits for the blob, the next one
is started, or the request ends with the answer stored. -/
inductive Polled (m : Master) (q : Request) (pre : List Entry) (os : List Outcome) (nowMs : UInt32)
    (r : Reading) : Master → Prop
  | waits (hfound : outcome? m.startedMs (nowMs, r) = none) : Polled m q pre os nowMs r m
  | next {m' : Master} (o : Outcome) (hfound : outcome? m.startedMs (nowMs, r) = some o) (hok : o.Ok)
      (hbus : OnBus m' q pre (os ++ [o])) (hstarted : m'.started = true) (hsince : m'.startedMs = nowMs)
      (hresp : m'.responses = m.responses) : Polled m q pre os nowMs r m'
  | ends {m' : Master} (o : Outcome) (hfound : outcome? m.startedMs (nowMs, r) = some o)
      (hlast : o.Ok → os.length + 1 = q.transactions.length) (hidle : m'.active = false)
      (hlog : m'.log = pre ++ Session.log ⟨q, os ++ [o]⟩)
      (hresp : m'.responses = Function.update m.responses q.resp (o.answer q.isRead)) :
      Polled m q pre os nowMs r m'

variable {responses : Nat → Response} {m : Master} {past : List Session} {q : Request}
  {pre : List Entry} {os : List Outcome}

/-- A master that logs the outcome and answers it has ended the request. -/
theorem OnBus.ends (h : OnBus m q pre os) {nowMs : UInt32} {r : Reading} {o : Outcome}
    (hfound : outcome? m.startedMs (nowMs, r) = some o)
    (hlast : o.Ok → os.length + 1 = q.transactions.length) {status : Status} {value : UInt16}
    (hanswer : o.answer q.isRead = ⟨status, value⟩) (started : Bool) :
    Polled m q pre os nowMs r
      ({ m with log := m.log ++ [Entry.reported o], started }.finish status value) := by
  refine .ends o hfound hlast rfl ?_ ?_
  · have hsteps := steps_concat_last q.isRead h.opened.1 h.opened.2 hlast
    simp [Master.finish, h.log, Session.log, hsteps, hanswer]
  · simp [Master.finish, h.holds.resp, hanswer]

/-- An OK of a transaction that is not the last one starts the next. -/
theorem OnBus.next (h : OnBus m q pre os) {nowMs : UInt32} {r : Reading} {o : Outcome}
    (hfound : outcome? m.startedMs (nowMs, r) = some o) (ho : o.Ok)
    (hmore : os.length + 1 ≠ q.transactions.length) :
    Polled m q pre os nowMs r
      ({ m with log := m.log ++ [Entry.reported o], started := false }.startNextTransaction nowMs) := by
  have hlen := h.opened.2
  have hk : os.length + 1 < q.transactions.length := by
    simp only at hlen
    omega
  obtain ⟨hact, hop, hphy, hmmd, hreg, hval, hptr⟩ := h.holds
  have hheld : Holds { m with log := m.log ++ [.reported o], started := false } q :=
    ⟨hact, hop, hphy, hmmd, hreg, hval, hptr⟩
  obtain ⟨t, ht, hstart⟩ := hheld.startNextTransaction nowMs hk h.step
  have hopen : Session.Open ⟨q, os ++ [o]⟩ := by
    refine ⟨fun o' ho' => ?_, by simpa using hk⟩
    rcases List.mem_append.mp ho' with ho' | ho'
    · exact h.opened.1 o' ho'
    · exact List.mem_singleton.mp ho' ▸ ho
  rw [hstart]
  refine .next o hfound ho ⟨⟨hact, hop, hphy, hmmd, hreg, hval, hptr⟩, hopen, ?_, ⟨t, ?_, rfl⟩, ?_⟩
    rfl rfl rfl
  · simp
  · simpa using ht
  · have hsteps := steps_concat_next q.isRead h.opened.1 ho ht
    simp [h.log, Session.log, hsteps]

/-- A poll goes by what the tick says of the transaction. -/
theorem OnBus.poll (h : OnBus m q pre os) (nowMs : UInt32) (r : Reading) :
    Polled m q pre os nowMs r (m.poll nowMs r) := by
  have hholds := h.holds
  rw [Master.poll]
  by_cases hbusy : r.status = 0
  · rw [if_pos hbusy]
    by_cases hlate : nowMs - m.startedMs > MDIO_TIMEOUT_MS
    · have hfound : outcome? m.startedMs (nowMs, r) = some .expired := by
        rw [outcome?, if_pos hbusy, if_pos hlate]
      rw [if_pos hlate]
      exact h.ends hfound False.elim rfl m.started
    · rw [if_neg hlate]
      exact .waits (by rw [outcome?, if_pos hbusy, if_neg hlate])
  have hfound : outcome? m.startedMs (nowMs, r) = some (.answered r) := by
    rw [outcome?, if_neg hbusy]
  rw [if_neg hbusy]
  by_cases hnoresp : r.status = ST_NORESP
  · have hbad : ¬ Outcome.Ok (.answered r) := by
      rw [Outcome.Ok, hnoresp]
      decide
    simp only [if_pos hnoresp, Master.completeTransaction, if_pos (by decide : Status.noResp ≠ .done)]
    refine h.ends hfound (fun hok => absurd hok hbad) ?_ false
    exact (if_neg hbad).trans (if_pos hnoresp)
  simp only [if_neg hnoresp]
  by_cases hok : r.status = ST_OK
  · simp only [if_neg (not_not.mpr hok), Master.completeTransaction, ne_eq, not_true_eq_false, if_false]
    -- an OK ends the request at its last transaction, and starts the next one before that
    obtain ⟨t, ht, hwire⟩ := h.wire
    have hdone : Outcome.Ok (.answered r) := hok
    have hanswer : Outcome.answer q.isRead (.answered r) = ⟨.done, if q.isRead then r.result else 0⟩ := by
      rw [Outcome.answer, if_pos hok]
    have hlast := stepAt_last q h.opened.2
    by_cases hend : os.length + 1 = q.transactions.length
    · have hdir := transactions_last q ht hend
      rw [hdir] at hwire
      rcases hlast.mpr hend with hstep | hstep
      · have hvalue : (if m.wireRead then r.result else 0) = if q.isRead then r.result else 0 := by
          rw [hwire]
        rw [if_pos (h.step.trans hstep), hvalue]
        exact h.ends hfound (fun _ => hend) hanswer false
      · have hstep := h.step.trans hstep
        have hvalue : (if m.op = .readMmd then if m.wireRead then r.result else 0 else 0) =
            if q.isRead then r.result else 0 := by
          rw [hwire, hholds.op, Request.isRead]
          rcases stepAt_mmdData (h.step.symm.trans hstep) with hop | hop <;> simp [hop]
        rw [if_neg (by rw [hstep]; decide), if_pos hstep, hvalue]
        exact h.ends hfound (fun _ => hend) hanswer false
    · have hmid := not_or.mp (hlast.not.mpr hend)
      rw [← h.step] at hmid
      rw [if_neg hmid.1, if_neg hmid.2]
      exact h.next hfound hdone hend
  · have hbad : ¬ Outcome.Ok (.answered r) := hok
    simp only [if_pos hok, Master.completeTransaction, if_pos (by decide : Status.timeout ≠ .done)]
    refine h.ends hfound (fun h => absurd h hbad) ?_ false
    exact (if_neg hbad).trans (if_neg hnoresp)

/-- The first tick puts the first transaction on the bus. -/
theorem Holds.first (h : Holds m q) (hstep : m.step = .start) (hlog : m.log = pre ++ [.accepted q])
    (nowMs : UInt32) :
    ∃ m', m.startNextTransaction nowMs = m' ∧ OnBus m' q pre [] ∧ m'.started = true ∧
      m'.startedMs = nowMs ∧ m'.responses = m.responses := by
  have hk := transactions_ne_nil q
  obtain ⟨t, ht, hstart⟩ := h.startNextTransaction nowMs hk (by rw [hstep, stepAt])
  obtain ⟨hact, hop, hphy, hmmd, hreg, hval, hptr⟩ := h
  refine ⟨_, hstart, ⟨⟨hact, hop, hphy, hmmd, hreg, hval, hptr⟩, ⟨nofun, hk⟩, rfl, ⟨t, ht, rfl⟩, ?_⟩,
    rfl, rfl, rfl⟩
  match hts : q.transactions, ht with
  | t₀ :: ts, ht =>
    obtain rfl : t₀ = t := by simpa using ht
    simp [hlog, Session.log, hts, steps]

/-! ## Every request is answered -/

def Tick.event (t : Tick) : Event := .tick t.1 t.2

/-- The master is ticked on, with more than the timeout between two ticks. -/
def Spaced (ticks : List Tick) : Prop :=
  ticks.IsChain fun t t' => MDIO_TIMEOUT_MS < t'.1 - t.1 ∧ t'.1 - t.1 < 0x80000000

theorem Spaced.next {t : Tick} {ticks : List Tick} (h : Spaced (t :: ticks)) :
    ∀ t' ∈ ticks.head?, MDIO_TIMEOUT_MS < t'.1 - t.1 ∧ t'.1 - t.1 < 0x80000000 := by
  intro t' ht'
  cases ticks with
  | nil => cases ht'
  | cons t₁ ticks =>
    cases ht'
    exact (List.isChain_cons_cons.mp h).1

theorem outcome?_late {sinceMs : UInt32} {t : Tick} (h : MDIO_TIMEOUT_MS < t.1 - sinceMs) :
    outcome? sinceMs t ≠ none := by
  rw [outcome?, if_pos h]
  split <;> simp

theorem late_of_early {a b c : UInt32} (hab : ¬ MDIO_TIMEOUT_MS < b - a) (hbc : MDIO_TIMEOUT_MS < c - b)
    (hmax : c - b < 0x80000000) : MDIO_TIMEOUT_MS < c - a := by
  have hsum : c - a = (c - b) + (b - a) := by grind
  rw [hsum]
  rw [UInt32.not_lt, UInt32.le_iff_toNat_le] at hab
  rw [UInt32.lt_iff_toNat_lt] at hbc hmax ⊢
  rw [UInt32.toNat_add]
  simp only [MDIO_TIMEOUT_MS, UInt32.reduceToNat] at hab hbc hmax ⊢
  omega

theorem run_ticks_idle (h : m.active = false) (ticks : List Tick) :
    run Master.event m (ticks.map Tick.event) = m := by
  induction ticks with
  | nil => rfl
  | cons t ticks ih =>
    have htick : m.event t.event = m := if_pos (by simp [h])
    rw [List.map_cons, run_cons, htick, ih]

theorem OnBus.tick_eq (h : OnBus m q pre os) (hstarted : m.started = true) (t : Tick) :
    m.event t.event = m.poll t.1 t.2 := by
  rw [Tick.event, Master.event, Master.tick, if_neg (not_not.mpr h.holds.active),
    if_neg (not_not.mpr hstarted)]

/-- Where each tick comes too late for its transaction, as many ticks are enough. -/
theorem OnBus.due (h : OnBus m q pre os) (hstarted : m.started = true) {ticks : List Tick}
    (hspaced : Spaced ticks) (hfirst : ∀ t ∈ ticks.head?, MDIO_TIMEOUT_MS < t.1 - m.startedMs)
    (hmore : q.transactions.length - os.length ≤ ticks.length) :
    (run Master.event m (ticks.map Tick.event)).active = false := by
  induction ticks generalizing m os with
  | nil =>
    have hlen := h.opened.2
    simp only [List.length_nil] at hlen hmore
    omega
  | cons t ticks ih =>
    have hpolled := h.poll t.1 t.2
    rw [List.map_cons, run_cons, h.tick_eq hstarted]
    generalize m.poll t.1 t.2 = m' at hpolled ⊢
    cases hpolled with
    | waits hfound => exact absurd hfound (outcome?_late (hfirst t rfl))
    | next o hfound hok hbus hstarted' hsince hkept =>
      rw [List.length_cons] at hmore
      refine ih hbus hstarted' hspaced.tail (fun t' ht' => ?_) ?_
      · rw [hsince]
        exact (hspaced.next t' ht').1
      · rw [List.length_append, List.length_singleton]
        omega
    | ends o hfound hlast hidle hlog hanswer => rw [run_ticks_idle hidle, hidle]

/-- One more is for the transaction under way, whose time may not have passed at the first tick. -/
theorem OnBus.answered (h : OnBus m q pre os) (hstarted : m.started = true) {ticks : List Tick}
    (hspaced : Spaced ticks) (hmore : q.transactions.length - os.length < ticks.length) :
    (run Master.event m (ticks.map Tick.event)).active = false := by
  cases ticks with
  | nil => cases hmore
  | cons t ticks =>
    rw [List.length_cons] at hmore
    by_cases hlate : MDIO_TIMEOUT_MS < t.1 - m.startedMs
    · refine h.due hstarted hspaced (fun t' ht' => ?_) (Nat.le_of_lt hmore)
      obtain rfl := Option.some_inj.mp ht'
      exact hlate
    · have hpolled := h.poll t.1 t.2
      rw [List.map_cons, run_cons, h.tick_eq hstarted]
      generalize m.poll t.1 t.2 = m' at hpolled ⊢
      cases hpolled with
      | waits hfound =>
        refine h.due hstarted hspaced.tail (fun t' ht' => ?_) (by omega)
        exact late_of_early hlate (hspaced.next t' ht').1 (hspaced.next t' ht').2
      | next o hfound hok hbus hstarted' hsince hkept =>
        refine hbus.due hstarted' hspaced.tail (fun t' ht' => ?_) ?_
        · rw [hsince]
          exact (hspaced.next t' ht').1
        · rw [List.length_append, List.length_singleton]
          omega
      | ends o hfound hlast hidle hlog hanswer => rw [run_ticks_idle hidle, hidle]

/-- A request that has not been started is answered in time as well. -/
theorem Holds.answered (h : Holds m q) (hstarted : m.started = false) (hstep : m.step = .start)
    (hlog : m.log = pre ++ [.accepted q]) {ticks : List Tick} (hspaced : Spaced ticks)
    (hmore : q.transactions.length < ticks.length) :
    (run Master.event m (ticks.map Tick.event)).active = false := by
  cases ticks with
  | nil => cases hmore
  | cons t ticks =>
    -- the first tick starts the request and polls it: what a tick of the started master does
    obtain ⟨m', hstart, hbus, hstarted', -, -⟩ := h.first hstep hlog t.1
    have htick : m.event t.event = m'.event t.event := by
      rw [hbus.tick_eq hstarted', Tick.event, Master.event, Master.tick, if_neg (not_not.mpr h.active),
        if_pos (by simp [hstarted]), hstart]
    have hrun : run Master.event m ((t :: ticks).map Tick.event) =
        run Master.event m' ((t :: ticks).map Tick.event) := by
      rw [List.map_cons, run_cons, htick, run_cons]
    rw [hrun]
    exact hbus.answered hstarted' hspaced hmore

/-! ## Sessions of a run -/

/-- `History` with what the next tick needs: whether the open request has been
started, and where. -/
structure Progress (responses : Nat → Response) (m : Master) (past : List Session) : Prop where
  ended : ∀ p ∈ past, p.Ended
  idle : m.active = false →
    m.log = past.flatMap Session.log ∧ m.responses = settle responses past
  active : m.active = true → ∃ q, Holds m q ∧
    m.responses = Function.update (settle responses past) q.resp { status := .pending } ∧
      (m.started = false ∧ m.step = .start ∧ m.log = past.flatMap Session.log ++ [.accepted q] ∨
        ∃ os, m.started = true ∧ OnBus m q (past.flatMap Session.log) os)

/-- What became of the open request `q`: it is still open, or its session has ended. -/
inductive Advanced (responses : Nat → Response) (m : Master) (past : List Session) (q : Request) : Prop
  | opened (holds : Holds m q) (progress : Progress responses m past)
  | ended (os : List Outcome) (idle : m.active = false)
      (progress : Progress responses m (past ++ [⟨q, os⟩]))

theorem Progress.history (h : Progress responses m past) : History responses m past := by
  refine ⟨h.ended, h.idle, fun hact => ?_⟩
  obtain ⟨q, -, hresp, ⟨-, -, hlog⟩ | ⟨os, -, hbus⟩⟩ := h.active hact
  · exact ⟨q, hresp, .inl hlog⟩
  · exact ⟨q, hresp, .inr ⟨os, hbus.opened, hbus.log⟩⟩

/-- A session with a transaction on the bus keeps the run's history. -/
theorem OnBus.progress (h : OnBus m q (past.flatMap Session.log) os) (hpast : ∀ p ∈ past, p.Ended)
    (hresp : m.responses = Function.update (settle responses past) q.resp { status := .pending })
    (hstarted : m.started = true) : Progress responses m past where
  ended := hpast
  idle hidle := Bool.noConfusion (h.holds.active.symm.trans hidle)
  active _ := ⟨q, h.holds, hresp, .inr ⟨os, hstarted, h⟩⟩

/-- The session that ends joins those that have. -/
theorem OnBus.concat_ended (h : OnBus m q pre os) {o : Outcome} (hpast : ∀ p ∈ past, p.Ended)
    (hlast : o.Ok → os.length + 1 = q.transactions.length) :
    ∀ p ∈ past ++ [⟨q, os ++ [o]⟩], p.Ended := by
  intro p hp
  rcases List.mem_append.mp hp with hp | hp
  · exact hpast p hp
  · obtain rfl := List.mem_singleton.mp hp
    exact ⟨os, o, rfl, h.opened, hlast⟩

theorem settle_answered (hresp : m.responses = Function.update (settle responses past) q.resp { status := .pending })
    (o : Outcome) :
    Function.update m.responses q.resp (o.answer q.isRead) =
      settle responses (past ++ [⟨q, os ++ [o]⟩]) := by
  rw [hresp, Function.update_idem, settle_concat]
  simp [Session.answer]

/-- A poll leaves the request open or ends its session. -/
theorem OnBus.advance (h : OnBus m q (past.flatMap Session.log) os) (hpast : ∀ p ∈ past, p.Ended)
    (hresp : m.responses = Function.update (settle responses past) q.resp { status := .pending })
    (hstarted : m.started = true) (nowMs : UInt32) (r : Reading) :
    Advanced responses (m.poll nowMs r) past q := by
  have hpolled := h.poll nowMs r
  generalize m.poll nowMs r = m' at hpolled ⊢
  cases hpolled with
  | waits hfound => exact .opened h.holds (h.progress hpast hresp hstarted)
  | next o hfound hok hbus hstarted' hsince hkept =>
    exact .opened hbus.holds (hbus.progress hpast (hkept.trans hresp) hstarted')
  | ends o hfound hlast hidle hlog hanswer =>
    refine .ended (os ++ [o]) hidle ⟨h.concat_ended hpast hlast, fun _ => ⟨?_, ?_⟩, fun hact => ?_⟩
    · simpa using hlog
    · rw [hanswer, settle_answered hresp]
    · exact Bool.noConfusion (hact.symm.trans hidle)

theorem Progress.submit (h : Progress responses m past) (q : Request) :
    Progress responses (m.submit q).2 past := by
  rw [Master.submit]
  by_cases hact : m.active = true
  · rw [if_pos hact]
    exact h
  · obtain ⟨hlog, hresp⟩ := h.idle (Bool.not_eq_true _ ▸ hact)
    rw [if_neg hact]
    refine ⟨h.ended, nofun, fun _ => ⟨q, ⟨rfl, rfl, rfl, rfl, rfl, rfl, rfl⟩, ?_, .inl ⟨rfl, rfl, ?_⟩⟩⟩
    · exact congrArg (Function.update · q.resp _) hresp
    · exact congrArg (· ++ _) hlog

/-- A tick works on the request that is open. -/
theorem Progress.advance (h : Progress responses m past) (hq : Holds m q) (nowMs : UInt32) (r : Reading) :
    Advanced responses (m.tick nowMs r) past q := by
  rw [Master.tick, if_neg (not_not.mpr hq.active)]
  obtain ⟨q', hholds, hresp, hwhere⟩ := h.active hq.active
  obtain rfl := hq.unique hholds
  obtain ⟨hstarted, hstep, hlog⟩ | ⟨os, hstarted, hbus⟩ := hwhere
  · -- the first transaction of the request goes out, and is polled at once
    rw [if_pos (by simp [hstarted])]
    obtain ⟨m', hstart, hbus, hstarted', -, hkept⟩ := hholds.first hstep hlog nowMs
    rw [hstart]
    exact hbus.advance h.ended (hkept.trans hresp) hstarted' nowMs r
  · rw [if_neg (not_not.mpr hstarted)]
    exact hbus.advance h.ended hresp hstarted nowMs r

theorem Progress.tick (h : Progress responses m past) (nowMs : UInt32) (r : Reading) :
    ∃ past', Progress responses (m.tick nowMs r) past' := by
  by_cases hact : m.active = true
  · obtain ⟨q, hq, -⟩ := h.active hact
    cases h.advance hq nowMs r with
    | opened _ hprogress => exact ⟨past, hprogress⟩
    | ended os _ hprogress => exact ⟨_, hprogress⟩
  · rw [Master.tick, if_pos hact]
    exact ⟨past, h⟩

/-- Ticks that go on answer the request that is open. -/
theorem Progress.answered (h : Progress responses m past) (hq : Holds m q) {ticks : List Tick}
    (hspaced : Spaced ticks) (hmore : q.transactions.length < ticks.length) :
    (run Master.event m (ticks.map Tick.event)).active = false := by
  obtain ⟨q', hholds, -, hwhere⟩ := h.active hq.active
  obtain rfl := hq.unique hholds
  obtain ⟨hstarted, hstep, hlog⟩ | ⟨os, hstarted, hbus⟩ := hwhere
  · exact hholds.answered hstarted hstep hlog hspaced hmore
  · exact hbus.answered hstarted hspaced (Nat.lt_of_le_of_lt (Nat.sub_le _ _) hmore)

theorem progress_begin (responses : Nat → Response) : Progress responses (.begin responses) [] :=
  ⟨nofun, fun _ => ⟨rfl, rfl⟩, nofun⟩

end Tapioca.Mdio

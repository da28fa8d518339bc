-- SUMMARY: Every command line of the bridge is answered once, in its own words, by the one operation that may be in progress.
import Tapioca.Mdio.Bridge
import Tapioca.Mdio.MasterIntegrity

/-!
# Replies of the bridge

The lines of a run are read off its input bytes. Each line has an account: what
it was taken for, and the answers its operations have had so far. The accounts
fix the replies, and the requests of the master are those of the accounts, in
order.
-/

namespace Tapioca.Mdio

open Lib.Lts

/-! ## Sessions -/

/-- What a session was asked, and its answer. -/
def Session.exchange (p : Session) : Request × Response := (p.request, p.answer)

namespace UsbBridge

/-! ## Lines -/

/-- What the line assembler of a tick sees. -/
inductive Input where
  | session
  | byte (b : UInt8)
  deriving DecidableEq

def Event.inputs : Event → List Input
  | .master _ _ => []
  | .bridge session bytes => (if session then [.session] else []) ++ bytes.map .byte

/-- The lines so far, and the one that is not yet ended. -/
structure Lines where
  ended : List (List UInt8) := []
  rest : List UInt8 := []

/-- A line ends at CR or LF, empty lines do not count, and a new session drops
what is not ended. -/
def Lines.feed (l : Lines) : Input → Lines
  | .session => { l with rest := [] }
  | .byte b =>
    if isEnd b then
      if l.rest = [] then l else { ended := l.ended ++ [l.rest] }
    else { l with rest := l.rest ++ [b] }

def linesOf (ins : List Input) : List (List UInt8) := (ins.foldl Lines.feed {}).ended

/-- The command of a line that is valid and not too long. -/
def command? (line : List UInt8) : Option Command := if line.length ≤ 48 then parse? line else none

theorem parse_eq (line : List UInt8) : parse line = (parse? line).getD {} := rfl

/-- A command that parses is valid, and one of the three. -/
theorem parse?_valid {line : List UInt8} {c : Command} (h : parse? line = some c) :
    c.valid = true ∧ c.op ≠ .none := by
  have hverb : ∀ {p : List UInt8} {r : Op × List UInt8}, parseVerb p = some r → r.1 ≠ .none := by
    intro p r hr
    rw [parseVerb] at hr
    cases hread : verbIs p (RecordFramer.ascii "read") <;>
      cases hwrite : verbIs p (RecordFramer.ascii "write") <;>
      cases hprint : verbIs p (RecordFramer.ascii "print") <;>
      simp [hread, hwrite, hprint] at hr <;> simp [← hr]
  simp only [parse?, Option.bind_eq_bind, Option.bind_eq_some_iff] at h
  obtain ⟨_, _, ⟨op, p⟩, hop, _, _, _, _, _, _, _, _, _, _, h⟩ := h
  obtain rfl := Option.some_inj.mp h
  exact ⟨rfl, hverb hop⟩

/-- The buffer holds the open line, or has given it up. -/
inductive Buffers (l : LineBuffer) (rest : List UInt8) : Prop
  | held (keep : l.discardLine = false) (line : l.line = rest)
  | discarded (drop : l.discardLine = true) (line : l.line = []) (long : 48 < rest.length)

theorem buffers_empty : Buffers .empty [] := .held rfl rfl

/-- A byte of the line. -/
theorem Buffers.push {l : LineBuffer} {rest : List UInt8} (h : Buffers l rest) {b : UInt8}
    (hb : isEnd b = false) :
    ∃ l', l.pushCommandByte b = (.none, l') ∧ Buffers l' (rest ++ [b]) := by
  have hnot : ¬ (b = 0x0A ∨ b = 0x0D) := by
    rw [isEnd, decide_eq_false_iff_not] at hb
    exact fun h => hb h.symm
  rw [LineBuffer.pushCommandByte, if_neg hnot]
  cases h with
  | discarded hdrop hline hlong =>
    rw [if_pos hdrop]
    exact ⟨l, rfl, .discarded hdrop hline (by simp; omega)⟩
  | held hkeep hline =>
    rw [if_neg (by simp [hkeep])]
    by_cases hroom : l.line.length < 48
    · rw [dif_pos hroom]
      exact ⟨_, rfl, .held hkeep (by simp [hline])⟩
    · rw [dif_neg hroom]
      exact ⟨_, rfl, .discarded rfl rfl (by simp [← hline]; omega)⟩

/-- What a line end does: nothing, a line that fits, or one that is too long. -/
theorem Buffers.end {l : LineBuffer} {rest : List UInt8} (h : Buffers l rest) {b : UInt8}
    (hb : isEnd b = true) :
    rest = [] ∧ l.pushCommandByte b = (.none, l) ∨
      rest ≠ [] ∧ rest.length ≤ 48 ∧ l.discardLine = false ∧ l.line = rest ∧
        l.pushCommandByte b = (.ready, l) ∨
      48 < rest.length ∧ l.pushCommandByte b = (.invalid, .empty) := by
  have hend : b = 0x0A ∨ b = 0x0D := by
    rw [isEnd, decide_eq_true_eq] at hb
    exact hb.symm
  rw [LineBuffer.pushCommandByte, if_pos hend]
  cases h with
  | discarded hdrop hline hlong => exact .inr (.inr ⟨hlong, if_pos hdrop⟩)
  | held hkeep hline =>
    rw [if_neg (by simp [hkeep])]
    by_cases hempty : rest = []
    · exact .inl ⟨hempty, by simp [hline, hempty]⟩
    · refine .inr (.inl ⟨hempty, hline ▸ l.fits, hkeep, hline, ?_⟩)
      rw [if_pos (hline ▸ hempty)]

/-! ## Accounts -/

/-- The operations of a command: itself, or the 32 reads of a print. -/
def Command.ops (c : Command) : List Command :=
  if c.op = .print then (List.range 32).map fun reg => printRead c.phy (UInt8.ofNat reg) else [c]

/-- What the master is asked for. -/
def Command.request (c : Command) : Request :=
  match c.op, c.mmdAccess with
  | .write, true => ⟨.writeMmd, c.phy, c.mmd, c.reg, c.val, RESP⟩
  | .write, false => ⟨.write, c.phy, 0, c.reg.toUInt8.toUInt16, c.val, RESP⟩
  | _, true => ⟨.readMmd, c.phy, c.mmd, c.reg, 0, RESP⟩
  | _, false => ⟨.read, c.phy, 0, c.reg.toUInt8.toUInt16, 0, RESP⟩

/-- The reply to an operation that the master has answered. -/
def Command.answered (c : Command) (a : Response) : Reply :=
  if a.status = .done then if c.op = .read then .value c.path a.value else .ok c.path
  else .err c.op c.path (statusErr a.status)

/-- A line, as the bridge took it: not a command; refused because another is in
progress; or served, with the answers it has had so far. -/
inductive Account where
  | invalid
  | refused (c : Command)
  | served (c : Command) (answers : List Response)

namespace Account

def command? : Account → Option Command
  | invalid => none
  | refused c | served c _ => some c

def replies : Account → List Reply
  | invalid => [.invalid]
  | refused c => c.ops.map busy
  | served c answers => List.zipWith Command.answered c.ops answers

/-- The requests it had answered, with the answers. -/
def exchanges : Account → List (Request × Response)
  | invalid | refused _ => []
  | served c answers => (c.ops.map Command.request).zip answers

def Settled : Account → Prop
  | invalid | refused _ => True
  | served c answers => answers.length = c.ops.length

end Account

theorem ops_of_single {c : Command} (h : c.op ≠ .print) : c.ops = [c] := if_neg h

theorem ops_of_print {c : Command} (h : c.op = .print) :
    c.ops = (List.range 32).map fun reg => printRead c.phy (UInt8.ofNat reg) := if_pos h

theorem getElem?_ops_print {c : Command} (h : c.op = .print) {k : Nat} (hk : k < 32) :
    c.ops[k]? = some (printRead c.phy (UInt8.ofNat k)) := by
  rw [ops_of_print h, List.getElem?_map, List.getElem?_range hk]
  rfl

/-- One more element meets the next of a longer list. -/
theorem zipWith_concat_getElem? {α β γ : Type*} (f : α → β → γ) {xs : List α} {ys : List β} {x : α}
    (hx : xs[ys.length]? = some x) (y : β) :
    List.zipWith f xs (ys ++ [y]) = List.zipWith f xs ys ++ [f x y] := by
  induction ys generalizing xs with
  | nil =>
    cases xs with
    | nil => cases hx
    | cons x' xs =>
      obtain rfl := Option.some_inj.mp hx
      cases xs <;> rfl
  | cons y' ys ih =>
    cases xs with
    | nil => cases hx
    | cons x' xs => exact congrArg (f x' y' :: ·) (ih hx)

namespace Account

variable {c cur : Command} {answers : List Response}

theorem replies_answer (hcur : c.ops[answers.length]? = some cur) (a : Response) :
    (served c (answers ++ [a])).replies = (served c answers).replies ++ [cur.answered a] :=
  zipWith_concat_getElem? _ hcur a

theorem exchanges_answer (hcur : c.ops[answers.length]? = some cur) (a : Response) :
    (served c (answers ++ [a])).exchanges = (served c answers).exchanges ++ [(cur.request, a)] := by
  have hreq : (c.ops.map Command.request)[answers.length]? = some cur.request := by
    rw [List.getElem?_map, hcur]
    rfl
  exact zipWith_concat_getElem? Prod.mk hreq a

/-- A line is answered completely, and no line beyond. -/
theorem Settled.length_replies {a : Account} (h : a.Settled) :
    a.replies.length = a.command?.elim 1 fun c => c.ops.length := by
  cases a with
  | invalid => rfl
  | refused c => exact List.length_map _
  | served c answers => simp [replies, command?, Settled.eq_def _ ▸ h]

end Account

/-! ## Books -/

/-- The replies printed are those of the accounts. -/
structure Posted (accts : List Account) (s : UsbBridge) : Prop where
  count : accts.length = s.lineNo
  replies : ∀ n, s.repliesTo n = (accts[n]?.map Account.replies).getD []

theorem repliesTo_append {s s' : UsbBridge} {es : List (Nat × Reply)} (h : s'.out = s.out ++ es) (n : Nat) :
    s'.repliesTo n = s.repliesTo n ++ es.filterMap fun e => if e.1 = n then some e.2 else none := by
  rw [repliesTo, h, List.filterMap_append]
  rfl

/-- A new line is replied to under its own number. -/
theorem Posted.concat {accts : List Account} {s s' : UsbBridge} (h : Posted accts s) (a : Account)
    (hout : s'.out = s.out ++ a.replies.map (s.lineNo, ·)) (hline : s'.lineNo = s.lineNo + 1) :
    Posted (accts ++ [a]) s' where
  count := by
    rw [List.length_append, h.count, hline]
    rfl
  replies n := by
    rw [repliesTo_append hout, h.replies, List.filterMap_map]
    by_cases hn : s.lineNo = n
    · subst hn
      have hnone : accts[s.lineNo]? = none := by
        rw [List.getElem?_eq_none_iff, h.count]
      have hnew : (accts ++ [a])[s.lineNo]? = some a := by
        rw [← h.count, List.getElem?_concat_length]
      rw [hnone, hnew]
      simp
    · have hold : (accts ++ [a])[n]? = accts[n]? := by
        by_cases hlt : n < accts.length
        · exact List.getElem?_append_left hlt
        · have hcount := h.count
          have hlong : (accts ++ [a]).length ≤ n := by
            rw [List.length_append, List.length_singleton]
            omega
          rw [List.getElem?_eq_none hlong, List.getElem?_eq_none (by omega)]
      rw [hold]
      simp [hn]

/-- One more answer to a line. -/
theorem Posted.answer {pre post : List Account} {c cur : Command} {answers : List Response} {a : Response}
    {s s' : UsbBridge} (h : Posted (pre ++ .served c answers :: post) s)
    (hcur : c.ops[answers.length]? = some cur) (hout : s'.out = s.out ++ [(pre.length, cur.answered a)])
    (hline : s'.lineNo = s.lineNo) : Posted (pre ++ .served c (answers ++ [a]) :: post) s' where
  count := by
    rw [hline, ← h.count]
    simp
  replies n := by
    rw [repliesTo_append hout, h.replies]
    by_cases hn : pre.length = n
    · subst hn
      simp [Account.replies_answer hcur]
    · have hget : ∀ b b' : Account, (pre ++ b :: post)[n]? = (pre ++ b' :: post)[n]? := by
        intro b b'
        rcases Nat.lt_or_gt_of_ne hn with hlt | hgt
        · obtain ⟨k, rfl⟩ : ∃ k, n = pre.length + (k + 1) := ⟨n - pre.length - 1, by omega⟩
          rw [List.getElem?_append_right (Nat.le_add_right _ _), List.getElem?_append_right (Nat.le_add_right _ _),
            Nat.add_sub_cancel_left]
          rfl
        · rw [List.getElem?_append_left hgt, List.getElem?_append_left hgt]
      rw [hget (.served c (answers ++ [a])) (.served c answers)]
      simp [hn]

/-- Operation `k` of the command is in progress. -/
structure Serving (s : UsbBridge) (c : Command) (k : Nat) (cur : Command) : Prop where
  next : c.ops[k]? = some cur
  rw : cur.op = .read ∨ cur.op = .write
  pending : s.pending = true
  op : s.activeOp = cur.op
  path : s.activePath = cur.path
  print : c.op = .print →
    s.printActive = true ∧ s.printPhy = c.phy ∧ s.printNextReg = UInt8.ofNat (k + 1)
  alone : c.op ≠ .print → s.printActive = false

/-- The bridge and its master between two lines: nothing is in progress, or one
command is, and the master works on its next operation or has answered it. -/
inductive Books (responses : Nat → Response) (accts : List Account) (past : List Session) (s : UsbBridge) :
    Prop
  | idle (pending : s.pending = false) (print : s.printActive = false) (master : s.mdio.active = false)
      (progress : Progress responses s.mdio past) (settled : ∀ a ∈ accts, a.Settled)
      (exchanges : past.map Session.exchange = accts.flatMap Account.exchanges)
  | serving (pre post : List Account) (c cur : Command) (answers : List Response)
      (split : accts = pre ++ .served c answers :: post) (owner : s.owner = pre.length)
      (settled : ∀ a ∈ pre ++ post, a.Settled) (quiet : ∀ a ∈ post, a.exchanges = [])
      (active : Serving s c answers.length cur) (master : Advanced responses s.mdio past cur.request)
      (exchanges : past.map Session.exchange = accts.flatMap Account.exchanges)

/-- The books of a run whose lines are these commands, or none. -/
def Balanced (responses : Nat → Response) (cmds : List (Option Command)) (s : UsbBridge) : Prop :=
  ∃ accts past, Books responses accts past s ∧ Posted accts s ∧ accts.map Account.command? = cmds

theorem request_resp (c : Command) : c.request.resp = RESP := by
  rw [Command.request]
  split <;> rfl

/-- A read that finds the master free. -/
theorem startRead_idle {s : UsbBridge} {c : Command} (hidle : s.mdio.active = false) (hop : c.op = .read) :
    s.startRead c =
      (true, { s with
        mdio := (s.mdio.submit c.request).2, pending := true, activeOp := c.op, activePath := c.path }) := by
  have hsubmit : (if c.mmdAccess then s.mdio.readMmd c.phy c.mmd c.reg RESP
      else s.mdio.read c.phy c.reg.toUInt8 RESP) = s.mdio.submit c.request := by
    rw [Command.request, hop]
    cases c.mmdAccess <;> rfl
  simp only [startRead, hsubmit]
  rw [if_neg (not_not.mpr (Holds.submit hidle _).1), hop]

theorem startWrite_idle {s : UsbBridge} {c : Command} (hidle : s.mdio.active = false) (hop : c.op = .write) :
    s.startWrite c =
      (true, { s with
        mdio := (s.mdio.submit c.request).2, pending := true, activeOp := c.op, activePath := c.path }) := by
  have hsubmit : (if c.mmdAccess then s.mdio.writeMmd c.phy c.mmd c.reg c.val RESP
      else s.mdio.write c.phy c.reg.toUInt8 c.val RESP) = s.mdio.submit c.request := by
    rw [Command.request, hop]
    cases c.mmdAccess <;> rfl
  simp only [startWrite, hsubmit]
  rw [if_neg (not_not.mpr (Holds.submit hidle _).1), hop]

/-- The master on a request it has just been given. -/
theorem advanced_submit {responses : Nat → Response} {m : Master} {past : List Session}
    (h : Progress responses m past) (hidle : m.active = false) (q : Request) :
    Advanced responses (m.submit q).2 past q := .opened (Holds.submit hidle q).2 (h.submit q)

theorem Books.master {responses : Nat → Response} {accts : List Account} {past : List Session}
    {s : UsbBridge} (h : Books responses accts past s) (nowMs : UInt32) (r : Reading) :
    ∃ past', Books responses accts past' { s with mdio := s.mdio.tick nowMs r } := by
  have hrest : s.mdio.active = false → s.mdio.tick nowMs r = s.mdio := by
    intro hidle
    rw [Master.tick, if_pos (by simp [hidle])]
  cases h with
  | idle hpending hprint hmaster hprogress hsettled hexch =>
    rw [hrest hmaster]
    exact ⟨past, .idle hpending hprint hmaster hprogress hsettled hexch⟩
  | serving pre post c cur answers hsplit howner hsettled hquiet hactive hmaster hexch =>
    have hserving : Serving { s with mdio := s.mdio.tick nowMs r } c answers.length cur :=
      ⟨hactive.next, hactive.rw, hactive.pending, hactive.op, hactive.path, hactive.print, hactive.alone⟩
    refine ⟨past, .serving pre post c cur answers hsplit howner hsettled hquiet hserving ?_ hexch⟩
    cases hmaster with
    | opened hholds hprogress => exact hprogress.advance hholds nowMs r
    | ended os hidle hprogress =>
      rw [hrest hidle]
      exact .ended os hidle hprogress

/-! ## Answers -/

theorem respond_frame (s : UsbBridge) :
    s.respond =
      { s with
        out := s.out ++ [(s.owner, s.activeResponse)], pending := false
        printAllOk := s.respond.printAllOk, led := s.respond.led } := by
  rw [respond]
  split
  · rfl
  · split <;> rfl

theorem pollResponse_answered {s : UsbBridge} (hpending : s.pending = true)
    (hstatus : s.resp.status ≠ .pending) :
    s.pollResponse = if s.printActive then s.respond.continuePrint else s.respond := by
  have hprint : s.respond.printActive = s.printActive := by rw [respond_frame]
  have hfree : s.respond.pending = false := by rw [respond_frame]
  simp only [pollResponse, if_pos (And.intro hpending hstatus), hprint, hfree]
  cases s.printActive <;> rfl

theorem continuePrint_next {s : UsbBridge} (hidle : s.mdio.active = false) (hreg : s.printNextReg < 32) :
    s.continuePrint =
      { s with
        mdio := (s.mdio.submit (printRead s.printPhy s.printNextReg).request).2, pending := true
        activeOp := .read, activePath := (printRead s.printPhy s.printNextReg).path
        printNextReg := s.printNextReg + 1 } := by
  rw [continuePrint, if_pos hreg, startRead_idle hidle rfl]
  rfl

theorem continuePrint_end {s : UsbBridge} (hreg : ¬ s.printNextReg < 32) :
    s.continuePrint = { s with led := s.continuePrint.led, printActive := false } := by
  rw [continuePrint, if_neg hreg]
  split <;> rfl

theorem Serving.activeResponse {s : UsbBridge} {c cur : Command} {k : Nat} (h : Serving s c k cur) :
    s.activeResponse = cur.answered s.resp := by
  rw [UsbBridge.activeResponse, Command.answered, h.op, h.path]
  rcases h.rw with hop | hop <;> simp [hop]

/-- The client finds the answer of a session that has ended. -/
theorem resp_ended {responses : Nat → Response} {s : UsbBridge} {past : List Session} {q : Request}
    {os : List Outcome} (hidle : s.mdio.active = false) (hresp : q.resp = RESP)
    (h : Progress responses s.mdio (past ++ [⟨q, os⟩])) : s.resp = Session.answer ⟨q, os⟩ := by
  rw [resp, (h.idle hidle).2, settle_concat, ← hresp]
  exact Function.update_self _ _ _

theorem resp_open {responses : Nat → Response} {s : UsbBridge} {past : List Session} {q : Request}
    (hholds : Holds s.mdio q) (hresp : q.resp = RESP) (h : Progress responses s.mdio past) :
    s.resp.status = .pending := by
  obtain ⟨q', hq', hresponses, -⟩ := h.active hholds.active
  obtain rfl := hholds.unique hq'
  rw [resp, hresponses, ← hresp, Function.update_self]

theorem flatMap_exchanges_answer {pre post : List Account} {c cur : Command} {answers : List Response}
    (hcur : c.ops[answers.length]? = some cur) (hquiet : ∀ a ∈ post, a.exchanges = []) (a : Response) :
    (pre ++ .served c (answers ++ [a]) :: post).flatMap Account.exchanges =
      (pre ++ .served c answers :: post).flatMap Account.exchanges ++ [(cur.request, a)] := by
  have hpost : post.flatMap Account.exchanges = [] := List.flatMap_eq_nil_iff.mpr hquiet
  simp [Account.exchanges_answer hcur, hpost]

/-- The master has answered: the reply goes out, and a print goes on. -/
theorem Books.answered {responses : Nat → Response} {past : List Session} {s : UsbBridge}
    {pre post : List Account} {c cur : Command} {answers : List Response} {os : List Outcome}
    (howner : s.owner = pre.length) (hsettled : ∀ a ∈ pre ++ post, a.Settled)
    (hquiet : ∀ a ∈ post, a.exchanges = []) (hactive : Serving s c answers.length cur)
    (hidle : s.mdio.active = false)
    (hprogress : Progress responses s.mdio (past ++ [⟨cur.request, os⟩]))
    (hexch : past.map Session.exchange = (pre ++ .served c answers :: post).flatMap Account.exchanges)
    (hposted : Posted (pre ++ .served c answers :: post) s) :
    Books responses (pre ++ .served c (answers ++ [s.resp]) :: post) (past ++ [⟨cur.request, os⟩])
        s.pollResponse ∧
      Posted (pre ++ .served c (answers ++ [s.resp]) :: post) s.pollResponse := by
  have hresp := resp_ended hidle (request_resp cur) hprogress
  have hstatus : s.resp.status ≠ .pending := by
    have hended := (hprogress.ended _ (List.mem_append_right _ (List.mem_singleton_self _))).status
    rw [← hresp] at hended
    rcases hended with h | h | h <;> rw [h] <;> decide
  have hlt : answers.length < c.ops.length := (List.getElem?_eq_some_iff.mp hactive.next).1
  have hexch' : (past ++ [(⟨cur.request, os⟩ : Session)]).map Session.exchange =
      (pre ++ .served c (answers ++ [s.resp]) :: post).flatMap Account.exchanges := by
    rw [flatMap_exchanges_answer hactive.next hquiet, ← hexch, List.map_append, hresp]
    rfl
  have hout : s.out ++ [(s.owner, s.activeResponse)] =
      s.out ++ [(pre.length, cur.answered s.resp)] := by
    rw [howner, hactive.activeResponse]
  -- with its last answer the account is settled, and it was the only open one
  have hdone : answers.length + 1 = c.ops.length →
      ∀ a ∈ pre ++ .served c (answers ++ [s.resp]) :: post, a.Settled := by
    intro hlen a ha
    rcases List.mem_append.mp ha with ha | ha
    · exact hsettled a (List.mem_append_left _ ha)
    rcases List.mem_cons.mp ha with rfl | ha
    · rw [Account.Settled, List.length_append, List.length_singleton, hlen]
    · exact hsettled a (List.mem_append_right _ ha)
  rw [pollResponse_answered hactive.pending hstatus, respond_frame, hout]
  by_cases hprint : c.op = .print
  · obtain ⟨hprinting, hphy, hnext⟩ := hactive.print hprint
    have hlen : c.ops.length = 32 := by rw [ops_of_print hprint, List.length_map, List.length_range]
    rw [if_pos hprinting]
    by_cases hmore : answers.length + 1 < 32
    · -- the next register is asked for at once
      have hreg : s.printNextReg < 32 := by
        rw [hnext, UInt8.lt_iff_toNat_lt, UInt8.toNat_ofNat', Nat.mod_eq_of_lt (by omega)]
        exact hmore
      have hcur := getElem?_ops_print hprint hmore
      rw [← hnext, ← hphy] at hcur
      have hsucc : s.printNextReg + 1 = UInt8.ofNat (answers.length + 1 + 1) := by
        rw [hnext, UInt8.ofNat_add (answers.length + 1) 1]
        rfl
      rw [continuePrint_next]
      · refine ⟨.serving pre post c (printRead s.printPhy s.printNextReg) (answers ++ [s.resp]) rfl howner
          hsettled hquiet ?_ (advanced_submit hprogress hidle _) hexch', hposted.answer hactive.next rfl rfl⟩
        rw [List.length_append]
        exact ⟨hcur, .inl rfl, rfl, rfl, rfl, fun _ => ⟨hprinting, hphy, hsucc⟩, fun hne => absurd hprint hne⟩
      · exact hidle
      · exact hreg
    · have hreg : ¬ s.printNextReg < 32 := by
        rw [hnext, UInt8.lt_iff_toNat_lt, UInt8.toNat_ofNat', Nat.mod_eq_of_lt (by omega)]
        exact hmore
      rw [continuePrint_end]
      · exact ⟨.idle rfl rfl hidle hprogress (hdone (by omega)) hexch',
          hposted.answer hactive.next rfl rfl⟩
      · exact hreg
  · have halone := hactive.alone hprint
    have hlen : c.ops.length = 1 := by rw [ops_of_single hprint]; rfl
    rw [if_neg (by simp [halone])]
    exact ⟨.idle rfl halone hidle hprogress (hdone (by omega)) hexch', hposted.answer hactive.next rfl rfl⟩

variable {responses : Nat → Response} {cmds : List (Option Command)} {s : UsbBridge}

theorem pollResponse_idle (hpending : s.pending = false) (hprint : s.printActive = false) :
    s.pollResponse = s := by
  simp only [pollResponse, hpending]
  simp [hprint]

theorem Balanced.pollResponse (h : Balanced responses cmds s) :
    Balanced responses cmds s.pollResponse := by
  obtain ⟨accts, past, hbooks, hposted, hcmds⟩ := h
  cases hbooks with
  | idle hpending hprint hmaster hprogress hsettled hexch =>
    rw [pollResponse_idle hpending hprint]
    exact ⟨accts, past, .idle hpending hprint hmaster hprogress hsettled hexch, hposted, hcmds⟩
  | serving pre post c cur answers hsplit howner hsettled hquiet hactive hmaster hexch =>
    cases hmaster with
    | opened hholds hprogress =>
      have hwait := resp_open hholds (request_resp cur) hprogress
      have hstay : s.pollResponse = s := by
        simp only [UsbBridge.pollResponse, hwait]
        simp [hactive.pending]
      rw [hstay]
      exact ⟨accts, past, .serving pre post c cur answers hsplit howner hsettled hquiet hactive
        (.opened hholds hprogress) hexch, hposted, hcmds⟩
    | ended os hidle hprogress =>
      subst hsplit
      obtain ⟨hbooks, hposted⟩ := Books.answered howner hsettled hquiet hactive hidle hprogress hexch hposted
      refine ⟨_, _, hbooks, hposted, ?_⟩
      rw [← hcmds]
      simp [Account.command?]

/-! ## Lines -/

/-- The fields the books are about are the same. -/
structure Untouched (s s' : UsbBridge) : Prop where
  mdio : s'.mdio = s.mdio
  pending : s'.pending = s.pending
  activeOp : s'.activeOp = s.activeOp
  activePath : s'.activePath = s.activePath
  printActive : s'.printActive = s.printActive
  printPhy : s'.printPhy = s.printPhy
  printNextReg : s'.printNextReg = s.printNextReg
  owner : s'.owner = s.owner

variable {accts : List Account} {past : List Session} {s' : UsbBridge}

theorem Books.untouched (h : Books responses accts past s) (hsame : Untouched s s') :
    Books responses accts past s' := by
  obtain ⟨hmdio, hpending, hop, hpath, hprint, hphy, hreg, howner⟩ := hsame
  cases h with
  | idle hpending' hprint' hmaster hprogress hsettled hexch =>
    exact .idle (hpending.trans hpending') (hprint.trans hprint') (hmdio ▸ hmaster) (hmdio ▸ hprogress)
      hsettled hexch
  | serving pre post c cur answers hsplit howner' hsettled hquiet hactive hmaster hexch =>
    obtain ⟨hnext, hrw, hpending', hop', hpath', hprint', halone'⟩ := hactive
    refine .serving pre post c cur answers hsplit (howner.trans howner') hsettled hquiet
      ⟨hnext, hrw, hpending.trans hpending', hop.trans hop', hpath.trans hpath', fun hp => ?_, fun hp => ?_⟩
      (hmdio ▸ hmaster) hexch
    · obtain ⟨h1, h2, h3⟩ := hprint' hp
      exact ⟨hprint.trans h1, hphy.trans h2, hreg.trans h3⟩
    · exact hprint.trans (halone' hp)

/-- A line that asks for nothing changes nothing about what is in progress. -/
theorem Books.concat (h : Books responses accts past s) {a : Account} (hsettled : a.Settled)
    (hquiet : a.exchanges = []) : Books responses (accts ++ [a]) past s := by
  have hsum : (accts ++ [a]).flatMap Account.exchanges = accts.flatMap Account.exchanges := by
    simp [hquiet]
  cases h with
  | idle hpending hprint hmaster hprogress hall hexch =>
    refine .idle hpending hprint hmaster hprogress ?_ (hexch.trans hsum.symm)
    exact List.forall_mem_append.mpr ⟨hall, List.forall_mem_singleton.mpr hsettled⟩
  | serving pre post c cur answers hsplit howner hall hquiet' hactive hmaster hexch =>
    refine .serving pre (post ++ [a]) c cur answers (by rw [hsplit]; simp) howner ?_ ?_ hactive hmaster
      (hexch.trans hsum.symm)
    · rw [← List.append_assoc]
      exact List.forall_mem_append.mpr ⟨hall, List.forall_mem_singleton.mpr hsettled⟩
    · exact List.forall_mem_append.mpr ⟨hquiet', List.forall_mem_singleton.mpr hquiet⟩

/-- The buffer is none of the books' business. -/
theorem Balanced.untouched (h : Balanced responses cmds s) (hsame : Untouched s s') (hout : s'.out = s.out)
    (hline : s'.lineNo = s.lineNo) : Balanced responses cmds s' := by
  obtain ⟨accts, past, hbooks, hposted, hcmds⟩ := h
  refine ⟨accts, past, hbooks.untouched hsame, ⟨hposted.count.trans hline.symm, fun n => ?_⟩, hcmds⟩
  rw [← hposted.replies, repliesTo, hout]
  rfl

/-- A new line that is dealt with at once. -/
theorem Balanced.concat (h : Balanced responses cmds s) (hsame : Untouched s s') {a : Account}
    (hsettled : a.Settled) (hquiet : a.exchanges = [])
    (hout : s'.out = s.out ++ a.replies.map (s.lineNo, ·)) (hline : s'.lineNo = s.lineNo + 1) :
    Balanced responses (cmds ++ [a.command?]) s' := by
  obtain ⟨accts, past, hbooks, hposted, hcmds⟩ := h
  exact ⟨_, past, (hbooks.concat hsettled hquiet).untouched hsame, hposted.concat a hout hline, by simp [hcmds]⟩

theorem emitPrintBusy_eq (s : UsbBridge) (phy : UInt8) :
    s.emitPrintBusy phy =
      { s with out := s.out ++ (List.range 32).map fun reg =>
          (s.lineNo, busy (printRead phy (UInt8.ofNat reg))) } := by
  have key : ∀ (regs : List Nat) (s : UsbBridge),
      regs.foldl (fun s reg => s.printf s.lineNo (busy (printRead phy (UInt8.ofNat reg)))) s =
        { s with out := s.out ++ regs.map fun reg =>
            (s.lineNo, busy (printRead phy (UInt8.ofNat reg))) } := by
    intro regs
    induction regs with
    | nil => intro s; simp
    | cons reg regs ih =>
      intro s
      rw [List.foldl_cons, ih]
      simp [printf]
  exact key _ s

/-- The state behind a line. -/
def behind (s : UsbBridge) : UsbBridge := { s with buffer := s.buffer.clear, lineNo := s.lineNo + 1 }

/-- The bridge takes on a command. -/
theorem Balanced.accept {accts : List Account} {past : List Session} (hposted : Posted accts s)
    (hidle : s.mdio.active = false) (hprogress : Progress responses s.mdio past)
    (hsettled : ∀ a ∈ accts, a.Settled)
    (hexch : past.map Session.exchange = accts.flatMap Account.exchanges) {c : Command} (cur : Command)
    (hmdio : s'.mdio = (s.mdio.submit cur.request).2)
    (hactive : Serving s' c 0 cur) (howner : s'.owner = s.lineNo) (hout : s'.out = s.out)
    (hline : s'.lineNo = s.lineNo + 1) :
    Balanced responses (accts.map Account.command? ++ [some c]) s' := by
  have hquiet : (Account.served c []).exchanges = [] := List.zip_nil_right
  refine ⟨accts ++ [.served c []], past, .serving accts [] c cur [] rfl (howner.trans hposted.count.symm)
    (by simpa using hsettled) (by simp) hactive ?_ (by simp [hexch, hquiet]), ?_, by simp [Account.command?]⟩
  · rw [hmdio]
    exact advanced_submit hprogress hidle _
  · refine hposted.concat _ ?_ hline
    rw [hout]
    simp [Account.replies]

theorem Balanced.invalid (h : Balanced responses cmds s) :
    Balanced responses (cmds ++ [none]) s.emitInvalid.behind := by
  have hsame : Untouched s s.emitInvalid.behind := ⟨rfl, rfl, rfl, rfl, rfl, rfl, rfl, rfl⟩
  exact h.concat (a := .invalid) hsame trivial rfl rfl rfl

/-- A command that finds another in progress. -/
theorem Balanced.refuse (h : Balanced responses cmds s) (c : Command)
    (hout : s'.out = s.out ++ c.ops.map fun op => (s.lineNo, busy op)) (hsame : Untouched s s')
    (hline : s'.lineNo = s.lineNo + 1) : Balanced responses (cmds ++ [some c]) s' := by
  refine h.concat (a := .refused c) hsame trivial rfl ?_ hline
  rw [hout, Account.replies, List.map_map]
  rfl

/-- A read or a write, with what its `start` does on a free master. -/
theorem Balanced.handleSingle (h : Balanced responses cmds s) {c : Command}
    (hop : c.op = .read ∨ c.op = .write) {start : UsbBridge → Command → Bool × UsbBridge}
    (hstart : ∀ {t : UsbBridge}, t.mdio.active = false → start t c =
      (true, { t with
        mdio := (t.mdio.submit c.request).2, pending := true, activeOp := c.op, activePath := c.path })) :
    Balanced responses (cmds ++ [some c]) (s.handleSingle c start).behind := by
  have hnot : c.op ≠ .print := by
    rintro heq
    rcases hop with h | h <;> exact absurd (h.symm.trans heq) (by decide)
  have hops := ops_of_single hnot
  by_cases hbusy : s.printActive ∨ s.pending
  · rw [UsbBridge.handleSingle, if_pos hbusy]
    refine h.refuse c ?_ ⟨rfl, rfl, rfl, rfl, rfl, rfl, rfl, rfl⟩ rfl
    rw [hops]
    rfl
  · obtain ⟨accts, past, hbooks, hposted, rfl⟩ := h
    cases hbooks with
    | serving pre post c' cur answers hsplit howner hsettled hquiet hactive hmaster hexch =>
      exact absurd (.inr hactive.pending) hbusy
    | idle hpending hprint hmaster hprogress hsettled hexch =>
      rw [UsbBridge.handleSingle, if_neg hbusy, hstart hmaster]
      refine .accept hposted hmaster hprogress hsettled hexch c rfl ?_ rfl rfl rfl
      exact ⟨by rw [hops]; rfl, hop, rfl, rfl, rfl, fun hp => absurd hp hnot, fun _ => hprint⟩

theorem Balanced.handlePrint (h : Balanced responses cmds s) {c : Command} (hop : c.op = .print) :
    Balanced responses (cmds ++ [some c]) (s.handlePrint c).behind := by
  have hops := ops_of_print hop
  by_cases hbusy : s.printActive ∨ s.pending
  · rw [UsbBridge.handlePrint, if_pos hbusy, emitPrintBusy_eq]
    refine h.refuse c ?_ ⟨rfl, rfl, rfl, rfl, rfl, rfl, rfl, rfl⟩ rfl
    rw [hops, List.map_map]
    rfl
  · obtain ⟨accts, past, hbooks, hposted, rfl⟩ := h
    cases hbooks with
    | serving pre post c' cur answers hsplit howner hsettled hquiet hactive hmaster hexch =>
      exact absurd (.inr hactive.pending) hbusy
    | idle hpending hprint hmaster hprogress hsettled hexch =>
      rw [UsbBridge.handlePrint, if_neg hbusy]
      simp only
      rw [startRead_idle (by exact hmaster) rfl]
      refine .accept hposted hmaster hprogress hsettled hexch (printRead c.phy 0) rfl ?_ rfl rfl rfl
      exact ⟨getElem?_ops_print hop (by decide), .inl rfl, rfl, rfl, rfl, fun _ => ⟨rfl, rfl, rfl⟩,
        fun hne => absurd hop hne⟩

/-- A line that fits is taken for its command. -/
theorem Balanced.handleLine (h : Balanced responses cmds s) {line : List UInt8} (hfits : line.length ≤ 48) :
    Balanced responses (cmds ++ [command? line]) (s.handleLine line).behind := by
  rw [command?, if_pos hfits, UsbBridge.handleLine]
  cases hparse : parse? line with
  | none =>
    have hdefault : parse line = {} := by rw [parse_eq, hparse]; rfl
    rw [hdefault]
    exact h.invalid
  | some c =>
    have hcommand : parse line = c := by rw [parse_eq, hparse]; rfl
    obtain ⟨hvalid, hop⟩ := parse?_valid hparse
    rw [hcommand]
    simp only [hvalid, not_true_eq_false, if_false]
    cases hc : c.op with
    | none => exact absurd hc hop
    | read => exact h.handleSingle (.inl hc) fun hidle => startRead_idle hidle hc
    | write => exact h.handleSingle (.inr hc) fun hidle => startWrite_idle hidle hc
    | print => exact h.handlePrint hc

theorem startRead_buffer (s : UsbBridge) (c : Command) : (s.startRead c).2.buffer = s.buffer := by
  rw [startRead]
  dsimp only
  split <;> split <;> rfl

theorem startWrite_buffer (s : UsbBridge) (c : Command) : (s.startWrite c).2.buffer = s.buffer := by
  rw [startWrite]
  dsimp only
  split <;> split <;> rfl

theorem handleSingle_buffer (s : UsbBridge) (c : Command) {start : UsbBridge → Command → Bool × UsbBridge}
    (hstart : (start s c).2.buffer = s.buffer) : (s.handleSingle c start).buffer = s.buffer := by
  rw [handleSingle]
  split
  · rfl
  · rcases hs : start s c with ⟨started, t⟩
    rw [hs] at hstart
    cases started <;> exact hstart

theorem handlePrint_buffer (s : UsbBridge) (c : Command) : (s.handlePrint c).buffer = s.buffer := by
  rw [handlePrint]
  split
  · rw [emitPrintBusy_eq]
    rfl
  · dsimp only
    have hstart := startRead_buffer
      { s with printActive := true, printAllOk := true, printPhy := c.phy, printNextReg := 0 }.blinkOk
      (printRead c.phy 0)
    split
    · exact hstart
    · rw [emitPrintBusy_eq]
      exact hstart

theorem continuePrint_buffer (s : UsbBridge) : s.continuePrint.buffer = s.buffer := by
  rw [continuePrint]
  split
  · have hstart := startRead_buffer s (printRead s.printPhy s.printNextReg)
    rcases hs : s.startRead (printRead s.printPhy s.printNextReg) with ⟨started, t⟩
    rw [hs] at hstart
    cases started <;> exact hstart
  · split <;> rfl

theorem pollResponse_buffer (s : UsbBridge) : s.pollResponse.buffer = s.buffer := by
  have hrespond : s.respond.buffer = s.buffer := by rw [respond_frame]
  by_cases hanswered : s.pending ∧ s.resp.status ≠ .pending
  · simp only [UsbBridge.pollResponse, if_pos hanswered]
    split
    · exact hrespond
    · rw [continuePrint_buffer, hrespond]
  · simp only [UsbBridge.pollResponse, if_neg hanswered]
    split
    · rfl
    · exact continuePrint_buffer s

/-- A line is handled while its bytes are still in the buffer. -/
theorem handleLine_buffer (s : UsbBridge) (line : List UInt8) : (s.handleLine line).buffer = s.buffer := by
  rw [handleLine]
  split
  · rfl
  · split
    · exact handleSingle_buffer s _ (startRead_buffer s _)
    · exact handleSingle_buffer s _ (startWrite_buffer s _)
    · exact handlePrint_buffer s _
    · rfl

/-! ## Runs -/

/-- The buffer follows the open line. -/
theorem Buffers.pollByte {l : Lines} (h : Buffers s.buffer l.rest) (b : UInt8) :
    Buffers (s.pollByte b).buffer (l.feed (.byte b)).rest := by
  by_cases hb : isEnd b = true
  · rw [Lines.feed, if_pos hb]
    rcases h.end hb with ⟨hempty, hpush⟩ | ⟨hne, -, hkeep, -, hpush⟩ | ⟨hlong, hpush⟩
    · rw [if_pos hempty, UsbBridge.pollByte, hpush]
      exact h
    · rw [if_neg hne, UsbBridge.pollByte, hpush]
      refine .held ?_ rfl
      change (s.handleLine s.buffer.line).buffer.discardLine = false
      rw [handleLine_buffer]
      exact hkeep
    · have hne : l.rest ≠ [] := List.ne_nil_of_length_pos (Nat.zero_lt_of_lt hlong)
      rw [if_neg hne, UsbBridge.pollByte, hpush]
      exact buffers_empty
  · obtain ⟨l', hpush, hbuffers⟩ := h.push (Bool.not_eq_true _ ▸ hb)
    rw [Lines.feed, if_neg hb, UsbBridge.pollByte, hpush]
    exact hbuffers

/-- The books of the lines read so far, and the open line in the buffer. -/
structure Reads (responses : Nat → Response) (l : Lines) (s : UsbBridge) : Prop where
  balanced : Balanced responses (l.ended.map command?) s
  buffers : Buffers s.buffer l.rest

theorem Reads.pollByte {l : Lines} (h : Reads responses l s) (b : UInt8) :
    Reads responses (l.feed (.byte b)) (s.pollByte b) := by
  obtain ⟨hbalanced, hbuffers⟩ := h
  refine ⟨?_, hbuffers.pollByte b⟩
  by_cases hb : isEnd b = true
  · rw [Lines.feed, if_pos hb]
    rcases hbuffers.end hb with ⟨hempty, hpush⟩ | ⟨hne, hfits, -, hline, hpush⟩ | ⟨hlong, hpush⟩
    · rw [if_pos hempty, UsbBridge.pollByte, hpush]
      exact hbalanced
    · have hstep : s.pollByte b = (s.handleLine l.rest).behind := by
        rw [UsbBridge.pollByte, hpush, ← hline]
        rfl
      rw [if_neg hne, hstep, List.map_append]
      exact hbalanced.handleLine hfits
    · have hstep : s.pollByte b = { s.emitInvalid.behind with buffer := .empty } := by
        rw [UsbBridge.pollByte, hpush]
        rfl
      have hne : l.rest ≠ [] := List.ne_nil_of_length_pos (Nat.zero_lt_of_lt hlong)
      have hcommand : command? l.rest = none := if_neg (by omega)
      rw [if_neg hne, hstep, List.map_append, List.map_singleton, hcommand]
      exact hbalanced.invalid.untouched ⟨rfl, rfl, rfl, rfl, rfl, rfl, rfl, rfl⟩ rfl rfl
  · obtain ⟨l', hpush, -⟩ := hbuffers.push (Bool.not_eq_true _ ▸ hb)
    rw [Lines.feed, if_neg hb, UsbBridge.pollByte, hpush]
    exact hbalanced.untouched ⟨rfl, rfl, rfl, rfl, rfl, rfl, rfl, rfl⟩ rfl rfl

theorem Reads.pollCommand {l : Lines} (h : Reads responses l s) (bytes : List UInt8) :
    Reads responses ((bytes.map .byte).foldl Lines.feed l) (s.pollCommand bytes) := by
  induction bytes generalizing l s with
  | nil => exact h
  | cons b bytes ih => exact ih (h.pollByte b)

/-- One step of the main loop. -/
theorem Reads.event {l : Lines} (h : Reads responses l s) (e : Event) :
    Reads responses (e.inputs.foldl Lines.feed l) (s.event e) := by
  cases e with
  | master nowMs r =>
    obtain ⟨⟨accts, past, hbooks, hposted, hcmds⟩, hbuffers⟩ := h
    obtain ⟨past', hbooks'⟩ := hbooks.master nowMs r
    exact ⟨⟨accts, past', hbooks', ⟨hposted.count, hposted.replies⟩, hcmds⟩, hbuffers⟩
  | bridge session bytes =>
    have hpoll : ∀ {l : Lines} {s : UsbBridge}, Reads responses l s → Reads responses l s.pollResponse := by
      intro l s h
      exact ⟨h.balanced.pollResponse, (pollResponse_buffer s).symm ▸ h.buffers⟩
    cases session with
    | false => exact (hpoll h).pollCommand bytes
    | true =>
      have hreset : Reads responses (l.feed .session) s.resetCommandLine :=
        ⟨h.balanced.untouched ⟨rfl, rfl, rfl, rfl, rfl, rfl, rfl, rfl⟩ rfl rfl, buffers_empty⟩
      exact (hpoll hreset).pollCommand bytes

theorem reads_run (responses : Nat → Response) (led : Option (List (Nat × Nat))) (evs : List Event) :
    Reads responses ((evs.flatMap Event.inputs).foldl Lines.feed {}) (run event (start responses led) evs) := by
  have key : ∀ (evs : List Event) {l : Lines} {s : UsbBridge}, Reads responses l s →
      Reads responses ((evs.flatMap Event.inputs).foldl Lines.feed l) (run event s evs) := by
    intro evs
    induction evs with
    | nil => intro l s h; exact h
    | cons e evs ih =>
      intro l s h
      rw [List.flatMap_cons, List.foldl_append, run_cons]
      exact ih (h.event e)
  refine key evs ⟨⟨[], [], ?_, ⟨rfl, fun _ => rfl⟩, rfl⟩, buffers_empty⟩
  exact .idle rfl rfl rfl (progress_begin responses) (by simp) rfl

/-- The requests the master accepted, in order. -/
def accepted (log : List Entry) : List Request :=
  log.filterMap fun
    | .accepted q => some q
    | _ => none

def Idle (s : UsbBridge) : Prop := s.pending = false ∧ s.printActive = false

/-- The replies to a command: all its operations refused, or its first operations
answered. -/
inductive Replied (c : Command) (replies : List Reply) : Prop
  | refused (h : replies = c.ops.map busy)
  | served (answers : List Response) (most : answers.length ≤ c.ops.length)
      (results : ∀ a ∈ answers, a.status = .done ∨ a.status = .noResp ∨ a.status = .timeout)
      (h : replies = List.zipWith Command.answered c.ops answers)

/-- The replies to the lines of a run, and what the master did for them. -/
structure RepliesOnce (responses : Nat → Response) (lines : List (List UInt8)) (s : UsbBridge) : Prop where
  /-- No reply to a line that has not come. -/
  tagged : ∀ e ∈ s.out, e.1 < lines.length
  invalid : ∀ n line, lines[n]? = some line → command? line = none → s.repliesTo n = [.invalid]
  valid : ∀ n line c, lines[n]? = some line → command? line = some c → Replied c (s.repliesTo n)
  /-- Once the bridge is idle, each operation has had its reply. -/
  complete : s.Idle → ∀ n line c, lines[n]? = some line → command? line = some c →
    (s.repliesTo n).length = c.ops.length
  /-- One command at most waits for replies. -/
  single : ∀ n line c, lines[n]? = some line → command? line = some c →
    (s.repliesTo n).length < c.ops.length → s.owner = n
  /-- The requests of the master are those of the commands it served, in order,
  and their replies are the answers of its sessions; refused commands have none. -/
  bus : ∃ (accts : List Account) (past : List Session),
    accts.map Account.command? = lines.map command? ∧
    (∀ n a, accts[n]? = some a → s.repliesTo n = a.replies) ∧
    History responses s.mdio past ∧
    accts.flatMap Account.exchanges <+: past.map Session.exchange ∧
    ∃ open? : Option Request,
      accepted s.mdio.log = (accts.flatMap Account.exchanges).map Prod.fst ++ open?.toList ∧
      ∀ q ∈ open?, ∃ c answers cur, accts[s.owner]? = some (.served c answers) ∧
        c.ops[answers.length]? = some cur ∧ q = cur.request

theorem accepted_append (xs ys : List Entry) : accepted (xs ++ ys) = accepted xs ++ accepted ys :=
  List.filterMap_append

theorem accepted_steps (isRead : Bool) (ts : List Transaction) (os : List Outcome) :
    accepted (steps isRead ts os) = [] := by
  induction ts generalizing os with
  | nil => rfl
  | cons t ts ih =>
    cases os with
    | nil => rfl
    | cons o os =>
      rw [steps]
      split
      · exact ih os
      · rfl

theorem accepted_session (p : Session) : accepted p.log = [p.request] :=
  congrArg (p.request :: ·) (accepted_steps _ _ _)

theorem accepted_sessions (past : List Session) :
    accepted (past.flatMap Session.log) = past.map Session.request := by
  induction past with
  | nil => rfl
  | cons p past ih => rw [List.flatMap_cons, accepted_append, accepted_session, ih]; rfl

/-- The requests accepted are those of the sessions, and the one that is open. -/
theorem accepted_advanced {responses : Nat → Response} {m : Master} {past : List Session} {q : Request}
    (h : Advanced responses m past q) : accepted m.log = past.map Session.request ++ [q] := by
  cases h with
  | ended os hidle hprogress =>
    rw [(hprogress.idle hidle).1, accepted_sessions, List.map_append]
    rfl
  | opened hholds hprogress =>
    obtain ⟨q', hq', -, hwhere⟩ := hprogress.active hholds.active
    obtain rfl := hholds.unique hq'
    rcases hwhere with ⟨-, -, hlog⟩ | ⟨os, -, hbus⟩
    · rw [hlog, accepted_append, accepted_sessions]
      rfl
    · rw [hbus.log, accepted_append, accepted_sessions, accepted_session]

/-- Every answer in the books is that of a session. -/
theorem answer_status {accts : List Account} {past : List Session}
    (hpast : ∀ p ∈ past, p.Ended)
    (hexch : past.map Session.exchange = accts.flatMap Account.exchanges) {c : Command}
    {answers : List Response} (hmem : .served c answers ∈ accts) (hmost : answers.length ≤ c.ops.length)
    {a : Response} (ha : a ∈ answers) :
    a.status = .done ∨ a.status = .noResp ∨ a.status = .timeout := by
  have hsnd : ((c.ops.map Command.request).zip answers).map Prod.snd = answers :=
    List.map_snd_zip (by simpa using hmost)
  rw [← hsnd] at ha
  obtain ⟨e, he, rfl⟩ := List.mem_map.mp ha
  have hin : e ∈ accts.flatMap Account.exchanges := List.mem_flatMap.mpr ⟨_, hmem, he⟩
  rw [← hexch] at hin
  obtain ⟨p, hp, rfl⟩ := List.mem_map.mp hin
  exact (hpast p hp).status

theorem Posted.tagged (h : Posted accts s) {e : Nat × Reply} (he : e ∈ s.out) : e.1 < accts.length := by
  by_contra hout
  have hmem : e.2 ∈ s.repliesTo e.1 := List.mem_filterMap.mpr ⟨e, he, if_pos rfl⟩
  rw [h.replies, List.getElem?_eq_none (by omega)] at hmem
  cases hmem

theorem Posted.repliesTo_eq (h : Posted accts s) {n : Nat} {a : Account} (ha : accts[n]? = some a) :
    s.repliesTo n = a.replies := by
  rw [h.replies, ha]
  rfl

/-- An account has at most as many answers as its command has operations. -/
theorem Books.most (h : Books responses accts past s) {c : Command} {answers : List Response}
    (hmem : .served c answers ∈ accts) : answers.length ≤ c.ops.length := by
  cases h with
  | idle hpending hprint hmaster hprogress hsettled hexch => exact (hsettled _ hmem).le
  | serving pre post c' cur answers' hsplit howner hsettled hquiet hactive hmaster hexch =>
    rw [hsplit] at hmem
    rcases List.mem_append.mp hmem with hmem | hmem
    · exact (hsettled _ (List.mem_append_left _ hmem)).le
    rcases List.mem_cons.mp hmem with heq | hmem
    · obtain ⟨rfl, rfl⟩ : c = c' ∧ answers = answers' := by simpa using heq
      exact (List.getElem?_eq_some_iff.mp hactive.next).1.le
    · exact (hsettled _ (List.mem_append_right _ hmem)).le

/-- What is not settled is the command in progress. -/
theorem Books.settled (h : Books responses accts past s) {n : Nat} {a : Account} (ha : accts[n]? = some a) :
    a.Settled ∨ s.pending = true ∧ s.owner = n := by
  cases h with
  | idle hpending hprint hmaster hprogress hsettled hexch =>
    exact .inl (hsettled _ (List.mem_of_getElem? ha))
  | serving pre post c cur answers hsplit howner hsettled hquiet hactive hmaster hexch =>
    by_cases hn : n = pre.length
    · exact .inr ⟨hactive.pending, howner.trans hn.symm⟩
    · refine .inl (hsettled a ?_)
      rw [hsplit] at ha
      rcases Nat.lt_or_gt_of_ne hn with hlt | hgt
      · rw [List.getElem?_append_left hlt] at ha
        exact List.mem_append_left _ (List.mem_of_getElem? ha)
      · obtain ⟨k, rfl⟩ : ∃ k, n = pre.length + (k + 1) := ⟨n - pre.length - 1, by omega⟩
        rw [List.getElem?_append_right (Nat.le_add_right _ _), Nat.add_sub_cancel_left,
          List.getElem?_cons_succ] at ha
        exact List.mem_append_right _ (List.mem_of_getElem? ha)

theorem Books.history (h : Books responses accts past s) :
    ∃ past, History responses s.mdio past ∧ accts.flatMap Account.exchanges <+: past.map Session.exchange ∧
      ∃ open? : Option Request,
        accepted s.mdio.log = (accts.flatMap Account.exchanges).map Prod.fst ++ open?.toList ∧
        ∀ q ∈ open?, ∃ c answers cur, accts[s.owner]? = some (.served c answers) ∧
          c.ops[answers.length]? = some cur ∧ q = cur.request := by
  have hreq : ∀ past : List Session, (past.map Session.exchange).map Prod.fst = past.map Session.request :=
    fun past => List.map_map
  cases h with
  | idle hpending hprint hmaster hprogress hsettled hexch =>
    refine ⟨past, hprogress.history, hexch ▸ List.prefix_rfl, none, ?_, nofun⟩
    rw [(hprogress.idle hmaster).1, accepted_sessions, ← hexch, hreq]
    simp
  | serving pre post c cur answers hsplit howner hsettled hquiet hactive hmaster hexch =>
    have hserved : accts[s.owner]? = some (.served c answers) := by
      rw [hsplit, howner]
      simp
    have haccepted := accepted_advanced hmaster
    have hopen : ∀ q ∈ some cur.request, ∃ c answers cur, accts[s.owner]? = some (.served c answers) ∧
        c.ops[answers.length]? = some cur ∧ q = cur.request := by
      intro q hq
      exact ⟨c, answers, cur, hserved, hactive.next, (Option.mem_some.mp hq).symm⟩
    rw [← hexch, hreq]
    cases hmaster with
    | opened hholds hprogress =>
      exact ⟨past, hprogress.history, List.prefix_rfl, some cur.request, haccepted, hopen⟩
    | ended os hidle hprogress =>
      refine ⟨_, hprogress.history, ?_, some cur.request, haccepted, hopen⟩
      rw [List.map_append]
      exact List.prefix_append _ _

theorem RepliesOnce.of_books {lines : List (List UInt8)} (h : Books responses accts past s)
    (hposted : Posted accts s) (hcmds : accts.map Account.command? = lines.map command?) :
    RepliesOnce responses lines s := by
  have hlen : accts.length = lines.length := by
    simpa using congrArg List.length hcmds
  -- lines and accounts stand one to one, by the commands they were taken for
  have haccount : ∀ (n : Nat) line, lines[n]? = some line →
      ∃ a : Account, accts[n]? = some a ∧ a.command? = command? line := by
    intro n line hline
    have hget : (accts.map Account.command?)[n]? = some (command? line) := by
      rw [hcmds, List.getElem?_map, hline]
      rfl
    rw [List.getElem?_map, Option.map_eq_some_iff] at hget
    exact hget
  have hpast : ∀ p ∈ past, p.Ended := by
    cases h with
    | idle hpending hprint hmaster hprogress hsettled hexch => exact hprogress.ended
    | serving pre post c cur answers hsplit howner hsettled hquiet hactive hmaster hexch =>
      cases hmaster with
      | opened hholds hprogress => exact hprogress.ended
      | ended os hidle hprogress => exact fun p hp => hprogress.ended p (List.mem_append_left _ hp)
  have hexch : past.map Session.exchange = accts.flatMap Account.exchanges := by
    cases h with
    | idle hpending hprint hmaster hprogress hsettled hexch => exact hexch
    | serving pre post c cur answers hsplit howner hsettled hquiet hactive hmaster hexch => exact hexch
  -- tags, lines that are no command, commands, an idle bridge, the open line, the history
  refine ⟨fun e he => hlen ▸ hposted.tagged he, ?_, ?_, ?_, ?_, ?_⟩
  · intro n line hline hnone
    obtain ⟨a, ha, hcmd⟩ := haccount n line hline
    rw [hnone] at hcmd
    rw [hposted.repliesTo_eq ha]
    cases a with
    | invalid => rfl
    | refused c => cases hcmd
    | served c answers => cases hcmd
  · intro n line c hline hsome
    obtain ⟨a, ha, hcmd⟩ := haccount n line hline
    rw [hsome] at hcmd
    rw [hposted.repliesTo_eq ha]
    have hmem := List.mem_of_getElem? ha
    cases a with
    | invalid => cases hcmd
    | refused c' =>
      obtain rfl := Option.some_inj.mp hcmd
      exact .refused rfl
    | served c' answers =>
      obtain rfl := Option.some_inj.mp hcmd
      exact .served answers (h.most hmem) (fun a => answer_status hpast hexch hmem (h.most hmem)) rfl
  · intro hidle n line c hline hsome
    obtain ⟨a, ha, hcmd⟩ := haccount n line hline
    rw [hposted.repliesTo_eq ha]
    rcases h.settled ha with hsettled | ⟨hpending, -⟩
    · rw [hsettled.length_replies, hcmd, hsome]
      rfl
    · exact absurd (hidle.1.symm.trans hpending) (by decide)
  · intro n line c hline hsome hshort
    obtain ⟨a, ha, hcmd⟩ := haccount n line hline
    rcases h.settled ha with hsettled | ⟨-, howner⟩
    · rw [hposted.repliesTo_eq ha, hsettled.length_replies, hcmd, hsome] at hshort
      exact absurd hshort (lt_irrefl _)
    · exact howner
  · obtain ⟨past', hhistory, hprefix, hopen⟩ := h.history
    exact ⟨accts, past', hcmds, fun n a ha => hposted.repliesTo_eq ha, hhistory, hprefix, hopen⟩

theorem repliesOnce_run (responses : Nat → Response) (led : Option (List (Nat × Nat))) (evs : List Event) :
    RepliesOnce responses (linesOf (evs.flatMap Event.inputs)) (run event (start responses led) evs) := by
  obtain ⟨⟨accts, past, hbooks, hposted, hcmds⟩, -⟩ := reads_run responses led evs
  exact .of_books hbooks hposted hcmds

/-- Every command line of every run is answered once, by its own operations. -/
theorem replies_once (responses : Nat → Response) (led : Option (List (Nat × Nat))) (evs : List Event) :
    RepliesOnce responses (linesOf (evs.flatMap Event.inputs)) (run event (start responses led) evs) :=
  repliesOnce_run responses led evs

/-! ## Every command is answered -/

/-- The answers a line still waits for. -/
def Account.missing : Account → Nat
  | invalid | refused _ => 0
  | served c answers => c.ops.length - answers.length

def missing (accts : List Account) : Nat := (accts.map Account.missing).sum

/-- The main loop goes on without new input: ticks of the master, and one of the bridge. -/
def Event.round (ticks : List Tick) : List Event :=
  ticks.map (fun t => .master t.1 t.2) ++ [.bridge false []]

theorem missing_settled (h : ∀ a ∈ accts, a.Settled) : missing accts = 0 := by
  refine List.sum_eq_zero fun n hn => ?_
  obtain ⟨a, ha, rfl⟩ := List.mem_map.mp hn
  cases a with
  | invalid | refused c => rfl
  | served c answers =>
    have hall : answers.length = c.ops.length := h _ ha
    rw [Account.missing, hall, Nat.sub_self]

/-- Only the command in progress waits for answers. -/
theorem missing_serving {pre post : List Account} {c : Command} {answers : List Response}
    (h : ∀ a ∈ pre ++ post, a.Settled) :
    missing (pre ++ .served c answers :: post) = c.ops.length - answers.length := by
  have hpre : missing pre = 0 := missing_settled fun a ha => h a (List.mem_append_left _ ha)
  have hpost : missing post = 0 := missing_settled fun a ha => h a (List.mem_append_right _ ha)
  rw [missing] at hpre hpost
  rw [missing, List.map_append, List.sum_append, List.map_cons, List.sum_cons, hpre, hpost,
    Account.missing, Nat.zero_add, Nat.add_zero]

theorem length_ops_le (c : Command) : c.ops.length ≤ 32 := by
  by_cases hop : c.op = .print
  · rw [ops_of_print hop, List.length_map, List.length_range]
  · rw [ops_of_single hop, List.length_singleton]
    decide

theorem Books.missing_le (h : Books responses accts past s) : missing accts ≤ 32 := by
  cases h with
  | idle hpending hprint hmaster hprogress hsettled hexch =>
    rw [missing_settled hsettled]
    exact Nat.zero_le _
  | serving pre post c cur answers hsplit howner hsettled hquiet hactive hmaster hexch =>
    rw [hsplit, missing_serving hsettled]
    exact (Nat.sub_le _ _).trans (length_ops_le c)

theorem Books.idle_of_missing (h : Books responses accts past s) (hnone : missing accts = 0) : s.Idle := by
  cases h with
  | idle hpending hprint hmaster hprogress hsettled hexch => exact ⟨hpending, hprint⟩
  | serving pre post c cur answers hsplit howner hsettled hquiet hactive hmaster hexch =>
    have hlt := (List.getElem?_eq_some_iff.mp hactive.next).1
    rw [hsplit, missing_serving hsettled] at hnone
    omega

theorem run_master (s : UsbBridge) (ticks : List Tick) :
    run event s (ticks.map fun t => .master t.1 t.2) =
      { s with mdio := run Master.event s.mdio (ticks.map Tick.event) } := by
  induction ticks generalizing s with
  | nil => rfl
  | cons t ticks ih => exact ih (s.event (.master t.1 t.2))

theorem Books.master_run (h : Books responses accts past s) (ticks : List Tick) :
    ∃ past', Books responses accts past' { s with mdio := run Master.event s.mdio (ticks.map Tick.event) } := by
  induction ticks generalizing s past with
  | nil => exact ⟨past, h⟩
  | cons t ticks ih =>
    obtain ⟨past₁, h₁⟩ := h.master t.1 t.2
    exact ih h₁

theorem length_transactions_le (q : Request) : q.transactions.length ≤ 4 := by
  rw [Request.transactions]
  split <;> simp

/-- The master has nothing to do, or gets done with what it has. -/
theorem Books.master_answers (h : Books responses accts past s) {ticks : List Tick} (hspaced : Spaced ticks)
    (hmore : 4 < ticks.length) : (run Master.event s.mdio (ticks.map Tick.event)).active = false := by
  cases h with
  | idle hpending hprint hmaster hprogress hsettled hexch => rw [run_ticks_idle hmaster, hmaster]
  | serving pre post c cur answers hsplit howner hsettled hquiet hactive hmaster hexch =>
    cases hmaster with
    | opened hholds hprogress =>
      exact hprogress.answered hholds hspaced (Nat.lt_of_le_of_lt (length_transactions_le _) hmore)
    | ended os hidle hprogress => rw [run_ticks_idle hidle, hidle]

/-- In a round the command in progress gets one more of its answers. -/
theorem Books.round (h : Books responses accts past s) (hposted : Posted accts s) {ticks : List Tick}
    (hspaced : Spaced ticks) (hmore : 4 < ticks.length) :
    ∃ accts' past', Books responses accts' past' (run event s (Event.round ticks)) ∧
      Posted accts' (run event s (Event.round ticks)) ∧ missing accts' = missing accts - 1 ∧
      accts'.map Account.command? = accts.map Account.command? := by
  obtain ⟨past₁, hbooks⟩ := h.master_run ticks
  have hdone := h.master_answers hspaced hmore
  rw [Event.round, run_append, run_master]
  generalize run Master.event s.mdio (ticks.map Tick.event) = m at hbooks hdone ⊢
  have hposted : Posted accts { s with mdio := m } := ⟨hposted.count, hposted.replies⟩
  change ∃ accts' past', Books responses accts' past' (pollResponse { s with mdio := m }) ∧
    Posted accts' (pollResponse { s with mdio := m }) ∧ _ ∧ _
  cases hbooks with
  | idle hpending hprint hmaster hprogress hsettled hexch =>
    have hnone : missing accts = missing accts - 1 := by rw [missing_settled hsettled]
    rw [pollResponse_idle hpending hprint]
    exact ⟨accts, past₁, .idle hpending hprint hmaster hprogress hsettled hexch, hposted, hnone, rfl⟩
  | serving pre post c cur answers hsplit howner hsettled hquiet hactive hmaster hexch =>
    cases hmaster with
    | opened hholds hprogress => exact Bool.noConfusion (hholds.active.symm.trans hdone)
    | ended os hidle hprogress =>
      subst hsplit
      obtain ⟨hbooks', hposted'⟩ := Books.answered howner hsettled hquiet hactive hidle hprogress hexch hposted
      refine ⟨_, _, hbooks', hposted', ?_, by simp [Account.command?]⟩
      rw [missing_serving hsettled, missing_serving hsettled, List.length_append, List.length_singleton,
        Nat.sub_sub]

theorem Books.rounds (h : Books responses accts past s) (hposted : Posted accts s)
    {rounds : List (List Tick)} (hrounds : ∀ ticks ∈ rounds, Spaced ticks ∧ 4 < ticks.length) :
    ∃ accts' past', Books responses accts' past' (run event s (rounds.flatMap Event.round)) ∧
      Posted accts' (run event s (rounds.flatMap Event.round)) ∧
      missing accts' = missing accts - rounds.length ∧
      accts'.map Account.command? = accts.map Account.command? := by
  induction rounds generalizing accts past s with
  | nil => exact ⟨accts, past, h, hposted, rfl, rfl⟩
  | cons ticks rounds ih =>
    obtain ⟨⟨hspaced, hmore⟩, hrest⟩ := List.forall_mem_cons.mp hrounds
    obtain ⟨accts₁, past₁, hbooks₁, hposted₁, hmissing₁, hcmds₁⟩ := h.round hposted hspaced hmore
    obtain ⟨accts₂, past₂, hbooks₂, hposted₂, hmissing₂, hcmds₂⟩ := ih hbooks₁ hposted₁ hrest
    rw [List.flatMap_cons, run_append]
    refine ⟨accts₂, past₂, hbooks₂, hposted₂, ?_, hcmds₂.trans hcmds₁⟩
    rw [hmissing₂, hmissing₁, List.length_cons, Nat.sub_sub, Nat.add_comm 1]

/-- After 32 rounds without new input the bridge is idle, and every command line of the run has
all its replies. -/
theorem becomes_idle (responses : Nat → Response) (led : Option (List (Nat × Nat))) (evs : List Event)
    {rounds : List (List Tick)} (hrounds : ∀ ticks ∈ rounds, Spaced ticks ∧ 4 < ticks.length)
    (hmany : 32 ≤ rounds.length) :
    let s := run event (start responses led) (evs ++ rounds.flatMap Event.round)
    s.Idle ∧ ∀ n line c, (linesOf (evs.flatMap Event.inputs))[n]? = some line → command? line = some c →
      (s.repliesTo n).length = c.ops.length := by
  intro s
  obtain ⟨⟨accts, past, hbooks, hposted, hcmds⟩, -⟩ := reads_run responses led evs
  obtain ⟨accts', past', hbooks', hposted', hmissing, hcmds'⟩ := hbooks.rounds hposted hrounds
  rw [← run_append] at hbooks' hposted'
  have hidle : s.Idle := by
    have hmost := hbooks.missing_le
    exact hbooks'.idle_of_missing (by omega)
  exact ⟨hidle, (RepliesOnce.of_books hbooks' hposted' (hcmds'.trans hcmds)).complete hidle⟩

/-- The second command finds the first in progress; the first still gets its value. -/
example : (run event (start (fun _ => {}) none)
    [.bridge false (RecordFramer.ascii "!read 1/4\r!write 0x1:31/0x300 7\n"), .master 0 ⟨ST_OK, 0xAB, 0xCD⟩,
      .bridge false []]).out.map (fun e => e.2.text) =
    ["write 1:31/0x0300 err busy\r\n", "read 1/4 0xABCD\r\n"] := by decide +kernel

end UsbBridge

end Tapioca.Mdio

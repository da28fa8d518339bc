-- SUMMARY: The USB command bridge of `mdio/mdio_bridge.cpp`: the line parser, the single pending slot and the device-side print.
import Tapioca.Mdio.Master
import Tapioca.Sniffer.RecordFramer
import Mathlib.Data.List.DropRight

/-!
# The MDIO bridge

`Mdio::UsbBridge` takes ASCII lines from USB, hands one operation at a time to
the master and prints the replies. `begin`, `end` and the pointers of the parser
are suffixes of the line. The bytes a tick reads are the environment's: while a
reply is printed, USB may deliver more of them. Every reply is kept with the
number of the line it answers, and `owner` is the line of the operation in
progress.
-/

namespace Tapioca.Mdio

namespace UsbBridge

open RecordFramer

inductive Op where
  | none
  | read
  | write
  | print
  deriving DecidableEq, Repr

inductive LineEvent where
  | none
  | ready
  | invalid
  deriving DecidableEq, Repr

structure Command where
  valid : Bool := false
  op : Op := .none
  phy : UInt8 := 0
  mmdAccess : Bool := false
  mmd : UInt8 := 0
  reg : UInt16 := 0
  val : UInt16 := 0
  deriving DecidableEq, Repr

/-! ## Parsing -/

def isWs (c : UInt8) : Bool := c = 0x20 ∨ c = 0x09

def isEnd (c : UInt8) : Bool := c = 0x0D ∨ c = 0x0A

def skipWs (p : List UInt8) : List UInt8 := p.dropWhile isWs

def digit (base : UInt32) (c : UInt8) : Option UInt32 :=
  if 0x30 ≤ c ∧ c ≤ 0x39 then some (c - 0x30).toUInt32
  else if base = 16 ∧ 0x61 ≤ c ∧ c ≤ 0x66 then some (c - 0x61 + 10).toUInt32
  else if base = 16 ∧ 0x41 ≤ c ∧ c ≤ 0x46 then some (c - 0x41 + 10).toUInt32
  else none

/-- The digit loop: the number, and what follows it. -/
def parseDigits (base limit v : UInt32) (any : Bool) : List UInt8 → Option (UInt32 × List UInt8)
  | [] => if any then some (v, []) else none
  | c :: p =>
    match digit base c with
    | none => if any then some (v, c :: p) else none
    | some d => if v * base + d > limit then none else parseDigits base limit (v * base + d) true p

def parseUint (limit : UInt32) (p : List UInt8) : Option (UInt32 × List UInt8) :=
  if p.head? = some 0x30 ∧ (p[1]? = some 0x78 ∨ p[1]? = some 0x58) then
    parseDigits 16 limit 0 false (p.drop 2)
  else parseDigits 10 limit 0 false p

def verbIs : List UInt8 → List UInt8 → Option (List UInt8)
  | p, [] => some p
  | [], _ :: _ => none
  | c :: p, k :: kw => if c = k then verbIs p kw else none

def parseVerb (p : List UInt8) : Option (Op × List UInt8) :=
  ((verbIs p (ascii "read")).map (Op.read, ·)) <|> ((verbIs p (ascii "write")).map (Op.write, ·)) <|>
    ((verbIs p (ascii "print")).map (Op.print, ·))

/-- `[:mmd]` -/
def parseMmd (p : List UInt8) : Option (Bool × UInt32 × List UInt8) :=
  if p.head? = some 0x3A then (parseUint 31 (p.drop 1)).map fun (mmd, p) => (true, mmd, p)
  else some (false, 0, p)

/-- `[:mmd]/reg`, which `!print` goes without. -/
def parsePath (op : Op) (p : List UInt8) : Option (Bool × UInt32 × UInt32 × List UInt8) :=
  if op ≠ .print then do
    let (mmdAccess, mmd, p) ← parseMmd p
    guard (p.head? = some 0x2F)
    let (reg, p) ← parseUint (if mmdAccess then 0xFFFF else 31) (p.drop 1)
    return (mmdAccess, mmd, reg, p)
  else some (false, 0, 0, p)

/-- The value of a `!write`. -/
def parseVal (op : Op) (p : List UInt8) : Option (UInt32 × List UInt8) :=
  if op = .write then parseUint 0xFFFF (skipWs p) else some (0, p)

/-- A command line, `none` where `parse` returns its default. -/
def parse? (line : List UInt8) : Option Command := do
  let p := skipWs (line.rdropWhile fun c => isEnd c || isWs c)
  guard (p.head? = some 0x21)
  let (op, p) ← parseVerb (p.drop 1)
  guard (p.head?.any isWs)
  let (phy, p) ← parseUint 31 (skipWs p)
  let (mmdAccess, mmd, reg, p) ← parsePath op p
  let (val, p) ← parseVal op p
  guard (skipWs p = [])
  return {
    valid := true, op, phy := phy.toUInt8, mmdAccess, mmd := mmd.toUInt8, reg := reg.toUInt16
    val := val.toUInt16 }

def parse (line : List UInt8) : Command := (parse? line).getD {}

/-! ## Replies -/

/-- The address a reply echoes. -/
structure Path where
  phy : UInt8
  mmdAccess : Bool
  mmd : UInt8
  reg : UInt16
  deriving DecidableEq, Repr

def Command.path (c : Command) : Path := ⟨c.phy, c.mmdAccess, c.mmd, c.reg⟩

/-- A line that the bridge prints. -/
inductive Reply where
  | value (path : Path) (v : UInt16)
  | ok (path : Path)
  | err (verb : Op) (path : Path) (why : String)
  | invalid
  deriving DecidableEq, Repr

/-- `%04X` -/
def hex4 (v : UInt16) : String :=
  String.ofList ([v >>> 12, v >>> 8, v >>> 4, v].map fun d => (Nat.digitChar (d &&& 0xF).toNat).toUpper)

def Op.verb : Op → String
  | .read => "read"
  | .write => "write"
  | .print => "print"
  | .none => ""

def Path.text (p : Path) : String :=
  if p.mmdAccess then toString p.phy ++ ":" ++ toString p.mmd ++ "/0x" ++ hex4 p.reg
  else toString p.phy ++ "/" ++ toString p.reg

def Reply.text : Reply → String
  | .value p v => "read " ++ p.text ++ " 0x" ++ hex4 v ++ "\r\n"
  | .ok p => "write " ++ p.text ++ " ok\r\n"
  | .err op p why => op.verb ++ " " ++ p.text ++ " err " ++ why ++ "\r\n"
  | .invalid => "err invalid\r\n"

def statusErr : Status → String
  | .noResp => "noresp"
  | .timeout => "timeout"
  | .idle | .pending | .done => "busy"

/-! ## The line buffer -/

/-- `line_`, `lineLen_` and `discardLine_`. -/
structure LineBuffer where
  line : List UInt8
  fits : line.length ≤ 48
  discardLine : Bool
  deriving DecidableEq

namespace LineBuffer

/-- `resetCommandLine()`, and the buffer of a new bridge. -/
def empty : LineBuffer := ⟨[], Nat.zero_le _, false⟩

/-- `lineLen_ = 0` -/
def clear (l : LineBuffer) : LineBuffer := { l with line := [], fits := Nat.zero_le _ }

def pushCommandByte (l : LineBuffer) (b : UInt8) : LineEvent × LineBuffer :=
  if b = 0x0A ∨ b = 0x0D then
    if l.discardLine then (.invalid, empty)
    else (if l.line ≠ [] then .ready else .none, l)
  else if l.discardLine then (.none, l)
  else if h : l.line.length < 48 then
    (.none, { l with
      line := l.line ++ [b]
      fits := by rw [List.length_append, List.length_singleton]; exact h })
  else (.none, { l.clear with discardLine := true })

end LineBuffer

end UsbBridge

open UsbBridge

/-! ## The bridge -/

/-- The bridge with its master. `activePath` is `activePhy_`, `activeMmdAccess_`,
`activeMmd_` and `activeReg_`; `led` keeps the arguments of `blink`, where there
is an LED. -/
structure UsbBridge where
  mdio : Master
  led : Option (List (Nat × Nat))
  buffer : LineBuffer := .empty
  pending : Bool := false
  activeOp : UsbBridge.Op := .read
  activePath : Path := ⟨0, false, 0, 0⟩
  printActive : Bool := false
  printAllOk : Bool := true
  printPhy : UInt8 := 0
  printNextReg : UInt8 := 0
  out : List (Nat × Reply) := []
  lineNo : Nat := 0
  owner : Nat := 0

namespace UsbBridge

/-- The address of `resp_`. -/
def RESP : Nat := 0

def resp (s : UsbBridge) : Response := s.mdio.responses RESP

def printf (s : UsbBridge) (n : Nat) (r : Reply) : UsbBridge := { s with out := s.out ++ [(n, r)] }

def blinkOk (s : UsbBridge) : UsbBridge := { s with led := s.led.map (· ++ [(50, 50)]) }

def blinkBad (s : UsbBridge) : UsbBridge := { s with led := s.led.map (· ++ [(500, 100)]) }

def startRead (s : UsbBridge) (c : Command) : Bool × UsbBridge :=
  let (r, mdio) :=
    if c.mmdAccess then s.mdio.readMmd c.phy c.mmd c.reg RESP
    else s.mdio.read c.phy c.reg.toUInt8 RESP
  let s := { s with mdio }
  if r ≠ .ok then (false, s)
  else (true, { s with pending := true, activeOp := .read, activePath := c.path })

def startWrite (s : UsbBridge) (c : Command) : Bool × UsbBridge :=
  let (r, mdio) :=
    if c.mmdAccess then s.mdio.writeMmd c.phy c.mmd c.reg c.val RESP
    else s.mdio.write c.phy c.reg.toUInt8 c.val RESP
  let s := { s with mdio }
  if r ≠ .ok then (false, s)
  else (true, { s with pending := true, activeOp := .write, activePath := c.path })

/-- The reply to the operation in progress, once it is finished. -/
def activeResponse (s : UsbBridge) : Reply :=
  if s.resp.status = .done then
    if s.activeOp = .read then .value s.activePath s.resp.value else .ok s.activePath
  else .err (if s.activeOp = .read then .read else .write) s.activePath (statusErr s.resp.status)

def emitActiveResponse (s : UsbBridge) : UsbBridge := s.printf s.owner s.activeResponse

/-- The read that `!print` does of one register. -/
def printRead (phy reg : UInt8) : Command := { valid := true, op := .read, phy, reg := reg.toUInt16 }

def busy (c : Command) : Reply := .err c.op c.path "busy"

def emitPrintBusy (s : UsbBridge) (phy : UInt8) : UsbBridge :=
  (List.range 32).foldl (fun s reg => s.printf s.lineNo (busy (printRead phy (UInt8.ofNat reg)))) s

def emitInvalid (s : UsbBridge) : UsbBridge := (s.printf s.lineNo .invalid).blinkBad

/-- The reply of an operation that is finished. -/
def respond (s : UsbBridge) : UsbBridge :=
  let ok := s.resp.status = .done
  let s := { s.emitActiveResponse with pending := false }
  if s.printActive then { s with printAllOk := s.printAllOk && ok }
  else if ok then s.blinkOk else s.blinkBad

/-- The next register of a print, or its end. -/
def continuePrint (s : UsbBridge) : UsbBridge :=
  if s.printNextReg < 32 then
    let (started, s) := s.startRead (printRead s.printPhy s.printNextReg)
    if started then { s with printNextReg := s.printNextReg + 1 } else s
  else { if s.printAllOk then s.blinkOk else s.blinkBad with printActive := false }

def pollResponse (s : UsbBridge) : UsbBridge :=
  let s := if s.pending ∧ s.resp.status ≠ .pending then s.respond else s
  if ¬ s.printActive ∨ s.pending then s else s.continuePrint

/-- A read or a write: `start` is `startRead` or `startWrite`. -/
def handleSingle (s : UsbBridge) (c : Command) (start : UsbBridge → Command → Bool × UsbBridge) :
    UsbBridge :=
  if s.printActive ∨ s.pending then (s.printf s.lineNo (busy c)).blinkBad
  else
    let (started, s) := start s c
    if ¬ started then (s.printf s.lineNo (busy c)).blinkBad else { s.blinkOk with owner := s.lineNo }

def handlePrint (s : UsbBridge) (c : Command) : UsbBridge :=
  if s.printActive ∨ s.pending then (s.emitPrintBusy c.phy).blinkBad
  else
    let s := { s with printActive := true, printAllOk := true, printPhy := c.phy, printNextReg := 0 }.blinkOk
    let (started, s) := s.startRead (printRead s.printPhy s.printNextReg)
    if started then { s with printNextReg := s.printNextReg + 1, owner := s.lineNo }
    else ({ s with printActive := false }.emitPrintBusy c.phy).blinkBad

def handleLine (s : UsbBridge) (line : List UInt8) : UsbBridge :=
  let c := parse line
  if ¬ c.valid then s.emitInvalid
  else
    match c.op with
    | .read => s.handleSingle c startRead
    | .write => s.handleSingle c startWrite
    | .print => s.handlePrint c
    | .none => s.blinkBad

/-- One round of the loop of `pollCommand`. -/
def pollByte (s : UsbBridge) (b : UInt8) : UsbBridge :=
  match s.buffer.pushCommandByte b with
  | (.ready, buffer) =>
    let s := { s with buffer }.handleLine buffer.line
    { s with buffer := s.buffer.clear, lineNo := s.lineNo + 1 }
  | (.invalid, buffer) =>
    let s := { s with buffer }.emitInvalid
    { s with lineNo := s.lineNo + 1 }
  | (.none, buffer) => { s with buffer }

def pollCommand (s : UsbBridge) (bytes : List UInt8) : UsbBridge := bytes.foldl pollByte s

def resetCommandLine (s : UsbBridge) : UsbBridge := { s with buffer := .empty }

/-- `session`: USB reports a new session; `bytes`: what the tick reads. -/
def tick (s : UsbBridge) (session : Bool) (bytes : List UInt8) : UsbBridge :=
  ((if session then s.resetCommandLine else s).pollResponse).pollCommand bytes

/-- The bridge as it is constructed, on a master that has begun. -/
def start (responses : Nat → Response) (led : Option (List (Nat × Nat))) : UsbBridge where
  mdio := .begin responses
  led := led

/-- The main loop ticks the master and the bridge. -/
inductive Event where
  | master (nowMs : UInt32) (r : Reading)
  | bridge (session : Bool) (bytes : List UInt8)

def event (s : UsbBridge) : Event → UsbBridge
  | .master nowMs r => { s with mdio := s.mdio.tick nowMs r }
  | .bridge session bytes => s.tick session bytes

/-- The replies to a line, in order. -/
def repliesTo (s : UsbBridge) (n : Nat) : List Reply :=
  s.out.filterMap fun e => if e.1 = n then some e.2 else none

end UsbBridge

end Tapioca.Mdio

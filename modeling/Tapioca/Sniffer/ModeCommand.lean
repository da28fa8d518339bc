-- SUMMARY: The `!mode` command: its strict parser, and which lines of the CDC stream make the firmware switch.
import Tapioca.Sniffer.RecordFramer
import Mathlib.Data.List.DropRight

/-!
# The mode command

`ModeCmd::parse` and the line accumulator of `unifiedPollCommand`. The pointers
of the parser are suffixes of the line. The accumulator holds 24 bytes; the byte
after that empties it, and what follows on the same line is taken for the start
of another.
-/

namespace Tapioca

open RecordFramer

namespace ModeCmd

inductive CaptureMode where
  | rle
  | clocked
deriving DecidableEq, Repr

structure Command where
  valid : Bool
  mode : CaptureMode
deriving DecidableEq, Repr

def isBlank (b : UInt8) : Bool := b = 0x20 ∨ b = 0x09

def isEnd (b : UInt8) : Bool := b = 0x0A ∨ b = 0x0D

/-- How far the scan of `kw` at `p` comes. -/
def matched : List UInt8 → List UInt8 → Nat
  | x :: p, k :: kw => if x = k then matched p kw + 1 else 0
  | _, _ => 0

def tokenIs (p kw : List UInt8) : Bool :=
  let i := matched p kw
  i = kw.length ∧ (p.length = i ∨ p[i]?.any isBlank)

def parse (line : List UInt8) : Command :=
  let r : Command := { valid := false, mode := .rle }
  let line := line.rdropWhile fun b => isEnd b || isBlank b
  let p := line.dropWhile isBlank
  let pre := ascii "!mode"
  if matched p pre ≠ pre.length then r
  else
    let p := p.drop pre.length
    if ¬ p.head?.any isBlank then r
    else
      let p := p.dropWhile isBlank
      if tokenIs p (ascii "rle") then
        { valid := ((p.drop 3).dropWhile isBlank).isEmpty, mode := .rle }
      else if tokenIs p (ascii "clocked") then
        { valid := ((p.drop 7).dropWhile isBlank).isEmpty, mode := .clocked }
      else r

theorem parse_nil : (parse []).valid = false := by decide

end ModeCmd

open ModeCmd

/-- The state of `unifiedPollCommand`. -/
structure CommandLine where
  mode : CaptureMode
  cmdLine : List UInt8
  fits : cmdLine.length ≤ 24
  /-- For every line end so far, the mode `unifiedSwitchTo` was called with. -/
  calls : List (Option CaptureMode)

namespace CommandLine

/-- The switch that a parsed line asks for in a mode. -/
def switchFor (mode : CaptureMode) (line : List UInt8) : Option CaptureMode :=
  if (parse line).valid ∧ (parse line).mode ≠ mode then some (parse line).mode else none

def start (mode : CaptureMode) : CommandLine where
  mode := mode
  cmdLine := []
  fits := by decide
  calls := []

/-- One round of the loop of `unifiedPollCommand`. -/
def pollByte (s : CommandLine) (b : UInt8) : CommandLine :=
  if isEnd b then
    if s.cmdLine.length ≠ 0 then
      let call := switchFor s.mode s.cmdLine
      { mode := call.getD s.mode, cmdLine := [], fits := by decide, calls := s.calls ++ [call] }
    else { s with calls := s.calls ++ [none] }
  else if h : s.cmdLine.length < 24 then
    { s with cmdLine := s.cmdLine ++ [b], fits := by rw [List.length_append]; exact h }
  else { s with cmdLine := [], fits := by decide }

/-- `unifiedPollCommand`, with the bytes that `read` hands out. -/
def pollCommand (s : CommandLine) (bytes : List UInt8) : CommandLine := bytes.foldl pollByte s

-- ---------------------------------------------------------------------------
-- Physical lines
-- ---------------------------------------------------------------------------

/-- The lines of a stream that have an end. -/
def completeLines (bytes : List UInt8) : List (List UInt8) := (bytes.splitOnP isEnd).dropLast

/-- The switches that whole lines ask for, line by line. -/
def switches : CaptureMode → List (List UInt8) → List (Option CaptureMode)
  | _, [] => []
  | mode, line :: lines =>
    switchFor mode line :: switches ((switchFor mode line).getD mode) lines

/-- What the accumulator holds at the end of a line. -/
def kept (line : List UInt8) : List UInt8 := line.drop (25 * (line.length / 25))

@[simp] theorem kept_nil : kept [] = [] := rfl

theorem length_kept (line : List UInt8) : (kept line).length = line.length % 25 := by
  rw [kept, List.length_drop]
  omega

theorem kept_of_short {line : List UInt8} (h : line.length < 25) : kept line = line := by
  rw [kept, Nat.div_eq_of_lt h]
  rfl

/-- The accumulator takes a byte with room for it … -/
theorem kept_concat (line : List UInt8) (b : UInt8) (h : (kept line).length < 24) :
    kept (line ++ [b]) = kept line ++ [b] := by
  rw [length_kept] at h
  have hdiv : (line ++ [b]).length / 25 = line.length / 25 := by
    rw [List.length_append, List.length_singleton]
    omega
  rw [kept, hdiv, List.drop_append_of_le_length (by omega)]
  rfl

/-- … and starts over without. -/
theorem kept_concat_full (line : List UInt8) (b : UInt8) (h : ¬ (kept line).length < 24) :
    kept (line ++ [b]) = [] := by
  rw [← List.length_eq_zero_iff, length_kept, List.length_append, List.length_singleton]
  rw [length_kept] at h
  omega

theorem switchFor_nil (mode : CaptureMode) : switchFor mode [] = none := by
  rw [switchFor, parse_nil, if_neg (by simp)]

/-- At a line end the switch is the one that the kept bytes ask for. -/
theorem pollByte_end (s : CommandLine) {b : UInt8} (h : isEnd b = true) :
    (s.pollByte b).calls = s.calls ++ [switchFor s.mode s.cmdLine] ∧
      (s.pollByte b).mode = (switchFor s.mode s.cmdLine).getD s.mode ∧
      (s.pollByte b).cmdLine = [] := by
  rw [pollByte, if_pos h]
  split
  · exact ⟨rfl, rfl, rfl⟩
  · next hempty =>
    have hnil : s.cmdLine = [] := List.length_eq_zero_iff.mp (not_not.mp hempty)
    have hnone : switchFor s.mode s.cmdLine = none := by rw [hnil, switchFor_nil]
    rw [hnone]
    exact ⟨rfl, rfl, hnil⟩

theorem pollByte_inside (s : CommandLine) {b : UInt8} (h : isEnd b = false) {line : List UInt8}
    (hkept : s.cmdLine = kept line) :
    (s.pollByte b).calls = s.calls ∧ (s.pollByte b).mode = s.mode ∧
      (s.pollByte b).cmdLine = kept (line ++ [b]) := by
  rw [pollByte, if_neg (by simp [h])]
  split
  · next hroom =>
    rw [kept_concat line b (hkept ▸ hroom), ← hkept]
    exact ⟨rfl, rfl, rfl⟩
  · next hfull =>
    rw [kept_concat_full line b (hkept ▸ hfull)]
    exact ⟨rfl, rfl, rfl⟩

/-- The switches over a stream, with `acc` the bytes of its first line so far,
last first: those that the kept bytes of the lines ask for. -/
theorem calls_pollCommand (bytes acc : List UInt8) (s : CommandLine)
    (h : s.cmdLine = kept acc.reverse) :
    (s.pollCommand bytes).calls =
      s.calls ++ switches s.mode ((List.splitOnPPrepend isEnd bytes acc).dropLast.map kept) := by
  induction bytes generalizing acc s with
  | nil => simp [pollCommand, switches]
  | cons b bytes ih =>
    have hcons : s.pollCommand (b :: bytes) = (s.pollByte b).pollCommand bytes := rfl
    cases hb : isEnd b with
    | true =>
      obtain ⟨hcalls, hmode, hline⟩ := s.pollByte_end hb
      rw [hcons, ih [] _ (by simp [hline]), hcalls, hmode, List.splitOnPPrepend_cons_pos hb,
        List.dropLast_cons_of_ne_nil (List.splitOnP_ne_nil _ _), List.map_cons, switches, ← h,
        List.append_assoc]
      rfl
    | false =>
      obtain ⟨hcalls, hmode, hline⟩ := s.pollByte_inside hb h
      rw [hcons, ih (b :: acc) _ (by simpa using hline), hcalls, hmode,
        List.splitOnPPrepend_cons_neg hb]

/-- In the mode it comes in, every complete line of 25 bytes or more asks for
the same switch as its bytes behind the last multiple of 25. -/
def TailsAgree : CaptureMode → List (List UInt8) → Prop
  | _, [] => True
  | mode, line :: lines =>
    (25 ≤ line.length → switchFor mode (line.drop (25 * (line.length / 25))) = switchFor mode line) ∧
      TailsAgree ((switchFor mode line).getD mode) lines

theorem switches_kept_iff (mode : CaptureMode) (lines : List (List UInt8)) :
    switches mode (lines.map kept) = switches mode lines ↔ TailsAgree mode lines := by
  induction lines generalizing mode with
  | nil => exact iff_of_true rfl trivial
  | cons line lines ih =>
    rw [List.map_cons, switches, switches, List.cons.injEq, TailsAgree]
    have hhead : switchFor mode (kept line) = switchFor mode line ↔
        (25 ≤ line.length →
          switchFor mode (line.drop (25 * (line.length / 25))) = switchFor mode line) := by
      constructor
      · exact fun h _ => h
      · intro h
        by_cases hlong : 25 ≤ line.length
        · exact h hlong
        · rw [kept_of_short (Nat.lt_of_not_le hlong)]
    rw [hhead]
    refine and_congr_right fun h => ?_
    rw [hhead.mpr h, ih]

theorem pollCommand_flatten (s : CommandLine) (chunks : List (List UInt8)) :
    chunks.foldl pollCommand s = s.pollCommand chunks.flatten := by
  rw [pollCommand, List.foldl_flatten]
  rfl

/-- The firmware switches for exactly those complete lines that the parser
accepts with another mode, if and only if no over-long line has a tail that asks
for something else than the line. -/
theorem switches_by_line_iff (mode : CaptureMode) (chunks : List (List UInt8)) :
    (chunks.foldl pollCommand (start mode)).calls =
        switches mode (completeLines chunks.flatten) ↔
      TailsAgree mode (completeLines chunks.flatten) := by
  rw [pollCommand_flatten, calls_pollCommand _ [] (start mode) rfl, ← switches_kept_iff]
  exact Iff.rfl

/-- 25 bytes of noise and a command on one line. -/
theorem tail_switches :
    ¬ ∀ (mode : CaptureMode) (chunks : List (List UInt8)),
      (chunks.foldl pollCommand (start mode)).calls =
        switches mode (completeLines chunks.flatten) := by
  intro h
  have hline := h .clocked [List.replicate 25 0x78 ++ ascii "!mode rle\n"]
  revert hline
  decide +kernel

end CommandLine

end Tapioca

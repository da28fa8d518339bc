-- SUMMARY: The MDIO bridge cuts its bytes into command lines as a split of the stream at line ends and sessions does.
import Tapioca.Mdio.BridgeReplies

/-!
# Line framing

`events` is what `pushCommandByte` reports to the loop of `pollCommand`, over any
bytes and new sessions. `framing` is the reference: the stream is split at its
marks, which are the line ends and the sessions, and each line that a line end
closes is worth one event, or none when it is empty.
-/

namespace Tapioca.Mdio.UsbBridge

/-- What `pollCommand` acts on. -/
inductive Framed where
  | ready (line : List UInt8)
  | invalid
  deriving DecidableEq, Repr

/-- One round of the loop of `pollCommand`, up to what it does with a line. -/
def LineBuffer.poll (l : LineBuffer) (b : UInt8) : List Framed × LineBuffer :=
  match l.pushCommandByte b with
  | (.ready, l) => ([.ready l.line], l.clear)
  | (.invalid, l) => ([.invalid], l)
  | (.none, l) => ([], l)

/-- The events of a stream, where a new session calls `resetCommandLine`. -/
def LineBuffer.events (l : LineBuffer) : List Input → List Framed
  | [] => []
  | .session :: ins => events .empty ins
  | .byte b :: ins => (l.poll b).1 ++ (l.poll b).2.events ins

/-- What `pollCommand` does about an event. -/
def answer (s : UsbBridge) (f : Framed) : UsbBridge :=
  let s := match f with
    | .ready line => s.handleLine line
    | .invalid => s.emitInvalid
  { s with lineNo := s.lineNo + 1 }

/-! ## The reference -/

def Input.isMark : Input → Bool
  | .session => true
  | .byte b => isEnd b

def Input.bytes : Input → List UInt8
  | .session => []
  | .byte b => [b]

/-- What a line is worth. -/
def verdict (line : List UInt8) : List Framed :=
  if line = [] then [] else if line.length ≤ 48 then [.ready line] else [.invalid]

/-- The lines of a stream, each with the mark that ends it. -/
def marked (ins : List Input) : List (List Input × Input) :=
  (ins.splitOnP Input.isMark).zip (ins.filter Input.isMark)

def framing (ins : List Input) : List Framed :=
  (marked ins).flatMap fun (line, mark) => if mark = .session then [] else verdict (line.flatMap Input.bytes)

/-! ## One byte -/

/-- A line end is worth what the line is, and opens a new one. -/
theorem Buffers.poll_end {l : LineBuffer} {rest : List UInt8} (h : Buffers l rest) {b : UInt8}
    (hb : isEnd b = true) : ∃ l', l.poll b = (verdict rest, l') ∧ Buffers l' [] := by
  rw [LineBuffer.poll, verdict]
  rcases h.end hb with ⟨rfl, hpush⟩ | ⟨hne, hfits, hkeep, hline, hpush⟩ | ⟨hlong, hpush⟩
  · rw [hpush]
    exact ⟨l, rfl, h⟩
  · rw [hpush, if_neg hne, if_pos hfits, ← hline]
    exact ⟨l.clear, rfl, .held hkeep rfl⟩
  · have hne : rest ≠ [] := List.ne_nil_of_length_pos (Nat.zero_lt_of_lt hlong)
    rw [hpush, if_neg hne, if_neg (Nat.not_le.mpr hlong)]
    exact ⟨.empty, rfl, buffers_empty⟩

theorem Buffers.poll_byte {l : LineBuffer} {rest : List UInt8} (h : Buffers l rest) {b : UInt8}
    (hb : isEnd b = false) : ∃ l', l.poll b = ([], l') ∧ Buffers l' (rest ++ [b]) := by
  obtain ⟨l', hpush, hbuffers⟩ := h.push hb
  exact ⟨l', by rw [LineBuffer.poll, hpush], hbuffers⟩

theorem LineBuffer.ready_keeps {l l' : LineBuffer} {b : UInt8} (h : l.pushCommandByte b = (.ready, l')) :
    l = l' := by
  rw [LineBuffer.pushCommandByte] at h
  split_ifs at h <;> simp_all

/-- The bridge answers the events of its bytes. -/
theorem pollByte_eq (s : UsbBridge) (b : UInt8) :
    s.pollByte b = { (s.buffer.poll b).1.foldl answer s with buffer := (s.buffer.poll b).2 } := by
  rw [pollByte, LineBuffer.poll]
  rcases hpush : s.buffer.pushCommandByte b with ⟨e, l⟩
  cases e with
  | none => rfl
  | invalid => rfl
  | ready =>
    obtain rfl : s.buffer = l := LineBuffer.ready_keeps hpush
    dsimp only [answer, List.foldl_cons, List.foldl_nil]
    rw [handleLine_buffer]

/-! ## Streams -/

/-- A piece of a split, in its place. -/
theorem mem_zip_split {α : Type*} {p : α → Bool} (acc : List α) {xs piece : List α} {mark : α} (hacc : ∀ x ∈ acc, p x = false)
    (h : (piece, mark) ∈ (List.splitOnPPrepend p xs acc).zip (xs.filter p)) :
    ∃ before after, acc.reverse ++ xs = before ++ piece ++ mark :: after ∧ (∀ x ∈ before.getLast?, p x = true) ∧
      (∀ x ∈ piece, p x = false) ∧ p mark = true := by
  induction xs generalizing acc with
  | nil => exact absurd h (by rw [List.filter_nil, List.zip_nil_right]; exact List.not_mem_nil)
  | cons x xs ih =>
    cases hx : p x with
    | false =>
      rw [List.splitOnPPrepend_cons_neg hx, List.filter_cons_of_neg (by rw [hx]; exact Bool.false_ne_true)] at h
      obtain ⟨before, after, heq, hrest⟩ := ih (x :: acc) (List.forall_mem_cons.mpr ⟨hx, hacc⟩) h
      rw [List.reverse_cons, List.append_assoc] at heq
      exact ⟨before, after, heq, hrest⟩
    | true =>
      rw [List.splitOnPPrepend_cons_pos hx, List.filter_cons_of_pos hx, List.zip_cons_cons, List.mem_cons] at h
      rcases h with h | h
      · obtain ⟨rfl, rfl⟩ := Prod.mk.inj h
        exact ⟨[], xs, rfl, by simp, fun x hx => hacc x (List.mem_reverse.mp hx), hx⟩
      · obtain ⟨before, after, heq, hlast, hrest⟩ := ih [] (List.forall_mem_nil _) h
        refine ⟨acc.reverse ++ x :: before, after, ?_, ?_, hrest⟩
        · rw [List.reverse_nil, List.nil_append] at heq
          simp only [heq, List.append_assoc, List.cons_append]
        · intro y hy
          rw [List.getLast?_append, List.getLast?_cons] at hy
          cases hbefore : before.getLast? with
          | none =>
            obtain rfl : x = y := by simpa [hbefore] using hy
            exact hx
          | some z =>
            obtain rfl : z = y := by simpa [hbefore] using hy
            exact hlast z hbefore

theorem bytes_of_line {line : List Input} (h : ∀ i ∈ line, i.isMark = false) :
    line = (line.flatMap Input.bytes).map .byte := by
  induction line with
  | nil => rfl
  | cons i line ih =>
    obtain ⟨hi, hline⟩ := List.forall_mem_cons.mp h
    cases i with
    | session => exact nomatch hi
    | byte b => rw [List.flatMap_cons, List.map_append, ← ih hline]; rfl

/-- The events, from what the buffer already has of a line. -/
theorem events_eq (acc : List Input) {ins : List Input} {l : LineBuffer} (h : Buffers l (acc.reverse.flatMap Input.bytes)) :
    l.events ins = ((List.splitOnPPrepend Input.isMark ins acc).zip (ins.filter Input.isMark)).flatMap
      fun (line, mark) => if mark = .session then [] else verdict (line.flatMap Input.bytes) := by
  induction ins generalizing acc l with
  | nil => rw [LineBuffer.events, List.filter_nil, List.zip_nil_right, List.flatMap_nil]
  | cons i ins ih =>
    cases hi : i.isMark with
    | true =>
      rw [List.splitOnPPrepend_cons_pos hi, List.filter_cons_of_pos hi, List.zip_cons_cons, List.flatMap_cons]
      cases i with
      | session =>
        rw [LineBuffer.events, ih [] buffers_empty]
        rfl
      | byte b =>
        obtain ⟨l', hpoll, hbuffers⟩ := h.poll_end hi
        rw [LineBuffer.events, hpoll, ih [] hbuffers]
        rfl
    | false =>
      cases i with
      | session => exact nomatch hi
      | byte b =>
        obtain ⟨l', hpoll, hbuffers⟩ := h.poll_byte hi
        have hacc : (Input.byte b :: acc).reverse.flatMap Input.bytes = acc.reverse.flatMap Input.bytes ++ [b] := by
          rw [List.reverse_cons, List.flatMap_append]
          rfl
        rw [List.splitOnPPrepend_cons_neg hi, List.filter_cons_of_neg (by rw [hi]; exact Bool.false_ne_true),
          LineBuffer.events, hpoll, ih (.byte b :: acc) (hacc ▸ hbuffers)]
        rfl

theorem events_framing (ins : List Input) : LineBuffer.empty.events ins = framing ins :=
  events_eq [] buffers_empty

theorem ready_mem_verdict {line bytes : List UInt8} (h : Framed.ready line ∈ verdict bytes) :
    bytes = line ∧ 0 < line.length ∧ line.length ≤ 48 := by
  rw [verdict] at h
  split_ifs at h with hempty hfits
  · exact absurd h List.not_mem_nil
  · obtain rfl : line = bytes := by simpa using h
    exact ⟨rfl, List.length_pos_iff.mpr hempty, hfits⟩
  · exact absurd h (by simp)

/-- Bytes and new sessions are cut into lines as the reference says, and what is
ready is a whole line of the stream. -/
theorem line_framing_refines (ins : List Input) :
    LineBuffer.empty.events ins = framing ins ∧
      ∀ line, .ready line ∈ LineBuffer.empty.events ins → ∃ before b after,
        ins = before ++ line.map .byte ++ .byte b :: after ∧ (∀ i ∈ before.getLast?, i.isMark = true) ∧
          (∀ c ∈ line, isEnd c = false) ∧ isEnd b = true ∧ 0 < line.length ∧ line.length ≤ 48 := by
  refine ⟨events_framing ins, fun line hready => ?_⟩
  rw [events_framing, framing, List.mem_flatMap] at hready
  obtain ⟨⟨piece, mark⟩, hmem, hready⟩ := hready
  obtain ⟨before, after, heq, hlast, hpiece, hmark⟩ := mem_zip_split [] (List.forall_mem_nil _) hmem
  cases mark with
  | session => exact absurd hready List.not_mem_nil
  | byte b =>
    obtain ⟨rfl, hpos, hfits⟩ := ready_mem_verdict hready
    rw [bytes_of_line hpiece] at heq
    refine ⟨before, b, after, heq, hlast, ?_, hmark, hpos, hfits⟩
    intro c hc
    refine hpiece (.byte c) ?_
    rw [bytes_of_line hpiece]
    exact List.mem_map_of_mem hc

end Tapioca.Mdio.UsbBridge

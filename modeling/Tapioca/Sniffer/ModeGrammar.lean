-- SUMMARY: The grammar of the `!mode` line, that `parse` accepts exactly it, and that no read leaves the line.
import Tapioca.Sniffer.ModeCommand

/-!
# The grammar of `!mode`

`Spells` gives the lines and the mode they name, with no reference to the scanner.
`parseAt` is `parse` with its pointers as offsets and every access of the line
checked: it stops short where one leaves `[line, line + len)`.
-/

namespace Tapioca.ModeCmd

open RecordFramer

-- ---------------------------------------------------------------------------
-- The grammar
-- ---------------------------------------------------------------------------

def CaptureMode.keyword : CaptureMode → List UInt8
  | .rle => ascii "rle"
  | .clocked => ascii "clocked"

def Blank (bs : List UInt8) : Prop := ∀ b ∈ bs, isBlank b = true

inductive Spells : List UInt8 → CaptureMode → Prop
  | line {lead gap : List UInt8} (hlead : Blank lead) (hgap : Blank gap) (some_gap : gap ≠ []) (mode : CaptureMode) :
      Spells (lead ++ ascii "!mode" ++ gap ++ mode.keyword) mode

/-- What the first loop of `parse` leaves of a line. -/
def trimmed (line : List UInt8) : List UInt8 := line.rdropWhile fun b => isEnd b || isBlank b

-- ---------------------------------------------------------------------------
-- The scanner
-- ---------------------------------------------------------------------------

theorem matched_le_left (p kw : List UInt8) : matched p kw ≤ p.length := by
  induction p generalizing kw with
  | nil => cases kw <;> exact Nat.zero_le _
  | cons x p ih =>
    cases kw with
    | nil => exact Nat.zero_le _
    | cons k kw =>
      rw [matched]
      split
      · exact Nat.succ_le_succ (ih kw)
      · exact Nat.zero_le _

/-- The scan comes to the end of a keyword where the keyword stands. -/
theorem matched_eq_length_iff {p kw : List UInt8} : matched p kw = kw.length ↔ kw <+: p := by
  induction kw generalizing p with
  | nil => cases p <;> simp [matched]
  | cons k kw ih =>
    cases p with
    | nil => simp [matched]
    | cons x p =>
      rw [matched, List.cons_prefix_cons, List.length_cons, ← ih]
      split
      · rename_i hx
        rw [Nat.add_right_cancel_iff, and_iff_right hx.symm]
      · rename_i hx
        exact ⟨fun h => absurd h.symm (Nat.succ_ne_zero _), fun h => absurd h.1.symm hx⟩

theorem matched_append (kw rest : List UInt8) : matched (kw ++ rest) kw = kw.length :=
  matched_eq_length_iff.mpr (List.prefix_append kw rest)

/-- A keyword that stands alone. -/
theorem tokenIs_iff {p kw : List UInt8} :
    tokenIs p kw = true ↔ ∃ rest, p = kw ++ rest ∧ (rest = [] ∨ rest.head?.any isBlank = true) := by
  rw [tokenIs, decide_eq_true_iff]
  constructor
  · rintro ⟨hmatched, hend⟩
    obtain ⟨rest, rfl⟩ := matched_eq_length_iff.mp hmatched
    refine ⟨rest, rfl, ?_⟩
    rw [hmatched] at hend
    rcases hend with hend | hend
    · exact .inl (by simpa using hend)
    · rw [List.getElem?_append_right le_rfl, Nat.sub_self, ← List.head?_eq_getElem?] at hend
      exact .inr hend
  · rintro ⟨rest, rfl, hend⟩
    rw [matched_append]
    refine ⟨rfl, hend.imp (fun h => by rw [h, List.append_nil]) fun h => ?_⟩
    rw [List.getElem?_append_right le_rfl, Nat.sub_self, ← List.head?_eq_getElem?]
    exact h

theorem dropWhile_blank {gap : List UInt8} (h : Blank gap) (p : List UInt8) :
    (gap ++ p).dropWhile isBlank = p.dropWhile isBlank := List.dropWhile_append_of_pos h

theorem dropWhile_keyword (mode : CaptureMode) : mode.keyword.dropWhile isBlank = mode.keyword := by
  cases mode <;> decide

/-- Blanks next, and the gap that they make up. -/
theorem gap_of_head {p : List UInt8} (h : p.head?.any isBlank = true) :
    ∃ gap, p = gap ++ p.dropWhile isBlank ∧ Blank gap ∧ gap ≠ [] := by
  refine ⟨p.takeWhile isBlank, List.takeWhile_append_dropWhile.symm, fun _ => List.mem_takeWhile_imp, ?_⟩
  cases p with
  | nil => exact nomatch h
  | cons b p =>
    have hb : isBlank b = true := h
    rw [List.takeWhile_cons_of_pos hb]
    exact List.cons_ne_nil _ _

/-- A trimmed line does not end in blanks. -/
theorem trimmed_last {line front rest : List UInt8} (h : trimmed line = front ++ rest) (hrest : Blank rest) :
    rest = [] := by
  by_contra hne
  have hsome : trimmed line ≠ [] := by
    rw [h]
    exact List.append_ne_nil_of_right_ne_nil _ hne
  have hlast : ¬ (isEnd ((trimmed line).getLast hsome) || isBlank ((trimmed line).getLast hsome)) = true :=
    List.rdropWhile_last_not _ _ hsome
  have heq : (trimmed line).getLast hsome = rest.getLast hne := by
    simp only [h, List.getLast_append_of_ne_nil _ hne]
  have hblank := hrest _ (List.getLast_mem hne)
  rw [heq, hblank, Bool.or_true] at hlast
  exact hlast rfl

/-- A line is of one mode at most. -/
theorem tokenIs_rle {p : List UInt8} (h : tokenIs p (ascii "clocked") = true) : tokenIs p (ascii "rle") = false := by
  obtain ⟨rest, rfl, -⟩ := tokenIs_iff.mp h
  rfl

/-- The stages of `parse`, one after the other. -/
theorem parse_iff {line : List UInt8} {mode : CaptureMode} :
    (parse line).valid = true ∧ (parse line).mode = mode ↔
      ∃ p, (trimmed line).dropWhile isBlank = ascii "!mode" ++ p ∧ p.head?.any isBlank = true ∧
        tokenIs (p.dropWhile isBlank) mode.keyword = true ∧
          (((p.dropWhile isBlank).drop mode.keyword.length).dropWhile isBlank).isEmpty = true := by
  obtain ⟨body, hbody⟩ : ∃ body, trimmed line = body := ⟨_, rfl⟩
  rw [hbody]
  rw [trimmed] at hbody
  rw [parse, hbody]
  dsimp only
  by_cases hpre : ascii "!mode" <+: body.dropWhile isBlank
  · obtain ⟨p, hp⟩ := hpre
    rw [← hp, if_neg (not_not.mpr (matched_append _ _)), List.drop_left]
    have hex : ∀ q, ascii "!mode" ++ p = ascii "!mode" ++ q ↔ p = q := fun q => List.append_right_inj _
    simp only [hex, exists_eq_left']
    by_cases hgap : p.head?.any isBlank = true
    · rw [if_neg (not_not.mpr hgap), and_iff_right hgap]
      generalize p.dropWhile isBlank = q
      have hrle : (ascii "rle").length = 3 := rfl
      have hclocked : (ascii "clocked").length = 7 := rfl
      -- the keywords exclude each other, so the order of the tests does not matter
      by_cases h : tokenIs q (ascii "rle") = true
      · rw [if_pos h]
        cases mode with
        | rle => simp only [CaptureMode.keyword, h, hrle, true_and, and_true]
        | clocked =>
          have hother : tokenIs q (ascii "clocked") = false := by
            by_contra hc
            rw [tokenIs_rle (Bool.eq_true_of_not_eq_false hc)] at h
            exact Bool.false_ne_true h
          simp [CaptureMode.keyword, hother]
      · rw [if_neg h]
        cases mode with
        | rle => split <;> simp [CaptureMode.keyword, h]
        | clocked =>
          split
          · rename_i hc
            simp only [CaptureMode.keyword, hc, hclocked, true_and, and_true]
          · rename_i hc
            simp [CaptureMode.keyword, hc]
    · rw [if_pos hgap]
      exact ⟨fun h => absurd h.1 Bool.false_ne_true, fun h => absurd h.1 hgap⟩
  · rw [if_pos (mt matched_eq_length_iff.mp hpre)]
    exact ⟨fun h => absurd h.1 Bool.false_ne_true, fun ⟨p, hp, _⟩ => absurd ⟨p, hp.symm⟩ hpre⟩

theorem parse_spells {line : List UInt8} (h : (parse line).valid = true) :
    Spells (trimmed line) (parse line).mode := by
  obtain ⟨p, hp, hhead, htoken, hend⟩ := parse_iff.mp ⟨h, rfl⟩
  obtain ⟨gap, hgap, hblank, some_gap⟩ := gap_of_head hhead
  obtain ⟨rest, hrest, -⟩ := tokenIs_iff.mp htoken
  rw [hrest, List.drop_left] at hend
  have hblank' : Blank rest := List.dropWhile_eq_nil_iff.mp (List.isEmpty_iff.mp hend)
  have hline : trimmed line =
      (trimmed line).takeWhile isBlank ++ ascii "!mode" ++ gap ++ (parse line).mode.keyword ++ rest :=
    calc trimmed line = (trimmed line).takeWhile isBlank ++ (trimmed line).dropWhile isBlank :=
          List.takeWhile_append_dropWhile.symm
      _ = (trimmed line).takeWhile isBlank ++ (ascii "!mode" ++ (gap ++ ((parse line).mode.keyword ++ rest))) := by
          rw [← hrest, ← hgap, ← hp]
      _ = _ := by simp only [List.append_assoc]
  obtain rfl := trimmed_last hline hblank'
  rw [List.append_nil] at hline
  rw [hline]
  exact .line (fun _ => List.mem_takeWhile_imp) hblank some_gap _

theorem spells_parse {line : List UInt8} {mode : CaptureMode} (h : Spells (trimmed line) mode) :
    (parse line).valid = true ∧ (parse line).mode = mode := by
  obtain ⟨body, hbody⟩ : ∃ body, trimmed line = body := ⟨_, rfl⟩
  rw [hbody] at h
  cases h with
  | @line lead gap hlead hgap some_gap =>
    have hskip : (gap ++ mode.keyword).dropWhile isBlank = mode.keyword := by
      rw [dropWhile_blank hgap, dropWhile_keyword]
    refine parse_iff.mpr ⟨gap ++ mode.keyword, ?_, ?_, ?_, ?_⟩
    · rw [hbody, List.append_assoc, List.append_assoc, dropWhile_blank hlead]
      rfl
    · cases gap with
      | nil => exact absurd rfl some_gap
      | cons b gap => exact hgap b List.mem_cons_self
    · rw [hskip, tokenIs_iff]
      exact ⟨[], (List.append_nil _).symm, .inl rfl⟩
    · rw [hskip, List.drop_length]
      rfl

-- ---------------------------------------------------------------------------
-- Reads
-- ---------------------------------------------------------------------------

/-- The trailing trim, down from `len`. -/
def trimAt (buf : List UInt8) : Nat → Option Nat
  | 0 => some 0
  | len + 1 => do
    let b ← buf[len]?
    if isEnd b || isBlank b then trimAt buf len else some (len + 1)

def skipAt (buf : List UInt8) (stop p : Nat) : Option Nat :=
  if p < stop then do
    let b ← buf[p]?
    if isBlank b then skipAt buf stop (p + 1) else some p
  else some p
termination_by stop - p

/-- The scan of `kw` at `p`; `kw[i]` is its byte or the NUL behind them. -/
def matchedAt (buf : List UInt8) (stop p : Nat) : List UInt8 → Option Nat
  | [] => some 0
  | k :: kw =>
    if p < stop then do
      let b ← buf[p]?
      if b = k then (matchedAt buf stop (p + 1) kw).map (· + 1) else some 0
    else some 0

def blankAt (buf : List UInt8) (p : Nat) : Option Bool := buf[p]?.map isBlank

def tokenIsAt (buf : List UInt8) (stop p : Nat) (kw : List UInt8) : Option Bool := do
  let i ← matchedAt buf stop p kw
  if i ≠ kw.length then some false
  else if p + i = stop then some true
  else blankAt buf (p + i)

/-- `p >= end`, or no blank. -/
def gapAt (buf : List UInt8) (stop p : Nat) : Option Bool := if p < stop then blankAt buf p else some false

/-- The mode, which only blanks may follow. -/
def modeAt (buf : List UInt8) (stop p : Nat) : Option Command := do
  if ← tokenIsAt buf stop p (ascii "rle") then
    let p ← skipAt buf stop (p + 3)
    some { valid := p = stop, mode := .rle }
  else if ← tokenIsAt buf stop p (ascii "clocked") then
    let p ← skipAt buf stop (p + 7)
    some { valid := p = stop, mode := .clocked }
  else some { valid := false, mode := .rle }

/-- `parse`, with `p` and `end` as offsets of the line. -/
def parseAt (buf : List UInt8) : Option Command := do
  let r : Command := { valid := false, mode := .rle }
  let stop ← trimAt buf buf.length
  let p ← skipAt buf stop 0
  let pre := ascii "!mode"
  let i ← matchedAt buf stop p pre
  if i ≠ pre.length then some r
  else if ¬ (← gapAt buf stop (p + i)) then some r
  else modeAt buf stop (← skipAt buf stop (p + i))

theorem trimAt_eq {buf : List UInt8} {len : Nat} (hlen : len ≤ buf.length) :
    trimAt buf len = some (trimmed (buf.take len)).length := by
  induction len with
  | zero => rfl
  | succ len ih =>
    have hlt : len < buf.length := hlen
    have hread : buf[len]? = some buf[len] := List.getElem?_eq_getElem hlt
    have htake : buf.take (len + 1) = buf.take len ++ [buf[len]] := List.take_succ_eq_append_getElem hlt
    rw [trimAt, hread, Option.bind_eq_bind, Option.bind_some, htake, trimmed, List.rdropWhile_concat]
    split
    · exact ih hlt.le
    · rw [List.length_append, List.length_take_of_le hlt.le]
      rfl

section

variable {buf body : List UInt8} (hbody : body <+: buf) {p : Nat}
include hbody

/-- A read in front of `end`. -/
theorem read_eq (hp : p < body.length) : ∃ b, buf[p]? = some b ∧ body.drop p = b :: body.drop (p + 1) :=
  ⟨body[p], by rw [← List.prefix_iff_getElem?.mp hbody p hp], List.drop_eq_getElem_cons hp⟩

theorem skipAt_eq (hp : p ≤ body.length) :
    ∃ q, skipAt buf body.length p = some q ∧ q ≤ body.length ∧ body.drop q = (body.drop p).dropWhile isBlank := by
  induction hn : body.length - p generalizing p with
  | zero =>
    have hstop : ¬ p < body.length := by omega
    refine ⟨p, ?_, hp, ?_⟩
    · rw [skipAt, if_neg hstop]
    · rw [List.drop_eq_nil_of_le (by omega)]
      rfl
  | succ n ih =>
    have hlt : p < body.length := by omega
    obtain ⟨b, hread, hdrop⟩ := read_eq hbody hlt
    rw [skipAt, if_pos hlt, hread, Option.bind_eq_bind, Option.bind_some, hdrop, List.dropWhile_cons]
    split
    · exact ih hlt (by omega)
    · exact ⟨p, rfl, hp, hdrop⟩

theorem matchedAt_eq (kw : List UInt8) (hp : p ≤ body.length) :
    matchedAt buf body.length p kw = some (matched (body.drop p) kw) := by
  induction kw generalizing p with
  | nil => rw [matchedAt, matched]; simp
  | cons k kw ih =>
    rw [matchedAt]
    by_cases hlt : p < body.length
    · obtain ⟨b, hread, hdrop⟩ := read_eq hbody hlt
      rw [if_pos hlt, hread, Option.bind_eq_bind, Option.bind_some, hdrop, matched, ih hlt]
      split <;> rfl
    · rw [if_neg hlt, List.drop_eq_nil_of_le (not_lt.mp hlt), matched]
      simp

theorem blankAt_eq (hp : p < body.length) : blankAt buf p = some ((body.drop p).head?.any isBlank) := by
  obtain ⟨b, hread, hdrop⟩ := read_eq hbody hp
  rw [blankAt, hread, hdrop]
  rfl

theorem tokenIsAt_eq (kw : List UInt8) (hp : p ≤ body.length) :
    tokenIsAt buf body.length p kw = some (tokenIs (body.drop p) kw) := by
  have hle := matched_le_left (body.drop p) kw
  rw [List.length_drop] at hle
  rw [tokenIsAt, matchedAt_eq hbody kw hp, Option.bind_eq_bind, Option.bind_some, tokenIs]
  generalize matched (body.drop p) kw = i at hle
  by_cases hi : i = kw.length
  · rw [if_neg (not_not.mpr hi)]
    by_cases hstop : p + i = body.length
    · have hlen : (body.drop p).length = i := by rw [List.length_drop]; omega
      rw [if_pos hstop, decide_eq_true ⟨hi, .inl hlen⟩]
    · have hlen : (body.drop p).length ≠ i := by rw [List.length_drop]; omega
      have hhead : (body.drop (p + i)).head? = (body.drop p)[i]? := by
        rw [← List.drop_drop, List.head?_drop]
      rw [if_neg hstop, blankAt_eq hbody (by omega), hhead]
      cases hblank : (body.drop p)[i]?.any isBlank with
      | true => rw [decide_eq_true ⟨hi, .inr rfl⟩]
      | false => rw [decide_eq_false fun h => h.2.elim hlen Bool.false_ne_true]
  · rw [if_pos hi]
    simp [hi]

end

theorem trimmed_prefix (line : List UInt8) : trimmed line <+: line := List.rdropWhile_prefix _ _

theorem gapAt_eq {buf body : List UInt8} (hbody : body <+: buf) (p : Nat) :
    gapAt buf body.length p = some ((body.drop p).head?.any isBlank) := by
  rw [gapAt]
  split
  · rename_i hlt
    exact blankAt_eq hbody hlt
  · rename_i hge
    rw [List.drop_eq_nil_of_le (not_lt.mp hge)]
    rfl

/-- The blanks behind a token, which come to `end` or do not. -/
theorem skipAt_token {buf body : List UInt8} (hbody : body <+: buf) {p : Nat} (hp : p ≤ body.length)
    {kw : List UInt8} (htoken : tokenIs (body.drop p) kw = true) :
    ∃ q, skipAt buf body.length (p + kw.length) = some q ∧
      decide (q = body.length) = (((body.drop p).drop kw.length).dropWhile isBlank).isEmpty := by
  have hle : p + kw.length ≤ body.length := by
    obtain ⟨rest, hrest, -⟩ := tokenIs_iff.mp htoken
    have hlen := congrArg List.length hrest
    rw [List.length_drop, List.length_append] at hlen
    omega
  obtain ⟨q, hq, hqle, hdrop⟩ := skipAt_eq hbody hle
  refine ⟨q, hq, ?_⟩
  rw [List.drop_drop, ← hdrop, Bool.eq_iff_iff, decide_eq_true_iff, List.isEmpty_iff, List.drop_eq_nil_iff]
  omega

theorem modeAt_eq {buf body : List UInt8} (hbody : body <+: buf) {p : Nat} (hp : p ≤ body.length) :
    modeAt buf body.length p = some
      (if tokenIs (body.drop p) (ascii "rle") then
        { valid := (((body.drop p).drop 3).dropWhile isBlank).isEmpty, mode := .rle }
      else if tokenIs (body.drop p) (ascii "clocked") then
        { valid := (((body.drop p).drop 7).dropWhile isBlank).isEmpty, mode := .clocked }
      else { valid := false, mode := .rle }) := by
  rw [modeAt]
  simp only [tokenIsAt_eq hbody _ hp, Option.bind_eq_bind, Option.bind_some]
  split
  · rename_i hrle
    obtain ⟨q, hq, hend⟩ := skipAt_token hbody hp hrle
    have hlen : (ascii "rle").length = 3 := rfl
    rw [hlen] at hq hend
    rw [hq, Option.bind_some, hend]
  · split
    · rename_i hclocked
      obtain ⟨q, hq, hend⟩ := skipAt_token hbody hp hclocked
      have hlen : (ascii "clocked").length = 7 := rfl
      rw [hlen] at hq hend
      rw [hq, Option.bind_some, hend]
    · rfl

/-- No read leaves the line. -/
theorem parseAt_eq (line : List UInt8) : parseAt line = some (parse line) := by
  have hbody := trimmed_prefix line
  have hstop : trimAt line line.length = some (trimmed line).length := by
    rw [trimAt_eq le_rfl, List.take_length]
  obtain ⟨body, heq⟩ : ∃ body, trimmed line = body := ⟨_, rfl⟩
  rw [heq] at hbody hstop
  obtain ⟨p, hp, hple, hlead⟩ := skipAt_eq hbody (Nat.zero_le _)
  rw [List.drop_zero] at hlead
  rw [trimmed] at heq
  rw [parse, heq, parseAt, hstop, ← hlead]
  simp only [Option.bind_eq_bind, Option.bind_some, hp, matchedAt_eq hbody _ hple]
  have hin := matched_le_left (body.drop p) (ascii "!mode")
  rw [List.length_drop] at hin
  by_cases hpre : matched (body.drop p) (ascii "!mode") = (ascii "!mode").length
  · rw [hpre] at hin ⊢
    rw [if_neg (not_not.mpr rfl), if_neg (not_not.mpr rfl), gapAt_eq hbody, Option.bind_some, List.drop_drop]
    obtain ⟨q, hq, hqle, hgap⟩ := skipAt_eq hbody (p := p + (ascii "!mode").length) (by omega)
    rw [hq, Option.bind_some, modeAt_eq hbody hqle, hgap]
    exact (apply_ite some _ _ _).symm
  · rw [if_pos hpre, if_pos hpre]

/-- `parse` is valid on exactly the lines of the grammar, with the mode they name,
and reads nothing but the line. -/
theorem parse_accepts_mode_lines (line : List UInt8) :
    (∀ mode, Spells (trimmed line) mode ↔ (parse line).valid = true ∧ (parse line).mode = mode) ∧
      parseAt line = some (parse line) :=
  ⟨fun _ => ⟨spells_parse, fun ⟨hvalid, hmode⟩ => hmode ▸ parse_spells hvalid⟩, parseAt_eq line⟩

end Tapioca.ModeCmd

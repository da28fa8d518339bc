-- SUMMARY: How mdioctl finds the reply to its command among the lines of the device: `parse_resp` and its patterns.
import Tapioca.Lib.Pattern
import Tapioca.Mdio.BridgeReplies
import Tapioca.Host.Mdioctl

/-!
# The replies mdioctl reads

`parse_resp` goes through the lines and takes the first that two patterns know as a
reply with its own verb and path. Numbers come back as text: decimal, or behind `0x`.
-/

namespace Tapioca.Host.Mdioctl

open Mdio (Response)
open Mdio.UsbBridge RecordFramer
open Lib (Pattern)
open Lib.Numeral (Spells)
open Lib.Pattern (Groups)

/-- `\s`, and what `strip` takes off, among the characters of a byte. -/
def isSpace (c : Char) : Bool :=
  (9 ≤ c.toNat ∧ c.toNat ≤ 13) ∨ (28 ≤ c.toNat ∧ c.toNat ≤ 32) ∨ c.toNat = 0x85 ∨ c.toNat = 0xA0

/-- `\d` -/
def isDigit (c : Char) : Bool := '0' ≤ c ∧ c ≤ '9'

/-- `[0-9A-Fa-f]` -/
def isHexDigit (c : Char) : Bool := isDigit c ∨ ('A' ≤ c ∧ c ≤ 'F') ∨ ('a' ≤ c ∧ c ≤ 'f')

def strip (s : List Char) : List Char := (s.dropWhile isSpace).rdropWhile isSpace

/-! ## The patterns -/

/-- `(?::(\d+))?` -/
def MMD_RE : Pattern := .opt (.seq (.str [':']) (.group 3 (.plus isDigit)))

/-- `/((?:0x)?[0-9A-Fa-f]+)` -/
def REG_RE : Pattern := .seq (.str ['/']) (.group 4 (.seq (.opt (.str ['0', 'x'])) (.plus isHexDigit)))

/-- `(\d+)`, MMD_RE and REG_RE, the groups numbered as behind the verb. -/
def PATH_RE : Pattern := .seq (.group 2 (.plus isDigit)) (.seq MMD_RE REG_RE)

/-- `^(read|write)\s+` PATH_RE `\s+`, and a tail. -/
def reply (tail : Pattern) : Pattern :=
  .seq (.group 1 (.alt (.str "read".toList) (.str "write".toList))) <|
    .seq (.plus isSpace) <| .seq PATH_RE <| .seq (.plus isSpace) tail

/-- `(?:0x([0-9A-Fa-f]+)|ok)$` -/
def valueOrOk : Pattern :=
  .seq (.alt (.seq (.str ['0', 'x']) (.group 5 (.plus isHexDigit))) (.str ['o', 'k'])) .atEnd

/-- A value or `ok` behind a verb and a path. -/
def RE_OK : Pattern := reply valueOrOk

/-- `err\s+(\S+)$`, the word in group `i`. -/
def errWord (i : Nat) : Pattern :=
  .seq (.str ['e', 'r', 'r']) (.seq (.plus isSpace) (.seq (.group i (.plus (!isSpace ·))) .atEnd))

/-- An error behind a verb and a path. -/
def RE_ERR : Pattern := reply (errWord 5)

/-- `^err\s+(\S+)$` -/
def RE_GENERIC_ERR : Pattern := errWord 1

/-! ## Reading a reply -/

/-- `int(s, base)` of letters and digits; `none` is a `ValueError`. -/
def int (base : Nat) (s : List Char) : Option Nat := Lib.Numeral.read base s

/-- `int(s, 0)`: a prefix gives the base, and a decimal has no leading zero. -/
def int0 : List Char → Option Nat
  | '0' :: c :: s =>
    if c = 'x' then int 16 s
    else if c = 'b' ∨ c = 'B' then int 2 s
    else if (c :: s).all (· = '0') then some 0 else none
  | s => int 10 s

/-- `none` where a number does not convert. -/
def respMatches (m : Option Groups) (verb : Op) (t : Target) : Option Bool :=
  match m with
  | none => some false
  | some g =>
    if g.lookup 1 ≠ some verb.verb.toList then some false
    else do
      let rmmd ← match g.lookup 3 with
        | some s => (int 10 s).map some
        | none => some none
      let phy ← (g.lookup 2).bind (int 10)
      if phy ≠ t.phy ∨ rmmd ≠ t.mmd then return false
      let reg ← (g.lookup 4).bind int0
      return reg = t.reg

/-- The loop of `parse_resp`: the value, or the error word. -/
def parseRespFrom (verb : Op) (t : Target) (genericErr : Option (List Char)) :
    List (List Char) → Option (Option Nat × Option (List Char))
  | [] => some (none, some (genericErr.getD "no-response-from-device".toList))
  | s :: lines => do
    let m := RE_ERR.groups s
    if ← respMatches m verb t then return (none, m.bind (·.lookup 5))
    let m := RE_OK.groups s
    if ← respMatches m verb t then
      match m.bind (·.lookup 5) with
      | some ds => return (some (← int 16 ds), none)
      | none => return (some 0, none)
    match RE_GENERIC_ERR.groups s with
    | some g => parseRespFrom verb t (g.lookup 1) lines
    | none => parseRespFrom verb t genericErr lines

def parseResp (lines : List (List Char)) (verb : Op) (t : Target) : Option (Option Nat × Option (List Char)) :=
  parseRespFrom verb t none lines

/-- A reply as `converse` collects it. -/
def replyLine (r : Reply) : List Char := strip r.text.toList

/-! ## Characters -/

theorem char_le_iff (c d : Char) : c ≤ d ↔ c.toNat ≤ d.toNat := UInt32.le_iff_toNat_le

theorem isHexDigit_of_isDigit {c : Char} (h : isDigit c = true) : isHexDigit c = true := by
  simp [isHexDigit, h]

theorem isSpace_of_isHexDigit {c : Char} (h : isHexDigit c = true) : isSpace c = false := by
  simp only [isHexDigit, isDigit, char_le_iff, decide_eq_true_eq, Bool.decide_or, Bool.or_eq_true, Bool.decide_and,
    Bool.and_eq_true, Char.reduceToNat] at h
  simp only [isSpace, decide_eq_false_iff_not]
  omega

theorem isDigit_digits : ∀ d < 10, isDigit d.digitChar = true ∧ isDigit d.digitChar.toUpper = true := by decide

theorem isHexDigit_digits : ∀ d < 16, isHexDigit d.digitChar = true ∧ isHexDigit d.digitChar.toUpper = true := by
  decide

theorem isDigit_of_spells {cs : List Char} {n : Nat} (h : Spells 10 cs n) : ∀ c ∈ cs, isDigit c = true :=
  h.forall_mem isDigit_digits

theorem isHexDigit_of_spells {cs : List Char} {n : Nat} (h : Spells 16 cs n) : ∀ c ∈ cs, isHexDigit c = true :=
  h.forall_mem isHexDigit_digits

/-! ## What the bridge prints -/

theorem spells_hex4 (v : UInt16) : Spells 16 (hex4 v).toList v.toNat := by
  have hdigit : ∀ d : UInt16, Lib.Numeral.CharDigit 16 (Nat.digitChar (d &&& 0xF).toNat).toUpper (d.toNat % 16) := by
    intro d
    have hlow : (d &&& 0xF).toNat = d.toNat % 16 := Nat.and_two_pow_sub_one_eq_mod _ 4
    exact ⟨Nat.mod_lt _ (by omega), .inr (by rw [hlow])⟩
  have hspells := Lib.Numeral.spells_four (hdigit (v >>> 12)) (hdigit (v >>> 8)) (hdigit (v >>> 4)) (hdigit v)
  have hvalue : v.toNat % 16 + 16 * ((v >>> 4).toNat % 16 + 16 * ((v >>> 8).toNat % 16 +
      16 * ((v >>> 12).toNat % 16))) = v.toNat := by
    have hlt := v.toNat_lt
    simp only [UInt16.toNat_shiftRight, UInt16.reduceToNat, Nat.shiftRight_eq_div_pow, Nat.reduceMod, Nat.reducePow]
    omega
  rw [hvalue] at hspells
  rw [hex4, String.toList_ofList]
  exact hspells

theorem toList_toString (n : Nat) : (toString n).toList = Nat.toDigits 10 n := by
  rw [Nat.toString_eq_ofList_toDigits, String.toList_ofList]

theorem toList_toString_uint8 (n : UInt8) : (toString n).toList = Nat.toDigits 10 n.toNat := toList_toString n.toNat

theorem toList_toString_uint16 (n : UInt16) : (toString n).toList = Nat.toDigits 10 n.toNat := toList_toString n.toNat

/-- The register of a path. -/
def regText (p : Path) : List Char :=
  if p.mmdAccess then '0' :: 'x' :: (hex4 p.reg).toList else Nat.toDigits 10 p.reg.toNat

/-- The MMD of a path. -/
def mmdText (p : Path) : List Char := if p.mmdAccess then ':' :: Nat.toDigits 10 p.mmd.toNat else []

theorem toList_path (p : Path) :
    p.text.toList = Nat.toDigits 10 p.phy.toNat ++ (mmdText p ++ '/' :: regText p) := by
  rw [Path.text, mmdText, regText]
  cases p.mmdAccess
  · simp [String.toList_append, toList_toString_uint8, toList_toString_uint16]
  · simp [String.toList_append, toList_toString_uint8]

/-! ## A path is matched -/

/-- The groups of a path, behind those there are. -/
def pathGroups (p : Path) (g : Groups) : Groups :=
  (4, regText p) :: ((if p.mmdAccess then [(3, Nat.toDigits 10 p.mmd.toNat)] else []) ++
    (2, Nat.toDigits 10 p.phy.toNat) :: g)

theorem spells_decimal (n : Nat) : Spells 10 (Nat.toDigits 10 n) n := Lib.Numeral.spells_toDigits (by omega) n

theorem digits_ne_nil (n : Nat) : Nat.toDigits 10 n ≠ [] := (spells_decimal n).ne_nil

theorem isDigit_decimal (n : Nat) : ∀ c ∈ Nat.toDigits 10 n, isDigit c = true := isDigit_of_spells (spells_decimal n)

section Matching

variable {α : Type} {g : Groups} {tail : List Char} {k : Groups → List Char → Option α}

theorem isSpace_of_isDigit {c : Char} (h : isDigit c = true) : isSpace c = false :=
  isSpace_of_isHexDigit (isHexDigit_of_isDigit h)

theorem ne_of_isDigit {c d : Char} (hc : isDigit c = true) (hd : isDigit d = false) : d ≠ c := by
  rintro rfl
  rw [hc] at hd
  cases hd

/-- No `0x` stands in front of a decimal. -/
theorem run_mark_decimal {ds : List Char} (hne : ds ≠ []) (hds : ∀ c ∈ ds, isDigit c = true) :
    (Pattern.str ['0', 'x']).run g (ds ++ ' ' :: tail) k = none := by
  have hmark : List.isPrefixOf ['0', 'x'] (ds ++ ' ' :: tail) = false := by
    rcases ds with _ | ⟨c, _ | ⟨d, ds⟩⟩
    · exact absurd rfl hne
    · simp [List.isPrefixOf]
    · have hd : 'x' ≠ d := ne_of_isDigit (hds d (by simp)) (by decide)
      simp [List.isPrefixOf, hd]
  rw [Pattern.run, hmark, if_neg Bool.false_ne_true]

/-- `hk`: white space has to follow. -/
theorem run_regText (p : Path) (hk : ∀ g s, (∀ c ∈ s.head?, isSpace c = false) → k g s = none) :
    (Pattern.seq (.opt (.str ['0', 'x'])) (.plus isHexDigit)).run g (regText p ++ ' ' :: tail) k = k g (' ' :: tail) := by
  have hspace : ∀ c ∈ (' ' :: tail).head?, isHexDigit c = false := by
    intro c hc
    obtain rfl : ' ' = c := Option.some_inj.mp hc
    decide
  have hhex : ∀ c s, isHexDigit c = true → k g (c :: s) = none := by
    intro c s hc
    refine hk _ _ fun d hd => ?_
    obtain rfl : c = d := Option.some_inj.mp hd
    exact isSpace_of_isHexDigit hc
  rw [Pattern.run_seq, Pattern.run_opt, regText]
  cases p.mmdAccess
  · have hdigits := isDigit_decimal p.reg.toNat
    rw [if_neg Bool.false_ne_true, run_mark_decimal (digits_ne_nil _) hdigits, Option.none_or, Pattern.run_plus]
    exact Pattern.runPlus_span (digits_ne_nil _) (fun c hc => isHexDigit_of_isDigit (hdigits c hc)) hspace hhex
  · have hfour := spells_hex4 p.reg
    have hmarked := Pattern.runPlus_span hfour.ne_nil (isHexDigit_of_spells hfour) hspace hhex
    -- without the mark only its `0` is left to match
    have hunmarked : ∀ s, Pattern.runPlus isHexDigit (k g) ('0' :: 'x' :: s) = none := by
      intro s
      have hx : k g ('x' :: s) = none := by
        refine hk _ _ fun d hd => ?_
        obtain rfl : 'x' = d := Option.some_inj.mp hd
        decide
      rw [Pattern.runPlus, if_pos (by decide), Pattern.runPlus, if_neg (by decide), hx, Option.none_or]
    rw [if_pos rfl, Pattern.run_plus, List.cons_append, List.cons_append, hunmarked, Option.or_none]
    generalize (hex4 p.reg).toList ++ ' ' :: tail = rest at hmarked
    exact (Pattern.run_str ['0', 'x'] rest).trans hmarked

theorem run_REG_RE (p : Path) (hk : ∀ g s, (∀ c ∈ s.head?, isSpace c = false) → k g s = none) :
    REG_RE.run g ('/' :: (regText p ++ ' ' :: tail)) k = k ((4, regText p) :: g) (' ' :: tail) := by
  rw [REG_RE, Pattern.run_seq]
  refine (Pattern.run_str ['/'] (regText p ++ ' ' :: tail)).trans ?_
  rw [Pattern.run_group, run_regText p fun _ s hs => hk _ s hs, Pattern.take_sub_length]

theorem run_REG_RE_ne {c : Char} (hc : '/' ≠ c) (s : List Char) : REG_RE.run g (c :: s) k = none := by
  rw [REG_RE, Pattern.run_seq, Pattern.run_str_ne _ _ hc]

/-- What follows the first number of a path takes no digit. -/
theorem run_MMD_RE_digit {c : Char} (hc : isDigit c = true) (s : List Char) :
    (MMD_RE.run g (c :: s) fun g s => REG_RE.run g s k) = none := by
  rw [MMD_RE, Pattern.run_opt, Pattern.run_seq, Pattern.run_str_ne _ _ (ne_of_isDigit hc (by decide)),
    Option.none_or, run_REG_RE_ne (ne_of_isDigit hc (by decide))]

/-- A path is matched whole, where white space has to follow. -/
theorem run_path (p : Path) (hk : ∀ g s, (∀ c ∈ s.head?, isSpace c = false) → k g s = none) :
    PATH_RE.run g (p.text.toList ++ ' ' :: tail) k = k (pathGroups p g) (' ' :: tail) := by
  have hhead : ∀ c ∈ (mmdText p ++ '/' :: (regText p ++ ' ' :: tail)).head?, isDigit c = false := by
    intro c hc
    rw [mmdText] at hc
    cases hmmd : p.mmdAccess <;> rw [hmmd] at hc <;> obtain rfl := Option.some_inj.mp hc <;> decide
  have htext : p.text.toList ++ ' ' :: tail =
      Nat.toDigits 10 p.phy.toNat ++ (mmdText p ++ '/' :: (regText p ++ ' ' :: tail)) := by
    rw [toList_path]
    simp only [List.append_assoc, List.cons_append]
  rw [htext, PATH_RE, Pattern.run_seq, Pattern.run_group_plus 2 (digits_ne_nil _) (isDigit_decimal _) hhead
    fun g c s hc => run_MMD_RE_digit hc s, Pattern.run_seq, MMD_RE, Pattern.run_opt, Pattern.run_seq, pathGroups,
    mmdText]
  cases p.mmdAccess
  · rw [if_neg Bool.false_ne_true, if_neg Bool.false_ne_true, List.nil_append, List.nil_append,
      Pattern.run_str_ne _ _ (by decide), Option.none_or, run_REG_RE p hk]
  · have hslash : ∀ c ∈ ('/' :: (regText p ++ ' ' :: tail)).head?, isDigit c = false := by
      intro c hc
      obtain rfl := Option.some_inj.mp hc
      decide
    -- a colon, so the optional part takes a number and what follows it is the slash
    have hmmd := Pattern.run_group_plus (g := (2, Nat.toDigits 10 p.phy.toNat) :: g)
      (k := fun g s => REG_RE.run g s k) 3 (digits_ne_nil p.mmd.toNat) (isDigit_decimal _) hslash
      fun g c s hc => run_REG_RE_ne (ne_of_isDigit hc (by decide)) s
    rw [if_pos rfl, if_pos rfl, List.cons_append, run_REG_RE_ne (by decide), Option.or_none]
    exact (Pattern.run_str [':'] _).trans (hmmd.trans (run_REG_RE p hk))

theorem run_verb {op : Op} (hop : op = .read ∨ op = .write) (rest : List Char) :
    (Pattern.group 1 (.alt (.str "read".toList) (.str "write".toList))).run g (op.verb.toList ++ rest) k =
      k ((1, op.verb.toList) :: g) rest := by
  have hread : "read".toList = ['r', 'e', 'a', 'd'] := rfl
  have hwrite : "write".toList = ['w', 'r', 'i', 't', 'e'] := rfl
  rw [Pattern.run_group, Pattern.run_alt]
  rcases hop with rfl | rfl
  · rw [Op.verb, Pattern.run_str, Pattern.take_sub_length, hread, hwrite, List.cons_append,
      Pattern.run_str_ne _ _ (by decide), Option.or_none]
  · rw [Op.verb, Pattern.run_str, Pattern.take_sub_length, hread, hwrite, List.cons_append,
      Pattern.run_str_ne _ _ (by decide), Option.none_or]

/-- A verb and a path are matched, and the tail is left. -/
theorem groups_reply {op : Op} (hop : op = .read ∨ op = .write) (p : Path) (t : Pattern)
    (htail : ∀ c ∈ tail.head?, isSpace c = false) :
    (reply t).groups (op.verb.toList ++ ' ' :: (p.text.toList ++ ' ' :: tail)) =
      t.run (pathGroups p [(1, op.verb.toList)]) tail fun g _ => some g := by
  have hphy : ∀ c ∈ (p.text.toList ++ ' ' :: tail).head?, isSpace c = false := by
    intro c hc
    rw [toList_path, List.append_assoc, List.head?_append_of_ne_nil _ (digits_ne_nil _)] at hc
    exact isSpace_of_isDigit (isDigit_decimal _ c (List.mem_of_mem_head? hc))
  rw [Pattern.groups, reply, Pattern.run_seq, run_verb hop, Pattern.run_seq, Pattern.run_plus,
    Pattern.runPlus_one (by decide) hphy, Pattern.run_seq, run_path]
  · rw [Pattern.run_seq, Pattern.run_plus, Pattern.runPlus_one (by decide) htail]
  · intro g s hs
    rw [Pattern.run_seq, Pattern.run_plus, Pattern.runPlus_ne hs]

theorem run_hex_end (i : Nat) {cs : List Char} {n : Nat} (h : Spells 16 cs n) :
    (Pattern.group i (.plus isHexDigit)).run g cs (fun g s => Pattern.atEnd.run g s k) = k ((i, cs) :: g) [] := by
  have hbreak : ∀ c, isHexDigit c = true → c ≠ '\n' := by
    rintro c hc rfl
    exact absurd hc (by decide)
  have hend : ∀ c ∈ ([] : List Char).head?, isHexDigit c = false := by simp
  have hspan := Pattern.run_group_plus (g := g) (k := fun g s => Pattern.atEnd.run g s k) i h.ne_nil
    (isHexDigit_of_spells h) hend fun g c s hc => Pattern.run_atEnd_cons (hbreak c hc) s
  rwa [List.append_nil] at hspan

/-- A word up to the end. -/
def Word (cs : List Char) : Prop := cs ≠ [] ∧ ∀ c ∈ cs, isSpace c = false

theorem word_of_all {c : Char} {cs : List Char} (h : ((c :: cs).all (!isSpace ·)) = true) : Word (c :: cs) := by
  refine ⟨List.cons_ne_nil _ _, fun d hd => ?_⟩
  have hall := List.all_eq_true.mp h d hd
  rwa [Bool.not_eq_true'] at hall

theorem run_errWord (i : Nat) {cs : List Char} (h : Word cs) :
    (errWord i).run g ('e' :: 'r' :: 'r' :: ' ' :: cs) k = k ((i, cs) :: g) [] := by
  have hbreak : ∀ c, (!isSpace c) = true → c ≠ '\n' := by
    rintro c hc rfl
    exact absurd hc (by decide)
  have hend : ∀ c ∈ ([] : List Char).head?, (!isSpace c) = false := by simp
  have hword : ∀ c ∈ cs, (!isSpace c) = true := fun c hc => by rw [h.2 c hc, Bool.not_false]
  have hspan := Pattern.run_group_plus (g := g) (k := fun g s => Pattern.atEnd.run g s k) i h.1 hword hend
    fun g c s hc => Pattern.run_atEnd_cons (hbreak c hc) s
  rw [List.append_nil] at hspan
  rw [errWord, Pattern.run_seq]
  refine (Pattern.run_str ['e', 'r', 'r'] (' ' :: cs)).trans ?_
  have hhead : ∀ c ∈ cs.head?, isSpace c = false := fun c hc => h.2 c (List.mem_of_mem_head? hc)
  rw [Pattern.run_seq, Pattern.run_plus, Pattern.runPlus_one (by decide) hhead, Pattern.run_seq]
  exact hspan

theorem run_errWord_ne (i : Nat) {c : Char} (hc : 'e' ≠ c) (s : List Char) : (errWord i).run g (c :: s) k = none := by
  rw [errWord, Pattern.run_seq, Pattern.run_str_ne _ _ hc]

theorem run_value {cs : List Char} {n : Nat} (h : Spells 16 cs n) :
    (valueOrOk.run g ('0' :: 'x' :: cs) fun g _ => some g) = some ((5, cs) :: g) := by
  have hmark : '0' :: 'x' :: cs = ['0', 'x'] ++ cs := rfl
  rw [valueOrOk, Pattern.run_seq, Pattern.run_alt, Pattern.run_seq, hmark, Pattern.run_str, run_hex_end 5 h,
    Option.some_or]

theorem run_ok : (valueOrOk.run g ['o', 'k'] fun g _ => some g) = some g := by
  rw [valueOrOk, Pattern.run_seq, Pattern.run_alt, Pattern.run_seq, Pattern.run_str_ne _ _ (by decide), Option.none_or]
  exact Pattern.run_str ['o', 'k'] []

theorem run_valueOrOk_err (s : List Char) : valueOrOk.run g ('e' :: s) k = none := by
  rw [valueOrOk, Pattern.run_seq, Pattern.run_alt, Pattern.run_seq, Pattern.run_str_ne _ _ (by decide), Option.none_or,
    Pattern.run_str_ne _ _ (by decide)]

end Matching

/-! ## The lines of the device -/

/-- A reply to a command: its answer, or that the bridge is busy. -/
def ReplyTo (c : Command) (r : Reply) : Prop := (∃ a : Response, r = c.answered a) ∨ r = busy c

/-- A line of the device: a reply to a read or a write, or the complaint. -/
def DeviceReply (r : Reply) : Prop := r = .invalid ∨ ∃ c, (c.op = .read ∨ c.op = .write) ∧ ReplyTo c r

/-- The verb and the path of a reply. -/
def subject : Reply → Option (Op × Path)
  | .value p _ => some (.read, p)
  | .ok p => some (.write, p)
  | .err op p _ => some (op, p)
  | .invalid => none

/-- What follows them. -/
def remainder : Reply → List Char
  | .value _ v => '0' :: 'x' :: (hex4 v).toList
  | .ok _ => ['o', 'k']
  | .err _ _ why => 'e' :: 'r' :: 'r' :: ' ' :: why.toList
  | .invalid => []

/-- The verbs and the error words there are. -/
def WellFormed : Reply → Prop
  | .err op _ why => (op = .read ∨ op = .write) ∧ Word why.toList
  | _ => True

theorem word_statusErr (s : Mdio.Status) : Word (statusErr s).toList := by
  cases s <;> exact word_of_all (by decide)

theorem DeviceReply.wellFormed {r : Reply} (h : DeviceReply r) : WellFormed r := by
  rcases h with rfl | ⟨c, hop, ⟨a, rfl⟩ | rfl⟩
  · trivial
  · rw [Command.answered]
    split
    · split <;> trivial
    · exact ⟨hop, word_statusErr _⟩
  · exact ⟨hop, word_statusErr .pending⟩

theorem subject_of_replyTo {c : Command} {r : Reply} (hop : c.op = .read ∨ c.op = .write) (h : ReplyTo c r) :
    subject r = some (c.op, c.path) := by
  rcases h with ⟨a, rfl⟩ | rfl
  · rw [Command.answered]
    split
    · rcases hop with hop | hop <;> rw [hop] <;> rfl
    · rfl
  · rfl

/-- `strip` takes off the line ending. -/
theorem strip_line {s : List Char} (hne : s ≠ []) (hhead : ∀ c ∈ s.head?, isSpace c = false)
    (hlast : ∀ c ∈ s.getLast?, isSpace c = false) : strip (s ++ ['\r', '\n']) = s := by
  obtain ⟨c, s, rfl⟩ := List.exists_cons_of_ne_nil hne
  have hc : ¬ isSpace c = true := by simp [hhead c rfl]
  have hfront : (c :: s ++ ['\r', '\n']).dropWhile isSpace = c :: s ++ ['\r'] ++ ['\n'] := by
    rw [List.cons_append, List.dropWhile_cons_of_neg hc]
    simp
  have hback : (c :: s).rdropWhile isSpace = c :: s := by
    refine List.rdropWhile_eq_self_iff.mpr fun hne => ?_
    simp [hlast _ (List.getLast?_eq_some_getLast hne)]
  rw [strip, hfront, List.rdropWhile_concat_pos _ _ _ (by decide), List.rdropWhile_concat_pos _ _ _ (by decide), hback]

theorem subject_op {r : Reply} {op : Op} {p : Path} (hform : WellFormed r) (h : subject r = some (op, p)) :
    op = .read ∨ op = .write := by
  cases r with
  | value p' v => exact .inl (Prod.mk.inj (Option.some_inj.mp h)).1.symm
  | ok p' => exact .inr (Prod.mk.inj (Option.some_inj.mp h)).1.symm
  | err op' p' why =>
    obtain ⟨rfl, -⟩ := Prod.mk.inj (Option.some_inj.mp h)
    exact hform.1
  | invalid => cases h

/-- The last word of a reply. -/
theorem remainder_word {r : Reply} {op : Op} {p : Path} (hform : WellFormed r) (h : subject r = some (op, p)) :
    ∃ front word, remainder r = front ++ word ∧ Word word := by
  cases r with
  | value p' v =>
    have hfour := spells_hex4 v
    exact ⟨['0', 'x'], _, rfl, hfour.ne_nil, fun c hc => isSpace_of_isHexDigit (isHexDigit_of_spells hfour c hc)⟩
  | ok p' => exact ⟨[], ['o', 'k'], rfl, word_of_all (by decide)⟩
  | err op' p' why => exact ⟨['e', 'r', 'r', ' '], _, rfl, hform.2⟩
  | invalid => cases h

theorem text_eq {r : Reply} {op : Op} {p : Path} (h : subject r = some (op, p)) :
    r.text.toList = op.verb.toList ++ ' ' :: (p.text.toList ++ ' ' :: remainder r) ++ ['\r', '\n'] := by
  cases r with
  | value p' v =>
    obtain ⟨rfl, rfl⟩ := Prod.mk.inj (Option.some_inj.mp h)
    simp [Reply.text, remainder, Op.verb]
  | ok p' =>
    obtain ⟨rfl, rfl⟩ := Prod.mk.inj (Option.some_inj.mp h)
    simp [Reply.text, remainder, Op.verb]
  | err op' p' why =>
    obtain ⟨rfl, rfl⟩ := Prod.mk.inj (Option.some_inj.mp h)
    simp [Reply.text, remainder]
  | invalid => cases h

theorem replyLine_eq {r : Reply} {op : Op} {p : Path} (hform : WellFormed r) (h : subject r = some (op, p)) :
    replyLine r = op.verb.toList ++ ' ' :: (p.text.toList ++ ' ' :: remainder r) := by
  rw [replyLine, text_eq h]
  refine strip_line (by simp) ?_ ?_
  · rcases subject_op hform h with rfl | rfl <;> intro c hc <;> obtain rfl := Option.some_inj.mp hc <;> decide
  · obtain ⟨front, word, hword, hne, hspace⟩ := remainder_word hform h
    have hsplit : op.verb.toList ++ ' ' :: (p.text.toList ++ ' ' :: remainder r) =
        (op.verb.toList ++ ' ' :: (p.text.toList ++ ' ' :: front)) ++ word := by
      rw [hword]
      simp
    rw [hsplit, List.getLast?_append_of_ne_nil _ hne]
    exact fun c hc => hspace c (List.mem_of_getLast? hc)

theorem replyLine_invalid : replyLine .invalid = ['e', 'r', 'r', ' ', 'i', 'n', 'v', 'a', 'l', 'i', 'd'] := by
  have htext : Reply.invalid.text.toList = ['e', 'r', 'r', ' ', 'i', 'n', 'v', 'a', 'l', 'i', 'd'] ++ ['\r', '\n'] := rfl
  rw [replyLine, htext, strip_line (List.cons_ne_nil _ _) (by simp [isSpace]) (by simp [isSpace])]

/-! ## What the patterns find in them -/

/-- The groups of an error. -/
def errGroups (p : Path) (op : Op) : Reply → Option Groups
  | .err _ _ why => some ((5, why.toList) :: pathGroups p [(1, op.verb.toList)])
  | _ => none

/-- The groups of a value or an `ok`. -/
def okGroups (p : Path) (op : Op) : Reply → Option Groups
  | .value _ v => some ((5, (hex4 v).toList) :: pathGroups p [(1, op.verb.toList)])
  | .ok _ => some (pathGroups p [(1, op.verb.toList)])
  | _ => none

theorem remainder_head {r : Reply} {op : Op} {p : Path} (h : subject r = some (op, p)) :
    ∀ c ∈ (remainder r).head?, isSpace c = false := by
  intro c hc
  cases r with
  | value p' v => obtain rfl := Option.some_inj.mp hc; decide
  | ok p' => obtain rfl := Option.some_inj.mp hc; decide
  | err op' p' why => obtain rfl := Option.some_inj.mp hc; decide
  | invalid => cases h

theorem groups_err {r : Reply} {op : Op} {p : Path} (hform : WellFormed r) (h : subject r = some (op, p)) :
    RE_ERR.groups (replyLine r) = errGroups p op r := by
  rw [replyLine_eq hform h, RE_ERR, groups_reply (subject_op hform h) p _ (remainder_head h)]
  cases r with
  | value p' v => exact run_errWord_ne 5 (by decide) _
  | ok p' => exact run_errWord_ne 5 (by decide) _
  | err op' p' why => exact run_errWord 5 hform.2
  | invalid => cases h

theorem groups_ok {r : Reply} {op : Op} {p : Path} (hform : WellFormed r) (h : subject r = some (op, p)) :
    RE_OK.groups (replyLine r) = okGroups p op r := by
  rw [replyLine_eq hform h, RE_OK, groups_reply (subject_op hform h) p _ (remainder_head h)]
  cases r with
  | value p' v => exact run_value (spells_hex4 v)
  | ok p' => exact run_ok
  | err op' p' why => exact run_valueOrOk_err _
  | invalid => cases h

theorem groups_invalid (t : Pattern) : (reply t).groups (replyLine .invalid) = none := by
  have hread : "read".toList = ['r', 'e', 'a', 'd'] := rfl
  have hwrite : "write".toList = ['w', 'r', 'i', 't', 'e'] := rfl
  rw [replyLine_invalid, Pattern.groups, reply, Pattern.run_seq, Pattern.run_group, Pattern.run_alt, hread, hwrite,
    Pattern.run_str_ne _ _ (by decide), Pattern.run_str_ne _ _ (by decide), Option.none_or]

/-! ## Whose reply it is -/

/-- What a path addresses. -/
def pathKey (p : Path) : Nat × Option Nat × Nat :=
  (p.phy.toNat, if p.mmdAccess then some p.mmd.toNat else none, p.reg.toNat)

def Target.key (t : Target) : Nat × Option Nat × Nat := (t.phy, t.mmd, t.reg)

theorem int_decimal (n : Nat) : int 10 (Nat.toDigits 10 n) = some n := (spells_decimal n).read (by omega)

theorem int0_regText (p : Path) : int0 (regText p) = some p.reg.toNat := by
  rw [regText]
  cases p.mmdAccess
  · -- a decimal is not taken for anything else: it has no leading zero, or is just that
    rw [if_neg Bool.false_ne_true]
    rcases Nat.eq_zero_or_pos p.reg.toNat with hzero | hpos
    · rw [hzero]
      rfl
    · have hhead := Lib.Numeral.head_toDigits (by omega : 1 < 10) hpos
      have hint := int_decimal p.reg.toNat
      rw [int0]
      · exact hint
      · intro c s heq
        rw [heq] at hhead
        exact hhead rfl
  · exact (spells_hex4 p.reg).read le_rfl

theorem compare_key (phy : Nat) (mmd : Option Nat) (reg : Nat) (t : Target) :
    (if phy ≠ t.phy ∨ mmd ≠ t.mmd then some false else some (decide (reg = t.reg))) =
      some (decide ((phy, mmd, reg) = t.key)) := by
  simp only [Target.key, Prod.mk.injEq]
  grind

/-- A reply matches when verb and path are the ones asked for. -/
theorem respMatches_path {g : Groups} {op verb : Op} {p : Path} (t : Target)
    (hg : ∀ i < 5, g.lookup i = (pathGroups p [(1, op.verb.toList)]).lookup i) :
    respMatches (some g) verb t = some (decide (op = verb ∧ pathKey p = t.key)) := by
  have hverb : g.lookup 1 = some op.verb.toList := by
    rw [hg 1 (by omega), pathGroups]
    cases p.mmdAccess <;> rfl
  have hphy : g.lookup 2 = some (Nat.toDigits 10 p.phy.toNat) := by
    rw [hg 2 (by omega), pathGroups]
    cases p.mmdAccess <;> rfl
  have hmmd : g.lookup 3 = if p.mmdAccess then some (Nat.toDigits 10 p.mmd.toNat) else none := by
    rw [hg 3 (by omega), pathGroups]
    cases p.mmdAccess <;> rfl
  have hreg : g.lookup 4 = some (regText p) := by
    rw [hg 4 (by omega), pathGroups]
    rfl
  have hop : op.verb.toList = verb.verb.toList ↔ op = verb := by
    cases op <;> cases verb <;> decide
  rw [respMatches]
  by_cases hsame : op = verb
  · rw [if_neg (by simp [hverb, hsame]), hphy, hmmd, hreg]
    simp only [hsame, true_and, pathKey]
    cases p.mmdAccess <;> simp only [Bool.false_eq_true, if_true, if_false, int_decimal, int0_regText, Option.map_some,
      Option.bind_some, Option.bind_eq_bind, Option.pure_def, compare_key]
  · rw [if_pos]
    · simp [hsame]
    · rw [hverb]
      exact fun h => hsame (hop.mp (Option.some_inj.mp h))

/-- The word or the value does not hide the groups of the path. -/
theorem lookup_cons_five (word : List Char) (g : Groups) : ∀ i < 5, List.lookup i ((5, word) :: g) = g.lookup i := by
  intro i hi
  rw [List.lookup_cons, beq_eq_false_iff_ne.mpr (by omega : i ≠ 5)]

theorem respMatches_errGroups (r : Reply) (op verb : Op) (p : Path) (t : Target) :
    respMatches (errGroups p op r) verb t = some (decide ((errGroups p op r).isSome ∧ op = verb ∧ pathKey p = t.key)) := by
  cases r with
  | err op' p' why =>
    rw [errGroups, respMatches_path t (lookup_cons_five _ _)]
    simp
  | _ => simp [errGroups, respMatches]

theorem respMatches_okGroups (r : Reply) (op verb : Op) (p : Path) (t : Target) :
    respMatches (okGroups p op r) verb t = some (decide ((okGroups p op r).isSome ∧ op = verb ∧ pathKey p = t.key)) := by
  cases r with
  | value p' v =>
    rw [okGroups, respMatches_path t (lookup_cons_five _ _)]
    simp
  | ok p' =>
    rw [okGroups, respMatches_path t fun i _ => rfl]
    simp
  | _ => simp [okGroups, respMatches]

/-! ## The loop -/

/-- The reply is for a verb and a target. -/
def Addressed (r : Reply) (verb : Op) (t : Target) : Prop := ∃ p, subject r = some (verb, p) ∧ pathKey p = t.key

/-- What a reply says: the value, 0 for an `ok`, or the error word. -/
def outcome : Reply → Option Nat × Option (List Char)
  | .value _ v => (some v.toNat, none)
  | .ok _ => (some 0, none)
  | .err _ _ why => (none, some why.toList)
  | .invalid => (none, some "invalid".toList)

/-- A reply for another command is passed over; at most it leaves a generic error. -/
theorem parseRespFrom_skip {r : Reply} {verb : Op} {t : Target} (hform : WellFormed r) (hother : ¬ Addressed r verb t)
    (e : Option (List Char)) :
    ∃ e', ∀ lines, parseRespFrom verb t e (replyLine r :: lines) = parseRespFrom verb t e' lines := by
  obtain ⟨herr, hok⟩ : respMatches (RE_ERR.groups (replyLine r)) verb t = some false ∧
      respMatches (RE_OK.groups (replyLine r)) verb t = some false := by
    cases hsubject : subject r with
    | none =>
      cases r with
      | invalid =>
        rw [RE_ERR, RE_OK, groups_invalid, groups_invalid]
        exact ⟨rfl, rfl⟩
      | _ => cases hsubject
    | some s =>
      obtain ⟨op, p⟩ := s
      -- both patterns may know the line, but it names another command
      have hne : ¬ (op = verb ∧ pathKey p = t.key) := by
        rintro ⟨rfl, hkey⟩
        exact hother ⟨p, hsubject, hkey⟩
      rw [groups_err hform hsubject, groups_ok hform hsubject, respMatches_errGroups, respMatches_okGroups]
      simp [hne]
  cases hgeneric : RE_GENERIC_ERR.groups (replyLine r) with
  | none => exact ⟨e, fun lines => by simp [parseRespFrom, herr, hok, hgeneric]⟩
  | some g => exact ⟨g.lookup 1, fun lines => by simp [parseRespFrom, herr, hok, hgeneric]⟩

/-- The reply to the command ends the search. -/
theorem parseRespFrom_hit {r : Reply} {verb : Op} {t : Target} (hform : WellFormed r) (hmine : Addressed r verb t)
    (e : Option (List Char)) (lines : List (List Char)) :
    parseRespFrom verb t e (replyLine r :: lines) = some (outcome r) := by
  obtain ⟨p, hsubject, hkey⟩ := hmine
  have hok := respMatches_okGroups r verb verb p t
  rw [parseRespFrom, groups_err hform hsubject, groups_ok hform hsubject, respMatches_errGroups]
  cases r with
  | value p' v =>
    have hvalue : int 16 (hex4 v).toList = some v.toNat := (spells_hex4 v).read le_rfl
    rw [okGroups] at hok
    simp [errGroups, okGroups, hok, hkey, hvalue, outcome]
  | ok p' =>
    have hnone : (pathGroups p [(1, verb.verb.toList)]).lookup 5 = none := by
      rw [pathGroups]
      cases p.mmdAccess <;> rfl
    rw [okGroups] at hok
    simp [errGroups, okGroups, hok, hkey, hnone, outcome]
  | err op' p' why => simp [errGroups, hkey, outcome]
  | invalid => cases hsubject

/-- Replies to other commands do not matter, wherever they stand. -/
theorem parseRespFrom_among {r : Reply} {verb : Op} {t : Target} (hform : WellFormed r) (hmine : Addressed r verb t)
    (before after : List Reply) (hother : ∀ o ∈ before, WellFormed o ∧ ¬ Addressed o verb t) (e : Option (List Char)) :
    parseRespFrom verb t e ((before ++ r :: after).map replyLine) = some (outcome r) := by
  induction before generalizing e with
  | nil => exact parseRespFrom_hit hform hmine e _
  | cons o before ih =>
    obtain ⟨⟨hwell, hnot⟩, hrest⟩ := List.forall_mem_cons.mp hother
    obtain ⟨e', hskip⟩ := parseRespFrom_skip hwell hnot e
    rw [List.cons_append, List.map_cons, hskip]
    exact ih hrest e'

/-- The path of a command is the target's. -/
theorem pathKey_command (t : Target) (op : Op) (val : UInt16) : pathKey (t.command op val).path = t.key := by
  obtain ⟨phy, mmd, reg, hphy, hmmd, hreg⟩ := t
  have hreg' : reg < 2 ^ 16 := by
    split at hreg <;> omega
  cases mmd with
  | none => simp [pathKey, Target.command, Command.path, Target.key]; omega
  | some m =>
    have hm := hmmd m rfl
    simp [pathKey, Target.command, Command.path, Target.key]
    omega

/-- The bridge takes a line of mdioctl for the command it was printed for, and mdioctl
finds the reply to it, whatever the bridge answers to others before and after. -/
theorem mdioctl_speaks_bridge (t : Target) (val : UInt16) :
    (parse (ascii (readLine t)) = t.command .read 0 ∧ parse (ascii (writeLine t val)) = t.command .write val ∧
      parse (ascii (printLine t.phy)) = { valid := true, op := .print, phy := UInt8.ofNat t.phy }) ∧
    ∀ c ∈ [t.command .read 0, t.command .write val], ∀ r, ReplyTo c r →
      ∀ before after : List Reply, (∀ o ∈ before ++ after, DeviceReply o ∧ ¬ Addressed o c.op t) →
        parseResp ((before ++ r :: after).map replyLine) c.op t = some (outcome r) := by
  refine ⟨⟨parse_readLine t, parse_writeLine t val, parse_printLine t.phy_le⟩, ?_⟩
  intro c hc r hr before after hothers
  obtain ⟨hop, hkey⟩ : (c.op = .read ∨ c.op = .write) ∧ pathKey c.path = t.key := by
    rcases List.mem_pair.mp hc with rfl | rfl
    · exact ⟨.inl rfl, pathKey_command t .read 0⟩
    · exact ⟨.inr rfl, pathKey_command t .write val⟩
  have hreply : DeviceReply r := .inr ⟨c, hop, hr⟩
  refine parseRespFrom_among hreply.wellFormed ⟨c.path, subject_of_replyTo hop hr, hkey⟩ before after ?_ none
  intro o ho
  obtain ⟨hdevice, hnot⟩ := hothers o (List.mem_append_left _ ho)
  exact ⟨hdevice.wellFormed, hnot⟩

/-- A write to 3:7/0x8000, answered behind a complaint and a reply to a read of 3/0. -/
theorem mdioctl_speaks_bridge_write :
    parseResp ([.invalid, .value ⟨3, false, 0, 0⟩ 0x1234, .ok ⟨3, true, 7, 0x8000⟩].map replyLine) .write
      ⟨3, some 7, 0x8000, by decide, by decide, by decide⟩ = some (some 0, none) := by
  refine (mdioctl_speaks_bridge ⟨3, some 7, 0x8000, by decide, by decide, by decide⟩ 0x0140).2 _
    (List.mem_cons_of_mem _ List.mem_cons_self) (.ok ⟨3, true, 7, 0x8000⟩) (.inl ⟨⟨.done, 0⟩, by decide⟩)
    [.invalid, .value ⟨3, false, 0, 0⟩ 0x1234] [] ?_
  intro o ho
  rw [List.append_nil] at ho
  rcases List.mem_pair.mp ho with rfl | rfl
  · exact ⟨.inl rfl, fun ⟨p, hp, _⟩ => by cases hp⟩
  · refine ⟨.inr ⟨printRead 3 0, .inl rfl, .inl ⟨⟨.done, 0x1234⟩, by decide⟩⟩, ?_⟩
    rintro ⟨p, hp, -⟩
    cases (Prod.mk.inj (Option.some_inj.mp hp)).1

end Tapioca.Host.Mdioctl

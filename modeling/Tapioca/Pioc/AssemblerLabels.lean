-- SUMMARY: Labels and the address pass of the assembler, and when what it accepts comes out as it was written.
import Tapioca.Pioc.AssemblerWords

/-!
# Labels

The words stand one behind the other, and the address of pass 1 is a word's index only
as long as every `ORG` names the place where it stands. Whatever stands behind an `ORG`
that does not is encoded for a place where it is not.
-/

namespace Tapioca.Assembler

/-! ## Places -/

namespace Line

def org? : Line → Option Token
  | org tok => some tok
  | _ => none

def label? : Line → Option Token
  | code label _ => label
  | _ => none

def insn? : Line → Option Insn
  | code _ insn => insn
  | _ => none

def defines (tok : Token) (l : Line) : Bool := l.label? = some tok

end Line

/-- How many words lines emit. -/
def wordCount (lines : List Line) : Nat := (lines.filterMap Line.insn?).length

/-- Which of the lines are of a kind. -/
def sites (p : Line → Bool) (lines : List Line) : List Nat :=
  (List.range lines.length).filter fun i => lines[i]?.any p

/-- The last `ORG` names the number of words in front of it. -/
def OrgInPlace (py : Python) (lines : List Line) : Prop :=
  ∀ i ∈ (sites (·.org?.isSome) lines).getLast?, ∀ tok, lines[i]? = some (.org tok) →
    py.int tok = .ok (wordCount (lines.take i) : ℤ)

section Sites

variable {p : Line → Bool} {lines : List Line} {l : Line} {i : Nat}

theorem sites_concat (p : Line → Bool) (lines : List Line) (l : Line) :
    sites p (lines ++ [l]) = sites p lines ++ if p l then [lines.length] else [] := by
  have hbefore : (List.range lines.length).filter (fun i => (lines ++ [l])[i]?.any p) = sites p lines := by
    refine List.filter_congr fun i hi => ?_
    rw [List.getElem?_append_left (List.mem_range.mp hi)]
  rw [sites, List.length_append, List.length_singleton, List.range_succ, List.filter_append, hbefore]
  by_cases hp : p l <;> simp [hp]

theorem mem_sites : i ∈ sites p lines ↔ ∃ l, lines[i]? = some l ∧ p l = true := by
  rw [sites, List.mem_filter, List.mem_range, Option.any_eq_true]
  constructor
  · rintro ⟨-, l, hl, hp⟩
    exact ⟨l, hl, hp⟩
  · rintro ⟨l, hl, hp⟩
    exact ⟨(List.getElem?_eq_some_iff.mp hl).1, l, hl, hp⟩

theorem lt_of_mem_sites (h : i ∈ sites p lines) : i < lines.length := by
  obtain ⟨l, hl, -⟩ := mem_sites.mp h
  exact (List.getElem?_eq_some_iff.mp hl).1

theorem take_concat (h : i < lines.length) : (lines ++ [l]).take i = lines.take i :=
  List.take_append_of_le_length h.le

theorem wordCount_concat (lines : List Line) (l : Line) :
    wordCount (lines ++ [l]) = wordCount lines + l.insn?.toList.length := by
  rw [wordCount, List.filterMap_append, List.length_append]
  cases hl : l.insn? <;> simp [hl, wordCount]

theorem orgInPlace_org (py : Python) (lines : List Line) (tok : Token) :
    OrgInPlace py (lines ++ [.org tok]) ↔ py.int tok = .ok (wordCount lines : ℤ) := by
  have hlast : (sites (·.org?.isSome) (lines ++ [.org tok])).getLast? = some lines.length := by
    rw [sites_concat]
    exact List.getLast?_concat
  rw [OrgInPlace, hlast]
  constructor
  · intro h
    have hplace := h _ rfl tok (by simp)
    rwa [List.take_left] at hplace
  · intro h i hi tok' htok
    obtain rfl := Option.some_inj.mp hi
    rw [List.getElem?_concat_length] at htok
    obtain rfl : tok = tok' := by simpa using htok
    rwa [List.take_left]

theorem orgInPlace_concat (py : Python) (lines : List Line) (hl : l.org? = none) :
    OrgInPlace py (lines ++ [l]) ↔ OrgInPlace py lines := by
  have hsites : sites (·.org?.isSome) (lines ++ [l]) = sites (·.org?.isSome) lines := by
    rw [sites_concat, hl]
    exact List.append_nil _
  rw [OrgInPlace, OrgInPlace, hsites]
  refine forall₂_congr fun i hi => forall_congr' fun tok => ?_
  have hlt := lt_of_mem_sites (List.mem_of_getLast? hi)
  rw [List.getElem?_append_left hlt, take_concat hlt]

end Sites

/-! ## The address pass -/

section AddressPass

variable {py : Python} {lines : List Line} {st : Pass1}

/-- What the labels stand for behind some lines: for each its last line counts. -/
structure Labelled (py : Python) (lines : List Line) (labels : Symbols) : Prop where
  unset : ∀ tok, (sites (Line.defines tok) lines).getLast? = none → labels.lookup tok = none
  set : ∀ tok, ∀ i ∈ (sites (Line.defines tok) lines).getLast?,
    ∃ a, labels.lookup tok = some a ∧ (a = wordCount (lines.take i) ↔ OrgInPlace py (lines.take i))

/-- What pass 1 knows behind some lines. -/
structure Tracks (py : Python) (lines : List Line) (st : Pass1) : Prop where
  insns : st.insns = lines.filterMap Line.insn?
  addr : st.addr = wordCount lines ↔ OrgInPlace py lines
  labels : Labelled py lines st.labels

theorem tracks_nil : Tracks py [] {} where
  insns := rfl
  addr := by simp [wordCount, OrgInPlace, sites]
  labels := ⟨fun _ _ => rfl, fun _ i hi => by simp [sites] at hi⟩

namespace Labelled

variable {labels : Symbols} {l : Line}

/-- A label that the next line does not define. -/
theorem other (h : Labelled py lines labels) {tok : Token} (hl : Line.defines tok l = false) :
    ((sites (Line.defines tok) (lines ++ [l])).getLast? = none → labels.lookup tok = none) ∧
      ∀ i ∈ (sites (Line.defines tok) (lines ++ [l])).getLast?, ∃ a, labels.lookup tok = some a ∧
        (a = wordCount ((lines ++ [l]).take i) ↔ OrgInPlace py ((lines ++ [l]).take i)) := by
  have hsites : sites (Line.defines tok) (lines ++ [l]) = sites (Line.defines tok) lines := by
    rw [sites_concat, hl]
    exact List.append_nil _
  rw [hsites]
  refine ⟨h.unset tok, fun i hi => ?_⟩
  rw [take_concat (lt_of_mem_sites (List.mem_of_getLast? hi))]
  exact h.set tok i hi

theorem concat (h : Labelled py lines labels) (hl : l.label? = none) : Labelled py (lines ++ [l]) labels := by
  have hnot : ∀ tok, Line.defines tok l = false := fun tok => by simp [Line.defines, hl]
  exact ⟨fun tok => (h.other (hnot tok)).1, fun tok => (h.other (hnot tok)).2⟩

/-- The label takes the address in front of its own line. -/
theorem define (h : Labelled py lines labels) {name : Token} (hl : l.label? = some name) {addr : ℤ}
    (haddr : addr = wordCount lines ↔ OrgInPlace py lines) : Labelled py (lines ++ [l]) ((name, addr) :: labels) := by
  have hlast : (sites (Line.defines name) (lines ++ [l])).getLast? = some lines.length := by
    rw [sites_concat, if_pos (by simp [Line.defines, hl]), List.getLast?_concat]
  have hother : ∀ tok, name ≠ tok → Line.defines tok l = false ∧ ((name, addr) :: labels).lookup tok = labels.lookup tok := by
    intro tok hne
    have hbeq : (tok == name) = false := beq_false_of_ne (Ne.symm hne)
    exact ⟨by simp [Line.defines, hl, hne], by rw [List.lookup_cons, hbeq]⟩
  constructor
  · intro tok hnone
    by_cases hname : name = tok
    · rw [← hname, hlast] at hnone
      cases hnone
    · obtain ⟨hnot, hlookup⟩ := hother tok hname
      rw [hlookup]
      exact (h.other hnot).1 hnone
  · intro tok i hi
    by_cases hname : name = tok
    · subst hname
      rw [hlast] at hi
      obtain rfl := Option.some_inj.mp hi
      rw [List.take_left]
      exact ⟨addr, by simp, haddr⟩
    · obtain ⟨hnot, hlookup⟩ := hother tok hname
      rw [hlookup]
      exact (h.other hnot).2 i hi

end Labelled

theorem Tracks.step (h : Tracks py lines st) {l : Line} {st' : Pass1} (hstep : st.step py l = .ok st') :
    Tracks py (lines ++ [l]) st' := by
  cases l with
  | skip =>
    obtain rfl := Except.ok.inj hstep
    refine ⟨?_, ?_, h.labels.concat rfl⟩
    · rw [h.insns, List.filterMap_append]
      exact (List.append_nil _).symm
    · rw [orgInPlace_concat py lines rfl, wordCount_concat]
      exact h.addr
  | org tok =>
    rw [Pass1.step] at hstep
    cases hint : py.int tok with
    | error e =>
      rw [hint] at hstep
      cases hstep
    | ok a =>
      rw [hint] at hstep
      obtain rfl := Except.ok.inj hstep
      refine ⟨?_, ?_, h.labels.concat rfl⟩
      · rw [List.filterMap_append]
        exact h.insns.trans (List.append_nil _).symm
      · -- the address is whatever the line names
        rw [orgInPlace_org, wordCount_concat, hint]
        exact ⟨fun heq => congrArg _ heq, fun heq => Except.ok.inj heq⟩
  | code label insn =>
    obtain rfl := Except.ok.inj hstep
    refine ⟨?_, ?_, ?_⟩
    · rw [List.filterMap_append, ← h.insns]
      cases insn <;> rfl
    · rw [orgInPlace_concat py lines rfl, wordCount_concat, ← h.addr, Line.insn?]
      push_cast
      exact add_left_inj _
    · cases label with
      | none => exact h.labels.concat rfl
      | some name => exact h.labels.define rfl h.addr

theorem tracks_pass1 (h : lines.foldlM (Pass1.step py) {} = .ok st) : Tracks py lines st := by
  induction lines using List.reverseRecOn generalizing st with
  | nil =>
    obtain rfl := Except.ok.inj h
    exact tracks_nil
  | append_singleton lines l ih =>
    rw [List.foldlM_append] at h
    cases hfront : lines.foldlM (Pass1.step py) {} with
    | error e =>
      rw [hfront] at h
      cases h
    | ok mid =>
      rw [hfront] at h
      have hlast : (mid.step py l >>= pure) = .ok st := h
      rw [bind_pure] at hlast
      exact (ih hfront).step hlast

end AddressPass

/-! ## What comes out -/

namespace Source

def insns (src : Source) : List Insn := src.lines.filterMap Line.insn?

/-- The number an operand is resolved to. -/
def resolved (src : Source) (tok : Token) : Except Error ℤ := do
  let sym ← src.symbols
  let st ← src.pass1
  resolve src.py st.labels sym tok

/-- A word as the eMCU fetches it. -/
def fetch (out : List UInt8) (i : Nat) : Option Nat := do
  let lo ← out[2 * i]?
  let hi ← out[2 * i + 1]?
  return lo.toNat + 0x100 * hi.toNat

/-- An operand that is a label is the index of the word behind it. -/
def LabelsPlaced (src : Source) : Prop :=
  ∀ insn ∈ src.insns, ∀ tok ∈ insn.args, ∀ i ∈ sites (Line.defines tok) src.lines,
    src.resolved tok = .ok (wordCount (src.lines.take i) : ℤ)

/-- Every instruction has a word, which reads as its mnemonic and its operands. -/
structure WordsRead (src : Source) (out : List UInt8) : Prop where
  length_eq : out.length = 2 * src.insns.length
  reads : ∀ i insn, src.insns[i]? = some insn → ∃ m a w, enc insn.mn = some m ∧
    insn.args.mapM src.resolved = .ok a ∧ fetch out i = some w ∧ m.Reads w a

def Faithful (src : Source) (out : List UInt8) : Prop := src.LabelsPlaced ∧ src.WordsRead out

/-! ## What was written -/

/-- The label's last line is behind an `ORG` that is in place, and its other lines are
in front of the same word. -/
def InPlace (src : Source) (tok : Token) : Prop :=
  ∀ i ∈ (sites (Line.defines tok) src.lines).getLast?, OrgInPlace src.py (src.lines.take i) ∧
    ∀ j ∈ sites (Line.defines tok) src.lines, wordCount (src.lines.take j) = wordCount (src.lines.take i)

/-- What an operand means: a label's place, or a constant. -/
def value (src : Source) (tok : Token) : Except Error ℤ :=
  match (sites (Line.defines tok) src.lines).getLast? with
  | some i => .ok (wordCount (src.lines.take i))
  | none => do
    let sym ← src.symbols
    resolve src.py [] sym tok

structure Encodable (src : Source) : Prop where
  placed : ∀ insn ∈ src.insns, ∀ tok ∈ insn.args, src.InPlace tok
  fits : ∀ insn ∈ src.insns, ∀ m a, enc insn.mn = some m → insn.args.mapM src.value = .ok a → m.Fits a

end Source

/-! ## Runs of the assembler -/

theorem mapM_eq_ok {α β : Type} {f : α → Except Error β} {l : List α} {r : List β} :
    l.mapM f = .ok r ↔ List.Forall₂ (fun a b => f a = .ok b) l r := by
  induction l generalizing r with
  | nil =>
    rw [List.mapM_nil, List.forall₂_nil_left_iff]
    exact ⟨fun h => (Except.ok.inj h).symm, fun h => h ▸ rfl⟩
  | cons a l ih =>
    rw [List.mapM_cons, List.forall₂_cons_left_iff]
    constructor
    · intro h
      cases ha : f a with
      | error e =>
        rw [ha] at h
        cases h
      | ok b =>
        cases hl : l.mapM f with
        | error e =>
          rw [ha, hl] at h
          cases h
        | ok bs =>
          rw [ha, hl] at h
          exact ⟨b, bs, rfl, ih.mp hl, (Except.ok.inj h).symm⟩
    · rintro ⟨b, bs, ha, hl, rfl⟩
      rw [ha, ih.mpr hl]
      rfl

theorem forall₂_getElem? {α β : Type} {R : α → β → Prop} {xs : List α} {ys : List β} (h : List.Forall₂ R xs ys)
    {i : Nat} {a : α} (hi : xs[i]? = some a) : ∃ b, ys[i]? = some b ∧ R a b := by
  induction h generalizing i with
  | nil => cases hi
  | cons hab _ ih =>
    cases i with
    | zero =>
      obtain rfl := Option.some_inj.mp hi
      exact ⟨_, rfl, hab⟩
    | succ i => exact ih hi

theorem fetch_wordBytes {words : List Nat} (hwords : ∀ w ∈ words, w < 0x10000) (i : Nat) :
    Source.fetch (words.flatMap wordBytes) i = words[i]? := by
  induction words generalizing i with
  | nil => rfl
  | cons w words ih =>
    obtain ⟨hw, hwords⟩ := List.forall_mem_cons.mp hwords
    cases i with
    | zero =>
      have hsum : (UInt8.ofNat (w % 0x100)).toNat + 0x100 * (UInt8.ofNat (w / 0x100 % 0x100)).toNat = w := by
        rw [UInt8.toNat_ofNat', UInt8.toNat_ofNat']
        omega
      exact congrArg some hsum
    | succ i =>
      rw [List.getElem?_cons_succ, ← ih hwords i]
      rfl

/-- What an accepted source went through. -/
theorem assemble_ok {src : Source} {out : List UInt8} (h : src.assemble = .ok out) :
    ∃ sym st words, src.symbols = .ok sym ∧ src.pass1 = .ok st ∧
      List.Forall₂ (fun insn w => encodeInsn src.py st.labels sym insn = .ok w) src.insns words ∧
      out = words.flatMap wordBytes := by
  rw [Source.assemble] at h
  cases hsym : src.symbols with
  | error e =>
    rw [hsym] at h
    cases h
  | ok sym =>
    cases hst : src.pass1 with
    | error e =>
      rw [hsym, hst] at h
      cases h
    | ok st =>
      rw [hsym, hst] at h
      have hinsns : st.insns = src.insns := (tracks_pass1 hst).insns
      change (st.insns.mapM (encodeInsn src.py st.labels sym) >>= fun words => pure (words.flatMap wordBytes)) = _ at h
      cases hwords : st.insns.mapM (encodeInsn src.py st.labels sym) with
      | error e =>
        rw [hwords] at h
        cases h
      | ok words =>
        rw [hwords] at h
        exact ⟨sym, st, words, rfl, rfl, hinsns ▸ mapM_eq_ok.mp hwords, (Except.ok.inj h).symm⟩

theorem encodeInsn_ok {py : Python} {labels sym : Symbols} {insn : Insn} {w : Nat}
    (h : encodeInsn py labels sym insn = .ok w) :
    ∃ m a, enc insn.mn = some m ∧ insn.args.mapM (resolve py labels sym) = .ok a ∧ w = (m.encode a % 0x10000).toNat := by
  rw [encodeInsn] at h
  cases hm : enc insn.mn with
  | none =>
    rw [hm] at h
    cases h
  | some m =>
    rw [hm] at h
    dsimp only at h
    split at h
    · cases h
    · cases ha : insn.args.mapM (resolve py labels sym) with
      | error e =>
        rw [ha] at h
        cases h
      | ok a =>
        rw [ha] at h
        exact ⟨m, a, rfl, rfl, (Except.ok.inj h).symm⟩

theorem mapM_congr {α β : Type} {f g : α → Except Error β} {l : List α} (h : ∀ a ∈ l, f a = g a) :
    l.mapM f = l.mapM g := by
  induction l with
  | nil => rfl
  | cons a l ih =>
    obtain ⟨ha, hl⟩ := List.forall_mem_cons.mp h
    rw [List.mapM_cons, List.mapM_cons, ha, ih hl]

section Accepted

variable {src : Source} {sym : Symbols} {st : Pass1} {tok : Token}

theorem resolved_eq (hsym : src.symbols = .ok sym) (hst : src.pass1 = .ok st) (tok : Token) :
    src.resolved tok = resolve src.py st.labels sym tok := by
  rw [Source.resolved, hsym, hst]
  rfl

/-- A label's value is its place exactly if the `ORG` in front of it is in place. -/
theorem resolved_label (hsym : src.symbols = .ok sym) (hst : src.pass1 = .ok st) {i : Nat}
    (hi : i ∈ (sites (Line.defines tok) src.lines).getLast?) :
    src.resolved tok = .ok (wordCount (src.lines.take i) : ℤ) ↔ OrgInPlace src.py (src.lines.take i) := by
  obtain ⟨a, hlookup, hplace⟩ := (tracks_pass1 hst).labels.set tok i hi
  rw [resolved_eq hsym hst, resolve, hlookup, ← hplace]
  exact ⟨fun h => Except.ok.inj h, fun h => congrArg _ h⟩

/-- Labels in place have the value that is meant. -/
theorem resolved_eq_value (hsym : src.symbols = .ok sym) (hst : src.pass1 = .ok st)
    (hplace : ∀ i ∈ (sites (Line.defines tok) src.lines).getLast?,
      src.resolved tok = .ok (wordCount (src.lines.take i) : ℤ)) : src.resolved tok = src.value tok := by
  rw [Source.value]
  cases hlast : (sites (Line.defines tok) src.lines).getLast? with
  | some i => exact hplace i hlast
  | none =>
    rw [resolved_eq hsym hst, resolve, (tracks_pass1 hst).labels.unset tok hlast, hsym]
    rfl

/-- Each label operand means its place exactly if the label is in place. -/
theorem labelsPlaced_iff (hsym : src.symbols = .ok sym) (hst : src.pass1 = .ok st) :
    src.LabelsPlaced ↔ ∀ insn ∈ src.insns, ∀ tok ∈ insn.args, src.InPlace tok := by
  refine forall₂_congr fun insn _ => forall₂_congr fun tok _ => ?_
  constructor
  · intro h i hi
    have hlast := h i (List.mem_of_getLast? hi)
    refine ⟨(resolved_label hsym hst hi).mp hlast, fun j hj => ?_⟩
    have heq := Except.ok.inj ((h j hj).symm.trans hlast)
    exact_mod_cast heq
  · intro h j hj
    obtain ⟨i, hi⟩ := Option.isSome_iff_exists.mp (List.getLast?_isSome.mpr (List.ne_nil_of_mem hj))
    obtain ⟨horg, hsame⟩ := h i hi
    rw [hsame j hj]
    exact (resolved_label hsym hst hi).mpr horg

/-- The word of each instruction is its encoding. -/
theorem emitted {out : List UInt8} (h : src.assemble = .ok out) :
    out.length = 2 * src.insns.length ∧ ∀ i insn, src.insns[i]? = some insn → ∃ m a, enc insn.mn = some m ∧
      insn.args.mapM src.resolved = .ok a ∧ Source.fetch out i = some (m.encode a % 0x10000).toNat := by
  obtain ⟨sym, st, words, hsym, hst, hwords, rfl⟩ := assemble_ok h
  have hresolved : src.resolved = resolve src.py st.labels sym := funext (resolved_eq hsym hst)
  have hsmall : ∀ w ∈ words, w < 0x10000 := by
    intro w hw
    obtain ⟨i, hi⟩ := List.getElem?_of_mem hw
    obtain ⟨insn, -, hencode⟩ := forall₂_getElem? hwords.flip hi
    obtain ⟨m, a, -, -, rfl⟩ := encodeInsn_ok hencode
    omega
  constructor
  · rw [hwords.length_eq, List.length_flatMap]
    simp [wordBytes, mul_comm]
  · intro i insn hi
    obtain ⟨w, hw, hencode⟩ := forall₂_getElem? hwords hi
    obtain ⟨m, a, hm, ha, rfl⟩ := encodeInsn_ok hencode
    exact ⟨m, a, hm, hresolved ▸ ha, (fetch_wordBytes hsmall i).trans hw⟩

end Accepted

/-- What the assembler accepts comes out as it was written exactly if its labels are in
place and its operands fit. -/
theorem assemble_faithful_iff {src : Source} {out : List UInt8} (h : src.assemble = .ok out) :
    src.Faithful out ↔ src.Encodable := by
  obtain ⟨sym, st, -, hsym, hst, -⟩ := assemble_ok h
  obtain ⟨hlength, hemit⟩ := emitted h
  have hplaced := labelsPlaced_iff hsym hst
  have hvalue : src.LabelsPlaced → ∀ insn ∈ src.insns, insn.args.mapM src.resolved = insn.args.mapM src.value := by
    intro hlabels insn hinsn
    refine mapM_congr fun tok htok => resolved_eq_value hsym hst fun i hi => ?_
    exact hlabels insn hinsn tok htok i (List.mem_of_getLast? hi)
  constructor
  · rintro ⟨hlabels, hread⟩
    refine ⟨hplaced.mp hlabels, fun insn hinsn m a hm ha => ?_⟩
    obtain ⟨i, hi⟩ := List.getElem?_of_mem hinsn
    obtain ⟨m', a', hm', ha', hword⟩ := hemit i insn hi
    obtain ⟨m'', a'', w, hm'', ha'', hw, hreads⟩ := hread.reads i insn hi
    -- the instruction has one mnemonic, one list of operands and one word
    obtain rfl := Option.some_inj.mp (hm.symm.trans hm'')
    obtain rfl := Option.some_inj.mp (hm.symm.trans hm')
    obtain rfl := Except.ok.inj (ha'.symm.trans ha'')
    obtain rfl := Option.some_inj.mp (hword.symm.trans hw)
    rw [← hvalue hlabels insn hinsn, ha'] at ha
    obtain rfl := Except.ok.inj ha
    exact (m.reads_encode_iff a').mp hreads
  · rintro ⟨hinplace, hfits⟩
    have hlabels := hplaced.mpr hinplace
    refine ⟨hlabels, hlength, fun i insn hi => ?_⟩
    have hinsn := List.mem_of_getElem? hi
    obtain ⟨m, a, hm, ha, hword⟩ := hemit i insn hi
    refine ⟨m, a, _, hm, ha, hword, (m.reads_encode_iff a).mpr ?_⟩
    exact hfits insn hinsn m a hm (hvalue hlabels insn hinsn ▸ ha)

theorem assemble_faithful_iff_loop :
    (Source.mk .ascii (fun _ => none) "ORG 0\nP EQU 0x0B\nLOOP: CLR P\n JMP LOOP".toList).Faithful [0x0B, 0x01, 0x00, 0x60] ↔
      (Source.mk .ascii (fun _ => none) "ORG 0\nP EQU 0x0B\nLOOP: CLR P\n JMP LOOP".toList).Encodable :=
  assemble_faithful_iff (by decide +kernel)

/-- A label behind an `ORG` that skips words, and a register that is none. -/
theorem assemble_org_ahead :
    (Source.mk .ascii (fun _ => none) "ORG 4\nSTART: JMP START\n CLR 0x1FF".toList).assemble =
        .ok [0x04, 0x60, 0xFF, 0x01] ∧
      ¬ (Source.mk .ascii (fun _ => none) "ORG 4\nSTART: JMP START\n CLR 0x1FF".toList).LabelsPlaced ∧
      ¬ (Source.mk .ascii (fun _ => none) "ORG 4\nSTART: JMP START\n CLR 0x1FF".toList).WordsRead
        [0x04, 0x60, 0xFF, 0x01] := by
  refine ⟨by decide +kernel, fun h => ?_, fun h => ?_⟩
  · have hstart := h ⟨"JMP".toList, ["START".toList]⟩ (by decide +kernel) "START".toList (by decide) 1 (by decide +kernel)
    exact absurd hstart (by decide +kernel)
  · obtain ⟨m, a, w, hm, ha, hw, hreads⟩ := h.reads 1 ⟨"CLR".toList, ["0x1FF".toList]⟩ (by decide +kernel)
    have hclr : enc "CLR".toList = some .clr := by decide +kernel
    have hreg : ["0x1FF".toList].mapM (Source.mk .ascii (fun _ => none)
        "ORG 4\nSTART: JMP START\n CLR 0x1FF".toList).resolved = .ok [0x1FF] := by
      decide +kernel
    have hword : Source.fetch [0x04, 0x60, 0xFF, 0x01] 1 = some (Mnemonic.clr.encode [0x1FF] % 0x10000).toNat := by
      decide +kernel
    obtain rfl := Option.some_inj.mp (hclr.symm.trans hm)
    obtain rfl := Except.ok.inj (hreg.symm.trans ha)
    obtain rfl := Option.some_inj.mp (hword.symm.trans hw)
    obtain _ | ⟨hfits, -⟩ := (Mnemonic.clr.reads_encode_iff [0x1FF]).mp hreads
    exact absurd hfits.2 (by decide)

end Tapioca.Assembler

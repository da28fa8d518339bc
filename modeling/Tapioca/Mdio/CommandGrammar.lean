-- SUMMARY: The grammar of the MDIO bridge's command lines, and that `parse` accepts exactly it.
import Tapioca.Mdio.Bridge
import Mathlib.Data.Nat.Digits.Defs

/-!
# The command grammar

A line is blanks, `!`, a verb, blanks, arguments, and any blanks or line ends.
`Denotes` gives the lines and what they denote, with no reference to the scanner:
a number is the positional value of its digits. The scanner takes as many digits
as it can, which is all of a number because no digit may follow one.
-/

namespace Tapioca.Mdio.UsbBridge

open RecordFramer

/-! ## The grammar -/

/-- A digit and its value. -/
def Digit (base : Nat) (c : UInt8) (d : Nat) : Prop :=
  d < base ∧ (d < 10 ∧ c.toNat = 0x30 + d ∨ 10 ≤ d ∧ (c.toNat + 10 = 0x61 + d ∨ c.toNat + 10 = 0x41 + d))

/-- A number up to a limit, in decimal or behind `0x` or `0X`. -/
inductive Number (limit : Nat) : List UInt8 → Nat → Prop
  | dec {cs : List UInt8} {ds : List Nat} (digits : List.Forall₂ (Digit 10) cs ds) (some_digit : ds ≠ [])
      (within : Nat.ofDigits 10 ds.reverse ≤ limit) : Number limit cs (Nat.ofDigits 10 ds.reverse)
  | hex {x : UInt8} {cs : List UInt8} {ds : List Nat} (mark : x = 0x78 ∨ x = 0x58)
      (digits : List.Forall₂ (Digit 16) cs ds) (some_digit : ds ≠ [])
      (within : Nat.ofDigits 16 ds.reverse ≤ limit) : Number limit (0x30 :: x :: cs) (Nat.ofDigits 16 ds.reverse)

def Blank (cs : List UInt8) : Prop := ∀ c ∈ cs, isWs c = true

/-- `phy/reg`, or `phy:mmd/reg`. -/
inductive Address : List UInt8 → Bool → Nat → Nat → Nat → Prop
  | clause22 {as cs : List UInt8} {phy reg : Nat} (hphy : Number 31 as phy) (hreg : Number 31 cs reg) :
      Address (as ++ 0x2F :: cs) false phy 0 reg
  | clause45 {as bs cs : List UInt8} {phy mmd reg : Nat} (hphy : Number 31 as phy) (hmmd : Number 31 bs mmd)
      (hreg : Number 0xFFFF cs reg) : Address (as ++ 0x3A :: (bs ++ 0x2F :: cs)) true phy mmd reg

/-- What a command line denotes. -/
structure Meaning where
  op : Op
  mmdAccess : Bool
  phy : Nat
  mmd : Nat
  reg : Nat
  val : Nat

inductive Args : List UInt8 → Meaning → Prop
  | read {as : List UInt8} {mmdAccess : Bool} {phy mmd reg : Nat} (haddr : Address as mmdAccess phy mmd reg) :
      Args as ⟨.read, mmdAccess, phy, mmd, reg, 0⟩
  | write {as gap vs : List UInt8} {mmdAccess : Bool} {phy mmd reg val : Nat}
      (haddr : Address as mmdAccess phy mmd reg) (hgap : Blank gap) (some_gap : gap ≠ [])
      (hval : Number 0xFFFF vs val) : Args (as ++ (gap ++ vs)) ⟨.write, mmdAccess, phy, mmd, reg, val⟩
  | print {as : List UInt8} {phy : Nat} (hphy : Number 31 as phy) : Args as ⟨.print, false, phy, 0, 0, 0⟩

inductive Denotes : List UInt8 → Meaning → Prop
  | line {lead gap args trail : List UInt8} {d : Meaning} (hlead : Blank lead) (hgap : Blank gap)
      (some_gap : gap ≠ []) (hargs : Args args d) (htrail : ∀ c ∈ trail, (isEnd c || isWs c) = true) :
      Denotes (lead ++ 0x21 :: (ascii d.op.verb ++ (gap ++ args)) ++ trail) d

def Command.meaning (c : Command) : Meaning :=
  ⟨c.op, c.mmdAccess, c.phy.toNat, c.mmd.toNat, c.reg.toNat, c.val.toNat⟩

/-! ## Digits -/

theorem digit_iff {base : UInt32} (hbase : base = 10 ∨ base = 16) (c : UInt8) (d : UInt32) :
    digit base c = some d ↔ Digit base.toNat c d.toNat := by
  have hle : ∀ a b : UInt8, a ≤ b ↔ a.toNat ≤ b.toNat := fun _ _ => UInt8.le_iff_toNat_le
  have hdec : 0x30 ≤ c → (c - 0x30).toUInt32.toNat = c.toNat - 0x30 := by
    intro h
    rw [UInt8.toNat_toUInt32, UInt8.toNat_sub_of_le _ _ h]
    rfl
  have hletter : ∀ a : UInt8, a ≤ c → c.toNat < a.toNat + 6 →
      (c - a + 10).toUInt32.toNat = c.toNat - a.toNat + 10 := by
    intro a h hlt
    have hten : (10 : UInt8).toNat = 10 := rfl
    rw [UInt8.toNat_toUInt32, UInt8.toNat_add, UInt8.toNat_sub_of_le _ _ h, hten]
    omega
  have hd : ∀ v : UInt32, some v = some d ↔ v.toNat = d.toNat := fun v =>
    Option.some_inj.trans UInt32.toNat_inj.symm
  have hconst : (0x30 : UInt8).toNat = 0x30 ∧ (0x39 : UInt8).toNat = 0x39 ∧ (0x61 : UInt8).toNat = 0x61 ∧
      (0x66 : UInt8).toNat = 0x66 ∧ (0x41 : UInt8).toNat = 0x41 ∧ (0x46 : UInt8).toNat = 0x46 := by decide
  obtain ⟨h30, h39, h61, h66, h41, h46⟩ := hconst
  have hsixteen : base = 16 ↔ base.toNat = 16 := UInt32.toNat_inj.symm
  have hbase' : base.toNat = 10 ∨ base.toNat = 16 := hbase.imp (congrArg UInt32.toNat) (congrArg UInt32.toNat)
  rw [digit, Digit]
  split_ifs with h1 h2 h3
  · rw [hd, hdec h1.1]
    simp only [hle, h30, h39] at h1
    omega
  · obtain ⟨h16, hlo, hhi⟩ := h2
    have h16 := hsixteen.mp h16
    simp only [hle, h66] at hhi
    rw [hd, hletter _ hlo (by omega)]
    simp only [hle, h61, h30, h39] at hlo h1
    omega
  · obtain ⟨h16, hlo, hhi⟩ := h3
    have h16 := hsixteen.mp h16
    simp only [hle, h46] at hhi
    rw [hd, hletter _ hlo (by omega)]
    simp only [hle, h41, h30, h39] at hlo h1
    omega
  · simp only [hsixteen, hle, h30, h39, h61, h66, h41, h46] at h1 h2 h3
    simp only [false_iff]
    omega

/-- Digits read after a value. -/
def accumulate (base v : Nat) (ds : List Nat) : Nat := ds.foldl (fun v d => v * base + d) v

theorem ofDigits_reverse (base : Nat) (ds : List Nat) : Nat.ofDigits base ds.reverse = accumulate base 0 ds := by
  rw [Nat.ofDigits_eq_foldr, List.foldr_reverse, accumulate]
  congr 1
  funext v d
  simp only [Nat.cast_id]
  ring

theorem le_accumulate {base : Nat} (hbase : 0 < base) (v : Nat) (ds : List Nat) : v ≤ accumulate base v ds := by
  induction ds generalizing v with
  | nil => exact le_rfl
  | cons d ds ih =>
    calc v ≤ v * base + d := by nlinarith
      _ ≤ accumulate base (v * base + d) ds := ih _

/-! ## Numbers -/

/-- The sums `v * base + d` the digit loop takes, as the two operands. -/
def sums (base limit v : UInt32) : List UInt8 → List (UInt32 × UInt32)
  | [] => []
  | c :: p =>
    match digit base c with
    | none => []
    | some d => (v, d) :: if v * base + d > limit then [] else sums base limit (v * base + d) p

/-- No digit of the base stands next. -/
def EndsDigits (base : UInt32) (p : List UInt8) : Prop := ∀ c ∈ p.head?, digit base c = none

theorem digit_lt {base : UInt32} (hbase : base = 10 ∨ base = 16) {c : UInt8} {d : UInt32}
    (h : digit base c = some d) : d.toNat < base.toNat ∧ base.toNat ≤ 16 := by
  have hle : base.toNat ≤ 16 := by rcases hbase with rfl | rfl <;> decide
  exact ⟨((digit_iff hbase c d).mp h).1, hle⟩

/-- A step of the digit loop is exact. -/
theorem toNat_step {base limit v d : UInt32} (hbase : base.toNat ≤ 16) (hlimit : limit.toNat ≤ 0xFFFF)
    (hv : v.toNat ≤ limit.toNat) (hd : d.toNat < base.toNat) :
    v.toNat * base.toNat + d.toNat < 2 ^ 32 ∧ (v * base + d).toNat = v.toNat * base.toNat + d.toNat := by
  have hmul : v.toNat * base.toNat ≤ 0xFFFF * 16 := Nat.mul_le_mul (hv.trans hlimit) hbase
  have hlt : v.toNat * base.toNat + d.toNat < 2 ^ 32 := by omega
  refine ⟨hlt, ?_⟩
  rw [UInt32.toNat_add, UInt32.toNat_mul, Nat.mod_add_mod, Nat.mod_eq_of_lt hlt]

theorem sums_exact {base limit : UInt32} (hbase : base = 10 ∨ base = 16) (hlimit : limit.toNat ≤ 0xFFFF)
    (p : List UInt8) {v : UInt32} (hv : v.toNat ≤ limit.toNat) :
    ∀ s ∈ sums base limit v p, s.1.toNat * base.toNat + s.2.toNat < 2 ^ 32 := by
  induction p generalizing v with
  | nil => exact List.forall_mem_nil _
  | cons c p ih =>
    rw [sums]
    cases hd : digit base c with
    | none => exact List.forall_mem_nil _
    | some d =>
      obtain ⟨hlt, hle⟩ := digit_lt hbase hd
      obtain ⟨hexact, -⟩ := toNat_step hle hlimit hv hlt
      refine List.forall_mem_cons.mpr ⟨hexact, ?_⟩
      split
      · exact List.forall_mem_nil _
      · rename_i hin
        exact ih (UInt32.le_iff_toNat_le.mp (UInt32.not_lt.mp hin))

/-- What the digit loop reads is a string of digits with its value, up to something
that is no digit. -/
theorem parseDigits_sound {base limit : UInt32} (hbase : base = 10 ∨ base = 16) (hlimit : limit.toNat ≤ 0xFFFF)
    {p rest : List UInt8} {v w : UInt32} {any : Bool} (hv : v.toNat ≤ limit.toNat)
    (h : parseDigits base limit v any p = some (w, rest)) :
    ∃ cs ds, p = cs ++ rest ∧ List.Forall₂ (Digit base.toNat) cs ds ∧ (any = true ∨ ds ≠ []) ∧
      w.toNat = accumulate base.toNat v.toNat ds ∧ w.toNat ≤ limit.toNat ∧ EndsDigits base rest := by
  induction p generalizing v any with
  | nil =>
    rw [parseDigits] at h
    split_ifs at h with hany
    obtain ⟨rfl, rfl⟩ := Prod.mk.inj (Option.some.inj h)
    exact ⟨[], [], rfl, .nil, .inl hany, rfl, hv, by simp [EndsDigits]⟩
  | cons c p ih =>
    rw [parseDigits] at h
    cases hd : digit base c with
    | none =>
      simp only [hd] at h
      split_ifs at h with hany
      obtain ⟨rfl, rfl⟩ := Prod.mk.inj (Option.some.inj h)
      exact ⟨[], [], rfl, .nil, .inl hany, rfl, hv, by simpa [EndsDigits] using hd⟩
    | some d =>
      simp only [hd] at h
      split_ifs at h with hin
      obtain ⟨hlt, hle⟩ := digit_lt hbase hd
      obtain ⟨-, hsum⟩ := toNat_step hle hlimit hv hlt
      obtain ⟨cs, ds, rfl, hdigits, -, hw, hwithin, hends⟩ :=
        ih (UInt32.le_iff_toNat_le.mp (UInt32.not_lt.mp hin)) h
      refine ⟨c :: cs, d.toNat :: ds, rfl, .cons ((digit_iff hbase c d).mp hd) hdigits, .inr (List.cons_ne_nil _ _),
        ?_, hwithin, hends⟩
      rw [hw, hsum]
      rfl

theorem parseDigits_complete {base limit : UInt32} (hbase : base = 10 ∨ base = 16) (hlimit : limit.toNat ≤ 0xFFFF)
    {cs rest : List UInt8} {ds : List Nat} (hdigits : List.Forall₂ (Digit base.toNat) cs ds)
    (hends : EndsDigits base rest) {v : UInt32} {any : Bool} (hany : any = true ∨ ds ≠ [])
    (hwithin : accumulate base.toNat v.toNat ds ≤ limit.toNat) :
    parseDigits base limit v any (cs ++ rest) = some (UInt32.ofNat (accumulate base.toNat v.toNat ds), rest) := by
  have hpos : 0 < base.toNat := by rcases hbase with rfl | rfl <;> decide
  induction hdigits generalizing v any with
  | nil =>
    have hval : UInt32.ofNat (accumulate base.toNat v.toNat []) = v := UInt32.ofNat_toNat
    have hsome : any = true := hany.resolve_right fun h => h rfl
    rw [hval, List.nil_append, hsome]
    cases rest with
    | nil => rfl
    | cons c rest =>
      have hnone : digit base c = none := hends c rfl
      simp only [parseDigits, hnone, if_true]
  | @cons c d cs ds hd hdigits ih =>
    have hdlt : d < 2 ^ 32 := by
      have := hd.1
      rcases hbase with rfl | rfl
      · exact lt_trans this (by decide)
      · exact lt_trans this (by decide)
    have hdnat : (UInt32.ofNat d).toNat = d := Nat.mod_eq_of_lt hdlt
    have hsome : digit base c = some (UInt32.ofNat d) := (digit_iff hbase c _).mpr (hdnat.symm ▸ hd)
    obtain ⟨hlt, hle⟩ := digit_lt hbase hsome
    have hv : v.toNat ≤ limit.toNat := (le_accumulate hpos _ _).trans hwithin
    obtain ⟨-, hsum⟩ := toNat_step hle hlimit hv hlt
    rw [hdnat] at hsum
    have hrest : accumulate base.toNat (v * base + UInt32.ofNat d).toNat ds ≤ limit.toNat := by
      rw [hsum]
      exact hwithin
    have hin : ¬ v * base + UInt32.ofNat d > limit :=
      UInt32.not_lt.mpr (UInt32.le_iff_toNat_le.mpr ((le_accumulate hpos _ _).trans hrest))
    rw [List.cons_append, parseDigits]
    simp only [hsome, if_neg hin]
    rw [ih (.inl rfl) hrest, hsum]
    rfl

/-- What follows a number: no digit of either base, and no mark of a hexadecimal. -/
def Delimited (p : List UInt8) : Prop := ∀ c ∈ p.head?, digit 16 c = none ∧ c ≠ 0x78 ∧ c ≠ 0x58

theorem Digit.range {base : Nat} {c : UInt8} {d : Nat} (h : Digit base c d) : 0x30 ≤ c.toNat := by
  obtain ⟨-, ⟨-, h⟩ | ⟨hten, h⟩⟩ := h <;> omega

/-- A decimal digit is one in either base. -/
theorem digit_decimal {c : UInt8} (h : digit 16 c = none) : digit 10 c = none := by
  rw [digit] at h ⊢
  by_cases hdec : 0x30 ≤ c ∧ c ≤ 0x39
  · rw [if_pos hdec] at h
    exact absurd h (Option.some_ne_none _)
  · have hten : ¬ ((10 : UInt32) = 16) := by decide
    rw [if_neg hdec, if_neg fun h => hten h.1, if_neg fun h => hten h.1]

theorem Delimited.ends {base : UInt32} (hbase : base = 10 ∨ base = 16) {p : List UInt8} (h : Delimited p) :
    EndsDigits base p := by
  intro c hc
  rcases hbase with rfl | rfl
  · exact digit_decimal (h c hc).1
  · exact (h c hc).1

theorem Number.within {limit : Nat} {cs : List UInt8} {n : Nat} (h : Number limit cs n) : n ≤ limit := by
  cases h with
  | dec _ _ within => exact within
  | hex _ _ _ within => exact within

/-- A number starts with a decimal digit. -/
theorem Number.starts {limit : Nat} {cs : List UInt8} {n : Nat} (h : Number limit cs n) :
    ∃ c cs', cs = c :: cs' ∧ digit 10 c ≠ none := by
  cases h with
  | hex mark digits some_digit within => exact ⟨0x30, _, rfl, by decide⟩
  | dec digits some_digit within =>
    cases digits with
    | nil => exact absurd rfl some_digit
    | @cons c d cs ds hd hrest =>
      refine ⟨c, cs, rfl, ?_⟩
      have hdnat : (UInt32.ofNat d).toNat = d := Nat.mod_eq_of_lt (lt_trans hd.1 (by decide))
      rw [(digit_iff (.inl rfl) c (UInt32.ofNat d)).mpr (hdnat.symm ▸ hd)]
      exact Option.some_ne_none _

theorem parseUint_sound {limit : UInt32} (hlimit : limit.toNat ≤ 0xFFFF) {p rest : List UInt8} {v : UInt32}
    (h : parseUint limit p = some (v, rest)) :
    ∃ cs, p = cs ++ rest ∧ Number limit.toNat cs v.toNat ∧ EndsDigits 10 rest := by
  rw [parseUint] at h
  split at h
  · rename_i hmark
    obtain ⟨cs, ds, hp, hdigits, hsome, hv, hwithin, hends⟩ := parseDigits_sound (.inr rfl) hlimit (Nat.zero_le _) h
    have hp' : ∃ x, p = 0x30 :: x :: (cs ++ rest) ∧ (x = 0x78 ∨ x = 0x58) := by
      match p, hmark, hp with
      | _ :: x :: p, ⟨hzero, hx⟩, hp =>
        obtain rfl := Option.some_inj.mp hzero
        exact ⟨x, by rw [← hp]; rfl, hx.imp Option.some_inj.mp Option.some_inj.mp⟩
    obtain ⟨x, rfl, hx⟩ := hp'
    have hv' : v.toNat = Nat.ofDigits 16 ds.reverse := by rw [hv, ofDigits_reverse]; rfl
    refine ⟨0x30 :: x :: cs, rfl, ?_, fun c hc => digit_decimal (hends c hc)⟩
    rw [hv'] at hwithin ⊢
    exact .hex hx hdigits (hsome.resolve_left Bool.false_ne_true) hwithin
  · obtain ⟨cs, ds, hp, hdigits, hsome, hv, hwithin, hends⟩ := parseDigits_sound (.inl rfl) hlimit (Nat.zero_le _) h
    have hv' : v.toNat = Nat.ofDigits 10 ds.reverse := by rw [hv, ofDigits_reverse]; rfl
    refine ⟨cs, hp, ?_, hends⟩
    rw [hv'] at hwithin ⊢
    exact .dec hdigits (hsome.resolve_left Bool.false_ne_true) hwithin

/-- A decimal is not taken for a hexadecimal. -/
theorem decimal_unmarked {cs rest : List UInt8} {ds : List Nat} (hdigits : List.Forall₂ (Digit 10) cs ds)
    (some_digit : ds ≠ []) (hrest : Delimited rest) :
    ¬ ((cs ++ rest)[1]? = some 0x78 ∨ (cs ++ rest)[1]? = some 0x58) := by
  cases hdigits with
  | nil => exact absurd rfl some_digit
  | cons hd hdigits =>
    cases hdigits with
    | nil =>
      rw [List.cons_append, List.nil_append, List.getElem?_cons_succ, ← List.head?_eq_getElem?]
      rintro (h | h)
      · exact (hrest _ h).2.1 rfl
      · exact (hrest _ h).2.2 rfl
    | @cons c d cs ds hd' hdigits =>
      have hlow : c.toNat = 0x30 + d ∧ d < 10 := by
        obtain ⟨hlt, ⟨-, h⟩ | ⟨hle, -⟩⟩ := hd'
        · exact ⟨h, hlt⟩
        · omega
      rintro (h | h)
      · obtain rfl : c = 0x78 := Option.some_inj.mp h
        exact absurd hlow.1 (by simp; omega)
      · obtain rfl : c = 0x58 := Option.some_inj.mp h
        exact absurd hlow.1 (by simp; omega)

theorem parseUint_complete (limit : UInt32) (hlimit : limit.toNat ≤ 0xFFFF) {cs rest : List UInt8} {n : Nat}
    (h : Number limit.toNat cs n) (hrest : Delimited rest) :
    parseUint limit (cs ++ rest) = some (UInt32.ofNat n, rest) := by
  cases h with
  | dec digits some_digit within =>
    rw [parseUint, if_neg fun h => decimal_unmarked digits some_digit hrest h.2]
    rw [ofDigits_reverse] at within ⊢
    exact parseDigits_complete (.inl rfl) hlimit digits (hrest.ends (.inl rfl)) (.inr some_digit) within
  | hex mark digits some_digit within =>
    rw [parseUint, if_pos ⟨rfl, mark.imp (congrArg some) (congrArg some)⟩]
    rw [ofDigits_reverse] at within ⊢
    exact parseDigits_complete (.inr rfl) hlimit digits (hrest.ends (.inr rfl)) (.inr some_digit) within

/-! ## Verbs and blanks -/

theorem verbIs_append (kw rest : List UInt8) : verbIs (kw ++ rest) kw = some rest := by
  induction kw with
  | nil => rw [List.nil_append, verbIs]
  | cons k kw ih => rw [List.cons_append, verbIs, if_pos rfl, ih]

theorem verbIs_sound {p kw rest : List UInt8} (h : verbIs p kw = some rest) : p = kw ++ rest := by
  induction kw generalizing p with
  | nil =>
    rw [verbIs] at h
    exact Option.some_inj.mp h
  | cons k kw ih =>
    cases p with
    | nil => exact absurd h (by rw [verbIs]; exact Option.some_ne_none rest ∘ Eq.symm)
    | cons c p =>
      rw [verbIs] at h
      split_ifs at h with hc
      rw [hc, ih h]
      rfl

theorem parseVerb_sound {p rest : List UInt8} {op : Op} (h : parseVerb p = some (op, rest)) :
    p = ascii op.verb ++ rest ∧ op ≠ .none := by
  rw [parseVerb] at h
  cases hread : verbIs p (ascii "read") with
  | some q =>
    simp only [hread, Option.map_some, Option.some.injEq, Prod.mk.injEq, HOrElse.hOrElse,
      OrElse.orElse, Option.orElse] at h
    obtain ⟨rfl, rfl⟩ := h
    exact ⟨verbIs_sound hread, by decide⟩
  | none =>
    cases hwrite : verbIs p (ascii "write") with
    | some q =>
      simp only [hread, hwrite, Option.map_some, Option.map_none, Option.some.injEq, Prod.mk.injEq, HOrElse.hOrElse,
        OrElse.orElse, Option.orElse] at h
      obtain ⟨rfl, rfl⟩ := h
      exact ⟨verbIs_sound hwrite, by decide⟩
    | none =>
      simp only [hread, hwrite, Option.map_none, HOrElse.hOrElse, OrElse.orElse, Option.orElse,
        Option.map_eq_some_iff] at h
      obtain ⟨q, hprint, h⟩ := h
      obtain ⟨rfl, rfl⟩ := Prod.mk.inj h
      exact ⟨verbIs_sound hprint, by decide⟩

theorem parseVerb_complete {op : Op} (hop : op ≠ .none) (rest : List UInt8) :
    parseVerb (ascii op.verb ++ rest) = some (op, rest) := by
  have hread : ascii "read" = [0x72, 0x65, 0x61, 0x64] := rfl
  have hwrite : ascii "write" = [0x77, 0x72, 0x69, 0x74, 0x65] := rfl
  have hprint : ascii "print" = [0x70, 0x72, 0x69, 0x6E, 0x74] := rfl
  cases op with
  | none => exact absurd rfl hop
  | read =>
    rw [parseVerb, Op.verb, verbIs_append]
    rfl
  | write =>
    have hother : verbIs (ascii "write" ++ rest) (ascii "read") = none := by
      rw [hread, hwrite]
      rfl
    rw [parseVerb, Op.verb, verbIs_append, hother]
    rfl
  | print =>
    have hothers : verbIs (ascii "print" ++ rest) (ascii "read") = none ∧
        verbIs (ascii "print" ++ rest) (ascii "write") = none := by
      rw [hread, hwrite, hprint]
      exact ⟨rfl, rfl⟩
    rw [parseVerb, Op.verb, verbIs_append, hothers.1, hothers.2]
    rfl

theorem skipWs_blank {gap : List UInt8} (hgap : Blank gap) (p : List UInt8) : skipWs (gap ++ p) = skipWs p :=
  List.dropWhile_append_of_pos hgap

theorem skipWs_sound (p : List UInt8) : ∃ gap, p = gap ++ skipWs p ∧ Blank gap :=
  ⟨p.takeWhile isWs, List.takeWhile_append_dropWhile.symm, fun _ => List.mem_takeWhile_imp⟩

/-- A blank next, and the gap that it starts. -/
theorem skipWs_some {p : List UInt8} (h : p.head?.any isWs = true) :
    ∃ gap, p = gap ++ skipWs p ∧ Blank gap ∧ gap ≠ [] := by
  obtain ⟨gap, hgap, hblank⟩ := skipWs_sound p
  refine ⟨gap, hgap, hblank, ?_⟩
  rintro rfl
  cases p with
  | nil => exact nomatch h
  | cons c p =>
    have hc : isWs c = true := h
    have hlen : (skipWs (c :: p)).length ≤ p.length := by
      rw [skipWs, List.dropWhile_cons, hc]
      exact (List.dropWhile_sublist _).length_le
    rw [List.nil_append] at hgap
    rw [← hgap] at hlen
    exact absurd hlen (Nat.not_succ_le_self _)

theorem skipWs_cons {c : UInt8} (hc : isWs c = false) (p : List UInt8) : skipWs (c :: p) = c :: p := by
  rw [skipWs, List.dropWhile_cons, hc]
  rfl

theorem isWs_cases {c : UInt8} (h : isWs c = true) : c = 0x20 ∨ c = 0x09 := of_decide_eq_true h

/-- A digit of either base is neither a blank nor the end of a line. -/
theorem not_strip {c : UInt8} (h : 0x21 ≤ c.toNat) : (isEnd c || isWs c) = false := by
  rw [Bool.or_eq_false_iff, isEnd, isWs, decide_eq_false_iff_not, decide_eq_false_iff_not]
  constructor
  · rintro (rfl | rfl) <;> exact absurd h (by decide)
  · rintro (rfl | rfl) <;> exact absurd h (by decide)

theorem digit_not_blank {c : UInt8} (h : digit 10 c ≠ none) : isWs c = false := by
  by_contra hws
  rcases isWs_cases (Bool.eq_true_of_not_eq_false hws) with rfl | rfl <;> exact h (by decide)

theorem delimited_nil : Delimited [] := fun _ h => nomatch h

theorem delimited_cons {c : UInt8} (hc : digit 16 c = none ∧ c ≠ 0x78 ∧ c ≠ 0x58) (p : List UInt8) :
    Delimited (c :: p) := by
  intro a ha
  obtain rfl : c = a := Option.some_inj.mp ha
  exact hc

/-- A blank ends a number. -/
theorem delimited_blank {gap p : List UInt8} (hgap : Blank gap) (some_gap : gap ≠ []) : Delimited (gap ++ p) := by
  cases gap with
  | nil => exact absurd rfl some_gap
  | cons c gap =>
    refine delimited_cons ?_ (gap ++ p)
    rcases isWs_cases (hgap c List.mem_cons_self) with rfl | rfl <;> decide

theorem Number.skipWs {limit : Nat} {cs : List UInt8} {n : Nat} (h : Number limit cs n) (p : List UInt8) :
    skipWs (cs ++ p) = cs ++ p := by
  obtain ⟨c, cs, rfl, hc⟩ := h.starts
  exact skipWs_cons (digit_not_blank hc) _

/-! ## Arguments -/

theorem head_cons {p : List UInt8} {c : UInt8} (h : p.head? = some c) : p = c :: p.drop 1 := by
  cases p with
  | nil => exact nomatch h
  | cons a p => rw [Option.some_inj.mp h]; rfl

theorem parsePath_sound {op : Op} (hop : op ≠ .print) {p p' rest : List UInt8} {phy mmd reg : UInt32}
    {mmdAccess : Bool} (hphy : parseUint 31 p = some (phy, p'))
    (h : parsePath op p' = some (mmdAccess, mmd, reg, rest)) :
    ∃ as, p = as ++ rest ∧ Address as mmdAccess phy.toNat mmd.toNat reg.toNat ∧ EndsDigits 10 rest := by
  obtain ⟨as, rfl, has, -⟩ := parseUint_sound (by decide) hphy
  simp only [parsePath, if_pos hop, Option.bind_eq_bind, Option.bind_eq_some_iff] at h
  obtain ⟨⟨access, m, p₁⟩, hmmd, _, hslash, ⟨r, p₂⟩, hreg, h⟩ := h
  obtain ⟨rfl, rfl, rfl, rfl⟩ : access = mmdAccess ∧ m = mmd ∧ r = reg ∧ p₂ = rest := by
    simpa using h
  dsimp only at hslash hreg
  have hp₁ : p₁ = 0x2F :: p₁.drop 1 := head_cons (by simpa [guard] using hslash)
  rw [parseMmd] at hmmd
  split at hmmd
  · rename_i hcolon
    obtain ⟨⟨n, q⟩, hn, heq⟩ := Option.map_eq_some_iff.mp hmmd
    obtain ⟨rfl, rfl, rfl⟩ : true = access ∧ n = m ∧ q = p₁ := by simpa using heq
    rw [if_pos rfl] at hreg
    obtain ⟨bs, hbs, hn, -⟩ := parseUint_sound (by decide) hn
    obtain ⟨cs, hcs, hreg, hends⟩ := parseUint_sound (by decide) hreg
    refine ⟨as ++ 0x3A :: (bs ++ 0x2F :: cs), ?_, .clause45 has hn hreg, hends⟩
    rw [head_cons hcolon, hbs, hp₁, hcs]
    simp only [List.append_assoc, List.cons_append]
  · obtain ⟨rfl, rfl, rfl⟩ : false = access ∧ 0 = m ∧ p' = p₁ := by simpa using hmmd
    rw [if_neg Bool.false_ne_true] at hreg
    obtain ⟨cs, hcs, hreg, hends⟩ := parseUint_sound (by decide) hreg
    refine ⟨as ++ 0x2F :: cs, ?_, .clause22 has hreg, hends⟩
    rw [hp₁, hcs]
    simp only [List.append_assoc, List.cons_append]

theorem parsePath_complete (op : Op) (hop : op ≠ .print) {as rest : List UInt8} {phy mmd reg : Nat}
    {mmdAccess : Bool} (h : Address as mmdAccess phy mmd reg) (hrest : Delimited rest) :
    ∃ p, parseUint 31 (as ++ rest) = some (UInt32.ofNat phy, p) ∧
      parsePath op p = some (mmdAccess, UInt32.ofNat mmd, UInt32.ofNat reg, rest) := by
  have hslash : ∀ q, Delimited (0x2F :: q) := delimited_cons (by decide)
  have hcolon : ∀ q, Delimited (0x3A :: q) := delimited_cons (by decide)
  cases h with
  | @clause22 as cs _ _ hphy hreg =>
    have hphy := parseUint_complete 31 (by decide) hphy (hslash (cs ++ rest))
    have hreg := parseUint_complete 31 (by decide) hreg hrest
    refine ⟨0x2F :: (cs ++ rest), by simpa using hphy, ?_⟩
    simp [parsePath, if_pos hop, parseMmd, hreg, guard]
  | @clause45 as bs cs _ _ _ hphy hmmd hreg =>
    have hphy := parseUint_complete 31 (by decide) hphy (hcolon (bs ++ 0x2F :: (cs ++ rest)))
    have hmmd := parseUint_complete 31 (by decide) hmmd (hslash (cs ++ rest))
    have hreg := parseUint_complete 0xFFFF (by decide) hreg hrest
    refine ⟨0x3A :: (bs ++ 0x2F :: (cs ++ rest)), by simpa using hphy, ?_⟩
    simp [parsePath, if_pos hop, parseMmd, hmmd, hreg, guard]

theorem args_sound {op : Op} (hop : op ≠ .none) {p p₁ p₂ p₃ : List UInt8} {phy mmd reg val : UInt32}
    {mmdAccess : Bool} (hphy : parseUint 31 p = some (phy, p₁))
    (hpath : parsePath op p₁ = some (mmdAccess, mmd, reg, p₂)) (hval : parseVal op p₂ = some (val, p₃)) :
    ∃ args, p = args ++ p₃ ∧ Args args ⟨op, mmdAccess, phy.toNat, mmd.toNat, reg.toNat, val.toNat⟩ := by
  rw [parseVal] at hval
  cases op with
  | none => exact absurd rfl hop
  | read =>
    rw [if_neg (by decide)] at hval
    obtain ⟨rfl, rfl⟩ := Prod.mk.inj (Option.some.inj hval)
    obtain ⟨as, hp, haddr, -⟩ := parsePath_sound (by decide) hphy hpath
    exact ⟨as, hp, .read haddr⟩
  | write =>
    rw [if_pos rfl] at hval
    obtain ⟨as, rfl, haddr, hends⟩ := parsePath_sound (by decide) hphy hpath
    obtain ⟨gap, hgap, hblank⟩ := skipWs_sound p₂
    obtain ⟨vs, hvs, hval, -⟩ := parseUint_sound (by decide) hval
    -- the register took all its digits, so a value right after it would start with none
    have some_gap : gap ≠ [] := by
      rintro rfl
      obtain ⟨c, cs, rfl, hc⟩ := hval.starts
      exact hc (hends c (by rw [hgap, hvs]; rfl))
    refine ⟨as ++ (gap ++ vs), ?_, .write haddr hblank some_gap hval⟩
    rw [hvs] at hgap
    rw [hgap]
    simp only [List.append_assoc]
  | print =>
    rw [if_neg (by decide)] at hval
    obtain ⟨rfl, rfl⟩ := Prod.mk.inj (Option.some.inj hval)
    obtain ⟨rfl, rfl, rfl, rfl⟩ : false = mmdAccess ∧ 0 = mmd ∧ 0 = reg ∧ p₁ = p₂ := by
      simpa [parsePath] using hpath
    obtain ⟨as, hp, has, -⟩ := parseUint_sound (by decide) hphy
    exact ⟨as, hp, .print has⟩

theorem args_complete {args : List UInt8} {d : Meaning} (h : Args args d) :
    ∃ p₁ p₂, parseUint 31 args = some (UInt32.ofNat d.phy, p₁) ∧
      parsePath d.op p₁ = some (d.mmdAccess, UInt32.ofNat d.mmd, UInt32.ofNat d.reg, p₂) ∧
      parseVal d.op p₂ = some (UInt32.ofNat d.val, []) := by
  cases h with
  | read haddr =>
    obtain ⟨p, hphy, hpath⟩ := parsePath_complete .read (by decide) haddr delimited_nil
    rw [List.append_nil] at hphy
    exact ⟨p, [], hphy, hpath, rfl⟩
  | @write as gap vs _ _ _ _ _ haddr hgap some_gap hval =>
    obtain ⟨p, hphy, hpath⟩ :=
      parsePath_complete .write (by decide) haddr (delimited_blank (p := vs) hgap some_gap)
    have hskip : skipWs (gap ++ vs) = vs := by
      have := hval.skipWs []
      rwa [List.append_nil, ← skipWs_blank hgap] at this
    have hval := parseUint_complete 0xFFFF (by decide) hval delimited_nil
    rw [List.append_nil] at hval
    exact ⟨p, gap ++ vs, hphy, hpath, by rw [parseVal, if_pos rfl, hskip, hval]⟩
  | print hphy =>
    have hphy := parseUint_complete 31 (by decide) hphy delimited_nil
    rw [List.append_nil] at hphy
    exact ⟨[], [], hphy, rfl, rfl⟩

theorem Args.op_ne_none {args : List UInt8} {d : Meaning} (h : Args args d) : d.op ≠ .none := by
  cases h <;> exact Op.noConfusion

theorem Address.starts {as : List UInt8} {mmdAccess : Bool} {phy mmd reg : Nat}
    (h : Address as mmdAccess phy mmd reg) : ∃ cs rest, Number 31 cs phy ∧ as = cs ++ rest := by
  cases h with
  | clause22 hphy _ => exact ⟨_, _, hphy, rfl⟩
  | clause45 hphy _ _ => exact ⟨_, _, hphy, rfl⟩

theorem Args.skipWs {args : List UInt8} {d : Meaning} (h : Args args d) : skipWs args = args := by
  have hnumber : ∃ cs rest, Number 31 cs d.phy ∧ args = cs ++ rest := by
    cases h with
    | read haddr => exact haddr.starts
    | write haddr _ _ _ =>
      obtain ⟨cs, rest, hcs, rfl⟩ := haddr.starts
      exact ⟨cs, _, hcs, List.append_assoc _ _ _⟩
    | print hphy => exact ⟨_, [], hphy, (List.append_nil _).symm⟩
  obtain ⟨cs, rest, hcs, rfl⟩ := hnumber
  exact hcs.skipWs rest

/-! ## Lines -/

/-- The last byte is none that `parse` strips. -/
def Stripped (cs : List UInt8) : Prop := ∃ init c, cs = init ++ [c] ∧ (isEnd c || isWs c) = false

theorem Stripped.append {cs : List UInt8} (h : Stripped cs) (as : List UInt8) : Stripped (as ++ cs) := by
  obtain ⟨init, c, rfl, hc⟩ := h
  exact ⟨as ++ init, c, (List.append_assoc _ _ _).symm, hc⟩

theorem Stripped.cons {cs : List UInt8} (h : Stripped cs) (a : UInt8) : Stripped (a :: cs) := h.append [a]

theorem Stripped.rdropWhile {cs trail : List UInt8} (h : Stripped cs)
    (htrail : ∀ c ∈ trail, (isEnd c || isWs c) = true) :
    (cs ++ trail).rdropWhile (fun c => isEnd c || isWs c) = cs := by
  obtain ⟨init, c, rfl, hc⟩ := h
  have hskip : (init ++ [c] ++ trail).rdropWhile (fun c => isEnd c || isWs c) =
      (init ++ [c]).rdropWhile fun c => isEnd c || isWs c := by
    rw [List.rdropWhile, List.reverse_append, List.dropWhile_append_of_pos fun a ha =>
      htrail a (List.mem_reverse.mp ha)]
    rfl
  rw [hskip]
  exact List.rdropWhile_concat_neg _ _ _ (by rw [hc]; exact Bool.false_ne_true)

theorem digits_stripped {base : Nat} {cs : List UInt8} {ds : List Nat} (h : List.Forall₂ (Digit base) cs ds)
    (some_digit : ds ≠ []) : Stripped cs := by
  induction h with
  | nil => exact absurd rfl some_digit
  | @cons c d cs ds hd hrest ih =>
    cases hrest with
    | nil => exact ⟨[], c, rfl, not_strip (le_trans (by decide) hd.range)⟩
    | cons _ _ => exact (ih (List.cons_ne_nil _ _)).cons c

theorem Number.stripped {limit : Nat} {cs : List UInt8} {n : Nat} (h : Number limit cs n) : Stripped cs := by
  cases h with
  | dec digits some_digit _ => exact digits_stripped digits some_digit
  | hex _ digits some_digit _ => exact ((digits_stripped digits some_digit).cons _).cons _

theorem Address.stripped {as : List UInt8} {mmdAccess : Bool} {phy mmd reg : Nat}
    (h : Address as mmdAccess phy mmd reg) : Stripped as := by
  cases h with
  | clause22 _ hreg => exact (hreg.stripped.cons _).append _
  | clause45 _ _ hreg => exact (((hreg.stripped.cons _).append _).cons _).append _

theorem Args.stripped {args : List UInt8} {d : Meaning} (h : Args args d) : Stripped args := by
  cases h with
  | read haddr => exact haddr.stripped
  | write _ _ _ hval => exact (hval.stripped.append _).append _
  | print hphy => exact hphy.stripped

theorem toNat_narrow {n : Nat} : (n ≤ 31 → (UInt32.ofNat n).toUInt8.toNat = n) ∧
    (n ≤ 0xFFFF → (UInt32.ofNat n).toUInt16.toNat = n) := by
  constructor
  · intro h
    rw [UInt32.toNat_toUInt8, UInt32.toNat_ofNat']
    omega
  · intro h
    rw [UInt32.toNat_toUInt16, UInt32.toNat_ofNat']
    omega

theorem Address.within {as : List UInt8} {mmdAccess : Bool} {phy mmd reg : Nat}
    (h : Address as mmdAccess phy mmd reg) : phy ≤ 31 ∧ mmd ≤ 31 ∧ reg ≤ 0xFFFF := by
  cases h with
  | clause22 hphy hreg => exact ⟨hphy.within, Nat.zero_le _, hreg.within.trans (by decide)⟩
  | clause45 hphy hmmd hreg => exact ⟨hphy.within, hmmd.within, hreg.within⟩

/-- The fields of a command are wide enough for what they hold. -/
theorem Args.within {args : List UInt8} {d : Meaning} (h : Args args d) :
    d.phy ≤ 31 ∧ d.mmd ≤ 31 ∧ d.reg ≤ 0xFFFF ∧ d.val ≤ 0xFFFF := by
  cases h with
  | read haddr =>
    obtain ⟨hphy, hmmd, hreg⟩ := haddr.within
    exact ⟨hphy, hmmd, hreg, Nat.zero_le _⟩
  | write haddr _ _ hval =>
    obtain ⟨hphy, hmmd, hreg⟩ := haddr.within
    exact ⟨hphy, hmmd, hreg, hval.within⟩
  | print hphy => exact ⟨hphy.within, Nat.zero_le _, Nat.zero_le _, Nat.zero_le _⟩

/-- What the fields of a command keep of the numbers that were read. -/
theorem meaning_narrow {args : List UInt8} {d : Meaning} (h : Args args d) :
    Command.meaning ⟨true, d.op, (UInt32.ofNat d.phy).toUInt8, d.mmdAccess, (UInt32.ofNat d.mmd).toUInt8,
      (UInt32.ofNat d.reg).toUInt16, (UInt32.ofNat d.val).toUInt16⟩ = d := by
  obtain ⟨hphy, hmmd, hreg, hval⟩ := h.within
  rw [Command.meaning]
  simp only [toNat_narrow.1 hphy, toNat_narrow.1 hmmd, toNat_narrow.2 hreg, toNat_narrow.2 hval]

/-- The stages of `parse`, one after the other. -/
theorem parse?_eq_some {line : List UInt8} {c : Command} :
    parse? line = some c ↔ ∃ op p₁ phy p₂ mmdAccess mmd reg p₃ val p₄,
      (skipWs (line.rdropWhile fun c => isEnd c || isWs c)).head? = some 0x21 ∧
      parseVerb ((skipWs (line.rdropWhile fun c => isEnd c || isWs c)).drop 1) = some (op, p₁) ∧
      p₁.head?.any isWs = true ∧ parseUint 31 (skipWs p₁) = some (phy, p₂) ∧
      parsePath op p₂ = some (mmdAccess, mmd, reg, p₃) ∧ parseVal op p₃ = some (val, p₄) ∧ skipWs p₄ = [] ∧
      ⟨true, op, phy.toUInt8, mmdAccess, mmd.toUInt8, reg.toUInt16, val.toUInt16⟩ = c := by
  have hguard : ∀ (P : Prop) [Decidable P] (f : Unit → Option Command),
      (guard P : Option Unit).bind f = some c ↔ P ∧ f () = some c := by
    intro P _ f
    by_cases h : P <;> simp [guard, h]
  simp only [parse?, Option.bind_eq_bind, hguard, Option.bind_eq_some_iff, Prod.exists, Option.pure_def,
    Option.some_inj]
  constructor
  · rintro ⟨h1, op, p₁, h2, h3, phy, p₂, h4, mmdAccess, mmd, reg, p₃, h5, val, p₄, h6, h7, h8⟩
    exact ⟨op, p₁, phy, p₂, mmdAccess, mmd, reg, p₃, val, p₄, h1, h2, h3, h4, h5, h6, h7, h8⟩
  · rintro ⟨op, p₁, phy, p₂, mmdAccess, mmd, reg, p₃, val, p₄, h1, h2, h3, h4, h5, h6, h7, h8⟩
    exact ⟨h1, op, p₁, h2, h3, phy, p₂, h4, mmdAccess, mmd, reg, p₃, h5, val, p₄, h6, h7, h8⟩

theorem parse?_sound {line : List UInt8} {c : Command} (h : parse? line = some c) :
    c.valid = true ∧ Denotes line c.meaning := by
  obtain ⟨op, p₁, phy, p₂, mmdAccess, mmd, reg, p₃, val, p₄, hbang, hverb, hws, hphy, hpath, hval, hend, rfl⟩ :=
    parse?_eq_some.mp h
  obtain ⟨hverb, hop⟩ := parseVerb_sound hverb
  obtain ⟨args, hskip, hargs⟩ := args_sound hop hphy hpath hval
  obtain ⟨gap, hgap, hblank, some_gap⟩ := skipWs_some hws
  obtain ⟨lead, hlead, hblead⟩ := skipWs_sound (line.rdropWhile fun c => isEnd c || isWs c)
  refine ⟨rfl, ?_⟩
  have hline : line = lead ++ 0x21 :: (ascii op.verb ++ (gap ++ args)) ++
      (p₄ ++ line.rtakeWhile fun c => isEnd c || isWs c) :=
    calc line = (line.rdropWhile fun c => isEnd c || isWs c) ++ line.rtakeWhile fun c => isEnd c || isWs c :=
          List.rdropWhile_append_rtakeWhile.symm
      _ = lead ++ 0x21 :: (ascii op.verb ++ (gap ++ (args ++ p₄))) ++ line.rtakeWhile fun c => isEnd c || isWs c := by
          rw [← hskip, ← hgap, ← hverb, ← head_cons hbang, ← hlead]
      _ = _ := by simp only [List.append_assoc, List.cons_append]
  have htrail : ∀ c ∈ p₄ ++ line.rtakeWhile (fun c => isEnd c || isWs c), (isEnd c || isWs c) = true := by
    intro c hc
    rcases List.mem_append.mp hc with hc | hc
    · rw [List.dropWhile_eq_nil_iff.mp hend c hc, Bool.or_true]
    · exact List.mem_rtakeWhile_imp (p := fun c => isEnd c || isWs c) hc
  have hnarrow := meaning_narrow hargs
  simp only [UInt32.ofNat_toNat] at hnarrow
  rw [hnarrow, hline]
  exact Denotes.line (d := ⟨op, mmdAccess, phy.toNat, mmd.toNat, reg.toNat, val.toNat⟩) hblead hblank some_gap
    hargs htrail

theorem parse?_complete {line : List UInt8} {d : Meaning} (h : Denotes line d) :
    ∃ c, parse? line = some c ∧ c.meaning = d := by
  cases h with
  | @line lead gap args trail _ hlead hgap some_gap hargs htrail =>
    obtain ⟨p₁, p₂, hphy, hpath, hval⟩ := args_complete hargs
    have hbody : Stripped (lead ++ 0x21 :: (ascii d.op.verb ++ (gap ++ args))) :=
      (((hargs.stripped.append _).append _).cons _).append _
    have hbang : skipWs (0x21 :: (ascii d.op.verb ++ (gap ++ args))) = 0x21 :: (ascii d.op.verb ++ (gap ++ args)) :=
      skipWs_cons (by decide) _
    have hws : (gap ++ args).head?.any isWs = true := by
      cases gap with
      | nil => exact absurd rfl some_gap
      | cons c gap => exact hgap c List.mem_cons_self
    refine ⟨_, parse?_eq_some.mpr ⟨d.op, gap ++ args, _, p₁, _, _, _, p₂, _, [], ?_, ?_, hws, ?_, hpath, hval, rfl,
      rfl⟩, meaning_narrow hargs⟩
    · rw [hbody.rdropWhile htrail, skipWs_blank hlead, hbang]
      rfl
    · rw [hbody.rdropWhile htrail, skipWs_blank hlead, hbang]
      exact parseVerb_complete hargs.op_ne_none _
    · rw [skipWs_blank hgap, hargs.skipWs, hphy]

/-- `parse` accepts exactly the grammar, and its values are the ones that the line
denotes: for both bases, every limit and anything to read, the sums of the digit
loop do not overflow. -/
theorem parse_accepts_grammar (line : List UInt8) :
    (∀ d, Denotes line d ↔ (parse line).valid = true ∧ (parse line).meaning = d) ∧
      ∀ base limit : UInt32, base = 10 ∨ base = 16 → limit = 31 ∨ limit = 0xFFFF → ∀ p : List UInt8,
        ∀ s ∈ sums base limit 0 p, s.1.toNat * base.toNat + s.2.toNat < 2 ^ 32 := by
  refine ⟨fun d => ⟨fun h => ?_, fun ⟨hvalid, hd⟩ => ?_⟩, fun base limit hbase hlimit p => ?_⟩
  · obtain ⟨c, hc, hd⟩ := parse?_complete h
    rw [parse, hc]
    exact ⟨(parse?_sound hc).1, hd⟩
  · cases hc : parse? line with
    | none =>
      rw [parse, hc] at hvalid
      exact nomatch hvalid
    | some c =>
      rw [parse, hc] at hd
      exact hd ▸ (parse?_sound hc).2
  · have hlimit : limit.toNat ≤ 0xFFFF := by rcases hlimit with rfl | rfl <;> decide
    exact sums_exact hbase hlimit p (Nat.zero_le _)

end Tapioca.Mdio.UsbBridge

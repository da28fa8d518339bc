-- SUMMARY: Instruction words made of an opcode and operand fields: encoding, extraction, and decoding by the range of the opcode.
import Mathlib.Tactic

/-!
# Fields

An instruction word is an opcode with its operands in fields below it. Where the
operands fit their fields, and the ranges of the opcodes do not meet, the word is
decoded to what was encoded.
-/

namespace Lib.Fields

structure Field where
  shift : Nat
  width : Nat

/-- The bits below the opcode, and the fields of the operands in them. -/
structure Format where
  opcode : Nat
  size : Nat
  fields : List Field
  opcode_dvd : 2 ^ size ∣ opcode
  fields_le : ∀ f ∈ fields, f.shift + f.width ≤ size
  disjoint : fields.Pairwise fun f g => f.shift + f.width ≤ g.shift ∨ g.shift + g.width ≤ f.shift

def payload : List Field → List Nat → Nat
  | f :: fs, v :: vs => v <<< f.shift ||| payload fs vs
  | _, _ => 0

def Field.extract (w : Nat) (f : Field) : Nat := w >>> f.shift % 2 ^ f.width

def Fits (fs : List Field) (vs : List Nat) : Prop := List.Forall₂ (fun f v => v < 2 ^ f.width) fs vs

namespace Format

def encode (fmt : Format) (vs : List Nat) : Nat := fmt.opcode ||| payload fmt.fields vs

def Holds (fmt : Format) (w : Nat) : Prop := fmt.opcode ≤ w ∧ w < fmt.opcode + 2 ^ fmt.size

instance (fmt : Format) (w : Nat) : Decidable (fmt.Holds w) := inferInstanceAs (Decidable (_ ∧ _))

/-- No word belongs to both. -/
def Apart (fmt fmt' : Format) : Prop :=
  fmt.opcode + 2 ^ fmt.size ≤ fmt'.opcode ∨ fmt'.opcode + 2 ^ fmt'.size ≤ fmt.opcode

instance (fmt fmt' : Format) : Decidable (fmt.Apart fmt') := inferInstanceAs (Decidable (_ ∨ _))

end Format

/-- The first instruction whose range holds the word, and the operands. -/
def decode {α : Type*} (format : α → Format) (table : List α) (w : Nat) : Option (α × List Nat) :=
  (table.find? fun a => (format a).Holds w).map fun a => (a, (format a).fields.map (Field.extract w))

/-! ## Fields of a word -/

section Extract

variable {f g : Field} {fs : List Field} {vs : List Nat}

theorem extract_lt (w : Nat) (f : Field) : f.extract w < 2 ^ f.width := Nat.mod_lt _ (Nat.two_pow_pos _)

theorem extract_or (a b : Nat) (f : Field) : f.extract (a ||| b) = f.extract a ||| f.extract b := by
  rw [Field.extract, Nat.shiftRight_or_distrib, Nat.or_mod_two_pow]
  rfl

theorem extract_shiftLeft {v : Nat} (hv : v < 2 ^ f.width) : f.extract (v <<< f.shift) = v := by
  rw [Field.extract, Nat.shiftLeft_shiftRight, Nat.mod_eq_of_lt hv]

theorem extract_below {w : Nat} (hw : w < 2 ^ f.shift) : f.extract w = 0 := by
  rw [Field.extract, Nat.shiftRight_eq_div_pow, Nat.div_eq_of_lt hw, Nat.zero_mod]

theorem extract_above {w k : Nat} (hk : f.shift + f.width ≤ k) (hw : 2 ^ k ∣ w) : f.extract w = 0 := by
  obtain ⟨q, rfl⟩ := (Nat.pow_dvd_pow 2 hk).trans hw
  rw [Field.extract, Nat.shiftRight_eq_div_pow, pow_add, mul_assoc, Nat.mul_div_cancel_left _ (Nat.two_pow_pos _),
    Nat.mul_mod_right]

theorem shiftLeft_lt {v k : Nat} (hv : v < 2 ^ f.width) (hk : f.shift + f.width ≤ k) : v <<< f.shift < 2 ^ k := by
  rw [Nat.shiftLeft_eq]
  calc v * 2 ^ f.shift < 2 ^ f.width * 2 ^ f.shift := Nat.mul_lt_mul_of_pos_right hv (Nat.two_pow_pos _)
    _ = 2 ^ (f.shift + f.width) := by rw [← pow_add, add_comm]
    _ ≤ 2 ^ k := Nat.pow_le_pow_right Nat.zero_lt_two hk

/-- An operand leaves the fields of the others alone. -/
theorem extract_other (hdisjoint : f.shift + f.width ≤ g.shift ∨ g.shift + g.width ≤ f.shift) {v : Nat}
    (hv : v < 2 ^ g.width) : f.extract (v <<< g.shift) = 0 := by
  rcases hdisjoint with hbelow | habove
  · rw [Nat.shiftLeft_eq]
    exact extract_above hbelow (Nat.dvd_mul_left _ _)
  · exact extract_below (shiftLeft_lt hv habove)

theorem extract_payload (hfits : Fits fs vs)
    (hdisjoint : ∀ g ∈ fs, f.shift + f.width ≤ g.shift ∨ g.shift + g.width ≤ f.shift) :
    f.extract (payload fs vs) = 0 := by
  induction hfits with
  | nil => exact extract_below (Nat.two_pow_pos _)
  | cons hv _ ih =>
    obtain ⟨hfirst, hrest⟩ := List.forall_mem_cons.mp hdisjoint
    rw [payload, extract_or, extract_other hfirst hv, ih hrest, Nat.or_self]

theorem payload_lt {size : Nat} (hfits : Fits fs vs) (hle : ∀ f ∈ fs, f.shift + f.width ≤ size) :
    payload fs vs < 2 ^ size := by
  induction hfits with
  | nil => exact Nat.two_pow_pos size
  | @cons f v _ _ hv _ ih =>
    obtain ⟨hfirst, hrest⟩ := List.forall_mem_cons.mp hle
    exact Nat.or_lt_two_pow (shiftLeft_lt hv hfirst) (ih hrest)

/-- Every operand is read back. -/
theorem map_extract_payload (hfits : Fits fs vs)
    (hdisjoint : fs.Pairwise fun f g => f.shift + f.width ≤ g.shift ∨ g.shift + g.width ≤ f.shift) {w : Nat}
    (hw : ∀ f ∈ fs, f.extract w = 0) : fs.map (Field.extract (w ||| payload fs vs)) = vs := by
  induction hfits generalizing w with
  | nil => rfl
  | @cons f v fs vs hv hfits ih =>
    obtain ⟨hfirst, hrest⟩ := List.pairwise_cons.mp hdisjoint
    obtain ⟨hf, hw⟩ := List.forall_mem_cons.mp hw
    have hbelow : ∀ g ∈ fs, g.extract (w ||| v <<< f.shift) = 0 := by
      intro g hg
      rw [extract_or, hw g hg, extract_other (hfirst g hg).symm hv, Nat.or_self]
    rw [payload, List.map_cons, extract_or, extract_or, hf, extract_shiftLeft hv, extract_payload hfits hfirst,
      Nat.or_zero, Nat.zero_or, ← Nat.or_assoc, ih hrest hbelow]

end Extract

/-! ## Words -/

section Words

variable {fmt : Format} {vs : List Nat}

theorem encode_eq_add (hfits : Fits fmt.fields vs) : fmt.encode vs = fmt.opcode + payload fmt.fields vs := by
  obtain ⟨q, hq⟩ := fmt.opcode_dvd
  rw [Format.encode, hq, Nat.two_pow_add_eq_or_of_lt (payload_lt hfits fmt.fields_le)]

theorem holds_encode (hfits : Fits fmt.fields vs) : fmt.Holds (fmt.encode vs) := by
  rw [encode_eq_add hfits]
  exact ⟨Nat.le_add_right _ _, Nat.add_lt_add_left (payload_lt hfits fmt.fields_le) _⟩

theorem map_extract_encode (hfits : Fits fmt.fields vs) : fmt.fields.map (Field.extract (fmt.encode vs)) = vs :=
  map_extract_payload hfits fmt.disjoint fun f hf => extract_above (fmt.fields_le f hf) fmt.opcode_dvd

theorem Format.Apart.not_holds {fmt' : Format} (h : fmt.Apart fmt') {w : Nat} (hw : fmt.Holds w) : ¬ fmt'.Holds w := by
  rintro ⟨hle, hlt⟩
  obtain ⟨hle', hlt'⟩ := hw
  rcases h with h | h <;> omega

end Words

/-! ## Decoding -/

section Decode

variable {α : Type*} {format : α → Format} {table : List α}

theorem decode_encode (hapart : table.Pairwise fun a b => (format a).Apart (format b)) {a : α} (ha : a ∈ table)
    {vs : List Nat} (hfits : Fits (format a).fields vs) : decode format table ((format a).encode vs) = some (a, vs) := by
  have hholds := holds_encode hfits
  have hfind : table.find? (fun b => (format b).Holds ((format a).encode vs)) = some a := by
    obtain ⟨front, back, rfl⟩ := List.append_of_mem ha
    rw [List.find?_eq_some_iff_append]
    refine ⟨decide_eq_true hholds, front, back, rfl, fun b hb => ?_⟩
    have hbefore := (List.pairwise_append.mp hapart).2.2 b hb a (List.mem_cons_self ..)
    have hnot : ¬ (format b).Holds ((format a).encode vs) := fun hb => hbefore.not_holds hb hholds
    simpa using hnot
  rw [decode, hfind, Option.map_some, map_extract_encode hfits]

/-- What is decoded fits. -/
theorem fits_of_decode {w : Nat} {a : α} {vs : List Nat} (h : decode format table w = some (a, vs)) :
    Fits (format a).fields vs := by
  obtain ⟨b, -, heq⟩ := Option.map_eq_some_iff.mp h
  obtain ⟨rfl, rfl⟩ := Prod.mk.inj heq
  rw [Fits, List.forall₂_map_right_iff, List.forall₂_same]
  exact fun f _ => extract_lt w f

end Decode

end Lib.Fields

-- SUMMARY: Backtracking patterns with groups, as regular-expression engines run them.
import Mathlib.Tactic

/-!
# Patterns

A pattern is run on a text with a continuation for what follows it. Alternatives and
repetitions are tried in order, the longest repetition first, and the next one only
when the continuation fails. Where a repetition ends at a character outside its class,
and the continuation takes none of the class, nothing is ever tried twice.
-/

namespace Lib

inductive Pattern where
  | str (word : List Char)
  | plus (p : Char → Bool)
  | seq (a b : Pattern)
  | alt (a b : Pattern)
  | opt (a : Pattern)
  | group (i : Nat) (a : Pattern)
  /-- The end, or a last line break. -/
  | atEnd

namespace Pattern

abbrev Groups := List (Nat × List Char)

variable {α : Type*}

/-- One character of a class or more, and the continuation. -/
def runPlus (p : Char → Bool) (k : List Char → Option α) : List Char → Option α
  | [] => none
  | c :: s => if p c then (runPlus p k s).or (k s) else none

def run : Pattern → Groups → List Char → (Groups → List Char → Option α) → Option α
  | str word, g, s, k => if word.isPrefixOf s then k g (s.drop word.length) else none
  | plus p, g, s, k => runPlus p (k g) s
  | seq a b, g, s, k => a.run g s fun g s => b.run g s k
  | alt a b, g, s, k => (a.run g s k).or (b.run g s k)
  | opt a, g, s, k => (a.run g s k).or (k g s)
  | group i a, g, s, k => a.run g s fun g' s' => k ((i, s.take (s.length - s'.length)) :: g') s'
  | atEnd, g, s, k => if s = [] ∨ s = ['\n'] then k g s else none

/-- The groups of a match at the start of a text. -/
def groups (a : Pattern) (s : List Char) : Option Groups := a.run [] s fun g _ => some g

/-! ## Words and repetitions -/

variable {g : Groups} {k : Groups → List Char → Option α}

@[simp] theorem run_seq (a b : Pattern) (g : Groups) (s : List Char) (k : Groups → List Char → Option α) :
    (seq a b).run g s k = a.run g s fun g s => b.run g s k := rfl

@[simp] theorem run_alt (a b : Pattern) (g : Groups) (s : List Char) (k : Groups → List Char → Option α) :
    (alt a b).run g s k = (a.run g s k).or (b.run g s k) := rfl

@[simp] theorem run_opt (a : Pattern) (g : Groups) (s : List Char) (k : Groups → List Char → Option α) :
    (opt a).run g s k = (a.run g s k).or (k g s) := rfl

@[simp] theorem run_group (i : Nat) (a : Pattern) (g : Groups) (s : List Char) (k : Groups → List Char → Option α) :
    (group i a).run g s k = a.run g s fun g' s' => k ((i, s.take (s.length - s'.length)) :: g') s' := rfl

@[simp] theorem run_plus (p : Char → Bool) (g : Groups) (s : List Char) (k : Groups → List Char → Option α) :
    (plus p).run g s k = runPlus p (k g) s := rfl

theorem run_str (word rest : List Char) : (str word).run g (word ++ rest) k = k g rest := by
  rw [run, if_pos (List.isPrefixOf_iff_prefix.mpr (List.prefix_append _ _)), List.drop_left]

/-- A word does not match where the text starts otherwise. -/
theorem run_str_ne {c d : Char} (word s : List Char) (h : c ≠ d) : (str (c :: word)).run g (d :: s) k = none := by
  have hne : (c == d) = false := beq_eq_false_iff_ne.mpr h
  rw [run, List.isPrefixOf, hne, Bool.false_and, if_neg Bool.false_ne_true]

theorem run_atEnd_cons {c : Char} (hc : c ≠ '\n') (s : List Char) : atEnd.run g (c :: s) k = none := by
  rw [run, if_neg]
  simp [hc]

theorem runPlus_ne {p : Char → Bool} {k : List Char → Option α} {s : List Char} (h : ∀ c ∈ s.head?, p c = false) :
    runPlus p k s = none := by
  cases s with
  | nil => rfl
  | cons c s => rw [runPlus, h c rfl, if_neg Bool.false_ne_true]

/-- A repetition takes all it can, where what follows can take none of it. -/
theorem runPlus_span {p : Char → Bool} {k : List Char → Option α} {xs rest : List Char} (hne : xs ≠ [])
    (hxs : ∀ c ∈ xs, p c = true) (hrest : ∀ c ∈ rest.head?, p c = false)
    (hk : ∀ c s, p c = true → k (c :: s) = none) : runPlus p k (xs ++ rest) = k rest := by
  induction xs with
  | nil => exact absurd rfl hne
  | cons c xs ih =>
    rw [List.cons_append, runPlus, if_pos (hxs c List.mem_cons_self)]
    cases xs with
    | nil => rw [List.nil_append, runPlus_ne hrest, Option.none_or]
    | cons d xs =>
      rw [ih (List.cons_ne_nil _ _) fun c hc => hxs c (List.mem_cons_of_mem _ hc), List.cons_append,
        hk d _ (hxs d (by simp)), Option.or_none]

/-- A repetition of one. -/
theorem runPlus_one {p : Char → Bool} {k : List Char → Option α} {c : Char} {rest : List Char} (hc : p c = true)
    (hrest : ∀ d ∈ rest.head?, p d = false) : runPlus p k (c :: rest) = k rest := by
  rw [runPlus, if_pos hc, runPlus_ne hrest, Option.none_or]

/-- The text of a group. -/
theorem take_sub_length (xs rest : List Char) : (xs ++ rest).take ((xs ++ rest).length - rest.length) = xs := by
  rw [List.length_append, Nat.add_sub_cancel, List.take_left]

/-- A group of one repetition. -/
theorem run_group_plus {p : Char → Bool} {xs rest : List Char} (i : Nat) (hne : xs ≠ [])
    (hxs : ∀ c ∈ xs, p c = true) (hrest : ∀ c ∈ rest.head?, p c = false)
    (hk : ∀ g c s, p c = true → k g (c :: s) = none) :
    (group i (plus p)).run g (xs ++ rest) k = k ((i, xs) :: g) rest := by
  have hspan := runPlus_span (k := fun s => k ((i, (xs ++ rest).take ((xs ++ rest).length - s.length)) :: g) s)
    hne hxs hrest fun c s hc => hk _ c s hc
  simpa only [run_group, run_plus, take_sub_length] using hspan

end Pattern

end Lib

-- SUMMARY: The run-length host parser `scripts/can_rle_decode.py`: a binary capture as a list of run lengths.
import Mathlib.Tactic

/-!
# The run-length decoder

`capture_to_runs` cuts a capture at `0xFF` and `0xFD`, skips metadata blocks and
sums continuation bytes. What it yields is the list of runs, with a
`BOUNDARY_RUN` for every cut.
-/

namespace Tapioca.Host.CanRle

def BIN_BOUNDARY : UInt8 := 0xFF
def BIN_DIAG : UInt8 := 0xFE
def BIN_LOSS : UInt8 := 0xFD

/-- Longer than any frame boundary. -/
def BOUNDARY_RUN : Nat := 2 ^ 30

/-- `IDLE_BOUNDARY`, or a run-byte. -/
inductive Item where
  | idleBoundary
  | byte (b : UInt8)
  deriving DecidableEq

/-- `reconstruct_continuation`, with the ticks summed so far. -/
def reconstructContinuation (acc : Nat) : List Item → List Nat
  | [] => []
  | .idleBoundary :: items =>
    (if acc ≠ 0 then [acc] else []) ++ BOUNDARY_RUN :: reconstructContinuation 0 items
  | .byte b :: items =>
    if b ≥ 128 then reconstructContinuation (acc + 128) items
    else (acc + b.toNat) :: reconstructContinuation 0 items

/-- The segments of a capture; `cur` is the open one. -/
def segments (cur : List UInt8) : List UInt8 → List (List UInt8)
  | [] => [cur]
  | b :: rest =>
    if b = BIN_BOUNDARY ∨ b = BIN_LOSS then cur :: segments [] rest
    else if b = BIN_DIAG ∧ rest.head? = some 0x5B then
      segments cur (((rest.drop 1).dropWhile (· ≠ BIN_DIAG)).drop 1)
    else if b ≤ 0x80 then segments (cur ++ [b]) rest
    else segments cur rest
termination_by data => data.length
decreasing_by
  · simp
  · have hsub := (List.dropWhile_sublist (· ≠ BIN_DIAG) (l := rest.drop 1)).length_le
    rw [List.length_drop] at hsub ⊢
    rw [List.length_cons]
    omega
  · simp
  · simp

/-- The segments with a boundary between any two. -/
def joined : List (List UInt8) → List Item
  | [] => []
  | [seg] => seg.map .byte
  | seg :: segs => seg.map .byte ++ .idleBoundary :: joined segs

def captureToRuns (data : List UInt8) : List Nat :=
  reconstructContinuation 0 (joined (segments [] data))

/-! ## What the bytes of a capture stand for -/

theorem segments_ne_nil (cur data : List UInt8) : segments cur data ≠ [] := by
  fun_induction segments cur data with
  | case1 => simp
  | case2 => simp
  | case3 _ _ _ _ _ ih => exact ih
  | case4 _ _ _ _ _ _ ih => exact ih
  | case5 _ _ _ _ _ _ ih => exact ih

theorem joined_cons (seg : List UInt8) {segs : List (List UInt8)} (h : segs ≠ []) :
    joined (seg :: segs) = seg.map .byte ++ .idleBoundary :: joined segs := by
  cases segs with
  | nil => exact absurd rfl h
  | cons _ _ => rfl

/-- The items of a capture. -/
def items (data : List UInt8) : List Item := joined (segments [] data)

theorem items_nil : items [] = [] := by simp [items, segments, joined]

/-- What was open in front of a capture stands in front of its items. -/
theorem joined_segments (cur data : List UInt8) :
    joined (segments cur data) = cur.map .byte ++ items data := by
  induction hn : data.length using Nat.strong_induction_on generalizing cur data with
  | _ n ih =>
    cases data with
    | nil => simp [items, segments, joined]
    | cons b rest =>
      have hrest : rest.length < n := by simp [← hn]
      rw [items, segments, segments]
      split_ifs with hcut hdiag hrun
      · rw [joined_cons _ (segments_ne_nil _ _), joined_cons _ (segments_ne_nil _ _)]
        rfl
      · have hsub := (List.dropWhile_sublist (· ≠ BIN_DIAG) (l := rest.drop 1)).length_le
        rw [List.length_drop] at hsub
        exact ih _ (by rw [List.length_drop]; omega) cur _ rfl
      · rw [ih _ hrest (cur ++ [b]) rest rfl, ih _ hrest ([] ++ [b]) rest rfl]
        simp
      · exact ih _ hrest cur rest rfl

theorem items_cut {b : UInt8} (h : b = BIN_BOUNDARY ∨ b = BIN_LOSS) (rest : List UInt8) :
    items (b :: rest) = .idleBoundary :: items rest := by
  rw [items, segments, if_pos h, joined_cons _ (segments_ne_nil _ _)]
  rfl

theorem items_run {b : UInt8} (h : b ≤ 0x80) (rest : List UInt8) :
    items (b :: rest) = .byte b :: items rest := by
  have hcut : ¬ (b = BIN_BOUNDARY ∨ b = BIN_LOSS) := by
    rintro (rfl | rfl) <;> exact absurd h (by decide)
  have hdiag : ¬ (b = BIN_DIAG ∧ rest.head? = some 0x5B) := by
    rintro ⟨rfl, -⟩
    exact absurd h (by decide)
  rw [items, segments, if_neg hcut, if_neg hdiag, if_pos h, joined_segments]
  rfl

/-- Reserved bytes, and a `0xFE` that opens no metadata block, are ignored. -/
theorem items_noise {b : UInt8} (hcut : ¬ (b = BIN_BOUNDARY ∨ b = BIN_LOSS)) (hrun : ¬ b ≤ 0x80)
    {rest : List UInt8} (hopen : ¬ (b = BIN_DIAG ∧ rest.head? = some 0x5B)) :
    items (b :: rest) = items rest := by
  rw [items, segments, if_neg hcut, if_neg hopen, if_neg hrun]
  rfl

/-- An opened metadata block is skipped up to the next `0xFE`. -/
theorem items_open (rest : List UInt8) :
    items (BIN_DIAG :: 0x5B :: rest) = items ((rest.dropWhile (· ≠ BIN_DIAG)).drop 1) := by
  have hcut : ¬ (BIN_DIAG = BIN_BOUNDARY ∨ BIN_DIAG = BIN_LOSS) := by decide
  rw [items, segments, if_neg hcut, if_pos ⟨rfl, rfl⟩, List.drop_succ_cons, List.drop_zero]
  rfl

/-- A metadata block is skipped. -/
theorem items_block {text : List UInt8} (hopen : text.head? = some 0x5B) (hclean : BIN_DIAG ∉ text)
    (rest : List UInt8) : items (BIN_DIAG :: text ++ BIN_DIAG :: rest) = items rest := by
  obtain ⟨body, rfl⟩ : ∃ body, text = 0x5B :: body := by
    cases text with
    | nil => cases hopen
    | cons c body => exact ⟨body, by simpa using hopen⟩
  have hbody : ∀ c ∈ body, decide (c ≠ BIN_DIAG) = true := by
    intro c hc
    refine decide_eq_true fun heq => hclean ?_
    exact heq ▸ List.mem_cons_of_mem _ hc
  have hskip : ((body ++ BIN_DIAG :: rest).dropWhile (· ≠ BIN_DIAG)).drop 1 = rest := by
    rw [List.dropWhile_append_of_pos hbody, List.dropWhile_cons_of_neg (by simp)]
    rfl
  rw [List.cons_append, List.cons_append, items_open, hskip]

/-! ## Repeated boundaries -/

/-- Repeated boundaries as one. -/
def collapse : List Nat → List Nat
  | x :: y :: runs =>
    if x = BOUNDARY_RUN ∧ y = BOUNDARY_RUN then collapse (y :: runs) else x :: collapse (y :: runs)
  | runs => runs

/-- The same among items. `cut`: a boundary, or nothing, stands in front. -/
def squeeze (cut : Bool) : List Item → List Item
  | [] => []
  | .idleBoundary :: items => (if cut then [] else [.idleBoundary]) ++ squeeze true items
  | .byte b :: items => .byte b :: squeeze false items

/-- A boundary stands behind an item. -/
def Item.cut (_ : Bool) : Item → Bool
  | .idleBoundary => true
  | .byte _ => false

theorem squeeze_append (cut : Bool) (xs ys : List Item) :
    squeeze cut (xs ++ ys) = squeeze cut xs ++ squeeze (xs.foldl Item.cut cut) ys := by
  induction xs generalizing cut with
  | nil => rfl
  | cons x xs ih =>
    cases x with
    | idleBoundary =>
      rw [List.cons_append, squeeze, squeeze, ih, List.append_assoc]
      rfl
    | byte b =>
      rw [List.cons_append, squeeze, squeeze, ih]
      rfl

theorem foldl_cut_squeeze (cut : Bool) (xs : List Item) :
    (squeeze cut xs).foldl Item.cut cut = xs.foldl Item.cut cut := by
  induction xs generalizing cut with
  | nil => rfl
  | cons x xs ih =>
    cases x with
    | idleBoundary => cases cut <;> exact ih true
    | byte b => exact ih false

/-- What comes behind two item lists that agree keeps them so. -/
theorem squeeze_append_congr {cut : Bool} {xs xs' : List Item} (h : squeeze cut xs = squeeze cut xs')
    (ys : List Item) : squeeze cut (xs ++ ys) = squeeze cut (xs' ++ ys) := by
  rw [squeeze_append, squeeze_append, ← foldl_cut_squeeze cut xs, ← foldl_cut_squeeze cut xs', h]

theorem collapse_cons_congr (x y : Nat) {l l' : List Nat} (h : collapse (y :: l) = collapse (y :: l')) :
    collapse (x :: y :: l) = collapse (x :: y :: l') := by
  rw [collapse, collapse, h]

/-- Behind a boundary repeated ones make no difference; elsewhere, whatever run
stands in front. -/
theorem collapse_squeeze (xs : List Item) :
    collapse (BOUNDARY_RUN :: reconstructContinuation 0 xs) =
        collapse (BOUNDARY_RUN :: reconstructContinuation 0 (squeeze true xs)) ∧
      ∀ x acc, collapse (x :: reconstructContinuation acc xs) =
        collapse (x :: reconstructContinuation acc (squeeze false xs)) := by
  induction xs with
  | nil => exact ⟨rfl, fun _ _ => rfl⟩
  | cons item xs ih =>
    cases item with
    | idleBoundary =>
      constructor
      · rw [reconstructContinuation, if_neg (not_not.mpr rfl), List.nil_append, collapse,
          if_pos ⟨rfl, rfl⟩]
        exact ih.1
      · intro x acc
        rw [squeeze, if_neg Bool.false_ne_true, List.singleton_append, reconstructContinuation,
          reconstructContinuation]
        split
        · exact collapse_cons_congr x acc (collapse_cons_congr acc _ ih.1)
        · exact collapse_cons_congr x _ ih.1
    | byte b =>
      have hbyte : ∀ x acc, collapse (x :: reconstructContinuation acc (.byte b :: xs)) =
          collapse (x :: reconstructContinuation acc (.byte b :: squeeze false xs)) := by
        intro x acc
        rw [reconstructContinuation, reconstructContinuation]
        split
        · exact ih.2 x _
        · exact collapse_cons_congr x _ (ih.2 _ 0)
      exact ⟨hbyte _ 0, hbyte⟩

end Tapioca.Host.CanRle

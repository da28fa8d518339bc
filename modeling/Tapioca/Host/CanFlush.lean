-- SUMMARY: The loop that cuts buffered runs into frames while it decodes them, shared by the live readers.
import Mathlib.Tactic
import Tapioca.Lib.Splitter
import Tapioca.Host.CanFit

/-!
# The flush loop

A flush goes through the buffered runs and hands every frame to the decoder as soon as
it is closed. The decoder may move the threshold; what the loop has cut stays cut. A
piece is what one cut takes out of the buffer, a frame or less with the gap behind it.
-/

namespace Tapioca.Host.CanRle

open Lib.Splitter (closed opened)

/-- Runs closed by a gap under the threshold in force. -/
structure Piece where
  bound : ℤ
  runs : List Nat
  gap : Nat

def Piece.whole (p : Piece) : List Nat := p.runs ++ [p.gap]

/-- The gap is the first run to reach the threshold. -/
def Piece.Cut (p : Piece) : Prop := (∀ r ∈ p.runs, (r : ℤ) < p.bound) ∧ p.bound ≤ p.gap

/-- What the loop leaves: the decoder's state, the open piece, how many runs are done with, and
as a history the pieces. -/
structure Cutting (σ : Type*) where
  state : σ
  cur : List Nat
  last : Nat
  pieces : List Piece := []

variable {σ : Type*}

/-- The loop of `flush`. The threshold is read off the state; `i` is the index of the next run. -/
def cutLoop (bound : σ → ℤ) (emit : σ → List Nat → σ) (i : Nat) (c : Cutting σ) : List Nat → Cutting σ
  | [] => c
  | r :: runs =>
    if (r : ℤ) ≥ bound c.state then
      let state := if c.cur.length ≥ 8 then emit c.state c.cur else c.state
      cutLoop bound emit (i + 1) ⟨state, [], i + 1, c.pieces ++ [⟨bound c.state, c.cur, r⟩]⟩ runs
    else cutLoop bound emit (i + 1) { c with cur := c.cur ++ [r] } runs

/-- The frames among pieces. -/
def frames (pieces : List (List Nat)) : List (List Nat) := pieces.filter (8 ≤ ·.length)

theorem frames_append (xs ys : List (List Nat)) : frames (xs ++ ys) = frames xs ++ frames ys := List.filter_append ..

theorem frames_cons (f : List Nat) (fs : List (List Nat)) :
    frames (f :: fs) = (if 8 ≤ f.length then [f] else []) ++ frames fs := by
  rw [frames, List.filter_cons]
  split_ifs <;> simp_all [frames]

theorem frames_singleton (f : List Nat) : frames [f] = if 8 ≤ f.length then [f] else [] := by
  rw [frames_cons, frames, List.filter_nil, List.append_nil]

theorem frames_eq_flatMap (fs : List (List Nat)) : frames fs = fs.flatMap fun f => frames [f] := by
  induction fs with
  | nil => rfl
  | cons f fs ih => rw [frames_cons, List.flatMap_cons, frames_singleton, ← ih]

/-! ## What the loop cuts -/

/-- Behind some of the runs: the pieces and the open one are these runs, `i` of them are past. -/
structure Cutting.At (bound : σ → ℤ) (past : List Nat) (c : Cutting σ) : Prop where
  parts : past = c.pieces.flatMap Piece.whole ++ c.cur
  cut : ∀ p ∈ c.pieces, p.Cut
  clean : ∀ r ∈ c.cur, (r : ℤ) < bound c.state
  last : c.last = (c.pieces.flatMap Piece.whole).length

theorem Cutting.At.start (bound : σ → ℤ) (s : σ) : (⟨s, [], 0, []⟩ : Cutting σ).At bound [] :=
  ⟨rfl, by simp, by simp, rfl⟩

theorem Cutting.At.last_le {bound : σ → ℤ} {past : List Nat} {c : Cutting σ} (h : c.At bound past) :
    c.last ≤ past.length := by
  rw [h.parts, h.last, List.length_append]
  exact Nat.le_add_right _ _

/-- Behind the last piece stands the open one. -/
theorem Cutting.At.drop_last {bound : σ → ℤ} {past : List Nat} {c : Cutting σ} (h : c.At bound past) :
    past.drop c.last = c.cur := by
  rw [h.parts, h.last, List.drop_left]

/-- The loop keeps the runs, and cuts where the threshold says. -/
theorem cutLoop_at {bound : σ → ℤ} {emit : σ → List Nat → σ} {past : List Nat} {c : Cutting σ} (h : c.At bound past)
    (runs : List Nat) : (cutLoop bound emit past.length c runs).At bound (past ++ runs) := by
  induction runs generalizing past c with
  | nil => rwa [List.append_nil]
  | cons r runs ih =>
    obtain ⟨hparts, hcut, hclean, hlast⟩ := h
    have hassoc : past ++ r :: runs = past ++ [r] ++ runs := by rw [List.append_assoc, List.singleton_append]
    have hlen : past.length + 1 = (past ++ [r]).length := by
      rw [List.length_append, List.length_singleton]
    rw [cutLoop, hassoc, hlen]
    split
    next hgap =>
      apply ih
      refine ⟨?_, ?_, by simp, ?_⟩
      · simp [hparts, Piece.whole]
      · intro p hp
        rcases List.mem_append.mp hp with hp | hp
        · exact hcut p hp
        · rw [List.mem_singleton.mp hp]
          exact ⟨hclean, hgap⟩
      · simp [hparts, Piece.whole]
    next hstay =>
      apply ih
      refine ⟨?_, hcut, ?_, hlast⟩
      · rw [hparts, List.append_assoc]
      · intro x hx
        rcases List.mem_append.mp hx with hx | hx
        · exact hclean x hx
        · rw [List.mem_singleton.mp hx]
          exact not_le.mp hstay

/-- What the loop decodes are the pieces that are frames, one after the other. -/
theorem cutLoop_state (bound : σ → ℤ) (emit : σ → List Nat → σ) (i : Nat) (c : Cutting σ) (runs : List Nat) :
    ∃ pieces, (cutLoop bound emit i c runs).pieces = c.pieces ++ pieces ∧
      (cutLoop bound emit i c runs).state = (frames (pieces.map Piece.runs)).foldl emit c.state := by
  induction runs generalizing i c with
  | nil => exact ⟨[], (List.append_nil _).symm, rfl⟩
  | cons r runs ih =>
    rw [cutLoop]
    split
    next =>
      obtain ⟨pieces, hpieces, hstate⟩ :=
        ih (i + 1) ⟨if c.cur.length ≥ 8 then emit c.state c.cur else c.state, [], i + 1,
          c.pieces ++ [⟨bound c.state, c.cur, r⟩]⟩
      refine ⟨⟨bound c.state, c.cur, r⟩ :: pieces, ?_, ?_⟩
      · rw [hpieces, List.append_assoc, List.singleton_append]
      · rw [hstate, List.map_cons, frames_cons, List.foldl_append]
        congr 1
        split <;> rfl
    next => exact ih (i + 1) { c with cur := c.cur ++ [r] }

/-- While the decoder leaves the threshold alone, the loop is the splitter. -/
theorem cutLoop_splits {bound : σ → ℤ} {emit : σ → List Nat → σ} {b : ℤ} {I : σ → Prop} {i : Nat} {c : Cutting σ}
    {runs : List Nat} (hbound : ∀ s, I s → bound s = b)
    (hemit : ∀ s, I s → ∀ f ∈ frames (closed (fun r : Nat => b ≤ r) c.cur runs), I (emit s f)) (hI : I c.state) :
    I (cutLoop bound emit i c runs).state ∧
      (cutLoop bound emit i c runs).state =
          (frames (closed (fun r : Nat => b ≤ r) c.cur runs)).foldl emit c.state ∧
        (cutLoop bound emit i c runs).cur = opened (fun r : Nat => b ≤ r) c.cur runs := by
  induction runs generalizing i c with
  | nil => exact ⟨hI, rfl, rfl⟩
  | cons r runs ih =>
    rw [closed] at hemit
    simp only [cutLoop, closed, opened, hbound c.state hI, ge_iff_le]
    split
    next hgap =>
      rw [if_pos hgap, frames_cons] at hemit
      have hhead : I (if c.cur.length ≥ 8 then emit c.state c.cur else c.state) := by
        split
        next hlong => exact hemit _ hI _ (by rw [if_pos hlong]; exact List.mem_cons_self)
        next => exact hI
      obtain ⟨hI', hstate, hcur⟩ :=
        @ih (i + 1) ⟨if c.cur.length ≥ 8 then emit c.state c.cur else c.state, [], i + 1,
          c.pieces ++ [⟨b, c.cur, r⟩]⟩
          (fun s hs f hf => hemit s hs f (List.mem_append_right _ hf)) hhead
      refine ⟨hI', ?_, hcur⟩
      rw [hstate, frames_cons, List.foldl_append]
      congr 1
      split <;> rfl
    next hstay =>
      rw [if_neg hstay] at hemit
      exact @ih (i + 1) { c with cur := c.cur ++ [r] } hemit hI

/-! ## The buffer -/

/-- What a flush takes from the front of the buffer. -/
inductive Taken where
  | shed (runs : List Nat)
  | piece (p : Piece)
  /-- The open piece at the end of the capture. -/
  | last (bound : ℤ) (runs : List Nat)

def Taken.runs : Taken → List Nat
  | .shed runs => runs
  | .piece p => p.whole
  | .last _ runs => runs

/-- The frames among what is taken. -/
def Taken.frames : Taken → List (List Nat)
  | .shed _ => []
  | .piece p => CanRle.frames [p.runs]
  | .last _ runs => [runs]

/-- How many runs a flush gives up. -/
def Taken.lost : Taken → Nat
  | .shed runs => runs.length
  | .piece _ => 0
  | .last _ _ => 0

/-- A piece ends at the first gap, an open one has none. -/
def Taken.WellCut : Taken → Prop
  | .shed _ => True
  | .piece p => p.Cut
  | .last bound runs => 8 ≤ runs.length ∧ ∀ r ∈ runs, (r : ℤ) < bound

/-- The runs buffered, and what has become of those before them: taken, decoded, counted as dropped. -/
structure Buffer where
  runbuf : List Nat
  taken : List Taken
  decoded : List (List Nat)
  dropped : Nat

/-- Something is taken off the front of the buffer, in order, and the frames among it decoded. -/
structure Flushed (b b' : Buffer) (new : List Taken) : Prop where
  taken : b'.taken = b.taken ++ new
  runs : b.runbuf = new.flatMap Taken.runs ++ b'.runbuf
  cut : ∀ t ∈ new, t.WellCut
  decoded : b'.decoded = b.decoded ++ new.flatMap Taken.frames
  lost : b.dropped + (new.map Taken.lost).sum ≤ b'.dropped

theorem Flushed.refl (b : Buffer) : Flushed b b [] := ⟨by simp, rfl, by simp, by simp, le_rfl⟩

theorem Flushed.trans {b b' b'' : Buffer} {new new' : List Taken} (h : Flushed b b' new) (h' : Flushed b' b'' new') :
    Flushed b b'' (new ++ new') := by
  refine ⟨?_, ?_, ?_, ?_, ?_⟩
  · rw [h'.taken, h.taken, List.append_assoc]
  · rw [h.runs, h'.runs, List.flatMap_append, List.append_assoc]
  · intro t ht
    exact (List.mem_append.mp ht).elim (h.cut t) (h'.cut t)
  · rw [h'.decoded, h.decoded, List.flatMap_append, List.append_assoc]
  · have hlost := h.lost
    have hlost' := h'.lost
    rw [List.map_append, List.sum_append]
    omega

/-- Shedding the oldest runs. -/
theorem Flushed.shed (b : Buffer) (n : Nat) :
    Flushed b ⟨b.runbuf.drop n, b.taken ++ [.shed (b.runbuf.take n)], b.decoded, b.dropped + n⟩
      [.shed (b.runbuf.take n)] := by
  refine ⟨rfl, ?_, ?_, ?_, ?_⟩
  · rw [List.flatMap_singleton]
    exact (List.take_append_drop n _).symm
  · exact List.forall_mem_singleton.mpr trivial
  · exact (List.append_nil _).symm
  · exact Nat.add_le_add_left (List.length_take_le n _) _

theorem flatMap_piece_runs (pieces : List Piece) :
    (pieces.map Taken.piece).flatMap Taken.runs = pieces.flatMap Piece.whole := by
  rw [List.flatMap_map]
  rfl

theorem flatMap_piece_frames (pieces : List Piece) :
    (pieces.map Taken.piece).flatMap Taken.frames = frames (pieces.map Piece.runs) := by
  rw [frames_eq_flatMap, List.flatMap_map, List.flatMap_map]
  rfl

theorem sum_piece_lost (pieces : List Piece) : ((pieces.map Taken.piece).map Taken.lost).sum = 0 := by
  rw [List.map_map]
  exact List.sum_eq_zero (by simp [Taken.lost])

/-- The loop takes its pieces off the front and leaves the open one. -/
theorem Cutting.At.flushed {bound : σ → ℤ} {work back : List Nat} {c : Cutting σ} (h : c.At bound work) {b : Buffer}
    (hb : b.runbuf = work ++ back) {n : Nat} (hn : b.dropped ≤ n) :
    Flushed b ⟨b.runbuf.drop c.last, b.taken ++ c.pieces.map .piece, b.decoded ++ frames (c.pieces.map Piece.runs), n⟩
      (c.pieces.map .piece) := by
  refine ⟨rfl, ?_, List.forall_mem_map.mpr h.cut, ?_, ?_⟩
  · rw [flatMap_piece_runs, hb, h.parts, h.last, List.append_assoc, List.drop_left]
  · rw [flatMap_piece_frames]
  · rw [sum_piece_lost]
    exact hn

/-- At the end of a capture it takes the open piece as well. -/
theorem Cutting.At.flushed_last {bound : σ → ℤ} {work back : List Nat} {c : Cutting σ} (h : c.At bound work) {b : Buffer}
    (hb : b.runbuf = work ++ back) (hlong : 8 ≤ c.cur.length) {n : Nat} (hn : b.dropped ≤ n) :
    Flushed b ⟨b.runbuf.drop work.length, b.taken ++ c.pieces.map .piece ++ [.last (bound c.state) c.cur],
      b.decoded ++ frames (c.pieces.map Piece.runs) ++ [c.cur], n⟩
      (c.pieces.map .piece ++ [.last (bound c.state) c.cur]) := by
  refine ⟨List.append_assoc .., ?_, ?_, ?_, ?_⟩
  · rw [List.flatMap_append, flatMap_piece_runs, List.flatMap_singleton, hb, List.drop_left]
    exact congrArg (· ++ back) h.parts
  · intro t ht
    rcases List.mem_append.mp ht with ht | ht
    · obtain ⟨p, hp, rfl⟩ := List.mem_map.mp ht
      exact h.cut p hp
    · rw [List.mem_singleton.mp ht]
      exact ⟨hlong, h.clean⟩
  · rw [List.flatMap_append, flatMap_piece_frames, ← List.append_assoc]
    rfl
  · rw [List.map_append, List.sum_append, sum_piece_lost]
    exact hn

/-- Every run pushed has been taken or is in the buffer; what is taken is well cut, the frames among
it have been decoded, and what is lost of it counted. -/
structure Buffer.Kept (b : Buffer) (appended : List Nat) : Prop where
  runs : appended = b.taken.flatMap Taken.runs ++ b.runbuf
  cut : ∀ t ∈ b.taken, t.WellCut
  decoded : b.decoded = b.taken.flatMap Taken.frames
  lost : (b.taken.map Taken.lost).sum ≤ b.dropped

theorem Flushed.kept {b b' : Buffer} {new : List Taken} {appended : List Nat} (h : Flushed b b' new)
    (hb : b.Kept appended) : b'.Kept appended := by
  refine ⟨?_, ?_, ?_, ?_⟩
  · rw [hb.runs, h.taken, h.runs, List.flatMap_append, List.append_assoc]
  · rw [h.taken]
    intro t ht
    exact (List.mem_append.mp ht).elim (hb.cut t) (h.cut t)
  · rw [h.decoded, hb.decoded, h.taken, List.flatMap_append]
  · have hold := hb.lost
    have hnew := h.lost
    rw [h.taken, List.map_append, List.sum_append]
    omega

theorem Buffer.Kept.push {b : Buffer} {appended : List Nat} (h : b.Kept appended) (new : List Nat) :
    ({ b with runbuf := b.runbuf ++ new }).Kept (appended ++ new) := by
  refine ⟨?_, h.cut, h.decoded, h.lost⟩
  rw [h.runs, List.append_assoc]

end Tapioca.Host.CanRle

-- SUMMARY: CAN traffic on the data line, through the blob, the firmware and the wire, as the page and the live reader show it.
import Mathlib.Tactic
import Tapioca.Host.CanLiveDecode
import Tapioca.Host.WebCanDecode
import Tapioca.Sniffer.RleLine

/-!
# The bus as it is shown

Squelch and markers change the runs on their way to the host, but only where a reader cuts
anyway: a long run is shortened and followed by a boundary, and boundaries are repeated. The
frames between the cuts stay what they are.
-/

namespace Tapioca.Host.CanRle

open Lib.Splitter (closed opened)

/-! ## Runs that are cut alike -/

/-- Two lists of runs that a cut makes the same frames of. -/
structure CutAlike (bound : ℤ) (xs ys : List Nat) : Prop where
  frames : ∀ cur, frames (closed (Cuts bound) cur xs) = frames (closed (Cuts bound) cur ys)
  rest : ∀ cur, opened (Cuts bound) cur xs = opened (Cuts bound) cur ys

namespace CutAlike

variable {bound : ℤ}

theorem refl (xs : List Nat) : CutAlike bound xs xs := ⟨fun _ => rfl, fun _ => rfl⟩

theorem trans {xs ys zs : List Nat} (h : CutAlike bound xs ys) (h' : CutAlike bound ys zs) : CutAlike bound xs zs :=
  ⟨fun cur => (h.frames cur).trans (h'.frames cur), fun cur => (h.rest cur).trans (h'.rest cur)⟩

theorem symm {xs ys : List Nat} (h : CutAlike bound xs ys) : CutAlike bound ys xs :=
  ⟨fun cur => (h.frames cur).symm, fun cur => (h.rest cur).symm⟩

theorem append {xs ys xs' ys' : List Nat} (h : CutAlike bound xs ys) (h' : CutAlike bound xs' ys') :
    CutAlike bound (xs ++ xs') (ys ++ ys') := by
  refine ⟨fun cur => ?_, fun cur => ?_⟩
  · rw [Lib.Splitter.closed_append, Lib.Splitter.closed_append, frames_append, frames_append, h.frames, h.rest, h'.frames]
  · rw [Lib.Splitter.opened_append, Lib.Splitter.opened_append, h.rest, h'.rest]

theorem cons (x : Nat) {xs ys : List Nat} (h : CutAlike bound xs ys) : CutAlike bound (x :: xs) (x :: ys) :=
  (refl [x]).append h

/-- A second cut behind a cut makes no frame, and a cut is as good as another. -/
theorem of_cuts {x y : Nat} (hx : Cuts bound x) (hy : Cuts bound y) : CutAlike bound [x, y] [y] := by
  refine ⟨fun cur => ?_, fun cur => ?_⟩
  · simp only [closed, if_pos hx, if_pos hy]
    rw [frames_cons, frames_cons, frames_cons]
    rfl
  · simp only [opened, if_pos hx, if_pos hy]

theorem swap {x y : Nat} (hx : Cuts bound x) (hy : Cuts bound y) : CutAlike bound [x] [y] := by
  refine ⟨fun cur => ?_, fun cur => ?_⟩
  · simp only [closed, if_pos hx, if_pos hy]
  · simp only [opened, if_pos hx, if_pos hy]

theorem flatMap {f : Nat → List Nat} (h : ∀ t, CutAlike bound (f t) [t]) (ts : List Nat) :
    CutAlike bound (ts.flatMap f) ts := by
  induction ts with
  | nil => exact refl []
  | cons t ts ih =>
    rw [List.flatMap_cons]
    exact (h t).append ih

/-- Repeated boundaries are repeated cuts. -/
theorem collapse (hfar : Cuts bound BOUNDARY_RUN) (runs : List Nat) : CutAlike bound (CanRle.collapse runs) runs := by
  induction runs using CanRle.collapse.induct with
  | case1 x y runs hboth ih =>
    obtain ⟨rfl, rfl⟩ := hboth
    rw [CanRle.collapse, if_pos ⟨rfl, rfl⟩]
    exact ih.trans ((of_cuts hfar hfar).symm.append (refl runs))
  | case2 x y runs hnot ih =>
    rw [CanRle.collapse, if_neg hnot]
    exact ih.cons x
  | case3 runs hshort =>
    rw [CanRle.collapse]
    · exact refl runs
    · exact hshort

/-- What the squelch makes of a run is cut like the run. -/
theorem expectedRuns {K : Nat} (hfar : Cuts bound BOUNDARY_RUN) (hlong : K ≠ 0 → bound ≤ 128 * ((K : ℤ) - 1)) (t : Nat) :
    CutAlike bound (RleSniffer.expectedRuns K t) [t] := by
  rw [RleSniffer.expectedRuns]
  split
  next => exact refl [t]
  next hidle =>
    have hK : K ≠ 0 := fun hzero => hidle (.inl hzero)
    have hback := hlong hK
    have ht : Cuts bound t := by
      rw [Cuts]
      omega
    split
    next => exact swap hfar ht
    next hone =>
      have hfront : Cuts bound (128 * (K - 1)) := by
        rw [Cuts]
        omega
      exact (of_cuts hfront hfar).trans (swap hfar ht)

end CutAlike

/-- Runs that agree up to repeated and leading boundaries carry the same traffic. -/
theorem Traffic.of_collapse {cal : Cal} {bound : ℤ} {xs ys : List Nat} {sent : List (Sent cal)}
    (hfar : Cuts bound BOUNDARY_RUN) (h : collapse (BOUNDARY_RUN :: xs) = collapse (BOUNDARY_RUN :: ys))
    (htraffic : Traffic bound ys sent) : Traffic bound xs sent := by
  have halike : CutAlike bound (BOUNDARY_RUN :: xs) (BOUNDARY_RUN :: ys) :=
    (CutAlike.collapse hfar _).symm.trans (h ▸ CutAlike.collapse hfar _)
  have hframes := halike.frames []
  have hrest := halike.rest []
  rw [closed, if_pos hfar, closed, if_pos hfar, frames_cons, frames_cons] at hframes
  rw [opened, if_pos hfar, opened, if_pos hfar] at hrest
  exact ⟨hframes.trans htraffic.frames, hrest.trans htraffic.whole⟩

end Tapioca.Host.CanRle

namespace Tapioca.RleSniffer

open Pioc RleBlob Lib.Lts Host.CanRle

namespace Capture

variable {B : Build} {cal : Cal} {bound : ℤ} {sent : List (Sent cal)}

/-- The wire carries the traffic of the line: the threshold is below what the squelch leaves of an idle run. -/
theorem traffic (c : Capture B) (hfar : bound ≤ BOUNDARY_RUN) (hlong : B.capIdleK ≠ 0 → bound ≤ 128 * ((B.capIdleK : ℤ) - 1))
    (hline : Traffic bound (heard B.capIdleK c.line) sent) {body : List UInt8}
    (hwire : c.final.sys.host.wire = c.first.sys.host.wire ++ body) : Traffic bound (captureToRuns body) sent := by
  obtain ⟨body', hwire', hruns⟩ := c.wire_runs
  obtain rfl : body = body' := List.append_cancel_left (hwire.symm.trans hwire')
  have halike := CutAlike.flatMap (CutAlike.expectedRuns hfar hlong) (heard B.capIdleK c.line)
  refine .of_collapse hfar hruns ⟨?_, ?_⟩
  · rw [halike.frames, hline.frames]
  · rw [halike.rest, hline.whole]

end Capture

/-! ## A frame at 1 Mbit -/

/-- The eMCU samples a line that starts high: six instructions a high sample and five a low one, eight and nine for the
edges, and one more where the ring wraps. The ISR drains behind every edge. -/
def sampling (l : Bool) (n : Nat) : List Nat → List Act
  | [] => []
  | k :: ks =>
    List.replicate (k * if l then 6 else 5) (.instr l) ++
      List.replicate ((if l then 8 else 9) + if n % 30 = 29 then 1 else 0) (.instr !l) ++
        .firmware .drain :: sampling (!l) (n + 1) ks

end Tapioca.RleSniffer

-- SUMMARY: The Clause-22 frame hunt as a recursion on the remaining line, which both decoders refine, and its behaviour when the line is cut.
import Tapioca.Lib.Bits
import Tapioca.Host.MdioCodec
import Tapioca.Host.MdioLib

/-!
# The frame hunt

`hunt` scans a line bit by bit: it counts ones, and at a zero behind at least 32
ones it takes the next 32 bits as a frame if they are all there and start with
`01`. Both decoders run this scan over an index; here the remaining line is the
argument. Each frame is paired with what follows it.

Two facts make the scan resumable. Frames found in a buffer stay found when the
buffer is extended, and the bits behind the last frame decide the rest
(`hunt_append`). Of those bits only the last 80 matter: a zero that could still
become a frame lies in the last 31, so at least 48 of the ones in front of it
are among them (`hunt_truncate`).
-/

namespace Tapioca.Host

open Lib.Bits

/-- At a zero behind `ones` ones, `bits` (which starts with that zero) opens a
frame. -/
def Locks (ones : Nat) (bits : List Bool) : Prop :=
  32 ≤ ones ∧ 32 ≤ bits.length ∧ ofBits (bits.take 2) = 0b01

instance (ones : Nat) (bits : List Bool) : Decidable (Locks ones bits) :=
  inferInstanceAs (Decidable (_ ∧ _))

/-- The field of `f` in bits `lo` to `hi`. -/
def field (f : List Bool) (lo hi : Nat) : Nat := ofBits ((f.take hi).drop lo)

/-- The frame in the first 32 bits. -/
def frameIn (f : List Bool) (ones : Nat) : Frame :=
  let op := field f 2 4
  let ta := field f 14 16
  let data := field f 16 32
  { op, phyad := field f 4 9, regad := field f 9 14, ta, data, preamble := ones,
    noResponse := op = OP_R ∧ ta = 0b11 ∧ data = 0xFFFF }

/-- The frames of a line behind `ones` ones, each with the bits that follow it. -/
def hunt (ones : Nat) : List Bool → List (Frame × List Bool)
  | [] => []
  | true :: bits => hunt (ones + 1) bits
  | false :: bits =>
    if Locks ones (false :: bits) then
      (frameIn (false :: bits) ones, bits.drop 31) :: hunt 0 (bits.drop 31)
    else hunt 0 bits
termination_by bits => bits.length
decreasing_by all_goals simp only [List.length_drop, List.length_cons]; omega

/-- The frames alone, up to their preamble counts. -/
def huntFields (ones : Nat) (bits : List Bool) : List Frame :=
  (hunt ones bits).map (·.1.fields)

@[simp] theorem hunt_nil (ones : Nat) : hunt ones [] = [] := by rw [hunt]

theorem hunt_true (ones : Nat) (bits : List Bool) :
    hunt ones (true :: bits) = hunt (ones + 1) bits := by rw [hunt]

theorem hunt_false (ones : Nat) (bits : List Bool) (h : ¬ Locks ones (false :: bits)) :
    hunt ones (false :: bits) = hunt 0 bits := by rw [hunt, if_neg h]

theorem hunt_lock (ones : Nat) (bits : List Bool) (h : Locks ones (false :: bits)) :
    hunt ones (false :: bits) =
      (frameIn (false :: bits) ones, bits.drop 31) :: hunt 0 (bits.drop 31) := by
  rw [hunt, if_pos h]

theorem fields_frameIn (f : List Bool) (a b : Nat) :
    (frameIn f a).fields = (frameIn f b).fields := rfl

/-! ## Extending a line -/

theorem field_append {f : List Bool} (more : List Bool) (lo : Nat) {hi : Nat}
    (h : hi ≤ f.length) : field (f ++ more) lo hi = field f lo hi := by
  rw [field, List.take_append_of_le_length h, field]

theorem frameIn_append {f : List Bool} (more : List Bool) (ones : Nat) (h : 32 ≤ f.length) :
    frameIn (f ++ more) ones = frameIn f ones := by
  unfold frameIn
  simp only [field_append more _ (show 4 ≤ f.length by omega),
    field_append more _ (show 9 ≤ f.length by omega),
    field_append more _ (show 14 ≤ f.length by omega),
    field_append more _ (show 16 ≤ f.length by omega), field_append more _ h]

/-- Once 32 bits are there, more of them do not change whether they open a
frame. -/
theorem locks_append {ones : Nat} {bits : List Bool} (more : List Bool) (h : 32 ≤ bits.length) :
    Locks ones (bits ++ more) ↔ Locks ones bits := by
  unfold Locks
  rw [List.take_append_of_le_length (by omega), List.length_append]
  constructor
  · exact fun ⟨h1, _, h3⟩ => ⟨h1, h, h3⟩
  · exact fun ⟨h1, _, h3⟩ => ⟨h1, by omega, h3⟩

/-- The first frame of a line is found unchanged in every extension. -/
theorem hunt_first {ones : Nat} {buf : List Bool} {fr : Frame} {rest : List Bool}
    {found : List (Frame × List Bool)} (h : hunt ones buf = (fr, rest) :: found) :
    found = hunt 0 rest ∧ rest.length + 32 ≤ buf.length ∧
      ∀ more, hunt ones (buf ++ more) = (fr, rest ++ more) :: hunt 0 (rest ++ more) := by
  induction buf generalizing ones with
  | nil =>
    rw [hunt_nil] at h
    cases h
  | cons b bits ih =>
    cases b with
    | true =>
      rw [hunt_true] at h
      obtain ⟨hfound, hlen, hmore⟩ := ih h
      refine ⟨hfound, by simp only [List.length_cons]; omega, fun more => ?_⟩
      rw [List.cons_append, hunt_true, hmore]
    | false =>
      by_cases hlock : Locks ones (false :: bits)
      · have h32 := hlock.2.1
        rw [hunt_lock _ _ hlock] at h
        obtain ⟨hhead, rfl⟩ := List.cons.inj h
        obtain ⟨rfl, rfl⟩ := Prod.mk.inj hhead
        have h31 : 31 ≤ bits.length := by simpa using h32
        refine ⟨rfl, by simp only [List.length_drop, List.length_cons]; omega, fun more => ?_⟩
        have hlock' : Locks ones (false :: (bits ++ more)) := (locks_append more h32).mpr hlock
        have hframe : frameIn (false :: (bits ++ more)) ones = frameIn (false :: bits) ones :=
          frameIn_append more ones h32
        rw [List.cons_append, hunt_lock _ _ hlock', List.drop_append_of_le_length h31, hframe]
      · rw [hunt_false _ _ hlock] at h
        obtain ⟨hfound, hlen, hmore⟩ := ih h
        refine ⟨hfound, by simp only [List.length_cons]; omega, fun more => ?_⟩
        have h32 : 32 ≤ (false :: bits).length := by simp only [List.length_cons]; omega
        have hlock' : ¬ Locks ones (false :: (bits ++ more)) :=
          fun hl => hlock ((locks_append more h32).mp hl)
        rw [List.cons_append, hunt_false _ _ hlock', hmore]

/-- The bits behind the last frame of a line. -/
def leftover (buf : List Bool) : List Bool := ((hunt 0 buf).getLast?.map (·.2)).getD buf

/-- The leftover of a line is the leftover of what follows its first frame. -/
theorem leftover_of_first {buf rest : List Bool} {fr : Frame} {found : List (Frame × List Bool)}
    (h : hunt 0 buf = (fr, rest) :: found) : leftover buf = leftover rest := by
  obtain ⟨rfl, -, -⟩ := hunt_first h
  unfold leftover
  rw [h]
  cases hf : hunt 0 rest with
  | nil => simp
  | cons fe fs =>
    rw [List.getLast?_cons_cons, List.getLast?_eq_some_getLast (List.cons_ne_nil fe fs)]
    rfl

/-- No frame is left in the leftover, and scanning on from it finds the frames
that scanning the whole line finds after those of the buffer. -/
theorem hunt_append (buf more : List Bool) :
    hunt 0 (leftover buf) = [] ∧
      huntFields 0 (buf ++ more) = huntFields 0 buf ++ huntFields 0 (leftover buf ++ more) := by
  induction hn : buf.length using Nat.strong_induction_on generalizing buf with
  | _ n ih =>
    cases hf : hunt 0 buf with
    | nil =>
      have hleft : leftover buf = buf := by simp [leftover, hf]
      rw [hleft]
      exact ⟨hf, by simp [huntFields, hf]⟩
    | cons fe found =>
      obtain ⟨fr, rest⟩ := fe
      obtain ⟨rfl, hlen, hmore⟩ := hunt_first hf
      obtain ⟨hnone, happ⟩ := ih rest.length (by omega) rest rfl
      rw [leftover_of_first hf]
      refine ⟨hnone, ?_⟩
      unfold huntFields at happ ⊢
      rw [hmore, hf, List.map_cons, List.map_cons, happ, List.cons_append]

/-! ## Truncating a line -/

/-- Beyond 32, the number of ones in front makes no difference. -/
theorem huntFields_ones {a b : Nat} (ha : 32 ≤ a) (hb : 32 ≤ b) (bits : List Bool) :
    huntFields a bits = huntFields b bits := by
  induction bits generalizing a b with
  | nil => simp [huntFields]
  | cons x bits ih =>
    cases x with
    | true =>
      simp only [huntFields, hunt_true]
      exact ih (by omega) (by omega)
    | false =>
      have hiff : Locks a (false :: bits) ↔ Locks b (false :: bits) := by
        simp only [Locks, ha, hb, true_and]
      by_cases hlock : Locks a (false :: bits)
      · simp only [huntFields, hunt_lock _ _ hlock, hunt_lock _ _ (hiff.mp hlock), List.map_cons,
          fields_frameIn _ a b]
      · simp only [huntFields, hunt_false _ _ hlock, hunt_false _ _ (fun h => hlock (hiff.mpr h))]

/-- Forgetting the ones in front of a stretch without a frame, when `j` of them
are remembered and the stretch makes up for the rest of 80. -/
theorem huntFields_forget (a j : Nat) {keep : List Bool} (more : List Bool)
    (hlen : 80 ≤ keep.length + j) (hnone : hunt (a + j) keep = []) :
    huntFields (a + j) (keep ++ more) = huntFields j (keep ++ more) := by
  induction keep generalizing j with
  | nil =>
    simp only [List.length_nil, zero_add] at hlen
    exact huntFields_ones (by omega) (by omega) _
  | cons x keep ih =>
    simp only [List.length_cons] at hlen
    cases x with
    | true =>
      rw [hunt_true] at hnone
      simp only [List.cons_append, huntFields, hunt_true]
      exact ih (j + 1) (by omega) hnone
    | false =>
      by_cases hj : 32 ≤ j
      · exact huntFields_ones (by omega) hj _
      · -- the stretch behind this zero is long enough to have decided it already
        have h32 : 32 ≤ (false :: keep).length := by simp only [List.length_cons]; omega
        have hlock : ¬ Locks (a + j) (false :: keep) := by
          intro h
          rw [hunt_lock _ _ h] at hnone
          cases hnone
        have hlock' : ¬ Locks (a + j) (false :: (keep ++ more)) :=
          fun h => hlock ((locks_append more h32).mp h)
        have hshort : ¬ Locks j (false :: (keep ++ more)) := fun h => hj h.1
        rw [List.cons_append]
        simp only [huntFields, hunt_false _ _ hlock', hunt_false _ _ hshort]

/-- Dropping bits in front of the last 80 of a stretch without a frame. -/
theorem huntFields_drop (ones : Nat) {dropped keep : List Bool} (more : List Bool)
    (hlen : 80 ≤ keep.length) (hnone : hunt ones (dropped ++ keep) = []) :
    huntFields ones (dropped ++ keep ++ more) = huntFields 0 (keep ++ more) := by
  induction dropped generalizing ones with
  | nil =>
    rw [List.nil_append] at hnone ⊢
    exact huntFields_forget ones 0 more (by omega) hnone
  | cons x dropped ih =>
    rw [List.cons_append] at hnone
    cases x with
    | true =>
      rw [hunt_true] at hnone
      simp only [List.cons_append, huntFields, hunt_true]
      exact ih (ones + 1) hnone
    | false =>
      have h32 : 32 ≤ (false :: (dropped ++ keep)).length := by
        simp only [List.length_cons, List.length_append]
        omega
      have hlock : ¬ Locks ones (false :: (dropped ++ keep)) := by
        intro h
        rw [hunt_lock _ _ h] at hnone
        cases hnone
      have hlock' : ¬ Locks ones (false :: (dropped ++ keep ++ more)) :=
        fun h => hlock ((locks_append more h32).mp h)
      rw [hunt_false _ _ hlock] at hnone
      simp only [List.cons_append, huntFields, hunt_false _ _ hlock']
      exact ih 0 hnone

/-- Of a stretch without a frame only the last 80 bits matter. -/
theorem hunt_truncate {buf : List Bool} (more : List Bool) (hnone : hunt 0 buf = []) :
    huntFields 0 (buf ++ more) = huntFields 0 (buf.rtake 80 ++ more) := by
  by_cases hlen : buf.length ≤ 80
  · rw [List.rtake, Nat.sub_eq_zero_of_le hlen, List.drop_zero]
  · have hsplit : buf.take (buf.length - 80) ++ buf.rtake 80 = buf := List.take_append_drop _ _
    have hkeep : 80 ≤ (buf.rtake 80).length := by
      rw [List.rtake, List.length_drop]
      omega
    have := huntFields_drop 0 more hkeep (by rw [hsplit]; exact hnone)
    rwa [hsplit] at this

/-! ## A resumable hunt -/

/-- What a hunt over `buf` keeps for the next one. -/
def carryOf (buf : List Bool) : List Bool := (leftover buf).rtake 80

theorem length_carryOf (buf : List Bool) : (carryOf buf).length ≤ 80 := by
  rw [carryOf, List.rtake, List.length_drop]
  omega

/-- Frames of successive hunts, each resumed from the carry of the one before. -/
def huntBursts (carry : List Bool) : List (List Bool) → List Frame
  | [] => []
  | bits :: bursts =>
    huntFields 0 (carry ++ bits) ++ huntBursts (carryOf (carry ++ bits)) bursts

theorem huntFields_carry (buf more : List Bool) :
    huntFields 0 (buf ++ more) = huntFields 0 buf ++ huntFields 0 (carryOf buf ++ more) := by
  obtain ⟨hnone, happ⟩ := hunt_append buf more
  rw [happ, hunt_truncate more hnone, carryOf]

theorem huntFields_carryOf (buf : List Bool) : huntFields 0 (carryOf buf) = [] := by
  have h := huntFields_carry buf []
  rw [List.append_nil, List.append_nil] at h
  exact List.self_eq_append_right.mp h

/-- Hunting burst by burst finds the frames of the whole line. -/
theorem huntBursts_eq {carry : List Bool} (hcarry : huntFields 0 carry = [])
    (bursts : List (List Bool)) :
    huntBursts carry bursts = huntFields 0 (carry ++ bursts.flatten) := by
  induction bursts generalizing carry with
  | nil => simpa [huntBursts] using hcarry.symm
  | cons bits bursts ih =>
    rw [huntBursts, ih (huntFields_carryOf _), List.flatten_cons, ← List.append_assoc,
      huntFields_carry (carry ++ bits)]

end Tapioca.Host

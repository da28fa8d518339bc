-- SUMMARY: The metadata monitor `scripts/diag_monitor.py`: whatever the chunks, and which streams it reads exactly.
import Mathlib.Tactic
import Tapioca.Host.Envelope

/-!
# The metadata monitor

`extract` pairs every `0xFE [` with the next `0xFE` and does not look at boundaries.
What it leaves over it sees again in front of the next chunk, so chunks do not matter.
Records do: their bytes can hold `0xFE [` as well.
-/

namespace Tapioca.Host.DiagMonitor

open RecordFramer (DataRecord MetaText WireFrame frameRecord frameMeta frameLoss)

def OPEN_NEXT : UInt8 := 0x5B

def DELIM : UInt8 := 0xFE

/-- `U+FFFD`, for a byte that is not ASCII. -/
def replacement : Char := Char.ofNat 0xFFFD

/-- `decode("ascii", "replace")` -/
def decode (text : List UInt8) : List Char :=
  text.map fun b => if b < 0x80 then Char.ofNat b.toNat else replacement

/-- The texts `emit` is called with, and the leftover. -/
def extract : List UInt8 → List (List Char) × List UInt8
  | [] => ([], [])
  | b :: rest =>
    if b ≠ DELIM then extract rest
    else if rest = [] then ([], [b])
    else if rest.head? ≠ some OPEN_NEXT then extract rest
    else if DELIM ∉ rest then ([], b :: rest)
    else
      let next := extract ((rest.dropWhile (· ≠ DELIM)).drop 1)
      (decode (rest.takeWhile (· ≠ DELIM)) :: next.1, next.2)
termination_by buf => buf.length
decreasing_by
  · simp
  · simp
  · have hsub := (List.dropWhile_sublist (· ≠ DELIM) (l := rest)).length_le
    rw [List.length_drop, List.length_cons]
    omega

/-- The loop of `main`: the texts of a list of chunks, `buf` carried. -/
def mainLoop (buf : List UInt8) : List (List UInt8) → List (List Char)
  | [] => []
  | chunk :: chunks =>
    let read := extract (buf ++ chunk)
    let left := if read.2.length > 65536 then read.2.drop (read.2.length - 256) else read.2
    read.1 ++ mainLoop left chunks

/-! ## One buffer -/

theorem extract_nil : extract [] = ([], []) := by rw [extract]

/-- A byte outside a block. -/
theorem extract_skip {b : UInt8} (h : b ≠ DELIM) (rest : List UInt8) : extract (b :: rest) = extract rest := by
  rw [extract, if_pos h]

/-- A `0xFE` that opens nothing. -/
theorem extract_stray {c : UInt8} (h : c ≠ OPEN_NEXT) (rest : List UInt8) :
    extract (DELIM :: c :: rest) = extract (c :: rest) := by
  rw [extract, if_neg (not_not.mpr rfl), if_neg (List.cons_ne_nil _ _), if_pos (by simpa using h)]

/-- Behind `0xFE [` the next `0xFE` decides. -/
theorem extract_opened (body : List UInt8) :
    extract (DELIM :: OPEN_NEXT :: body) =
      if DELIM ∉ OPEN_NEXT :: body then ([], DELIM :: OPEN_NEXT :: body)
      else
        let next := extract (((OPEN_NEXT :: body).dropWhile (· ≠ DELIM)).drop 1)
        (decode ((OPEN_NEXT :: body).takeWhile (· ≠ DELIM)) :: next.1, next.2) := by
  have hhead : ¬ (OPEN_NEXT :: body).head? ≠ some OPEN_NEXT := not_not.mpr rfl
  rw [extract, if_neg (not_not.mpr rfl), if_neg (List.cons_ne_nil _ _), if_neg hhead]

theorem clean_opened {body : List UInt8} (h : DELIM ∉ body) : DELIM ∉ OPEN_NEXT :: body :=
  List.not_mem_cons_of_ne_of_not_mem (by decide) h

/-- An open block. -/
theorem extract_open {body : List UInt8} (h : DELIM ∉ body) :
    extract (DELIM :: OPEN_NEXT :: body) = ([], DELIM :: OPEN_NEXT :: body) := by
  rw [extract_opened, if_pos (clean_opened h)]

/-- A block. -/
theorem extract_block {body : List UInt8} (h : DELIM ∉ body) (rest : List UInt8) :
    extract (DELIM :: OPEN_NEXT :: body ++ DELIM :: rest) =
      (decode (OPEN_NEXT :: body) :: (extract rest).1, (extract rest).2) := by
  have hbody : ∀ b ∈ OPEN_NEXT :: body, decide (b ≠ DELIM) = true := by
    intro b hb
    refine decide_eq_true fun heq => clean_opened h ?_
    exact heq ▸ hb
  have hclosed : ¬ DELIM ∉ OPEN_NEXT :: (body ++ DELIM :: rest) := by simp
  have htext : (OPEN_NEXT :: (body ++ DELIM :: rest)).takeWhile (· ≠ DELIM) = OPEN_NEXT :: body := by
    rw [← List.cons_append, List.takeWhile_append_of_pos hbody, List.takeWhile_cons_of_neg (by simp), List.append_nil]
  have hrest : (OPEN_NEXT :: (body ++ DELIM :: rest)).dropWhile (· ≠ DELIM) = DELIM :: rest := by
    rw [← List.cons_append, List.dropWhile_append_of_pos hbody, List.dropWhile_cons_of_neg (by simp)]
  rw [List.cons_append, List.cons_append, extract_opened, if_neg hclosed, htext, hrest]
  rfl

/-- The cases of a buffer: what `extract` does at its first byte. -/
theorem extract_cases {P : List UInt8 → Prop} (nil : P []) (skip : ∀ b rest, b ≠ DELIM → P rest → P (b :: rest))
    (last : P [DELIM]) (stray : ∀ c rest, c ≠ OPEN_NEXT → P (c :: rest) → P (DELIM :: c :: rest))
    (opened : ∀ body, DELIM ∉ body → P (DELIM :: OPEN_NEXT :: body))
    (block : ∀ body rest, DELIM ∉ body → P rest → P (DELIM :: OPEN_NEXT :: body ++ DELIM :: rest))
    (buf : List UInt8) : P buf := by
  induction hn : buf.length using Nat.strong_induction_on generalizing buf with
  | _ n ih =>
    subst hn
    rcases buf with _ | ⟨b, rest⟩
    · exact nil
    · by_cases hb : b = DELIM
      · subst hb
        rcases rest with _ | ⟨c, rest⟩
        · exact last
        · by_cases hc : c = OPEN_NEXT
          · subst hc
            by_cases hclosed : DELIM ∈ rest
            · obtain ⟨body, rest, rfl, hbody⟩ := List.eq_append_cons_of_mem hclosed
              exact block body rest hbody (ih rest.length (by simp; omega) rest rfl)
            · exact opened rest hclosed
          · exact stray c rest hc (ih _ (by simp) _ rfl)
      · exact skip b rest hb (ih _ (by simp) _ rfl)

/-- What is left over stands for what was read. -/
theorem extract_append (xs ys : List UInt8) :
    extract (xs ++ ys) =
      ((extract xs).1 ++ (extract ((extract xs).2 ++ ys)).1, (extract ((extract xs).2 ++ ys)).2) := by
  induction xs using extract_cases with
  | nil => rw [extract_nil, List.nil_append, List.nil_append]
  | skip b rest hb ih => rw [List.cons_append, extract_skip hb, extract_skip hb, ih]
  | last => simp [extract]
  | stray c rest hc ih =>
    rw [List.cons_append, List.cons_append, extract_stray hc, extract_stray hc, ← List.cons_append, ih]
  | opened body hbody => rw [extract_open hbody, List.nil_append]
  | block body rest hbody ih =>
    have hshift : DELIM :: OPEN_NEXT :: body ++ DELIM :: rest ++ ys =
        DELIM :: OPEN_NEXT :: body ++ DELIM :: (rest ++ ys) := List.append_assoc _ _ _
    rw [hshift, extract_block hbody, extract_block hbody, ih, List.cons_append]

/-! ## The main loop -/

/-- Less than 65536 bytes are left over behind every chunk. -/
def Buffered (chunks : List (List UInt8)) : Prop :=
  ∀ seen, seen <+: chunks → (extract seen.flatten).2.length < 65536

/-- How a stream is cut into chunks does not matter. -/
theorem mainLoop_eq {chunks : List (List UInt8)} (h : Buffered chunks) :
    mainLoop [] chunks = (extract chunks.flatten).1 := by
  have hrun : ∀ seen rest, seen ++ rest = chunks →
      (extract seen.flatten).1 ++ mainLoop (extract seen.flatten).2 rest = (extract chunks.flatten).1 := by
    intro seen rest
    induction rest generalizing seen with
    | nil =>
      rintro rfl
      rw [mainLoop, List.append_nil, List.append_nil]
    | cons chunk rest ih =>
      intro hall
      have hnext := ih (seen ++ [chunk]) (by simpa using hall)
      have hshort := h (seen ++ [chunk]) ⟨rest, by simpa using hall⟩
      rw [List.flatten_append, List.flatten_singleton, extract_append] at hnext hshort
      have hguard : ¬ (extract ((extract seen.flatten).2 ++ chunk)).2.length > 65536 :=
        Nat.not_lt.mpr (Nat.le_of_lt hshort)
      rw [mainLoop, if_neg hguard, ← List.append_assoc]
      exact hnext
  simpa [extract_nil] using hrun [] chunks rfl

theorem length_leftover_le (buf : List UInt8) : (extract buf).2.length ≤ buf.length := by
  induction buf using extract_cases with
  | nil => rw [extract_nil]
  | skip b rest hb ih => rw [extract_skip hb]; exact ih.trans (Nat.le_succ _)
  | last => simp [extract]
  | stray c rest hc ih => rw [extract_stray hc]; exact ih.trans (Nat.le_succ _)
  | opened body hbody => rw [extract_open hbody]
  | block body rest hbody ih =>
    rw [extract_block hbody, List.length_append]
    exact ih.trans ((Nat.le_succ _).trans (Nat.le_add_left _ _))

theorem buffered_of_short {chunks : List (List UInt8)} (h : chunks.flatten.length < 65536) : Buffered chunks := by
  rintro seen ⟨rest, rfl⟩
  have hle := length_leftover_le seen.flatten
  rw [List.flatten_append, List.length_append] at h
  omega

/-! ## The device's stream -/

/-- The bytes of a stream. -/
def stream (frames : List WireFrame) : List UInt8 := frames.flatMap WireFrame.emit

/-- The text of a metadata block. -/
def metaText : WireFrame → Option (List Char)
  | .metadata m => some (m.ascii.map fun b => Char.ofNat b.toNat)
  | _ => none

/-- A record whose framed bytes hold `0xFE [`, with a `0xFE` behind it in the record or later. -/
def OpensBlock (frames : List WireFrame) : Prop :=
  ∃ before r after front back, frames = before ++ .record r :: after ∧
    frameRecord r.raw = front ++ DELIM :: OPEN_NEXT :: back ∧ DELIM ∈ back ++ stream after

/-- A text that holds a replacement character, or `n` texts at least. -/
def Garbled (n : Nat) (texts : List (List Char)) : Prop := (∃ t ∈ texts, replacement ∈ t) ∨ n ≤ texts.length

theorem Garbled.cons {n : Nat} {texts : List (List Char)} (h : Garbled n texts) (t : List Char) :
    Garbled (n + 1) (t :: texts) := by
  rcases h with ⟨t', ht', hbad⟩ | hlen
  · exact .inl ⟨t', List.mem_cons_of_mem _ ht', hbad⟩
  · exact .inr (Nat.succ_le_succ hlen)

theorem Garbled.mono {m n : Nat} {texts : List (List Char)} (h : Garbled n texts) (hmn : m ≤ n) : Garbled m texts :=
  h.imp_right hmn.trans

theorem texts_of_clean {buf : List UInt8} (h : DELIM ∉ buf) : (extract buf).1 = [] := by
  induction buf with
  | nil => rw [extract_nil]
  | cons b buf ih =>
    obtain ⟨hb, hbuf⟩ := List.ne_and_not_mem_of_not_mem_cons h
    rw [extract_skip hb.symm]
    exact ih hbuf

/-- A text closed behind a boundary holds a replacement character. -/
theorem garbled_of_boundary {body rest : List UInt8} (hbody : DELIM ∉ body) (hrest : DELIM ∈ rest) (n : Nat) :
    Garbled n (extract (DELIM :: OPEN_NEXT :: body ++ 0xFF :: rest)).1 := by
  obtain ⟨mid, rest, rfl, hmid⟩ := List.eq_append_cons_of_mem hrest
  have hclean : DELIM ∉ body ++ 0xFF :: mid := by
    simp only [List.mem_append, List.mem_cons, not_or]
    exact ⟨hbody, by decide, hmid⟩
  have hshift : DELIM :: OPEN_NEXT :: body ++ 0xFF :: (mid ++ DELIM :: rest) =
      DELIM :: OPEN_NEXT :: (body ++ 0xFF :: mid) ++ DELIM :: rest := by simp
  rw [hshift, extract_block hclean]
  refine .inl ⟨_, List.mem_cons_self, ?_⟩
  have hboundary : (0xFF : UInt8) ∈ OPEN_NEXT :: (body ++ 0xFF :: mid) := by simp
  exact List.mem_map.mpr ⟨0xFF, hboundary, if_neg (by decide)⟩

/-- The bytes of a record lose no text that they do not garble. -/
theorem garbled_record {n : Nat} {rest : List UInt8} (h : Garbled n (extract rest).1) (w : List UInt8) :
    Garbled n (extract (w ++ 0xFF :: rest)).1 := by
  induction w using extract_cases with
  | nil => rwa [List.nil_append, extract_skip (by decide)]
  | skip b w hb ih => rwa [List.cons_append, extract_skip hb]
  | last => rwa [List.singleton_append, extract_stray (by decide), extract_skip (by decide)]
  | stray c w hc ih => rwa [List.cons_append, List.cons_append, extract_stray hc]
  | opened body hbody =>
    by_cases hclose : DELIM ∈ rest
    · exact garbled_of_boundary hbody hclose n
    · -- nothing closes the block, and there was nothing to lose
      rw [texts_of_clean hclose] at h
      rcases h with ⟨t, ht, -⟩ | hzero
      · cases ht
      · exact .inr (Nat.le_trans hzero (Nat.zero_le _))
  | block body w hbody ih =>
    have hshift : DELIM :: OPEN_NEXT :: body ++ DELIM :: w ++ 0xFF :: rest =
        DELIM :: OPEN_NEXT :: body ++ DELIM :: (w ++ 0xFF :: rest) := List.append_assoc _ _ _
    rw [hshift, extract_block hbody]
    exact (ih.cons _).mono (Nat.le_succ n)

/-- A record that opens a block which is closed gives a text too many, or a garbled one. -/
theorem garbled_opener {n : Nat} {rest w front back : List UInt8} (h : Garbled n (extract rest).1)
    (hopen : w ++ [0xFF] = front ++ DELIM :: OPEN_NEXT :: back) (hclose : DELIM ∈ back ++ rest) :
    Garbled (n + 1) (extract (w ++ 0xFF :: rest)).1 := by
  induction w using extract_cases generalizing front with
  | nil => rcases front with _ | ⟨_, _ | _⟩ <;> simp [DELIM] at hopen
  | skip b w hb ih =>
    rw [List.cons_append, extract_skip hb]
    rcases front with _ | ⟨c, front⟩
    · exact absurd (List.cons.inj hopen).1 hb
    · exact ih (List.cons.inj hopen).2
  | last => rcases front with _ | ⟨_, _ | ⟨_, _ | _⟩⟩ <;> simp [DELIM, OPEN_NEXT] at hopen
  | stray c w hc ih =>
    rw [List.cons_append, List.cons_append, extract_stray hc]
    rcases front with _ | ⟨d, front⟩
    · exact absurd (List.cons.inj (List.cons.inj hopen).2).1 hc
    · exact ih (List.cons.inj hopen).2
  | opened body hbody =>
    -- no second `0xFE` is in the record, so what closes the block is behind it
    have hclean : DELIM ∉ OPEN_NEXT :: body ++ [0xFF] := by
      rw [List.mem_append, not_or]
      exact ⟨clean_opened hbody, by decide⟩
    rcases front with _ | ⟨c, front⟩
    · rw [← (List.cons.inj (List.cons.inj hopen).2).2] at hclose
      have hrest := (List.mem_append.mp hclose).resolve_left fun h => hclean (List.mem_cons_of_mem _ h)
      exact garbled_of_boundary hbody hrest (n + 1)
    · have htail : OPEN_NEXT :: body ++ [0xFF] = front ++ DELIM :: OPEN_NEXT :: back := (List.cons.inj hopen).2
      rw [htail] at hclean
      exact absurd (by simp) hclean
  | block body w hbody ih =>
    have hshift : DELIM :: OPEN_NEXT :: body ++ DELIM :: w ++ 0xFF :: rest =
        DELIM :: OPEN_NEXT :: body ++ DELIM :: (w ++ 0xFF :: rest) := List.append_assoc _ _ _
    rw [hshift, extract_block hbody]
    exact (garbled_record h w).cons _

/-- A record that opens no block which is closed is skipped. -/
theorem texts_record {rest w : List UInt8}
    (h : ∀ front back, w ++ [0xFF] = front ++ DELIM :: OPEN_NEXT :: back → DELIM ∉ back ++ rest) :
    (extract (w ++ 0xFF :: rest)).1 = (extract rest).1 := by
  have htail : ∀ c w, (∀ front back, c :: w ++ [0xFF] = front ++ DELIM :: OPEN_NEXT :: back → DELIM ∉ back ++ rest) →
      ∀ front back, w ++ [0xFF] = front ++ DELIM :: OPEN_NEXT :: back → DELIM ∉ back ++ rest := by
    intro c w h front back heq
    exact h (c :: front) back (congrArg (c :: ·) heq)
  induction w using extract_cases with
  | nil => rw [List.nil_append, extract_skip (by decide)]
  | skip b w hb ih =>
    rw [List.cons_append, extract_skip hb]
    exact ih (htail _ _ h)
  | last => rw [List.singleton_append, extract_stray (by decide), extract_skip (by decide)]
  | stray c w hc ih =>
    rw [List.cons_append, List.cons_append, extract_stray hc]
    exact ih (htail _ _ h)
  | opened body hbody =>
    have hclean := h [] (body ++ [0xFF]) rfl
    rw [List.append_assoc, List.singleton_append, List.mem_append, not_or] at hclean
    have hrest : DELIM ∉ 0xFF :: rest := hclean.2
    have hall : DELIM ∉ body ++ 0xFF :: rest := by
      rw [List.mem_append, not_or]
      exact ⟨hbody, hrest⟩
    rw [List.cons_append, List.cons_append, extract_open hall,
      texts_of_clean fun h => hrest (List.mem_cons_of_mem _ h)]
  | block body w hbody ih =>
    exact absurd (by simp) (h [] (body ++ DELIM :: w ++ [0xFF]) rfl)

/-! ## Frames -/

theorem stream_cons (f : WireFrame) (frames : List WireFrame) : stream (f :: frames) = f.emit ++ stream frames :=
  List.flatMap_cons

theorem emit_record (r : DataRecord) (rest : List UInt8) :
    (WireFrame.record r).emit ++ rest = Cobs.ffEncode r.raw ++ 0xFF :: rest := by
  rw [WireFrame.emit, frameRecord, List.append_assoc, List.singleton_append]

theorem texts_loss (rest : List UInt8) : (extract (WireFrame.loss.emit ++ rest)).1 = (extract rest).1 := by
  rw [WireFrame.emit, frameLoss, List.cons_append, List.cons_append, extract_skip (by decide),
    extract_skip (by decide), List.nil_append]

theorem texts_metadata (m : MetaText) (rest : List UInt8) :
    (extract ((WireFrame.metadata m).emit ++ rest)).1 =
      (m.ascii.map fun b => Char.ofNat b.toNat) :: (extract rest).1 := by
  obtain ⟨body, hascii⟩ : ∃ body, m.ascii = OPEN_NEXT :: body := by
    have hbracket := m.bracket
    cases hm : m.ascii with
    | nil => rw [hm] at hbracket; cases hbracket
    | cons c body => rw [hm] at hbracket; exact ⟨body, by rw [Option.some.inj hbracket, OPEN_NEXT]⟩
  -- a text is printable, so it does not close its own block early
  have hclean : DELIM ∉ body := by
    intro hmem
    have hprint := m.printable DELIM (hascii ▸ List.mem_cons_of_mem _ hmem)
    exact absurd hprint (by decide)
  have hdecode : decode m.ascii = m.ascii.map fun b => Char.ofNat b.toNat := by
    refine List.map_congr_left fun b hb => if_pos ?_
    exact UInt8.lt_of_le_of_lt (m.printable b hb).2 (by decide)
  -- its first byte is the bracket that the opening looks for
  have hemit : (WireFrame.metadata m).emit ++ rest = DELIM :: OPEN_NEXT :: body ++ DELIM :: 0xFF :: rest := by
    rw [WireFrame.emit, Envelope.frameMeta_ascii, hascii]
    simp [DELIM]
  rw [hemit, extract_block hclean, ← hascii, hdecode, extract_skip (by decide)]

/-- The metadata texts of a stream. -/
def metaTexts (frames : List WireFrame) : List (List Char) := frames.filterMap metaText

theorem ascii_ne_replacement : ∀ n < 127, Char.ofNat n ≠ replacement := by decide

theorem replacement_notMem_metaTexts (frames : List WireFrame) : ∀ t ∈ metaTexts frames, replacement ∉ t := by
  intro t ht hbad
  obtain ⟨f, -, hf⟩ := List.mem_filterMap.mp ht
  cases f with
  | metadata m =>
    obtain rfl := Option.some.inj hf
    obtain ⟨b, hb, heq⟩ := List.mem_map.mp hbad
    exact ascii_ne_replacement b.toNat (Nat.lt_succ_of_le (m.printable b hb).2) heq
  | record r => cases hf
  | loss => cases hf

/-- No text is lost without a garbled one. -/
theorem garbled_stream (frames : List WireFrame) : Garbled (metaTexts frames).length (extract (stream frames)).1 := by
  induction frames with
  | nil => exact .inr (Nat.zero_le _)
  | cons f frames ih =>
    rw [stream_cons]
    cases f with
    | record r =>
      rw [emit_record]
      exact garbled_record ih _
    | metadata m =>
      rw [texts_metadata]
      exact ih.cons _
    | loss => rwa [texts_loss]

theorem garbled_of_opensBlock {frames : List WireFrame} (h : OpensBlock frames) :
    Garbled ((metaTexts frames).length + 1) (extract (stream frames)).1 := by
  obtain ⟨before, r, after, front, back, rfl, hopen, hclose⟩ := h
  induction before with
  | nil =>
    rw [List.nil_append, stream_cons, emit_record]
    exact garbled_opener (garbled_stream after) hopen hclose
  | cons f before ih =>
    rw [List.cons_append, stream_cons]
    cases f with
    | record r =>
      rw [emit_record]
      exact garbled_record ih _
    | metadata m =>
      rw [texts_metadata]
      exact ih.cons _
    | loss => rwa [texts_loss]

theorem texts_of_not_opensBlock {frames : List WireFrame} (h : ¬ OpensBlock frames) :
    (extract (stream frames)).1 = metaTexts frames := by
  induction frames with
  | nil => rw [stream, List.flatMap_nil, extract_nil]; rfl
  | cons f frames ih =>
    have hrest : (extract (stream frames)).1 = metaTexts frames := by
      refine ih fun hopens => h ?_
      obtain ⟨before, r, after, front, back, rfl, hopen⟩ := hopens
      exact ⟨f :: before, r, after, front, back, rfl, hopen⟩
    rw [stream_cons]
    cases f with
    | record r =>
      rw [emit_record, texts_record, hrest]
      · rfl
      · exact fun front back hopen hclose => h ⟨[], r, frames, front, back, rfl, hopen, hclose⟩
    | metadata m =>
      rw [texts_metadata, hrest]
      rfl
    | loss =>
      rw [texts_loss, hrest]
      rfl

/-- The monitor prints the metadata texts of a stream and nothing else exactly when no record
opens a block that a later `0xFE` closes. -/
theorem monitor_exact_iff {frames : List WireFrame} {chunks : List (List UInt8)}
    (hstream : chunks.flatten = stream frames) (hbuf : Buffered chunks) :
    mainLoop [] chunks = metaTexts frames ↔ ¬ OpensBlock frames := by
  rw [mainLoop_eq hbuf, hstream]
  refine ⟨fun heq hopens => ?_, texts_of_not_opensBlock⟩
  have hgarbled := garbled_of_opensBlock hopens
  rw [heq] at hgarbled
  rcases hgarbled with ⟨t, ht, hbad⟩ | hlen
  · exact replacement_notMem_metaTexts frames t ht hbad
  · exact absurd hlen (Nat.not_succ_le_self _)

theorem marker_printable : ∀ c ∈ RecordFramer.ascii "[MODE clocked wire=2]", RecordFramer.Printable c := by decide

/-- The marker of `emitModeMarker`. -/
def modeMarker : MetaText := ⟨RecordFramer.ascii "[MODE clocked wire=2]", rfl, marker_printable⟩

theorem quiet_fits : ([0xFE, 0x41, 0x5B, 0xFE] : List UInt8).length < 2 ^ 16 := by decide

/-- A record that holds both bytes of an opener, apart. -/
def quietRecord : DataRecord := ⟨0, 0, 0, 0, [0xFE, 0x41, 0x5B, 0xFE], quiet_fits⟩

/-- The record, and behind it the marker, cut in front of its `[`. -/
def recordThenMarker : List (List UInt8) :=
  [frameRecord quietRecord.raw ++ [0xFE], (frameMeta modeMarker.ascii).drop 1]

theorem monitor_exact_marker :
    mainLoop [] recordThenMarker = metaTexts [.record quietRecord, .metadata modeMarker] := by
  refine (monitor_exact_iff (by decide) (buffered_of_short (by decide))).mpr ?_
  rintro ⟨_ | ⟨_, before⟩, r, after, front, back, heq, hopen, -⟩
  case cons =>
    have hmem : WireFrame.record r ∈ [WireFrame.metadata modeMarker] := by
      rw [(List.cons.inj heq).2]
      simp
    cases List.mem_singleton.mp hmem
  cases heq
  have hquiet : ¬ [DELIM, OPEN_NEXT] <:+: frameRecord quietRecord.raw := by decide
  exact hquiet ⟨front, back, by simp [hopen]⟩

theorem opening_fits : ([0xFE, 0x5B, 0x41, 0xFE] : List UInt8).length < 2 ^ 16 := by decide

def openingRecord : DataRecord := ⟨0, 0, 0, 0, [0xFE, 0x5B, 0x41, 0xFE], opening_fits⟩

/-- Of a record with `0xFE [ A 0xFE` in its payload a text is printed. -/
theorem opening_record_printed : mainLoop [] [stream [.record openingRecord]] ≠ metaTexts [.record openingRecord] := by
  have hopens : OpensBlock [.record openingRecord] :=
    ⟨[], openingRecord, [], (frameRecord openingRecord.raw).take 13, (frameRecord openingRecord.raw).drop 15, rfl,
      by decide, by decide⟩
  rw [mainLoop_eq (buffered_of_short (by decide)), List.flatten_singleton]
  intro heq
  have hgarbled := garbled_of_opensBlock hopens
  rw [heq] at hgarbled
  rcases hgarbled with ⟨t, ht, -⟩ | hlen
  · cases ht
  · cases hlen

end Tapioca.Host.DiagMonitor

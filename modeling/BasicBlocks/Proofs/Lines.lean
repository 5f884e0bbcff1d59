import BasicBlocks.Proofs.Concatenation

/-!
# Lines

Bytes fall into lines at their line feeds. Lines are written one after the other, each with a
terminator behind it, which the last may lack; the rows that are read are then the lines that are not
blank, whichever terminators stand between them. A line that is no usable row is passed over.
-/

namespace BasicBlocks.Facts

open Utf8 (Bytes)

variable {α : Type}

/-- The lines of the bytes, each up to a line feed. What follows the last line feed is a line of its
own, unless nothing does. -/
def lines : Bytes → List Bytes
  | [] => []
  | b :: rest =>
    if b = lineFeed then [] :: lines rest
    else
      match lines rest with
      | [] => [[b]]
      | line :: later => (b :: line) :: later

/-- The lines one after the other, each with one of the endings; the last may have none. -/
inductive Written (endings : List Bytes) : List Bytes → Bytes → Prop
  | nil : Written endings [] []
  | last (line : Bytes) : Written endings [line] line
  | ended {line ending rest : Bytes} {later : List Bytes} (known : ending ∈ endings)
      (others : Written endings later rest) :
      Written endings (line :: later) (line ++ (ending ++ rest))

/-- The bytes that end a line: a line feed, a carriage return, or both. -/
def lineEndings : List Bytes := [[lineFeed], [carriageReturn], [carriageReturn, lineFeed]]

theorem head?_lineEnding {ending : Bytes} (known : ending ∈ lineEndings) (rest : Bytes) :
    ∀ b ∈ (ending ++ rest).head?, isTerminator b = true := by
  simp only [lineEndings, List.mem_cons, List.not_mem_nil, or_false] at known
  rcases known with rfl | rfl | rfl <;> simp [isTerminator]

/-- The two bytes of an ending have an empty run between them. -/
theorem runs_lineEnding {ending : Bytes} (known : ending ∈ lineEndings) (rest : Bytes) :
    runs (ending ++ rest) = runs rest ∧ runs ((ending ++ rest).drop 1) = runs rest := by
  have feed : isTerminator lineFeed = true := rfl
  have ret : isTerminator carriageReturn = true := rfl
  simp only [lineEndings, List.mem_cons, List.not_mem_nil, or_false] at known
  rcases known with rfl | rfl | rfl <;> simp [runs_cons_terminator, feed, ret]

theorem lines_append_feed {line : Bytes} (noFeed : lineFeed ∉ line) (rest : Bytes) :
    lines (line ++ lineFeed :: rest) = line :: lines rest := by
  induction line with
  | nil => simp [lines]
  | cons b line ih =>
    obtain ⟨different, noFeed⟩ := not_or.mp (mt List.mem_cons.mpr noFeed)
    rw [List.cons_append, lines, if_neg (Ne.symm different), ih noFeed]

theorem lines_of_noFeed {line : Bytes} (noFeed : lineFeed ∉ line) (nonempty : line ≠ []) :
    lines line = [line] := by
  induction line with
  | nil => exact absurd rfl nonempty
  | cons b line ih =>
    obtain ⟨different, noFeed⟩ := not_or.mp (mt List.mem_cons.mpr noFeed)
    rw [lines, if_neg (Ne.symm different)]
    cases line with
    | nil => rfl
    | cons b' line => rw [ih noFeed (List.cons_ne_nil _ _)]

theorem not_mem_of_mem_lines {bytes line : Bytes} (h : line ∈ lines bytes) : lineFeed ∉ line := by
  induction bytes generalizing line with
  | nil => cases h
  | cons b rest ih =>
    rw [lines] at h
    split at h
    next =>
      rcases List.mem_cons.mp h with rfl | h
      · simp
      · exact ih h
    next different =>
      cases split : lines rest with
      | nil =>
        rw [split] at h
        obtain rfl := List.mem_singleton.mp h
        simpa [eq_comm] using different
      | cons first later =>
        rw [split] at h
        rcases List.mem_cons.mp h with rfl | h
        · have absent : lineFeed ∉ first := ih (split ▸ List.mem_cons_self)
          simpa [absent, eq_comm] using different
        · exact ih (split ▸ List.mem_cons_of_mem first h)

namespace Written

variable {endings : List Bytes} {ls : List Bytes} {line bytes : Bytes}

theorem mono {more : List Bytes} (subset : endings ⊆ more) (h : Written endings ls bytes) :
    Written more ls bytes := by
  induction h with
  | nil => exact .nil
  | last line => exact .last line
  | ended known _ ih => exact .ended (subset known) ih

theorem cons_byte (b : UInt8) (h : Written endings (line :: ls) bytes) :
    Written endings ((b :: line) :: ls) (b :: bytes) := by
  cases h with
  | last => exact .last _
  | ended known others => exact .ended known others

theorem prefix_of_cons (h : Written endings (line :: ls) bytes) : line <+: bytes := by
  cases h with
  | last => exact List.prefix_rfl
  | ended => exact List.prefix_append _ _

theorem mem (h : Written endings ls bytes) (member : line ∈ ls) : line ⊆ bytes := by
  induction h with
  | nil => cases member
  | last => exact List.mem_singleton.mp member ▸ List.Subset.refl _
  | @ended first ending rest later known others ih =>
    rcases List.mem_cons.mp member with rfl | member
    · exact List.subset_append_left _ _
    · exact fun b hb => List.mem_append_right _ (List.mem_append_right _ (ih member hb))

/-- The rows are the lines that are not blank. -/
theorem runs_eq (h : Written lineEndings ls bytes)
    (clean : ∀ line ∈ ls, ∀ b ∈ line, isTerminator b = false) :
    runs bytes = ls.filter (· ≠ []) := by
  induction h with
  | nil => rfl
  | last line =>
    by_cases blank : line = []
    · simp [blank, runs]
    · have whole : runs (line ++ []) = line :: runs (List.drop 1 []) :=
        runs_append blank (clean line (by simp)) (by simp)
      simpa [blank, runs] using whole
  | @ended line ending rest later known others ih =>
    obtain ⟨passed, dropped⟩ := runs_lineEnding known rest
    have tail := ih fun l hl => clean l (List.mem_cons_of_mem line hl)
    by_cases blank : line = []
    · simpa [blank, passed] using tail
    · rw [runs_append blank (clean line List.mem_cons_self) (head?_lineEnding known rest), dropped,
        tail]
      simp [blank]

end Written

theorem written_lines (bytes : Bytes) : Written [[lineFeed]] (lines bytes) bytes := by
  induction bytes with
  | nil => exact .nil
  | cons b rest ih =>
    rw [lines]
    split
    next feed =>
      subst feed
      have ended : Written [[lineFeed]] ([] :: lines rest) ([] ++ ([lineFeed] ++ rest)) :=
        .ended List.mem_cons_self ih
      exact ended
    next =>
      cases split : lines rest with
      | nil =>
        rw [split] at ih
        cases ih
        exact .last [b]
      | cons line later => exact (split ▸ ih).cons_byte b

/-- Lines of bytes without carriage returns have no terminators. -/
theorem clean_lines {bytes : Bytes} (noReturn : carriageReturn ∉ bytes) :
    ∀ line ∈ lines bytes, ∀ b ∈ line, isTerminator b = false := by
  intro line hline b hb
  rw [← Bool.not_eq_true, isTerminator_iff]
  rintro (rfl | rfl)
  · exact not_mem_of_mem_lines hline hb
  · exact noReturn ((written_lines bytes).mem hline hb)

/-- A mark at the beginning lies in the first line. -/
theorem byteOrderMark_prefix_of_append {line rest : Bytes}
    (ended : ∀ b ∈ rest.head?, isTerminator b = true) (marked : byteOrderMark <+: line ++ rest) :
    byteOrderMark <+: line := by
  rcases List.prefix_or_prefix_of_prefix marked (List.prefix_append line rest) with inside | inside
  · exact inside
  · obtain ⟨beyond, split⟩ := inside
    cases beyond with
    | nil => exact ⟨[], by rw [← split]; simp⟩
    | cons b beyond =>
      rw [← split, List.prefix_append_right_inj] at marked
      have terminator : isTerminator b = true := by
        obtain ⟨more, rfl⟩ := marked
        exact ended b rfl
      have clean : byteOrderMark.all (!isTerminator ·) = true := rfl
      have visible := List.all_eq_true.mp clean b (by simp [← split])
      rw [terminator] at visible
      cases visible

/-! ## Lines that are passed over -/

/-- A text that is no usable row: too few fields, or nothing in the first. A blank line is one. -/
def IsSkippable (row : Bytes) : Prop := ∃ text, row = Utf8.encode text ∧ ¬ IsUsable (cells text)

theorem judge_eq_skipped_iff {c : Columns α} {space : AddressSpace} {r : Record} :
    judge c.reader space r = .skipped ↔ IsSkippable r.content := by
  constructor
  · intro h
    rcases judge_cases c space r with ⟨text, content, unusable, _⟩ | ⟨_, _, yields⟩ | ⟨_, offends⟩
    · exact ⟨text, content, unusable⟩
    · rw [judge_of_yields yields] at h
      cases h
    · rw [judge_of_offends offends] at h
      cases h
  · rintro ⟨text, content, unusable⟩
    exact judge_of_unusable content unusable

theorem IsSkippable.isSound {row : Bytes} (h : IsSkippable row) (c : Columns α)
    (space : AddressSpace) : IsSound c space row := by
  obtain ⟨text, content, unusable⟩ := h
  exact ⟨text, content, fun usable => absurd usable unusable⟩

theorem isSkippable_nil : IsSkippable [] := ⟨"", rfl, fun usable => usable.2 rfl⟩

end BasicBlocks.Facts

import Mathlib.Data.List.DropRight
import BasicBlocks.Proofs.Lines

/-!
# Line numbers

The line that is told of a row is where the reader stood when it turned to the row: the line after
the row before. Where blank lines stand between the two, that is the first of them, and the row itself
is further down; where none does, it is the line of the row.
-/

namespace BasicBlocks.Facts

open Utf8 (Bytes)

variable {α : Type}

/-- The line that is told of a row after these lines: the one after the last that is not blank. -/
def toldLine (before : List Bytes) : Nat := (before.rdropWhile List.isEmpty).length + 1

/-- The line of the row itself is told exactly if no blank line stands right before it. -/
theorem toldLine_eq_iff {before : List Bytes} :
    toldLine before = before.length + 1 ↔ ∀ line ∈ before.getLast?, line ≠ [] := by
  have whole : (before.rdropWhile List.isEmpty).length = before.length ↔
      before.rdropWhile List.isEmpty = before :=
    ⟨(List.rdropWhile_prefix _ before).eq_of_length, congrArg List.length⟩
  rw [toldLine, Nat.add_right_cancel_iff, whole, List.rdropWhile_eq_self_iff]
  constructor
  · intro visible line last
    obtain ⟨nonempty, rfl⟩ := List.mem_getLast?_eq_getLast last
    simpa using visible nonempty
  · intro visible nonempty
    simpa using visible _ (List.getLast?_eq_some_getLast nonempty)

/-! ## Records and lines -/

theorem rdropWhile_append_cons {blank front : List Bytes} {row : Bytes} (nonempty : row ≠ []) :
    (blank ++ row :: front).rdropWhile List.isEmpty =
      blank ++ row :: front.rdropWhile List.isEmpty := by
  induction front using List.reverseRecOn with
  | nil => exact List.rdropWhile_concat_neg _ _ _ (by simpa using nonempty)
  | append_singleton front line ih =>
    rw [← List.cons_append, ← List.append_assoc, List.rdropWhile_concat, List.rdropWhile_concat]
    cases line.isEmpty <;> simp [ih]

theorem eq_lineFeed {bytes : Bytes} (noReturn : carriageReturn ∉ bytes) {b : UInt8}
    (member : b ∈ bytes) (terminator : isTerminator b = true) : b = lineFeed := by
  rcases isTerminator_iff.mp terminator with rfl | rfl
  · rfl
  · exact absurd member noReturn

theorem Opens.noFeed {rest blank content ending : Bytes} (opens : Opens rest blank content ending) :
    lineFeed ∉ content := by
  intro member
  have visible := opens.inside lineFeed member
  cases visible

theorem Opens.filter_lines {rest blank content ending : Bytes}
    (opens : Opens rest blank content ending) (front : List Bytes) :
    (blank.map (fun _ => []) ++ content :: front).filter (· ≠ []) =
      content :: front.filter (· ≠ []) := by
  have noRow : (blank.map fun _ => ([] : Bytes)).filter (· ≠ []) = [] := by simp
  rw [List.filter_append, noRow]
  simp [opens.nonempty]

section

variable {rest blank content ending : Bytes} (noReturn : carriageReturn ∉ rest)
  (opens : Opens rest blank content ending)

include noReturn opens

theorem Opens.blank_eq : ∀ b ∈ blank, b = lineFeed := by
  intro b hb
  refine eq_lineFeed noReturn ?_ (opens.before b hb)
  rw [opens.whole]
  exact List.mem_append_left _ hb

theorem Opens.ending_eq (more : ending ≠ []) : ending = lineFeed :: ending.drop 1 := by
  cases split : ending with
  | nil => exact absurd split more
  | cons b later =>
    have feed : b = lineFeed := by
      refine eq_lineFeed noReturn ?_ (opens.ended b (by simp [split]))
      rw [opens.whole, split]
      simp
    rw [feed]
    rfl

/-- Every terminator before the content of a record ends a blank line. -/
theorem Opens.lines_eq :
    lines rest = blank.map (fun _ => []) ++ content :: lines (ending.drop 1) := by
  have blankLines : ∀ body, lines (blank ++ body) = blank.map (fun _ => []) ++ lines body := by
    intro body
    have feeds := opens.blank_eq noReturn
    clear opens
    induction blank with
    | nil => rfl
    | cons b blank ih =>
      obtain ⟨rfl, later⟩ := List.forall_mem_cons.mp feeds
      simp [lines, ih later]
  rw [opens.whole, blankLines]
  by_cases more : ending = []
  · rw [more, List.append_nil, lines_of_noFeed opens.noFeed opens.nonempty]
    rfl
  · rw [opens.ending_eq noReturn more, lines_append_feed opens.noFeed]
    rfl

/-- After a record the reader stands behind its line. -/
theorem Opens.line_after {mark : Bytes} (noFeed : lineFeed ∉ mark) (more : ending ≠ [])
    (place : Place) :
    (place.after (mark ++ blank ++ content ++ ending.take 1)).line =
      place.line + (blank.length + 1) := by
  have blankFeeds : blank.count lineFeed = blank.length :=
    List.count_eq_length.mpr fun b hb => (opens.blank_eq noReturn b hb).symm
  have inContent : content.count lineFeed = 0 :=
    List.count_eq_zero_of_not_mem opens.noFeed
  have last : (ending.take 1).count lineFeed = 1 := by
    rw [opens.ending_eq noReturn more]
    rfl
  simp only [Place.after, Place.line, List.count_append, last, inContent, blankFeeds,
    List.count_eq_zero_of_not_mem noFeed]
  omega

/-- Counting lines from behind a record comes to the same as counting from before it. -/
theorem Opens.line_after_add {mark : Bytes} (noFeed : lineFeed ∉ mark) (more : ending ≠ [])
    (place : Place) (front : List Bytes) :
    (place.after (mark ++ blank ++ content ++ ending.take 1)).line +
        (front.rdropWhile List.isEmpty).length =
      place.line +
        ((blank.map (fun _ => []) ++ content :: front).rdropWhile List.isEmpty).length := by
  rw [opens.line_after noReturn noFeed more, rdropWhile_append_cons opens.nonempty]
  simp only [List.length_append, List.length_map, List.length_cons]
  omega

end

theorem recordsFrom_nil (number : Nat) (place : Place) (mark : Bytes) :
    recordsFrom number place mark [] = [] := by
  rw [recordsFrom]
  rfl

/-- No row stands among blank lines. -/
theorem exists_row_append {P : List Bytes → Bytes → Prop} {blank ls : List Bytes}
    (allBlank : ∀ line ∈ blank, line = []) :
    (∃ front row back, blank ++ ls = front ++ row :: back ∧ row ≠ [] ∧ P front row) ↔
      ∃ front row back, ls = front ++ row :: back ∧ row ≠ [] ∧ P (blank ++ front) row := by
  induction blank generalizing P with
  | nil => rfl
  | cons line blank ih =>
    obtain ⟨rfl, others⟩ := List.forall_mem_cons.mp allBlank
    refine exists_split_cons.trans ((or_iff_right ?_).trans (ih others))
    exact fun first => first.1 rfl

/-- The records are the lines that are not blank, and each has the line that is told of it. -/
theorem exists_record_iff {number : Nat} {place : Place} {mark rest : Bytes}
    (noReturn : carriageReturn ∉ rest) (noFeed : lineFeed ∉ mark)
    (P : List Bytes → Bytes → Nat → Prop) :
    (∃ before r after, recordsFrom number place mark rest = before ++ r :: after ∧
      P (before.map (·.content)) r.content r.place.line) ↔
    ∃ front row back, lines rest = front ++ row :: back ∧ row ≠ [] ∧
      P (front.filter (· ≠ [])) row (place.line + (front.rdropWhile List.isEmpty).length) := by
  induction number, place, mark, rest using recordsFrom.induct generalizing P with
  | case1 number place mark rest body nothing =>
    have none : recordsFrom number place mark rest = [] := by rw [recordsFrom, if_pos nothing]
    have noRow : (lines rest).filter (· ≠ []) = [] := by
      rw [← ((written_lines rest).mono (by simp [lineEndings])).runs_eq (clean_lines noReturn),
        ← map_content_recordsFrom number place mark, none]
      rfl
    rw [none]
    constructor
    · rintro ⟨before, r, after, split, _⟩
      simp at split
    · rintro ⟨front, row, back, split, nonempty, _⟩
      rw [split] at noRow
      simp [nonempty] at noRow
  | case2 number place mark rest blank body something content ending ih =>
    have opens : Opens rest blank content ending := opens_scan something
    have allBlank : ∀ line ∈ blank.map (fun _ => ([] : Bytes)), line = [] := by simp
    have noRow : (blank.map fun _ => ([] : Bytes)).filter (· ≠ []) = [] := by simp
    have noneLeft : (blank.map fun _ => ([] : Bytes)).rdropWhile List.isEmpty = [] := by simp
    rw [recordsFrom, if_neg something, opens.lines_eq noReturn]
    refine exists_split_cons.trans (Iff.trans (or_congr ?_ ?_)
      ((exists_row_append allBlank).trans exists_split_cons).symm)
    · rw [List.append_nil, noRow, noneLeft]
      exact ⟨fun holds => ⟨opens.nonempty, holds⟩, And.right⟩
    · by_cases more : ending = []
      · have noLines : lines (ending.drop 1) = [] := by rw [more]; rfl
        have noRecords : ∀ place,
            recordsFrom (number + 1) place [] (ending.drop 1) = [] := fun place => by
          rw [more]
          exact recordsFrom_nil _ _ _
        rw [noLines, noRecords]
        simp
      · have tail : carriageReturn ∉ ending.drop 1 := fun member => noReturn <| by
          rw [opens.whole]
          exact List.mem_append_right _ (List.mem_append_right _ (List.mem_of_mem_drop member))
        refine (ih tail List.not_mem_nil fun contents => P (content :: contents)).trans ?_
        simp only [opens.line_after_add noReturn noFeed more place, opens.filter_lines]

/-- The mark is on the first line and ends none. -/
theorem exists_record_of_lines_iff {bytes : Bytes} (noReturn : carriageReturn ∉ bytes)
    (P : List Bytes → Bytes → Nat → Prop) :
    (∃ before r after, records bytes = before ++ r :: after ∧
      P (before.map (·.content)) r.content r.place.line) ↔
    ∃ front row back, lines (unmarked bytes) = front ++ row :: back ∧ row ≠ [] ∧
      P (front.filter (· ≠ [])) row (toldLine front) := by
  have told : ∀ front, toldLine front =
      Place.start.line + (front.rdropWhile List.isEmpty).length := fun front => Nat.add_comm _ _
  simp only [told]
  unfold records unmarked
  split
  · exact exists_record_iff (fun member => noReturn (List.mem_of_mem_drop member)) (by decide) P
  · exact exists_record_iff noReturn List.not_mem_nil P

/-! ## What is told -/

section

variable {c : Columns α} {space : AddressSpace}

theorem line_of_offends {r : Record} {n : Nat} {fault : FactFault}
    (h : Offends c space r (.malformed n fault)) : r.place.line = n := by
  cases h <;> rfl

/-- Short rows are told in turn, as far as the rows are sound. -/
theorem mem_skipped_iff {rs : List Record} {n : Nat} :
    n ∈ (readRecords c.reader space rs).skipped ↔
      ∃ before r after, rs = before ++ r :: after ∧ (∀ q ∈ before, IsSound c space q.content) ∧
        IsSkippable r.content ∧ n = r.place.line := by
  induction rs with
  | nil => simp [readRecords]
  | cons r rest ih =>
    rw [exists_split_cons_iff, ← ih]
    have sound : (∀ fault, judge c.reader space r ≠ .rejected fault) ↔ IsSound c space r.content :=
      accepted_iff_isSound
    have skippable : judge c.reader space r = .skipped ↔ IsSkippable r.content :=
      judge_eq_skipped_iff
    cases verdict : judge c.reader space r with
    | skipped =>
      rw [verdict] at sound skippable
      simp [readRecords_of_skipped verdict, ← sound, ← skippable]
    | entry address value =>
      rw [verdict] at sound skippable
      simp [readRecords_of_entry verdict, ← sound, ← skippable]
    | rejected fault =>
      rw [verdict] at sound skippable
      simp [readRecords_of_rejected verdict, ← sound, ← skippable]

theorem forall_isSound_filter {ls : List Bytes} :
    (∀ row ∈ ls.filter (· ≠ []), IsSound c space row) ↔ ∀ row ∈ ls, IsSound c space row := by
  constructor
  · intro sound row hrow
    by_cases blank : row = []
    · exact blank ▸ isSkippable_nil.isSound c space
    · exact sound row (List.mem_filter.mpr ⟨hrow, by simpa using blank⟩)
  · exact fun sound row hrow => sound row (List.mem_filter.mp hrow).1

/-- The line that is told of the first offending row, and the lines that are told of the short rows
before it, or of all where none offends: each is that of the line after the row before. -/
structure TellsLines (c : Columns α) (space : AddressSpace) (bytes : Bytes)
    (reading : Reading (Table α)) : Prop where
  malformed : ∀ n fault, reading.result = .error (.malformed n fault) →
    ∃ front row back, lines (unmarked bytes) = front ++ row :: back ∧ row ≠ [] ∧
      (∀ earlier ∈ front, IsSound c space earlier) ∧
      (∃ r : Record, r.content = row ∧ Offends c space r (.malformed n fault)) ∧
      n = toldLine front
  skipped_iff : ∀ n, n ∈ reading.skipped ↔
    ∃ front row back, lines (unmarked bytes) = front ++ row :: back ∧ row ≠ [] ∧
      (∀ earlier ∈ front, IsSound c space earlier) ∧ IsSkippable row ∧ n = toldLine front

theorem tellsLines_read (c : Columns α) (space : AddressSpace) {bytes : Bytes}
    (noReturn : carriageReturn ∉ bytes) : TellsLines c space bytes (read c.reader space bytes) := by
  refine ⟨fun n fault failed => ?_, fun n => ?_⟩
  · obtain ⟨before, r, after, split, sound, offends⟩ :=
      ((reads_read c space bytes).fault_iff _).mp failed
    have found := (exists_record_of_lines_iff noReturn fun contents row told =>
      (∀ content ∈ contents, IsSound c space content) ∧
        (∃ r : Record, r.content = row ∧ Offends c space r (.malformed n fault)) ∧ n = told).mp
      ⟨before, r, after, split, by simpa using sound, ⟨r, rfl, offends⟩,
        (line_of_offends offends).symm⟩
    simpa only [forall_isSound_filter] using found
  · have standing := exists_record_of_lines_iff noReturn fun contents row told =>
      (∀ content ∈ contents, IsSound c space content) ∧ IsSkippable row ∧ n = told
    simp only [forall_isSound_filter, List.forall_mem_map] at standing
    exact mem_skipped_iff.trans standing

end

/-- In bytes without carriage returns the line that is told of a row, faulty or skipped, is the one
after the row before: its own line exactly if no blank line stands right before it. -/
theorem told_lines_follow_rows (space : AddressSpace) {bytes : Bytes}
    (noReturn : carriageReturn ∉ bytes) :
    (∀ before, toldLine before = before.length + 1 ↔ ∀ line ∈ before.getLast?, line ≠ []) ∧
      TellsLines instructionColumns space bytes (readInstructions space bytes) ∧
      TellsLines blockColumns space bytes (readBlocks space bytes) := by
  refine ⟨fun _ => toldLine_eq_iff, ?_, ?_⟩
  · rw [readInstructions, instructionRow_eq_reader]
    exact tellsLines_read instructionColumns space noReturn
  · rw [readBlocks, blockRow_eq_reader]
    exact tellsLines_read blockColumns space noReturn

/-- A short line in the second line, and a row without an address behind a blank line, in the
fourth, which is told as the third. -/
theorem sample_rows_are_told_after_last_row :
    let bytes := Utf8.encode "1024\t2\tmov\nshort\n\nabc\t2\tnop\n"
    carriageReturn ∉ bytes ∧
      (∃ front row back, lines (unmarked bytes) = front ++ row :: back ∧ IsSkippable row ∧
        2 = toldLine front) ∧
      ∃ front row back, lines (unmarked bytes) = front ++ row :: back ∧
        ¬ IsSound instructionColumns .identity row ∧ 3 = toldLine front := by
  intro bytes
  have noReturn : carriageReturn ∉ bytes := by decide +kernel
  have failed : (readInstructions .identity bytes).result =
      .error (.malformed 3 (.notAnInteger .address "abc")) := by decide +kernel
  have short : 2 ∈ (readInstructions .identity bytes).skipped := by decide +kernel
  obtain ⟨_, tells, _⟩ := told_lines_follow_rows .identity noReturn
  obtain ⟨front, row, back, split, _, _, skippable, told⟩ := (tells.skipped_iff 2).mp short
  obtain ⟨front', row', back', split', _, _, ⟨r, rfl, offends⟩, told'⟩ :=
    tells.malformed 3 _ failed
  exact ⟨noReturn, ⟨front, row, back, split, skippable, told⟩, front', r.content, back', split',
    fun sound => isSound_iff.mp sound _ offends, told'⟩

/-- The line of the offending row is not always told: here it is the fourth, and the blank line
before it is told in its place. -/
theorem blank_line_is_told_for_row :
    ¬ ∀ bytes : Bytes, carriageReturn ∉ bytes → ∀ n fault,
      (readInstructions .identity bytes).result = .error (.malformed n fault) →
        ∃ front row back, lines (unmarked bytes) = front ++ row :: back ∧
          (∃ r : Record, r.content = row ∧
            Offends instructionColumns .identity r (.malformed n fault)) ∧
          n = front.length + 1 := by
  intro claim
  let bytes := Utf8.encode "\nshort\n\nabc\t2\tnop\n"
  have noReturn : carriageReturn ∉ bytes := by decide +kernel
  have failed : (readInstructions .identity bytes).result =
      .error (.malformed 3 (.notAnInteger .address "abc")) := by decide +kernel
  have third : (lines (unmarked bytes))[2]? = some [] := by decide +kernel
  obtain ⟨front, row, back, split, ⟨r, rfl, offends⟩, length⟩ := claim bytes noReturn 3 _ failed
  have two : 2 = front.length := Nat.succ.inj length
  rw [split, two, List.getElem?_append_right (Nat.le_refl _), Nat.sub_self] at third
  have blank : r.content = [] := Option.some.inj third
  exact isSound_iff.mp (blank ▸ isSkippable_nil.isSound _ _) _ offends

end BasicBlocks.Facts

import BasicBlocks.Proofs.Lines

/-!
# Tolerated lines

How the lines of a fact file end makes no difference, nor do blank lines and short ones, wherever
they are put: the same table is read, or the same fault is found, on a line that may be another. Even
a mark at the very beginning, if it comes with a line that is passed over, changes nothing.
-/

namespace BasicBlocks.Facts

open Utf8 (Bytes)

variable {α : Type}

/-- The second list is the first with extra elements put in, wherever they stand. -/
inductive Interspersed (extra : Bytes → Prop) : List Bytes → List Bytes → Prop
  | nil : Interspersed extra [] []
  | keep {line : Bytes} {ls ls' : List Bytes} (others : Interspersed extra ls ls') :
      Interspersed extra (line :: ls) (line :: ls')
  | insert {line : Bytes} {ls ls' : List Bytes} (allowed : extra line)
      (others : Interspersed extra ls ls') : Interspersed extra ls (line :: ls')

/-- A line that may be put in: blank, or a text with too few fields or nothing in the first. -/
structure IsTolerated (line : Bytes) : Prop where
  clean : ∀ b ∈ line, isTerminator b = false
  skippable : IsSkippable line

/-- The lines of the one with tolerated lines between them, each line ended in any way, and the last
perhaps not at all. -/
def IsRewritten (bytes bytes' : Bytes) : Prop :=
  ∃ ls, Interspersed IsTolerated (lines bytes) ls ∧ Written lineEndings ls bytes'

namespace Interspersed

variable {extra : Bytes → Prop} {ls ls' : List Bytes}

theorem mono {other : Bytes → Prop} (implies : ∀ line, extra line → other line)
    (h : Interspersed extra ls ls') : Interspersed other ls ls' := by
  induction h with
  | nil => exact .nil
  | keep _ ih => exact .keep ih
  | insert allowed _ ih => exact .insert (implies _ allowed) ih

theorem filter (p : Bytes → Bool) (h : Interspersed extra ls ls') :
    Interspersed extra (ls.filter p) (ls'.filter p) := by
  induction h with
  | nil => exact .nil
  | @keep line _ _ _ ih =>
    by_cases hp : p line = true
    · simpa [hp] using ih.keep
    · simpa [hp] using ih
  | @insert line _ _ allowed _ ih =>
    by_cases hp : p line = true
    · simpa [hp] using ih.insert allowed
    · simpa [hp] using ih

theorem mem (h : Interspersed extra ls ls') {line : Bytes} (member : line ∈ ls') :
    line ∈ ls ∨ extra line := by
  induction h with
  | nil => cases member
  | keep _ ih =>
    rcases List.mem_cons.mp member with rfl | member
    · exact Or.inl List.mem_cons_self
    · exact (ih member).imp (List.mem_cons_of_mem _) id
  | insert allowed _ ih =>
    rcases List.mem_cons.mp member with rfl | member
    · exact Or.inr allowed
    · exact ih member

end Interspersed

/-! ## The mark -/

theorem isSkippable_of_marked {rest : Bytes} (h : IsSkippable (byteOrderMark ++ rest)) :
    IsSkippable rest := by
  obtain ⟨text, content, unusable⟩ := h
  have mark : byteOrderMark = Utf8.encodeChar '\ufeff' := by decide
  have read : Utf8.decodeChars (Utf8.encodeChar '\ufeff' ++ rest) = .ok text.toList :=
    Utf8.decodeChars_eq_ok_iff.mpr (mark ▸ content)
  rw [Utf8.decodeChars_append] at read
  cases decoded : Utf8.decodeChars rest with
  | error valid => simp [decoded] at read
  | ok cs =>
    simp only [decoded, Except.ok.injEq] at read
    have encoded : rest = Utf8.encode (String.ofList cs) := by
      rw [Utf8.decodeChars_eq_ok_iff.mp decoded, Utf8.encode, String.toList_ofList]
    refine ⟨String.ofList cs, encoded, fun usable => unusable ?_⟩
    -- The mark makes the first field longer and leaves their number.
    have cut : (['\ufeff'] ++ cs).splitOn '\t' = (cs.splitOn '\t').modifyHead (['\ufeff'] ++ ·) :=
      Utf8.splitOn_append_of_not_mem (by decide) cs
    rw [List.singleton_append, read] at cut
    rw [IsUsable, cells, String.toList_ofList] at usable
    rw [IsUsable, cells, cut]
    cases pieces : cs.splitOn '\t' with
    | nil => exact absurd pieces (List.splitOn_ne_nil _ _)
    | cons piece others =>
      rw [pieces] at usable
      refine ⟨by simpa using usable.1, ?_⟩
      simp [field, String.ofList_eq_empty_iff]

/-- A mark at the beginning is in the first of the lines. -/
theorem Written.exists_marked {ls : List Bytes} {bytes rest : Bytes}
    (written : Written lineEndings ls bytes) (marked : byteOrderMark ++ rest = bytes) :
    ∃ first later, ls = (byteOrderMark ++ first) :: later ∧
      Written lineEndings (first :: later) rest := by
  cases written with
  | nil => simp [byteOrderMark] at marked
  | last => exact ⟨rest, [], by rw [marked], .last rest⟩
  | @ended line ending more later known others =>
    obtain ⟨first, rfl⟩ :=
      byteOrderMark_prefix_of_append (head?_lineEnding known more) ⟨rest, marked⟩
    rw [List.append_assoc, List.append_cancel_left_eq] at marked
    exact ⟨first, later, rfl, marked ▸ .ended known others⟩

/-- Without the mark of a line put in at the beginning, the lines are those of the one and tolerated
ones still. -/
theorem IsRewritten.unmarked {bytes bytes' : Bytes} (unmarked : ¬ byteOrderMark <+: bytes)
    (rewritten : IsRewritten bytes bytes') : IsRewritten bytes (Facts.unmarked bytes') := by
  obtain ⟨ls, interspersed, written⟩ := rewritten
  unfold Facts.unmarked
  split
  next marked =>
    obtain ⟨rest, rfl⟩ := List.isPrefixOf_iff_prefix.mp marked
    obtain ⟨first, later, rfl, without⟩ := written.exists_marked rfl
    refine ⟨first :: later, ?_, without⟩
    generalize own : lines bytes = ls at interspersed
    cases interspersed with
    | keep others =>
      have leads := (own ▸ written_lines bytes).prefix_of_cons
      exact absurd ((List.prefix_append _ first).trans leads) unmarked
    | insert allowed others =>
      refine .insert ⟨fun b hb => ?_, isSkippable_of_marked allowed.skippable⟩ others
      exact allowed.clean b (List.mem_append_right _ hb)
  next => exact ⟨ls, interspersed, written⟩

/-! ## Reading -/

/-- The rows of the rewritten bytes are the others with rows between them that are passed over. -/
theorem interspersed_rows {bytes bytes' : Bytes} (noReturn : carriageReturn ∉ bytes)
    (unmarked : ¬ byteOrderMark <+: bytes) (rewritten : IsRewritten bytes bytes') :
    Interspersed IsSkippable (rows bytes) (rows bytes') := by
  obtain ⟨ls, interspersed, written⟩ := rewritten.unmarked unmarked
  have own := clean_lines noReturn
  have original : rows bytes = (lines bytes).filter (· ≠ []) := by
    have bare : Facts.unmarked bytes = bytes :=
      if_neg (mt List.isPrefixOf_iff_prefix.mp unmarked)
    rw [rows, bare]
    exact ((written_lines bytes).mono (by simp [lineEndings])).runs_eq own
  have others : rows bytes' = ls.filter (· ≠ []) := by
    refine written.runs_eq fun line hline => ?_
    rcases interspersed.mem hline with kept | put
    · exact own line kept
    · exact put.clean
  rw [original, others]
  exact (interspersed.mono fun _ tolerated => tolerated.skippable).filter _

/-- Records that are passed over leave the entries and the fault as they are. -/
theorem unplaced_readRecords_of_interspersed {reader : RowReader α} {space : AddressSpace}
    {rs rs' : List Record}
    (h : Interspersed IsSkippable (rs.map (·.content)) (rs'.map (·.content))) :
    (readRecords reader space rs).result.mapError TableFault.unplaced =
      (readRecords reader space rs').result.mapError TableFault.unplaced := by
  generalize contents : rs.map (·.content) = ls at h
  generalize contents' : rs'.map (·.content) = ls' at h
  induction h generalizing rs rs' with
  | nil => rw [List.map_eq_nil_iff.mp contents, List.map_eq_nil_iff.mp contents']
  | keep _ ih =>
    obtain ⟨r, rest, rfl, content, later⟩ := List.map_eq_cons_iff.mp contents
    obtain ⟨r', rest', rfl, content', later'⟩ := List.map_eq_cons_iff.mp contents'
    exact unplaced_readRecords_cons (content.trans content'.symm) (ih later later')
  | insert skippable _ ih =>
    obtain ⟨r', rest', rfl, rfl, later'⟩ := List.map_eq_cons_iff.mp contents'
    obtain ⟨text, content, unusable⟩ := skippable
    rw [readRecords_of_skipped (judge_of_unusable content unusable)]
    exact ih contents later'

/-- The same table, or the same fault on a line that may be another: a number or a size of nought is
refused in the same words, a field that is no text is the same field with as much of it well formed,
and the address without a place is the same. -/
structure ReadsAlike (result result' : Except TableFault (Table α)) : Prop where
  table : ∀ t, result = .ok t ↔ result' = .ok t
  notAnInteger : ∀ line column text,
    result = .error (.malformed line (.notAnInteger column text)) →
      ∃ line', result' = .error (.malformed line' (.notAnInteger column text))
  zeroSize : ∀ line address, result = .error (.malformed line (.zeroSize address)) →
    ∃ line', result' = .error (.malformed line' (.zeroSize address))
  notText : ∀ line row told start field valid,
    result = .error (.malformed line (.notText row told start field valid)) →
      ∃ line' row' told' start',
        result' = .error (.malformed line' (.notText row' told' start' field valid))
  unmapped : ∀ address, result = .error (.unmapped address) ↔ result' = .error (.unmapped address)

theorem exists_malformed_of_unplaced {f : TableFault} {line : Nat} {fault : FactFault}
    (alike : f.unplaced = (TableFault.malformed line fault).unplaced) :
    ∃ line' fault', f = .malformed line' fault' ∧ fault'.unplaced = fault.unplaced := by
  cases f with
  | malformed line' fault' => exact ⟨line', fault', rfl, (TableFault.malformed.inj alike).2⟩
  | unmapped address => cases alike

/-- Faults that agree but for their place are of one kind, with one cause. -/
theorem readsAlike_of_unplaced {result result' : Except TableFault (Table α)}
    (same : result.mapError TableFault.unplaced = result'.mapError TableFault.unplaced) :
    ReadsAlike result result' := by
  have exists_fault : ∀ {f}, result = .error f →
      ∃ f', result' = .error f' ∧ f'.unplaced = f.unplaced := by
    rintro f rfl
    exact (mapError_eq_error_iff TableFault.unplaced).mp same.symm
  have exists_malformed : ∀ {line fault}, result = .error (.malformed line fault) →
      ∃ line' fault', result' = .error (.malformed line' fault') ∧
        fault'.unplaced = fault.unplaced := by
    intro line fault failed
    obtain ⟨f', failed', alike⟩ := exists_fault failed
    obtain ⟨line', fault', rfl, told⟩ := exists_malformed_of_unplaced alike
    exact ⟨line', fault', failed', told⟩
  refine ⟨fun t => ?_, ?_, ?_, ?_, fun address => ?_⟩
  · rw [← mapError_eq_ok_iff TableFault.unplaced, same, mapError_eq_ok_iff]
  · intro line column text failed
    obtain ⟨line', fault', failed', alike⟩ := exists_malformed failed
    cases fault' with
    | notAnInteger column' text' =>
      cases alike
      exact ⟨line', failed'⟩
    | zeroSize | notText => cases alike
  · intro line address failed
    obtain ⟨line', fault', failed', alike⟩ := exists_malformed failed
    cases fault' with
    | zeroSize address' =>
      cases alike
      exact ⟨line', failed'⟩
    | notAnInteger | notText => cases alike
  · intro line row told start field valid failed
    obtain ⟨line', fault', failed', alike⟩ := exists_malformed failed
    cases fault' with
    | notText row' told' start' field' valid' =>
      cases alike
      exact ⟨line', row', told', start', failed'⟩
    | notAnInteger | zeroSize => cases alike
  · -- Only an address without a place is left as it is, so it is read off either side.
    have unmapped : ∀ {r : Except TableFault (Table α)},
        r = .error (.unmapped address) ↔
          r.mapError TableFault.unplaced = .error (.unmapped address) := by
      intro r
      rw [mapError_eq_error_iff]
      constructor
      · rintro rfl
        exact ⟨_, rfl, rfl⟩
      · rintro ⟨f, rfl, alike⟩
        cases f with
        | malformed => cases alike
        | unmapped => exact congrArg Except.error alike
    rw [unmapped, same]
    exact unmapped.symm

/-- Bytes without carriage returns and without a mark at the beginning are read alike when their
lines are ended in other ways, the last perhaps not at all, and when blank lines and short ones are
put between them, before them and after them. -/
theorem tolerated_lines_change_nothing (space : AddressSpace) {bytes bytes' : Bytes}
    (noReturn : carriageReturn ∉ bytes) (unmarked : ¬ byteOrderMark <+: bytes)
    (rewritten : IsRewritten bytes bytes') :
    ReadsAlike (readInstructions space bytes).result (readInstructions space bytes').result ∧
      ReadsAlike (readBlocks space bytes).result (readBlocks space bytes').result := by
  have together := interspersed_rows noReturn unmarked rewritten
  rw [← map_content_records, ← map_content_records] at together
  have alike : ∀ {α : Type} (reader : RowReader α),
      ReadsAlike (read reader space bytes).result (read reader space bytes').result := by
    intro α reader
    refine readsAlike_of_unplaced ?_
    rw [read, read, mapError_map, mapError_map, unplaced_readRecords_of_interspersed together]
  exact ⟨alike instructionRow, alike blockRow⟩

/-- A short line with a mark, a blank line and one without an address are put in, the lines end in
three ways, and the last does not end: blocks are read as before, and the instruction of size nought
is found in the third line. -/
theorem marked_short_line_changes_nothing :
    let bytes := Utf8.encode "1024\t2\tmov\n1026\t0\tnop\n"
    let bytes' := Utf8.encode "\ufeffshort\r1024\t2\tmov\r\n\n\t1\tx\r1026\t0\tnop"
    carriageReturn ∉ bytes ∧ ¬ byteOrderMark <+: bytes ∧ IsRewritten bytes bytes' ∧
      (readBlocks .identity bytes').result = .ok (Table.ofList [(1024, 2), (1026, 0)]) ∧
      ∃ line, (readInstructions .identity bytes').result =
        .error (.malformed line (.zeroSize 1026)) := by
  intro bytes bytes'
  have noReturn : carriageReturn ∉ bytes := by decide +kernel
  have unmarked : ¬ byteOrderMark <+: bytes := by decide +kernel
  have rewritten : IsRewritten bytes bytes' := by
    have own : lines bytes =
        [Utf8.encode "1024\t2\tmov", Utf8.encode "1026\t0\tnop"] := by decide +kernel
    have short : IsTolerated (Utf8.encode "\ufeffshort") :=
      ⟨by decide +kernel, _, rfl, by decide +kernel⟩
    have blank : IsTolerated [] := ⟨by simp, isSkippable_nil⟩
    have keyless : IsTolerated (Utf8.encode "\t1\tx") :=
      ⟨by decide +kernel, _, rfl, by decide +kernel⟩
    refine ⟨[Utf8.encode "\ufeffshort", Utf8.encode "1024\t2\tmov", [], Utf8.encode "\t1\tx",
      Utf8.encode "1026\t0\tnop"], ?_, ?_⟩
    · rw [own]
      exact .insert short (.keep (.insert blank (.insert keyless (.keep .nil))))
    · have whole : bytes' = Utf8.encode "\ufeffshort" ++ ([carriageReturn] ++
          (Utf8.encode "1024\t2\tmov" ++ ([carriageReturn, lineFeed] ++ ([] ++ ([lineFeed] ++
            (Utf8.encode "\t1\tx" ++ ([carriageReturn] ++ Utf8.encode "1026\t0\tnop"))))))) := by
        decide +kernel
      rw [whole]
      exact .ended (by decide) (.ended (by decide) (.ended (by decide) (.ended (by decide)
        (.last _))))
  obtain ⟨instructions, blocks⟩ :=
    tolerated_lines_change_nothing .identity noReturn unmarked rewritten
  have refused : (readInstructions .identity bytes).result =
      .error (.malformed 2 (.zeroSize 1026)) := by decide +kernel
  have read : (readBlocks .identity bytes).result =
      .ok (Table.ofList [(1024, 2), (1026, 0)]) := by decide +kernel
  exact ⟨noReturn, unmarked, rewritten, (blocks.table _).mp read, instructions.zeroSize _ _ refused⟩

end BasicBlocks.Facts

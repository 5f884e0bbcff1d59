import Mathlib.Data.List.Induction
import Mathlib.Data.List.TakeWhile
import BasicBlocks.Proofs.FactTables
import BasicBlocks.Reconciliation

/-!
# Fact files put together

Contents that end a line can be followed by others: the rows are those of the one and then those of
the other. A fault in the first part is reported as if nothing came after it, to the last detail. A
fault in the second part is reported as it is alone, except for where it stands. Where both can be
read, the second part has the last word.
-/

namespace BasicBlocks

open Facts
open Utf8 (Bytes)

section

variable {ε ε' α β : Type} {result : Except ε α} (f : α → β) (g : ε → ε')

theorem mapError_map (result : Except ε α) :
    (result.map f).mapError g = (result.mapError g).map f := by
  cases result <;> rfl

theorem mapError_eq_ok_iff {a : α} : result.mapError g = .ok a ↔ result = .ok a := by
  cases result <;> simp [Except.mapError]

theorem mapError_eq_error_iff {e' : ε'} :
    result.mapError g = .error e' ↔ ∃ e, result = .error e ∧ g e = e' := by
  cases result <;> simp [Except.mapError]

end

theorem Table.get?_ofList_append {α : Type} (entries entries' : List (Word × α)) (key : Word) :
    (ofList (entries ++ entries')).get? key =
      ((ofList entries').get? key).or ((ofList entries).get? key) := by
  rw [get?_ofList, get?_ofList, get?_ofList, List.reverse_append, List.lookup_append]

namespace Facts

variable {α : Type}

/-! ## Rows and records -/

/-- Empty, or with a terminator at the end. -/
def EndsLine (bytes : Bytes) : Prop := ∀ b ∈ bytes.getLast?, b = lineFeed ∨ b = carriageReturn

theorem isTerminator_iff {b : UInt8} :
    isTerminator b = true ↔ b = lineFeed ∨ b = carriageReturn := by
  simp [isTerminator]

theorem EndsLine.of_append {front back : Bytes} (h : EndsLine (front ++ back)) : EndsLine back := by
  intro b last
  refine h b ?_
  rw [List.getLast?_append, Option.mem_def.mp last]
  rfl

theorem EndsLine.exists_terminator {bytes : Bytes} (h : EndsLine bytes) (nonempty : bytes ≠ []) :
    ∃ b ∈ bytes, isTerminator b = true :=
  ⟨_, List.getLast_mem nonempty,
    isTerminator_iff.mpr (h _ (List.getLast?_eq_some_getLast nonempty))⟩

/-- A terminator at the end ends the last run, whatever follows. -/
theorem runs_append_of_endsLine {d : Bytes} (ends : EndsLine d) (d' : Bytes) :
    runs (d ++ d') = runs d ++ runs d' := by
  cases d using List.reverseRecOn with
  | nil => rfl
  | append_singleton front b =>
    have terminator : isTerminator b = true := isTerminator_iff.mpr (ends b (by simp))
    simp [runs, List.splitOnP_append_cons _ _ terminator]

/-- What a scan stops at is still there when more follows. -/
theorem scan_append {p : UInt8 → Bool} {d : Bytes} (stopped : d.dropWhile p ≠ []) (d' : Bytes) :
    (d ++ d').takeWhile p = d.takeWhile p ∧ (d ++ d').dropWhile p = d.dropWhile p ++ d' := by
  have shorter : (d.takeWhile p).length ≠ d.length := by
    have whole := congrArg List.length (List.takeWhile_append_dropWhile (p := p) (l := d))
    have positive := List.length_pos_iff.mpr stopped
    rw [List.length_append] at whole
    omega
  rw [List.takeWhile_append, List.dropWhile_append, if_neg shorter, if_neg (by simpa using stopped)]
  exact ⟨rfl, rfl⟩

/-- The records of contents that end a line stay, with their places, when more follows. -/
theorem recordsFrom_append {number : Nat} {place : Place} {mark d : Bytes} (ends : EndsLine d)
    (d' : Bytes) :
    recordsFrom number place mark d <+: recordsFrom number place mark (d ++ d') := by
  induction number, place, mark, d using recordsFrom.induct with
  | case1 number place mark d body nothing =>
    rw [recordsFrom, if_pos nothing]
    exact List.nil_prefix
  | case2 number place mark d blank body something content ending ih =>
    have whole : blank ++ body = d := List.takeWhile_append_dropWhile
    have parts : content ++ ending = body := List.takeWhile_append_dropWhile
    have stopped : body ≠ [] := by simpa using something
    -- The last byte is a terminator, and the content has none.
    have ended : ending ≠ [] := by
      intro none
      obtain ⟨b, hb, terminator⟩ := (whole ▸ ends).of_append.exists_terminator stopped
      have visible := List.dropWhile_eq_nil_iff.mp none b hb
      rw [terminator] at visible
      cases visible
    obtain ⟨blank', body'⟩ := scan_append stopped d'
    obtain ⟨content', ending'⟩ := scan_append (p := (!isTerminator ·)) ended d'
    have rest : EndsLine (ending.drop 1) := by
      have split : blank ++ content ++ ending.take 1 ++ ending.drop 1 = d := by
        rw [List.append_assoc, List.take_append_drop, List.append_assoc, parts, whole]
      exact (split ▸ ends).of_append
    have opened : recordsFrom number place mark (d ++ d') =
        ⟨number, place, content⟩ ::
          recordsFrom (number + 1) (place.after (mark ++ blank ++ content ++ ending.take 1)) []
            (ending.drop 1 ++ d') := by
      have longer : ¬ (body ++ d').isEmpty = true := by simp [stopped]
      have one : 1 ≤ ending.length := List.length_pos_iff.mpr ended
      rw [recordsFrom, blank', body', content', ending']
      dsimp only
      rw [if_neg longer, List.take_append_of_le_length one, List.drop_append_of_le_length one]
    rw [recordsFrom, if_neg something, opened, List.cons_prefix_cons]
    exact ⟨rfl, ih rest⟩

/-- No byte order mark comes about where one part ends a line. -/
theorem byteOrderMark_prefix_append_iff {d d' : Bytes} (ends : EndsLine d)
    (unmarked : ¬ byteOrderMark <+: d') : byteOrderMark <+: d ++ d' ↔ byteOrderMark <+: d := by
  refine ⟨fun marked => ?_, fun marked => marked.trans (List.prefix_append d d')⟩
  rcases List.prefix_or_prefix_of_prefix marked (List.prefix_append d d') with inside | inside
  · exact inside
  · -- The mark has no terminator, so what ends a line within it is empty.
    have none : d = [] := by
      by_contra nonempty
      obtain ⟨b, hb, terminator⟩ := ends.exists_terminator nonempty
      have clean : byteOrderMark.all (!isTerminator ·) = true := rfl
      have visible := List.all_eq_true.mp clean b (inside.subset hb)
      rw [terminator] at visible
      cases visible
    subst none
    exact absurd marked unmarked

/-- The records of a first part that ends a line, and then one for each row of the second. -/
theorem exists_records_append {d d' : Bytes} (ends : EndsLine d)
    (unmarked : ¬ byteOrderMark <+: d') :
    ∃ later, records (d ++ d') = records d ++ later ∧ later.map (·.content) = rows d' := by
  have isMarked := byteOrderMark_prefix_append_iff ends unmarked
  have first : records d <+: records (d ++ d') := by
    unfold records
    simp only [List.isPrefixOf_iff_prefix, isMarked]
    split
    next marked =>
      obtain ⟨rest, rfl⟩ := marked
      exact recordsFrom_append ends.of_append d'
    next => exact recordsFrom_append ends d'
  have together : rows (d ++ d') = rows d ++ rows d' := by
    unfold rows Facts.unmarked
    simp only [List.isPrefixOf_iff_prefix, isMarked, if_neg unmarked]
    split
    next marked =>
      obtain ⟨rest, rfl⟩ := marked
      exact runs_append_of_endsLine ends.of_append d'
    next => exact runs_append_of_endsLine ends d'
  obtain ⟨later, split⟩ := first
  refine ⟨later, split.symm, ?_⟩
  rw [← map_content_records, ← split, List.map_append, map_content_records d] at together
  exact List.append_cancel_left together

end Facts

/-! ## Faults wherever they stand -/

def FactFault.unplaced : FactFault → FactFault
  | .notText _ _ _ field valid => .notText 0 0 0 field valid
  | fault => fault

def Facts.TableFault.unplaced : TableFault → TableFault
  | .malformed _ fault => .malformed 0 fault.unplaced
  | .unmapped address => .unmapped address

/-- What is wrong, without its place: line, row and byte are counted as none. Faults that agree in
this are of one kind, with one path and one cause. -/
def Fault.unplaced : Fault → Fault
  | .malformedFact path _ fault => .malformedFact path 0 fault.unplaced
  | fault => fault

namespace Facts

theorem TableFault.unplaced_at (fault : TableFault) (path : String) :
    (fault.at path).unplaced = fault.unplaced.at path := by
  cases fault <;> rfl

/-- Records with the same contents are judged alike, up to where a fault stands. -/
theorem judge_of_content (reader : RowReader α) (space : AddressSpace) {r r' : Record}
    (same : r.content = r'.content) :
    (judge reader space r = .skipped ∧ judge reader space r' = .skipped) ∨
    (∃ address value, judge reader space r = .entry address value ∧
      judge reader space r' = .entry address value) ∨
    ∃ fault fault', judge reader space r = .rejected fault ∧
      judge reader space r' = .rejected fault' ∧ fault.unplaced = fault'.unplaced := by
  have texts : r.texts = r'.texts := by
    rw [Record.texts, Record.texts, Record.fields, Record.fields, same]
  rw [judge, judge, texts]
  cases r'.texts with
  | error malformed => exact Or.inr (Or.inr ⟨_, _, rfl, rfl, rfl⟩)
  | ok fields =>
    dsimp only
    split
    next => exact Or.inl ⟨rfl, rfl⟩
    next =>
      right
      cases reader fields with
      | error fault => exact Or.inr ⟨_, _, rfl, rfl, rfl⟩
      | ok entry =>
        obtain ⟨address, value⟩ := entry
        dsimp only
        cases space.translate? address with
        | none => exact Or.inr ⟨_, _, rfl, rfl, rfl⟩
        | some translated => exact Or.inl ⟨_, _, rfl, rfl⟩

section

variable {reader : RowReader α} {space : AddressSpace} {r : Record} {rest : List Record}

theorem readRecords_of_skipped (h : judge reader space r = .skipped) :
    readRecords reader space (r :: rest) =
      ⟨r.place.line :: (readRecords reader space rest).skipped,
        (readRecords reader space rest).result⟩ := by
  rw [readRecords, h]

theorem readRecords_of_entry {address : Word} {value : α}
    (h : judge reader space r = .entry address value) :
    readRecords reader space (r :: rest) =
      ⟨(readRecords reader space rest).skipped,
        (readRecords reader space rest).result.map ((address, value) :: ·)⟩ := by
  rw [readRecords, h]

theorem readRecords_of_rejected {fault : TableFault} (h : judge reader space r = .rejected fault) :
    readRecords reader space (r :: rest) = ⟨[], .error fault⟩ := by
  rw [readRecords, h]

end

/-- Two records with the same content go on as what is left goes on. -/
theorem unplaced_readRecords_cons {reader : RowReader α} {space : AddressSpace} {r r' : Record}
    {rest rest' : List Record} (content : r.content = r'.content)
    (later : (readRecords reader space rest).result.mapError TableFault.unplaced =
      (readRecords reader space rest').result.mapError TableFault.unplaced) :
    (readRecords reader space (r :: rest)).result.mapError TableFault.unplaced =
      (readRecords reader space (r' :: rest')).result.mapError TableFault.unplaced := by
  rcases judge_of_content reader space content with
    ⟨skipped, skipped'⟩ | ⟨address, value, entry, entry'⟩ | ⟨fault, fault', bad, bad', alike⟩
  · rw [readRecords_of_skipped skipped, readRecords_of_skipped skipped', later]
  · rw [readRecords_of_entry entry, readRecords_of_entry entry', mapError_map, mapError_map, later]
  · rw [readRecords_of_rejected bad, readRecords_of_rejected bad']
    exact congrArg Except.error alike

/-- Records with the same contents give the same entries or the same fault, placed elsewhere. -/
theorem unplaced_readRecords {reader : RowReader α} {space : AddressSpace} {rs rs' : List Record}
    (same : rs.map (·.content) = rs'.map (·.content)) :
    (readRecords reader space rs).result.mapError TableFault.unplaced =
      (readRecords reader space rs').result.mapError TableFault.unplaced := by
  induction rs generalizing rs' with
  | nil => rw [List.map_eq_nil_iff.mp same.symm]
  | cons r rest ih =>
    obtain ⟨r', rest', rfl, content, contents⟩ := List.map_eq_cons_iff.mp same.symm
    exact unplaced_readRecords_cons content.symm (ih contents.symm)

/-! ## One part after the other -/

/-- Records are read as long as none is rejected. -/
theorem readRecords_append (reader : RowReader α) (space : AddressSpace) (rs rs' : List Record) :
    readRecords reader space (rs ++ rs') =
      match (readRecords reader space rs).result with
      | .error fault => ⟨(readRecords reader space rs).skipped, .error fault⟩
      | .ok entries =>
        ⟨(readRecords reader space rs).skipped ++ (readRecords reader space rs').skipped,
          (readRecords reader space rs').result.map (entries ++ ·)⟩ := by
  induction rs with
  | nil =>
    rw [readRecords]
    cases later : readRecords reader space rs' with
    | mk skipped result => cases result <;> simp [later, Except.map]
  | cons r rest ih =>
    rw [List.cons_append]
    cases verdict : judge reader space r with
    | skipped =>
      rw [readRecords_of_skipped verdict, readRecords_of_skipped verdict, ih]
      cases (readRecords reader space rest).result <;> rfl
    | entry address value =>
      rw [readRecords_of_entry verdict, readRecords_of_entry verdict, ih]
      cases (readRecords reader space rest).result with
      | error fault => rfl
      | ok entries => cases (readRecords reader space rs').result <;> rfl
    | rejected fault => rw [readRecords_of_rejected verdict, readRecords_of_rejected verdict]

section

variable {reader : RowReader α} {space : AddressSpace} {d d' : Bytes}
  (ends : EndsLine d) (unmarked : ¬ byteOrderMark <+: d')

include ends unmarked

/-- After a first part that cannot be read nothing is read. -/
theorem readRecords_append_of_error {fault : TableFault}
    (failed : (readRecords reader space (records d)).result = .error fault) :
    readRecords reader space (records (d ++ d')) = readRecords reader space (records d) := by
  obtain ⟨later, split, _⟩ := exists_records_append ends unmarked
  rw [split, readRecords_append, failed]
  dsimp only
  rw [← failed]

/-- A second part after one that can be read: its entries come after the others, or it has its
fault, placed elsewhere. -/
theorem exists_readRecords_append {entries : List (Word × α)}
    (first : (readRecords reader space (records d)).result = .ok entries) :
    ∃ second : Except TableFault (List (Word × α)),
      (readRecords reader space (records (d ++ d'))).result = second.map (entries ++ ·) ∧
      second.mapError TableFault.unplaced =
        (readRecords reader space (records d')).result.mapError TableFault.unplaced := by
  obtain ⟨later, split, contents⟩ := exists_records_append ends unmarked
  rw [← map_content_records] at contents
  refine ⟨(readRecords reader space later).result, ?_, unplaced_readRecords contents⟩
  rw [split, readRecords_append, first]

end

end Facts

/-- What is read of a file at this path that holds these bytes. -/
abbrev readHeld {α : Type} (reader : RowReader α) (space : AddressSpace) (path : String)
    (bytes : Bytes) : List Event × Except Fault (Table α) :=
  FactFile.read reader space ⟨path, some bytes⟩

section

variable {α : Type} {reader : RowReader α} {space : AddressSpace} {path : String} {bytes : Bytes}

theorem readHeld_eq (reader : RowReader α) (space : AddressSpace) (path : String) (bytes : Bytes) :
    (readHeld reader space path bytes).2 =
      ((readRecords reader space (records bytes)).result.mapError (·.at path)).map Table.ofList :=
  mapError_map Table.ofList (TableFault.at path) _

theorem readHeld_eq_ok_iff {t : Table α} :
    (readHeld reader space path bytes).2 = .ok t ↔
      ∃ entries, (readRecords reader space (records bytes)).result = .ok entries ∧
        Table.ofList entries = t := by
  rw [readHeld_eq]
  cases (readRecords reader space (records bytes)).result <;> simp [Except.map, Except.mapError]

theorem readHeld_eq_error_iff {fault : Fault} :
    (readHeld reader space path bytes).2 = .error fault ↔
      ∃ f, (readRecords reader space (records bytes)).result = .error f ∧ f.at path = fault := by
  rw [readHeld_eq]
  cases (readRecords reader space (records bytes)).result <;> simp [Except.map, Except.mapError]

end

/-- A file that holds one part after another is read by what is read of the parts alone: the fault
of the first comes first; the second has the last word. -/
structure ReadsInTurn {α : Type} (reader : RowReader α) (space : AddressSpace) (path : String)
    (d d' : Bytes) : Prop where
  fails : ∀ fault, (readHeld reader space path d).2 = .error fault →
    readHeld reader space path (d ++ d') = readHeld reader space path d
  succeeds_iff : ∀ t, (readHeld reader space path d).2 = .ok t →
    ((∃ u, (readHeld reader space path (d ++ d')).2 = .ok u) ↔
      ∃ t', (readHeld reader space path d').2 = .ok t')
  overridden : ∀ t t', (readHeld reader space path d).2 = .ok t →
    (readHeld reader space path d').2 = .ok t' →
    ∃ u, (readHeld reader space path (d ++ d')).2 = .ok u ∧
      ∀ key, u.get? key = (t'.get? key).or (t.get? key)
  failsLater : ∀ t fault, (readHeld reader space path d).2 = .ok t →
    (readHeld reader space path d').2 = .error fault →
    ∃ fault', (readHeld reader space path (d ++ d')).2 = .error fault' ∧
      fault'.unplaced = fault.unplaced

section

variable {α : Type} {reader : RowReader α} {space : AddressSpace} {path : String} {d d' : Bytes}
  {t t' : Table α} {fault : Fault} (ends : EndsLine d) (unmarked : ¬ byteOrderMark <+: d')

include ends unmarked

theorem readHeld_append_of_error (failed : (readHeld reader space path d).2 = .error fault) :
    readHeld reader space path (d ++ d') = readHeld reader space path d := by
  obtain ⟨f, first, _⟩ := readHeld_eq_error_iff.mp failed
  have same := readRecords_append_of_error ends unmarked first
  simp only [FactFile.read, Facts.read, same]

variable (first : (readHeld reader space path d).2 = .ok t)

include first

theorem exists_readHeld_append (second : (readHeld reader space path d').2 = .ok t') :
    ∃ u, (readHeld reader space path (d ++ d')).2 = .ok u ∧
      ∀ key, u.get? key = (t'.get? key).or (t.get? key) := by
  obtain ⟨entries, read, rfl⟩ := readHeld_eq_ok_iff.mp first
  obtain ⟨entries', read', rfl⟩ := readHeld_eq_ok_iff.mp second
  obtain ⟨result, together, alike⟩ := exists_readRecords_append ends unmarked read
  rw [read'] at alike
  rw [(mapError_eq_ok_iff _).mp alike] at together
  exact ⟨_, readHeld_eq_ok_iff.mpr ⟨_, together, rfl⟩, Table.get?_ofList_append entries entries'⟩

theorem exists_readHeld_append_error (second : (readHeld reader space path d').2 = .error fault) :
    ∃ fault', (readHeld reader space path (d ++ d')).2 = .error fault' ∧
      fault'.unplaced = fault.unplaced := by
  obtain ⟨entries, read, rfl⟩ := readHeld_eq_ok_iff.mp first
  obtain ⟨f, failed, rfl⟩ := readHeld_eq_error_iff.mp second
  obtain ⟨result, together, alike⟩ := exists_readRecords_append ends unmarked read
  rw [failed] at alike
  obtain ⟨f', bad, same⟩ := (mapError_eq_error_iff _).mp alike
  rw [bad] at together
  refine ⟨f'.at path, readHeld_eq_error_iff.mpr ⟨f', together, rfl⟩, ?_⟩
  rw [TableFault.unplaced_at, TableFault.unplaced_at, same]

end

/-- Both tables are read in turn from two parts, of which the first ends a line and the second has
no byte order mark. -/
theorem concatenated_files_are_read_in_turn (space : AddressSpace) (path : String) {d d' : Bytes}
    (ends : EndsLine d) (unmarked : ¬ byteOrderMark <+: d') :
    ReadsInTurn instructionRow space path d d' ∧ ReadsInTurn blockRow space path d d' := by
  have inTurn : ∀ {α : Type} (reader : RowReader α), ReadsInTurn reader space path d d' := by
    intro α reader
    refine ⟨fun _ failed => readHeld_append_of_error ends unmarked failed,
      fun t first => ⟨?_, ?_⟩,
      fun _ _ first second => exists_readHeld_append ends unmarked first second,
      fun _ _ first second => exists_readHeld_append_error ends unmarked first second⟩
    · rintro ⟨u, together⟩
      cases second : (readHeld reader space path d').2 with
      | ok t' => exact ⟨t', rfl⟩
      | error fault =>
        obtain ⟨fault', failed, _⟩ := exists_readHeld_append_error ends unmarked first second
        rw [failed] at together
        cases together
    · rintro ⟨t', second⟩
      obtain ⟨u, together, _⟩ := exists_readHeld_append ends unmarked first second
      exact ⟨u, together⟩
  exact ⟨inTurn instructionRow, inTurn blockRow⟩

/-- A file with a mark, followed by one that has another row for its only address, and by one that
has a row without a size. -/
theorem marked_file_is_continued :
    let marked := byteOrderMark ++ Utf8.encode "1024\t2\tnop\r\n\n"
    let more := Utf8.encode "\n0x400\t3\tret\n1027\t1\thlt"
    let sizeless := Utf8.encode "1027\t0\thlt\n"
    EndsLine marked ∧ (¬ byteOrderMark <+: more ∧ ¬ byteOrderMark <+: sizeless) ∧
      (∃ u, (readHeld instructionRow .identity "i" (marked ++ more)).2 = .ok u ∧
        u.get? 1024 = some ⟨"ret", 3⟩ ∧ u.get? 1027 = some ⟨"hlt", 1⟩) ∧
      (∃ u, (readHeld blockRow .identity "b" (marked ++ sizeless)).2 = .ok u ∧
        u.get? 1024 = some 2 ∧ u.get? 1027 = some 0) ∧
      ∃ fault, (readHeld instructionRow .identity "i" (marked ++ sizeless)).2 = .error fault ∧
        fault.unplaced = .malformedFact "i" 0 (.zeroSize 1027) := by
  intro marked more sizeless
  have ends : EndsLine marked := by
    intro b last
    have feed : marked.getLast? = some lineFeed := by decide +kernel
    exact Or.inl (Option.some.inj (last.symm.trans feed))
  have noMark : ¬ byteOrderMark <+: more := by decide +kernel
  have noMark' : ¬ byteOrderMark <+: sizeless := by decide +kernel
  have first : (readHeld instructionRow .identity "i" marked).2 =
      .ok (Table.ofList [(1024, ⟨"nop", 2⟩)]) := by decide +kernel
  have firstBlocks : (readHeld blockRow .identity "b" marked).2 =
      .ok (Table.ofList [(1024, 2)]) := by decide +kernel
  have second : (readHeld instructionRow .identity "i" more).2 =
      .ok (Table.ofList [(1024, ⟨"ret", 3⟩), (1027, ⟨"hlt", 1⟩)]) := by decide +kernel
  have secondBlocks : (readHeld blockRow .identity "b" sizeless).2 =
      .ok (Table.ofList [(1027, 0)]) := by decide +kernel
  have refused : (readHeld instructionRow .identity "i" sizeless).2 =
      .error (.malformedFact "i" 1 (.zeroSize 1027)) := by decide +kernel
  obtain ⟨u, read, found⟩ := (concatenated_files_are_read_in_turn .identity "i" ends
    noMark).1.overridden _ _ first second
  obtain ⟨v, readBlocks, foundBlocks⟩ := (concatenated_files_are_read_in_turn .identity "b" ends
    noMark').2.overridden _ _ firstBlocks secondBlocks
  obtain ⟨fault, failed, alike⟩ := (concatenated_files_are_read_in_turn .identity "i" ends
    noMark').1.failsLater _ _ first refused
  exact ⟨ends, ⟨noMark, noMark'⟩, ⟨u, read, found 1024, found 1027⟩,
    ⟨v, readBlocks, foundBlocks 1024, foundBlocks 1027⟩, fault, failed, alike⟩

end BasicBlocks

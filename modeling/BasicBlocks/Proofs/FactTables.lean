import BasicBlocks.Facts.FactTable
import BasicBlocks.Proofs.Rows
import BasicBlocks.Proofs.Tables

/-!
# Reading fact tables

A table is read exactly if every row is sound: a text and, where it is usable, with an address, a
size and a place for the address in the address space. The table then holds for each address what
the last usable row says of it. Otherwise the fault is that of the first check that the first
offending row fails. Both tables check the same things in the same order; they differ in whether a
size may be zero and in what they keep of a row.
-/

namespace BasicBlocks.Facts

open Utf8 (Bytes IsText)

variable {α : Type}

/-- What a table asks of its rows and keeps of them, beyond address and size. -/
structure Columns (α : Type) where
  admitsZero : Bool
  value : List String → Word → α

/-- Instructions have a size, and a text of one field or of two with a space between. -/
def instructionColumns : Columns Instruction where
  admitsZero := false
  value fields size :=
    ⟨if field fields 3 = "" then field fields 2 else field fields 2 ++ " " ++ field fields 3, size⟩

def blockColumns : Columns Word where
  admitsZero := true
  value _ size := size

/-- The checks that both tables make of the fields, in their order. -/
def Columns.reader (c : Columns α) : RowReader α := fun fields =>
  match readInteger .address (field fields 0) with
  | .error fault => .error fault
  | .ok address =>
    match readInteger .size (field fields 1) with
    | .error fault => .error fault
    | .ok size =>
      if size = 0 ∧ c.admitsZero = false then .error (.zeroSize address)
      else .ok (address, c.value fields size)

theorem instructionRow_eq_reader : instructionRow = instructionColumns.reader := by
  funext fields
  unfold instructionRow Columns.reader
  cases readInteger .address (field fields 0) with
  | error fault => rfl
  | ok address =>
    cases readInteger .size (field fields 1) with
    | error fault => rfl
    | ok size =>
      by_cases zero : size = 0
      · simp [zero, instructionColumns, bind, Except.bind, throw, throwThe, MonadExceptOf.throw]
      · simp [zero, instructionColumns, instructionText, String.isEmpty_iff, bind, Except.bind,
          pure, Except.pure]

theorem blockRow_eq_reader : blockRow = blockColumns.reader := by
  funext fields
  unfold blockRow Columns.reader
  cases readInteger .address (field fields 0) with
  | error fault => rfl
  | ok address =>
    cases readInteger .size (field fields 1) with
    | error fault => rfl
    | ok size => simp [blockColumns, bind, Except.bind, pure, Except.pure]

/-- Three fields or more, the first of them not empty. -/
def IsUsable (fields : List String) : Prop := 3 ≤ fields.length ∧ field fields 0 ≠ ""

instance : DecidablePred IsUsable := fun fields =>
  inferInstanceAs (Decidable (3 ≤ fields.length ∧ field fields 0 ≠ ""))

theorem isShort_eq_false_iff {fields : List String} :
    isShort fields = false ↔ IsUsable fields := by
  simp [isShort, IsUsable]

theorem isShort_eq_true_iff {fields : List String} :
    isShort fields = true ↔ ¬ IsUsable fields := by
  rw [← isShort_eq_false_iff, Bool.not_eq_false]

/-- The fields of a usable row pass the checks of the table, with this address and size. -/
structure Passes (c : Columns α) (fields : List String) (address size : Word) : Prop where
  usable : IsUsable fields
  addressRead : readInteger .address (field fields 0) = .ok address
  sizeRead : readInteger .size (field fields 1) = .ok size
  sizeAdmitted : size = 0 → c.admitsZero = true

/-- The row is usable, passes every check, and says `value` of the translated address `key`. -/
def Yields (c : Columns α) (space : AddressSpace) (row : Bytes) (key : Word) (value : α) : Prop :=
  ∃ text address size, row = Utf8.encode text ∧ Passes c (cells text) address size ∧
    space.translate? address = some key ∧ value = c.value (cells text) size

/-- The row is a text and, if it is usable, passes every check. -/
def IsSound (c : Columns α) (space : AddressSpace) (row : Bytes) : Prop :=
  ∃ text, row = Utf8.encode text ∧ (IsUsable (cells text) →
    ∃ address size key, Passes c (cells text) address size ∧
      space.translate? address = some key)

/-- The first check that a row fails, with the fault that is reported for it. -/
inductive Offends (c : Columns α) (space : AddressSpace) (r : Record) : TableFault → Prop
  | notText {number valid : Nat} {bytes : Bytes} (found : r.fields[number]? = some bytes)
      (first : ∀ earlier ∈ r.fields.take number, IsText earlier)
      (malformed : Utf8.decode bytes = .error valid) :
      Offends c space r (.malformed r.place.line
        (.notText r.number r.place.line r.place.byte number valid))
  | address {text : String} {fault : FactFault} (content : r.content = Utf8.encode text)
      (usable : IsUsable (cells text))
      (addressRead : readInteger .address (field (cells text) 0) = .error fault) :
      Offends c space r (.malformed r.place.line fault)
  | size {text : String} {address : Word} {fault : FactFault}
      (content : r.content = Utf8.encode text) (usable : IsUsable (cells text))
      (addressRead : readInteger .address (field (cells text) 0) = .ok address)
      (sizeRead : readInteger .size (field (cells text) 1) = .error fault) :
      Offends c space r (.malformed r.place.line fault)
  | zeroSize {text : String} {address : Word} (content : r.content = Utf8.encode text)
      (usable : IsUsable (cells text))
      (addressRead : readInteger .address (field (cells text) 0) = .ok address)
      (sizeRead : readInteger .size (field (cells text) 1) = .ok 0)
      (refused : c.admitsZero = false) :
      Offends c space r (.malformed r.place.line (.zeroSize address))
  | unmapped {text : String} {address size : Word} (content : r.content = Utf8.encode text)
      (passes : Passes c (cells text) address size)
      (nowhere : space.translate? address = none) :
      Offends c space r (.unmapped address)

theorem judge_of_unusable {reader : RowReader α} {space : AddressSpace} {r : Record}
    {text : String} (h : r.content = Utf8.encode text) (unusable : ¬ IsUsable (cells text)) :
    judge reader space r = .skipped := by
  rw [judge, Record.texts_eq_ok_iff.mpr ⟨text, h, rfl⟩]
  exact if_pos (isShort_eq_true_iff.mpr unusable)

theorem judge_of_usable {reader : RowReader α} {space : AddressSpace} {r : Record} {text : String}
    (h : r.content = Utf8.encode text) (usable : IsUsable (cells text)) :
    judge reader space r =
      match reader (cells text) with
      | .error fault => .rejected (.malformed r.place.line fault)
      | .ok (address, value) =>
        match space.translate? address with
        | none => .rejected (.unmapped address)
        | some translated => .entry translated value := by
  have long : isShort (cells text) ≠ true :=
    Bool.eq_false_iff.mp (isShort_eq_false_iff.mpr usable)
  rw [judge, Record.texts_eq_ok_iff.mpr ⟨text, h, rfl⟩]
  exact if_neg long

theorem reader_of_passes {c : Columns α} {fields : List String} {address size : Word}
    (h : Passes c fields address size) : c.reader fields = .ok (address, c.value fields size) := by
  have admitted : ¬ (size = 0 ∧ c.admitsZero = false) := by
    rintro ⟨zero, refused⟩
    rw [h.sizeAdmitted zero] at refused
    cases refused
  simp only [Columns.reader, h.addressRead, h.sizeRead]
  rw [if_neg admitted]

theorem judge_of_yields {c : Columns α} {space : AddressSpace} {r : Record} {key : Word} {value : α}
    (h : Yields c space r.content key value) : judge c.reader space r = .entry key value := by
  obtain ⟨text, address, size, content, passes, placed, rfl⟩ := h
  rw [judge_of_usable content passes.usable, reader_of_passes passes]
  simp only [placed]

theorem judge_of_offends {c : Columns α} {space : AddressSpace} {r : Record} {fault : TableFault}
    (h : Offends c space r fault) : judge c.reader space r = .rejected fault := by
  cases h with
  | @notText number valid bytes found first malformed =>
    have texts : r.texts = .error (number, valid) :=
      Record.decodeFields_eq_error_iff.mpr ⟨number, bytes, by omega, found, malformed, first⟩
    rw [judge, texts]
  | address content usable addressRead =>
    simp only [judge_of_usable content usable, Columns.reader, addressRead]
  | size content usable addressRead sizeRead =>
    simp only [judge_of_usable content usable, Columns.reader, addressRead, sizeRead]
  | zeroSize content usable addressRead sizeRead refused =>
    simp [judge_of_usable content usable, Columns.reader, addressRead, sizeRead, refused]
  | unmapped content passes nowhere =>
    rw [judge_of_usable content passes.usable, reader_of_passes passes]
    simp only [nowhere]

/-- A row is skipped, says something or offends; nothing else is decided of it. -/
theorem judge_cases (c : Columns α) (space : AddressSpace) (r : Record) :
    (∃ text, r.content = Utf8.encode text ∧ ¬ IsUsable (cells text) ∧
      judge c.reader space r = .skipped) ∨
    (∃ key value, Yields c space r.content key value) ∨
    ∃ fault, Offends c space r fault := by
  cases texts : r.texts with
  | error fault =>
    obtain ⟨number, valid⟩ := fault
    obtain ⟨i, bytes, rfl, found, malformed, first⟩ :=
      Record.decodeFields_eq_error_iff.mp texts
    exact Or.inr (Or.inr ⟨_, .notText found first malformed⟩)
  | ok fields =>
    obtain ⟨text, content, rfl⟩ := Record.texts_eq_ok_iff.mp texts
    by_cases usable : IsUsable (cells text)
    · right
      cases addressRead : readInteger .address (field (cells text) 0) with
      | error fault => exact Or.inr ⟨_, .address content usable addressRead⟩
      | ok address =>
        cases sizeRead : readInteger .size (field (cells text) 1) with
        | error fault => exact Or.inr ⟨_, .size content usable addressRead sizeRead⟩
        | ok size =>
          by_cases admitted : size = 0 → c.admitsZero = true
          · have passes : Passes c (cells text) address size :=
              ⟨usable, addressRead, sizeRead, admitted⟩
            cases placed : space.translate? address with
            | none => exact Or.inr ⟨_, .unmapped content passes placed⟩
            | some key => exact Or.inl ⟨key, _, text, address, size, content, passes, placed, rfl⟩
          · obtain ⟨rfl, refused⟩ := Classical.not_imp.mp admitted
            exact Or.inr ⟨_, .zeroSize content usable addressRead sizeRead (by simpa using refused)⟩
    · exact Or.inl ⟨text, content, usable, judge_of_unusable content usable⟩

theorem judge_eq_entry_iff {c : Columns α} {space : AddressSpace} {r : Record} {key : Word}
    {value : α} :
    judge c.reader space r = .entry key value ↔ Yields c space r.content key value := by
  refine ⟨?_, judge_of_yields⟩
  intro h
  rcases judge_cases c space r with ⟨_, _, _, skipped⟩ | ⟨key', value', yields⟩ | ⟨fault, offends⟩
  · rw [skipped] at h
    cases h
  · rw [judge_of_yields yields] at h
    cases h
    exact yields
  · rw [judge_of_offends offends] at h
    cases h

theorem judge_eq_rejected_iff {c : Columns α} {space : AddressSpace} {r : Record}
    {fault : TableFault} :
    judge c.reader space r = .rejected fault ↔ Offends c space r fault := by
  refine ⟨?_, judge_of_offends⟩
  intro h
  rcases judge_cases c space r with ⟨_, _, _, skipped⟩ | ⟨key, value, yields⟩ | ⟨fault', offends⟩
  · rw [skipped] at h
    cases h
  · rw [judge_of_yields yields] at h
    cases h
  · rw [judge_of_offends offends] at h
    cases h
    exact offends

theorem isSound_iff {c : Columns α} {space : AddressSpace} {r : Record} :
    IsSound c space r.content ↔ ∀ fault, ¬ Offends c space r fault := by
  constructor
  · rintro ⟨text, content, sound⟩ fault offends
    have rejected := judge_of_offends offends
    by_cases usable : IsUsable (cells text)
    · obtain ⟨address, size, key, passes, placed⟩ := sound usable
      rw [judge_of_yields ⟨text, address, size, content, passes, placed, rfl⟩] at rejected
      cases rejected
    · rw [judge_of_unusable content usable] at rejected
      cases rejected
  · intro sound
    rcases judge_cases c space r with ⟨text, content, unusable, _⟩ | ⟨key, value, yields⟩ | ⟨fault, h⟩
    · exact ⟨text, content, fun usable => absurd usable unusable⟩
    · obtain ⟨text, address, size, content, passes, placed, _⟩ := yields
      exact ⟨text, content, fun _ => ⟨address, size, key, passes, placed⟩⟩
    · exact absurd h (sound fault)

/-- What a record adds to the table. -/
def Verdict.added? : Verdict α → Option (Word × α)
  | .entry address value => some (address, value)
  | _ => none

theorem readRecords_eq_ok_iff {reader : RowReader α} {space : AddressSpace} {rs : List Record}
    {entries : List (Word × α)} :
    (readRecords reader space rs).result = .ok entries ↔
      (∀ r ∈ rs, ∀ fault, judge reader space r ≠ .rejected fault) ∧
        entries = rs.filterMap fun r => (judge reader space r).added? := by
  induction rs generalizing entries with
  | nil => simp [readRecords, eq_comm]
  | cons r rest ih =>
    rw [readRecords]
    cases h : judge reader space r with
    | skipped =>
      simp only [ih, List.mem_cons, forall_eq_or_imp, h]
      simp [h, Verdict.added?]
    | rejected fault => simp [h]
    | entry address value =>
      have passes : ∀ result : Except TableFault (List (Word × α)),
          result.map ((address, value) :: ·) = .ok entries ↔
            ∃ later, result = .ok later ∧ entries = (address, value) :: later := by
        intro result
        cases result <;> simp [Except.map, eq_comm]
      simp only [passes, ih, List.mem_cons, forall_eq_or_imp, h]
      simp [h, Verdict.added?]

theorem readRecords_eq_error_iff {reader : RowReader α} {space : AddressSpace} {rs : List Record}
    {fault : TableFault} :
    (readRecords reader space rs).result = .error fault ↔
      ∃ before r after, rs = before ++ r :: after ∧
        (∀ q ∈ before, ∀ other, judge reader space q ≠ .rejected other) ∧
        judge reader space r = .rejected fault := by
  induction rs with
  | nil => simp [readRecords]
  | cons r rest ih =>
    rw [exists_split_cons_iff, ← ih, readRecords]
    cases h : judge reader space r with
    | skipped => simp
    | rejected other => simp
    | entry address value =>
      cases result : (readRecords reader space rest).result <;> simp [Except.map, result]

/-- The last row that yields something at `key` yields `value` there. -/
def LastYields (c : Columns α) (space : AddressSpace) (rows : List Bytes) (key : Word)
    (value : α) : Prop :=
  ∃ before row after, rows = before ++ row :: after ∧ Yields c space row key value ∧
    ∀ later ∈ after, ∀ other, ¬ Yields c space later key other

theorem added?_eq_some_iff {c : Columns α} {space : AddressSpace} {r : Record} {key : Word}
    {value : α} :
    (judge c.reader space r).added? = some (key, value) ↔ Yields c space r.content key value := by
  rw [← judge_eq_entry_iff]
  cases judge c.reader space r <;> simp [Verdict.added?]

theorem isLast_entries_iff {c : Columns α} {space : AddressSpace} {rs : List Record} {key : Word}
    {value : α} :
    Table.IsLast (rs.filterMap fun r => (judge c.reader space r).added?) key value ↔
      LastYields c space (rs.map (·.content)) key value := by
  constructor
  · rintro ⟨before, after, heq, hlast⟩
    obtain ⟨front, back, rfl, _, hback⟩ := List.filterMap_eq_append_iff.mp heq
    obtain ⟨skipped, r, later, rfl, none, hr, rfl⟩ := List.filterMap_eq_cons_iff.mp hback
    refine ⟨(front ++ skipped).map (·.content), r.content, later.map (·.content), by simp,
      added?_eq_some_iff.mp hr, ?_⟩
    intro row hrow other yields
    obtain ⟨q, hq, rfl⟩ := List.mem_map.mp hrow
    exact hlast (key, other) (List.mem_filterMap.mpr ⟨q, hq, added?_eq_some_iff.mpr yields⟩) rfl
  · rintro ⟨before, row, after, heq, yields, hlast⟩
    obtain ⟨front, back, rfl, rfl, hback⟩ := List.map_eq_append_iff.mp heq
    obtain ⟨r, later, rfl, rfl, rfl⟩ := List.map_eq_cons_iff.mp hback
    refine ⟨front.filterMap fun r => (judge c.reader space r).added?,
      later.filterMap fun r => (judge c.reader space r).added?, ?_, ?_⟩
    · simp [added?_eq_some_iff.mpr yields]
    · rintro ⟨k, other⟩ he rfl
      obtain ⟨q, hq, hentry⟩ := List.mem_filterMap.mp he
      exact hlast q.content (List.mem_map_of_mem hq) other (added?_eq_some_iff.mp hentry)

/-- The entries are what the rows yield. -/
theorem mem_entries_iff_yields {c : Columns α} {space : AddressSpace} {bytes : Bytes}
    {entries : List (Word × α)}
    (h : (readRecords c.reader space (records bytes)).result = .ok entries) (key : Word)
    (value : α) : (key, value) ∈ entries ↔ ∃ row ∈ rows bytes, Yields c space row key value := by
  obtain ⟨_, rfl⟩ := readRecords_eq_ok_iff.mp h
  rw [← map_content_records]
  simp only [List.mem_filterMap, added?_eq_some_iff, List.mem_map]
  constructor
  · rintro ⟨r, hr, yields⟩
    exact ⟨r.content, ⟨r, hr, rfl⟩, yields⟩
  · rintro ⟨_, ⟨r, hr, rfl⟩, yields⟩
    exact ⟨r, hr, yields⟩

/-- How a table is read from bytes: when, what it then holds, and which fault there is otherwise. -/
structure Reads (c : Columns α) (space : AddressSpace) (bytes : Bytes)
    (result : Except TableFault (Table α)) : Prop where
  succeeds_iff : (∃ t, result = .ok t) ↔ ∀ row ∈ rows bytes, IsSound c space row
  keys_iff : ∀ t, result = .ok t → ∀ key,
    key ∈ t.keys ↔ ∃ row ∈ rows bytes, ∃ value, Yields c space row key value
  get?_iff : ∀ t, result = .ok t → ∀ key value,
    t.get? key = some value ↔ LastYields c space (rows bytes) key value
  fault_iff : ∀ fault, result = .error fault ↔
    ∃ before r after, records bytes = before ++ r :: after ∧
      (∀ earlier ∈ before, IsSound c space earlier.content) ∧ Offends c space r fault

theorem accepted_iff_isSound {c : Columns α} {space : AddressSpace} {r : Record} :
    (∀ fault, judge c.reader space r ≠ .rejected fault) ↔ IsSound c space r.content := by
  simp only [isSound_iff, ne_eq, judge_eq_rejected_iff]

theorem reads_read (c : Columns α) (space : AddressSpace) (bytes : Bytes) :
    Reads c space bytes (read c.reader space bytes).result := by
  have okIff : ∀ t, (read c.reader space bytes).result = .ok t ↔
      ∃ entries, (readRecords c.reader space (records bytes)).result = .ok entries ∧
        t = Table.ofList entries := by
    intro t
    rw [read]
    dsimp only
    cases (readRecords c.reader space (records bytes)).result <;> simp [Except.map, eq_comm]
  have errorIff : ∀ fault, (read c.reader space bytes).result = .error fault ↔
      (readRecords c.reader space (records bytes)).result = .error fault := by
    intro fault
    rw [read]
    dsimp only
    cases (readRecords c.reader space (records bytes)).result <;> simp [Except.map]
  refine ⟨?_, ?_, ?_, ?_⟩
  · have accepted : (∀ row ∈ rows bytes, IsSound c space row) ↔
        ∀ r ∈ records bytes, ∀ fault, judge c.reader space r ≠ .rejected fault := by
      simp only [accepted_iff_isSound, ← map_content_records bytes, List.mem_map,
        forall_exists_index, and_imp, forall_apply_eq_imp_iff₂]
    rw [accepted]
    simp only [okIff, readRecords_eq_ok_iff]
    constructor
    · rintro ⟨t, entries, ⟨good, _⟩, _⟩
      exact good
    · intro good
      exact ⟨_, _, ⟨good, rfl⟩, rfl⟩
  · intro t ht key
    obtain ⟨entries, hentries, rfl⟩ := (okIff t).mp ht
    rw [Table.mem_keys_ofList_iff]
    simp only [mem_entries_iff_yields hentries]
    constructor
    · rintro ⟨value, row, hrow, yields⟩
      exact ⟨row, hrow, value, yields⟩
    · rintro ⟨row, hrow, value, yields⟩
      exact ⟨value, row, hrow, yields⟩
  · intro t ht key value
    obtain ⟨entries, hentries, rfl⟩ := (okIff t).mp ht
    obtain ⟨_, rfl⟩ := readRecords_eq_ok_iff.mp hentries
    rw [Table.get?_ofList_iff, isLast_entries_iff, map_content_records]
  · intro fault
    simp only [errorIff, readRecords_eq_error_iff, accepted_iff_isSound, judge_eq_rejected_iff]

theorem reads_instructions (space : AddressSpace) (bytes : Bytes) :
    Reads instructionColumns space bytes (read instructionRow space bytes).result :=
  instructionRow_eq_reader ▸ reads_read instructionColumns space bytes

theorem reads_blocks (space : AddressSpace) (bytes : Bytes) :
    Reads blockColumns space bytes (read blockRow space bytes).result :=
  blockRow_eq_reader ▸ reads_read blockColumns space bytes

/-- Both tables are read by the same rules, over the rows that the bytes fall into; the records,
which say where the reader stands, hold just these rows. -/
theorem tables_read_last_usable_rows (space : AddressSpace) (bytes : Bytes) :
    (records bytes).map (·.content) = rows bytes ∧
    Reads instructionColumns space bytes (readInstructions space bytes).result ∧
    Reads blockColumns space bytes (readBlocks space bytes).result :=
  ⟨map_content_records bytes, reads_instructions space bytes, reads_blocks space bytes⟩

end BasicBlocks.Facts

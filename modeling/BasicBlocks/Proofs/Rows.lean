import BasicBlocks.Facts.Record
import BasicBlocks.Proofs.Utf8

/-!
# Rows

The rows of a fact table are the maximal non-empty runs of bytes without a terminator, after one
byte order mark at the very start. They are the contents of its records, in order. A row is a text
exactly if all its fields are, and the fields are then the cells of the text between tabs.
-/

namespace BasicBlocks.Facts

open Utf8 (Bytes)

def unmarked (bytes : Bytes) : Bytes :=
  if byteOrderMark.isPrefixOf bytes then bytes.drop 3 else bytes

/-- The maximal non-empty runs of bytes without a terminator. -/
def runs (bytes : Bytes) : List Bytes := (bytes.splitOnP isTerminator).filter (· ≠ [])

def rows (bytes : Bytes) : List Bytes := runs (unmarked bytes)

theorem runs_cons_terminator {b : UInt8} (h : isTerminator b = true) (rest : Bytes) :
    runs (b :: rest) = runs rest := by
  simp [runs, List.splitOnP_cons_eq_if_modifyHead, h]

theorem runs_dropWhile (bytes : Bytes) : runs (bytes.dropWhile isTerminator) = runs bytes := by
  induction bytes with
  | nil => rfl
  | cons b rest ih =>
    by_cases h : isTerminator b = true
    · rw [List.dropWhile_cons_of_pos h, ih, runs_cons_terminator h]
    · rw [List.dropWhile_cons_of_neg h]

/-- A run ends at the end of the bytes or at a terminator. -/
theorem runs_append {content ending : Bytes} (nonempty : content ≠ [])
    (inside : ∀ b ∈ content, isTerminator b = false)
    (ended : ∀ b ∈ ending.head?, isTerminator b = true) :
    runs (content ++ ending) = content :: runs (ending.drop 1) := by
  cases ending with
  | nil => simp [runs, List.splitOnP_eq_singleton inside, nonempty]
  | cons b rest =>
    have terminator : isTerminator b = true := ended b rfl
    simp [runs, List.splitOnP_append_cons_of_forall_mem inside b terminator, nonempty]

/-- The first record of what is left to read: the terminators before it, its content, and what
follows, where nothing but a terminator ends the content. -/
structure Opens (rest blank content ending : Bytes) : Prop where
  whole : rest = blank ++ (content ++ ending)
  before : ∀ b ∈ blank, isTerminator b = true
  nonempty : content ≠ []
  inside : ∀ b ∈ content, isTerminator b = false
  ended : ∀ b ∈ ending.head?, isTerminator b = true

theorem opens_scan {rest : Bytes} (something : ¬ (rest.dropWhile isTerminator).isEmpty = true) :
    Opens rest (rest.takeWhile isTerminator)
      ((rest.dropWhile isTerminator).takeWhile (!isTerminator ·))
      ((rest.dropWhile isTerminator).dropWhile (!isTerminator ·)) := by
  refine ⟨?_, ?_, ?_, ?_, ?_⟩
  · rw [List.takeWhile_append_dropWhile, List.takeWhile_append_dropWhile]
  · exact fun b hb => List.all_eq_true.mp List.all_takeWhile b hb
  · have first := List.head?_dropWhile_not isTerminator rest
    cases hbody : rest.dropWhile isTerminator with
    | nil => exact absurd (by simp [hbody]) something
    | cons b bs =>
      rw [hbody] at first
      have visible : isTerminator b = false := by simpa using first
      simp [visible]
  · intro b hb
    simpa using List.all_eq_true.mp List.all_takeWhile b hb
  · intro b hb
    have stopped := List.head?_dropWhile_not (!isTerminator ·) (rest.dropWhile isTerminator)
    rw [Option.mem_def] at hb
    simpa [hb] using stopped

theorem runs_of_opens {rest blank content ending : Bytes} (h : Opens rest blank content ending) :
    runs rest = content :: runs (ending.drop 1) := by
  have gone : runs (blank ++ (content ++ ending)) = runs (content ++ ending) := by
    rw [← runs_dropWhile, List.dropWhile_append_of_pos h.before, runs_dropWhile]
  rw [h.whole, gone]
  exact runs_append h.nonempty h.inside h.ended

theorem map_content_recordsFrom (number : Nat) (place : Place) (mark rest : Bytes) :
    (recordsFrom number place mark rest).map (·.content) = runs rest := by
  induction number, place, mark, rest using recordsFrom.induct with
  | case1 number place mark rest body nothing =>
    have gone : rest.dropWhile isTerminator = [] := List.isEmpty_iff.mp nothing
    rw [recordsFrom, if_pos nothing, ← runs_dropWhile rest, gone]
    rfl
  | case2 number place mark rest blank body something content ending ih =>
    rw [recordsFrom, if_neg something, List.map_cons, ih, runs_of_opens (opens_scan something)]

/-- The records of a fact table hold its rows. -/
theorem map_content_records (bytes : Bytes) : (records bytes).map (·.content) = rows bytes := by
  unfold records rows unmarked
  split
  · exact map_content_recordsFrom 0 .start byteOrderMark (bytes.drop 3)
  · exact map_content_recordsFrom 0 .start [] bytes

/-- The parts of a text between tabs. -/
def cells (text : String) : List String := (text.toList.splitOn '\t').map String.ofList

theorem splitAt_eq_splitOn {α : Type} [DecidableEq α] (separator : α) (l : List α) :
    splitAt separator l = l.splitOn separator := by
  induction l using splitAt.induct separator with
  | case1 => rfl
  | case2 xs ih => simp [splitAt, List.splitOn_cons_eq_if_modifyHead, ih]
  | case3 x xs different nothing ih => exact absurd (ih ▸ nothing) (List.splitOn_ne_nil _ _)
  | case4 x xs different piece pieces hsplit ih =>
    rw [List.splitOn_cons_eq_if_modifyHead, if_neg (by simpa using different), ← ih]
    simp [splitAt, different, hsplit]

namespace Record

theorem fields_eq_splitOn (r : Record) : r.fields = r.content.splitOn tab :=
  splitAt_eq_splitOn tab r.content

theorem fields_of_content {r : Record} {text : String} (h : r.content = Utf8.encode text) :
    r.fields = (cells text).map Utf8.encode := by
  have cut := Utf8.splitOn_encodeChars (show tab.toNat < 0x80 by decide) text.toList
  have encoded : Utf8.encode ∘ String.ofList = Utf8.encodeChars := by
    funext cs
    simp [Utf8.encode]
  rw [fields_eq_splitOn, h, Utf8.encode, cut, cells, List.map_map, encoded]
  rfl

theorem isText_content {r : Record} (h : ∀ bytes ∈ r.fields, Utf8.IsText bytes) :
    Utf8.IsText r.content := by
  have joined : ∀ pieces : List Bytes, (∀ bytes ∈ pieces, Utf8.IsText bytes) →
      Utf8.IsText ([tab].intercalate pieces) := by
    intro pieces
    induction pieces with
    | nil => exact fun _ => ⟨"", rfl⟩
    | cons first rest ih =>
      intro all
      obtain ⟨s, rfl⟩ := all first List.mem_cons_self
      obtain ⟨t, ht⟩ := ih fun bytes hb => all bytes (List.mem_cons_of_mem _ hb)
      cases rest with
      | nil => exact ⟨s, List.intercalate_singleton⟩
      | cons second rest =>
        refine ⟨s ++ "\t" ++ t, ?_⟩
        rw [List.intercalate_cons_cons, ht]
        simp [Utf8.encode, Utf8.encodeChars, Utf8.encodeChar, tab]
  rw [fields_eq_splitOn] at h
  have whole := joined _ h
  rwa [List.intercalate_splitOn] at whole

theorem decodeFields_encode (number : Nat) (texts : List String) :
    decodeFields number (texts.map Utf8.encode) = .ok texts := by
  induction texts generalizing number with
  | nil => rfl
  | cons text texts ih =>
    rw [List.map_cons, decodeFields, Utf8.decode_eq_ok_iff.mpr rfl]
    simp only [ih]

theorem isText_of_decodeFields {number : Nat} {fields : List Bytes} {texts : List String}
    (h : decodeFields number fields = .ok texts) : ∀ bytes ∈ fields, Utf8.IsText bytes := by
  induction fields generalizing number texts with
  | nil => simp
  | cons first rest ih =>
    rw [decodeFields] at h
    cases hd : Utf8.decode first with
    | error valid => simp [hd] at h
    | ok text =>
      cases hr : decodeFields (number + 1) rest with
      | error fault => simp [hd, hr] at h
      | ok later =>
        intro bytes hb
        rcases List.mem_cons.mp hb with rfl | hb
        · exact ⟨text, Utf8.decode_eq_ok_iff.mp hd⟩
        · exact ih hr bytes hb

/-- A field that is a text leaves the fault to the fields after it. -/
theorem decodeFields_cons_eq_error_iff {number : Nat} {first : Bytes} {rest : List Bytes}
    {text : String} {fault : Nat × Nat} (h : Utf8.decode first = .ok text) :
    decodeFields number (first :: rest) = .error fault ↔
      decodeFields (number + 1) rest = .error fault := by
  rw [decodeFields, h]
  cases decodeFields (number + 1) rest with
  | error found => exact Iff.rfl
  | ok texts => simp

/-- The fault names the first field that is no text, and how much of it is well formed. -/
theorem decodeFields_eq_error_iff {number n valid : Nat} {fields : List Bytes} :
    decodeFields number fields = .error (n, valid) ↔
      ∃ i bytes, n = number + i ∧ fields[i]? = some bytes ∧
        Utf8.decode bytes = .error valid ∧ ∀ earlier ∈ fields.take i, Utf8.IsText earlier := by
  induction fields generalizing number with
  | nil => simp [decodeFields]
  | cons first rest ih =>
    cases hd : Utf8.decode first with
    | error wrong =>
      rw [decodeFields, hd]
      constructor
      · intro h
        cases h
        exact ⟨0, first, rfl, rfl, hd, by simp⟩
      · rintro ⟨i, bytes, rfl, found, bad, earlier⟩
        cases i with
        | zero =>
          obtain rfl : first = bytes := Option.some.inj found
          obtain rfl : wrong = valid := Except.error.inj (hd.symm.trans bad)
          rfl
        | succ i =>
          have good := earlier first (by simp)
          exact absurd hd (Utf8.isText_iff.mp good wrong)
    | ok text =>
      refine (decodeFields_cons_eq_error_iff hd).trans (ih.trans ?_)
      constructor
      · rintro ⟨i, bytes, rfl, found, bad, earlier⟩
        refine ⟨i + 1, bytes, by omega, found, bad, ?_⟩
        intro b hb
        rcases List.mem_cons.mp hb with rfl | hb
        · exact ⟨text, Utf8.decode_eq_ok_iff.mp hd⟩
        · exact earlier b hb
      · rintro ⟨i, bytes, rfl, found, bad, earlier⟩
        cases i with
        | zero =>
          obtain rfl : first = bytes := Option.some.inj found
          rw [hd] at bad
          cases bad
        | succ i =>
          exact ⟨i, bytes, by omega, found, bad, fun b hb => earlier b (List.mem_cons_of_mem _ hb)⟩

theorem texts_eq_ok_iff {r : Record} {fields : List String} :
    r.texts = .ok fields ↔ ∃ text, r.content = Utf8.encode text ∧ fields = cells text := by
  have ofText : ∀ text, r.content = Utf8.encode text → r.texts = .ok (cells text) := by
    intro text h
    rw [texts, fields_of_content h]
    exact decodeFields_encode 0 (cells text)
  constructor
  · intro h
    obtain ⟨text, ht⟩ := isText_content (isText_of_decodeFields h)
    exact ⟨text, ht, Except.ok.inj (h.symm.trans (ofText text ht))⟩
  · rintro ⟨text, h, rfl⟩
    exact ofText text h

end Record

end BasicBlocks.Facts

import BasicBlocks.Proofs.Lines
import BasicBlocks.Proofs.Locality

/-!
# The order of rows

The lines of a fact file may stand in any order, as long as usable rows whose addresses have one
place keep theirs: whether a row offends does not depend on where it stands, and a table holds for
each place what the last row of that place says. So two files are reconciled to the same as before,
and where both can be read a gap is the same gap.
-/

namespace BasicBlocks

open Facts
open Utf8 (Bytes)

variable {α : Type}

namespace Facts

/-- The lines one after the other, each with a line feed. -/
def ofLines (ls : List Bytes) : Bytes := ls.flatMap (· ++ [lineFeed])

/-- Where the address of a usable row is placed. -/
def place? (space : AddressSpace) (row : Bytes) : Option Word := do
  let text ← Utf8.decode? row
  let fields := cells text
  if IsUsable fields then
    let address ← (readInteger .address (field fields 0)).toOption
    space.translate? address
  else none

/-- The same lines in an order that keeps usable rows of one place in theirs. -/
structure Reorders (space : AddressSpace) (ls ls' : List Bytes) : Prop where
  perm : ls.Perm ls'
  inOrder : ∀ key, (ls.flatMap runs).filter (place? space · = some key) =
    (ls'.flatMap runs).filter (place? space · = some key)

theorem Reorders.symm {space : AddressSpace} {ls ls' : List Bytes} (h : Reorders space ls ls') :
    Reorders space ls' ls :=
  ⟨h.perm.symm, fun key => (h.inOrder key).symm⟩

/-- The order is to be kept only at places that rows have. -/
theorem reorders_of_places {space : AddressSpace} {ls ls' : List Bytes} (perm : ls.Perm ls')
    (inOrder : ∀ row ∈ ls.flatMap runs, (place? space row).isSome →
      (ls.flatMap runs).filter (place? space · = place? space row) =
        (ls'.flatMap runs).filter (place? space · = place? space row)) :
    Reorders space ls ls' := by
  refine ⟨perm, fun key => ?_⟩
  by_cases placed : ∃ row ∈ ls.flatMap runs, place? space row = some key
  · obtain ⟨row, hrow, same⟩ := placed
    rw [← same]
    exact inOrder row hrow (by simp [same])
  · have nowhere : ∀ row ∈ ls.flatMap runs, place? space row ≠ some key :=
      fun row hrow same => placed ⟨row, hrow, same⟩
    have nowhere' : ∀ row ∈ ls'.flatMap runs, place? space row ≠ some key :=
      fun row hrow => nowhere row ((perm.flatMap_right runs).mem_iff.mpr hrow)
    rw [List.filter_eq_nil_iff.mpr (by simpa using nowhere),
      List.filter_eq_nil_iff.mpr (by simpa using nowhere')]

theorem runs_append_feed (line rest : Bytes) :
    runs (line ++ lineFeed :: rest) = runs line ++ runs rest := by
  have feed : isTerminator lineFeed = true := rfl
  simp [runs, List.splitOnP_append_cons _ _ feed]

/-- The rows are those of the lines, if no line begins with a mark. -/
theorem rows_ofLines {ls : List Bytes} (unmarked : ∀ line ∈ ls, ¬ byteOrderMark <+: line) :
    rows (ofLines ls) = ls.flatMap runs := by
  have bare : Facts.unmarked (ofLines ls) = ofLines ls := by
    refine if_neg fun marked => ?_
    have marked := List.isPrefixOf_iff_prefix.mp marked
    cases ls with
    | nil => simp [ofLines, byteOrderMark] at marked
    | cons line later =>
      have feed : ∀ b ∈ ([lineFeed] ++ ofLines later).head?, isTerminator b = true := by
        simp [isTerminator]
      rw [ofLines, List.flatMap_cons, List.append_assoc] at marked
      exact unmarked line List.mem_cons_self (byteOrderMark_prefix_of_append feed marked)
  rw [rows, bare]
  clear bare unmarked
  induction ls with
  | nil => rfl
  | cons line later ih =>
    rw [ofLines, List.flatMap_cons, List.append_assoc, List.singleton_append, runs_append_feed,
      List.flatMap_cons, ← ih, ofLines]

section

variable {c : Columns α} {space : AddressSpace}

theorem place?_of_yields {row : Bytes} {key : Word} {value : α}
    (h : Yields c space row key value) : place? space row = some key := by
  obtain ⟨text, address, size, rfl, passes, placed, _⟩ := h
  have decoded : Utf8.decode? (Utf8.encode text) = some text := by
    rw [Utf8.decode?, Utf8.decode_eq_ok_iff.mpr rfl]
    rfl
  simp [place?, decoded, passes.usable, passes.addressRead, Except.toOption, placed]

/-- What stands last at a place is decided by the rows of that place, in their order. -/
theorem lastYields_iff_of_inOrder {rows rows' : List Bytes} {key : Word}
    (inOrder : rows.filter (place? space · = some key) =
      rows'.filter (place? space · = some key)) (value : α) :
    LastYields c space rows key value ↔ LastYields c space rows' key value := by
  have kept : ∀ row v, Yields c space row key v → decide (place? space row = some key) = true :=
    fun row v yields => decide_eq_true (place?_of_yields yields)
  rw [← lastYields_filter_iff fun row _ => kept row, inOrder,
    lastYields_filter_iff fun row _ => kept row]

/-- A table that is read is read in the other order as well. -/
theorem read_of_reordered {ls ls' : List Bytes}
    (unmarked : ∀ line ∈ ls, ¬ byteOrderMark <+: line) (h : Reorders space ls ls') {t : Table α}
    (ht : (read c.reader space (ofLines ls)).result = .ok t) :
    (read c.reader space (ofLines ls')).result = .ok t := by
  have unmarked' : ∀ line ∈ ls', ¬ byteOrderMark <+: line :=
    fun line hline => unmarked line (h.perm.mem_iff.mpr hline)
  have original := reads_read c space (ofLines ls)
  have other := reads_read c space (ofLines ls')
  have sound := original.succeeds_iff.mp ⟨t, ht⟩
  rw [rows_ofLines unmarked] at sound
  obtain ⟨u, hu⟩ := other.succeeds_iff.mpr fun row hrow => by
    rw [rows_ofLines unmarked'] at hrow
    exact sound row ((h.perm.flatMap_right runs).mem_iff.mpr hrow)
  have same : u = t := Table.ext_get? fun key => Option.ext fun value => by
    rw [other.get?_iff u hu, original.get?_iff t ht, rows_ofLines unmarked,
      rows_ofLines unmarked', lastYields_iff_of_inOrder (h.inOrder key)]
  rw [hu, same]

end
end Facts

section

variable {space : AddressSpace} {instructionLines instructionLines' blockLines blockLines' : List Bytes}
  (unmarked : ∀ line ∈ instructionLines ++ blockLines, ¬ byteOrderMark <+: line)
  (instructions : Reorders space instructionLines instructionLines')
  (blocks : Reorders space blockLines blockLines')
  (instructionPath blockPath instructionPath' blockPath' : String) (scope : Scope)

include unmarked instructions blocks

/-- Files that can be read give in another order what they gave: the same value or the same gap. -/
theorem reconcile_of_reordered
    (hi : ∃ t, (readInstructions space (ofLines instructionLines)).result = .ok t)
    (hb : ∃ t, (readBlocks space (ofLines blockLines)).result = .ok t) :
    (reconcile ⟨instructionPath', some (ofLines instructionLines')⟩
        ⟨blockPath', some (ofLines blockLines')⟩ space scope).result =
      (reconcile ⟨instructionPath, some (ofLines instructionLines)⟩
        ⟨blockPath, some (ofLines blockLines)⟩ space scope).result := by
  obtain ⟨t, ht⟩ := hi
  obtain ⟨u, hu⟩ := hb
  have ht' : (readInstructions space (ofLines instructionLines')).result = .ok t := by
    rw [readInstructions, instructionRow_eq_reader] at ht ⊢
    exact read_of_reordered (fun l hl => unmarked l (List.mem_append_left _ hl)) instructions ht
  have hu' : (readBlocks space (ofLines blockLines')).result = .ok u := by
    rw [readBlocks, blockRow_eq_reader] at hu ⊢
    exact read_of_reordered (fun l hl => unmarked l (List.mem_append_right _ hl)) blocks hu
  rw [reconcile_result_of_read ht hu, reconcile_result_of_read ht' hu']

theorem reconcile_ok_of_reordered {r : Reconciled}
    (h : (reconcile ⟨instructionPath, some (ofLines instructionLines)⟩
      ⟨blockPath, some (ofLines blockLines)⟩ space scope).result = .ok r) :
    (reconcile ⟨instructionPath', some (ofLines instructionLines')⟩
      ⟨blockPath', some (ofLines blockLines')⟩ space scope).result = .ok r := by
  obtain ⟨t, u, hi, hb, _, _⟩ := reconcile_eq_ok_iff.mp h
  obtain ⟨_, held, ht⟩ := read_eq_ok_iff.mp hi
  obtain ⟨_, held', hu⟩ := read_eq_ok_iff.mp hb
  cases held
  cases held'
  rw [reconcile_of_reordered unmarked instructions blocks instructionPath blockPath
    instructionPath' blockPath' scope ⟨t, ht⟩ ⟨u, hu⟩, h]

/-- Two files with their lines in another order, in which usable rows of one place keep theirs, are
reconciled exactly if they were, and to the same. Where both can be read, a gap is the same gap. -/
theorem row_order_matters_within_places_only :
    (∀ r, (reconcile ⟨instructionPath, some (ofLines instructionLines)⟩
        ⟨blockPath, some (ofLines blockLines)⟩ space scope).result = .ok r ↔
      (reconcile ⟨instructionPath', some (ofLines instructionLines')⟩
        ⟨blockPath', some (ofLines blockLines')⟩ space scope).result = .ok r) ∧
    ((∃ t, (readInstructions space (ofLines instructionLines)).result = .ok t) →
      (∃ t, (readBlocks space (ofLines blockLines)).result = .ok t) →
      ∀ block address,
        (reconcile ⟨instructionPath, some (ofLines instructionLines)⟩
            ⟨blockPath, some (ofLines blockLines)⟩ space scope).result =
          .error ⟨.blocksParsed, .gap block address⟩ ↔
        (reconcile ⟨instructionPath', some (ofLines instructionLines')⟩
            ⟨blockPath', some (ofLines blockLines')⟩ space scope).result =
          .error ⟨.blocksParsed, .gap block address⟩) := by
  have unmarked' : ∀ line ∈ instructionLines' ++ blockLines', ¬ byteOrderMark <+: line :=
    fun line hline => unmarked line ((instructions.perm.append blocks.perm).mem_iff.mpr hline)
  refine ⟨fun r => ⟨?_, ?_⟩, fun hi hb block address => ?_⟩
  · exact reconcile_ok_of_reordered unmarked instructions blocks _ _ _ _ scope
  · exact reconcile_ok_of_reordered unmarked' instructions.symm blocks.symm _ _ _ _ scope
  · rw [reconcile_of_reordered unmarked instructions blocks instructionPath blockPath
      instructionPath' blockPath' scope hi hb]

end

/-- Two instructions of different addresses lie at one offset; they keep their order and a third
comes before them. A short line moves past the only block. -/
theorem instructions_at_one_offset_keep_their_order :
    let h : Header := ⟨.elf, .executable, true, none,
      [⟨".text", 0x1000, 0x10, 0⟩, ⟨".copy", 0x2000, 0x10, 0⟩]⟩
    let space := AddressSpace.ofHeader h
    let nop := Utf8.encode "4096\t1\tnop"
    let ret := Utf8.encode "8192\t2\tret"
    let hlt := Utf8.encode "4098\t1\thlt"
    let short := Utf8.encode "short"
    let block := Utf8.encode "8192\t3\t"
    Reorders space [nop, ret, hlt] [hlt, nop, ret] ∧ Reorders space [block, short] [short, block] ∧
      (reconcile ⟨"i", some (ofLines [hlt, nop, ret])⟩ ⟨"b", some (ofLines [short, block])⟩
          space .cfg).result =
        .ok ⟨Table.ofList [(0, "ret"), (2, "hlt")],
          Table.ofList [(0, ⟨0, [⟨0, "ret"⟩, ⟨2, "hlt"⟩]⟩)]⟩ := by
  intro h space nop ret hlt short block
  have instructions : Reorders space [nop, ret, hlt] [hlt, nop, ret] :=
    reorders_of_places (by decide +kernel) (by decide +kernel)
  have blocks : Reorders space [block, short] [short, block] :=
    reorders_of_places (by decide +kernel) (by decide +kernel)
  have unmarked : ∀ line ∈ [nop, ret, hlt] ++ [block, short], ¬ byteOrderMark <+: line := by
    decide +kernel
  have source : (reconcile ⟨"i", some (ofLines [nop, ret, hlt])⟩
      ⟨"b", some (ofLines [block, short])⟩ space .cfg).result =
        .ok ⟨Table.ofList [(0, "ret"), (2, "hlt")],
          Table.ofList [(0, ⟨0, [⟨0, "ret"⟩, ⟨2, "hlt"⟩]⟩)]⟩ := by
    decide +kernel
  obtain ⟨same, _⟩ := row_order_matters_within_places_only unmarked instructions blocks
    "i" "b" "i" "b" .cfg
  exact ⟨instructions, blocks, (same _).mp source⟩

end BasicBlocks

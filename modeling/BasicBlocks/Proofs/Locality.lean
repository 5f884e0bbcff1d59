import BasicBlocks.Proofs.Reconciliation

/-!
# What blocks depend on

A walk looks up addresses below its stop only, and none before its start. So blocks depend on the
instructions in their own ranges and on no others: two tables that agree there give the same blocks,
the same overruns, the same gap and the same listing of members, and rows of an instruction file
that speak of other addresses leave no trace in a result.
-/

namespace BasicBlocks

open Facts Population
open Utf8 (Bytes)

namespace Population

variable {instructions instructions' : InstructionTable}

/-- A walk is decided by the instructions from its start to its stop. -/
theorem walk_congr {e a : Word}
    (agree : ∀ x, a ≤ x → x < e → instructions.get? x = instructions'.get? x) :
    walk instructions e a = walk instructions' e a := by
  induction a using walk_induction instructions e with
  | past a notBelow => rw [walk_past notBelow, walk_past notBelow]
  | missing a below absent =>
    have absent' := (agree a (UInt64.le_refl a) below).symm.trans absent
    rw [walk_missing below absent, walk_missing below absent']
  | step a i below found ih =>
    have found' := (agree a (UInt64.le_refl a) below).symm.trans found
    have onward : a ≤ next a i.size := UInt64.le_of_lt (lt_next below i.size)
    have rest := ih fun x reached => agree x (UInt64.le_trans onward reached)
    rw [walk_step below found, walk_step below found', rest]

/-- An address of a block, before its clipped end. -/
def InExtent (s n a : Word) : Prop := s ≤ a ∧ a.toNat < extent s n

/-- The addresses of the blocks of a table. -/
def Within (blocks : BlockTable) (a : Word) : Prop :=
  ∃ s n, blocks.get? s = some n ∧ InExtent s n a

theorem walk_stop_congr {s n : Word}
    (agree : ∀ a, InExtent s n a → instructions.get? a = instructions'.get? a) :
    walk instructions (stop s n) s = walk instructions' (stop s n) s := by
  refine walk_congr fun a reached below => agree a ⟨reached, ?_⟩
  rwa [← toNat_stop, ← UInt64.lt_iff_toNat_lt]

theorem populateList_congr {es : List (Word × Word)}
    (agree : ∀ e ∈ es, ∀ a, InExtent e.1 e.2 a → instructions.get? a = instructions'.get? a) :
    populateList instructions es = populateList instructions' es := by
  induction es with
  | nil => rfl
  | cons e rest ih =>
    obtain ⟨s, n⟩ := e
    have same := walk_stop_congr (agree (s, n) List.mem_cons_self)
    have later := ih fun e he => agree e (List.mem_cons_of_mem _ he)
    rw [populateList, populateList, populateBlock, populateBlock, overrun?, overrun?, same, later]

theorem populate_congr {blocks : BlockTable}
    (agree : ∀ a, Within blocks a → instructions.get? a = instructions'.get? a) :
    populate blocks instructions = populate blocks instructions' := by
  have same : populateList instructions blocks.entries =
      populateList instructions' blocks.entries := by
    refine populateList_congr fun ⟨s, n⟩ entry a inside => agree a ⟨s, n, ?_, inside⟩
    exact (blocks.mem_entries_iff s n).mp entry
  rw [populate, populate, same]

end Population

/-! ## Rows -/

namespace Facts

variable {α : Type}

/-- Rows that say nothing of an address may be left out. -/
theorem lastYields_filter_iff {c : Columns α} {space : AddressSpace} {rows : List Bytes}
    {key : Word} {value : α} {p : Bytes → Bool}
    (kept : ∀ row ∈ rows, ∀ v, Yields c space row key v → p row = true) :
    LastYields c space (rows.filter p) key value ↔ LastYields c space rows key value := by
  constructor
  · rintro ⟨before, row, after, split, yields, last⟩
    obtain ⟨front, back, rfl, _, hback⟩ := List.filter_eq_append_iff.mp split
    obtain ⟨skipped, later, rfl, _, _, rfl⟩ := List.filter_eq_cons_iff.mp hback
    refine ⟨front ++ skipped, row, later, by simp, yields, fun q hq other spoken => ?_⟩
    have passes := kept q (by simp [hq]) other spoken
    exact last q (List.mem_filter.mpr ⟨hq, passes⟩) other spoken
  · rintro ⟨before, row, after, rfl, yields, last⟩
    have passes : p row = true := kept row (by simp) value yields
    refine ⟨before.filter p, row, after.filter p, by simp [passes], yields, fun q hq => ?_⟩
    exact last q (List.mem_filter.mp hq).1

/-- A row that says something of an address of a block. -/
def SpeaksWithin (blocks : BlockTable) (space : AddressSpace) (row : Bytes) : Prop :=
  ∃ a i, Within blocks a ∧ Yields instructionColumns space row a i

/-- The rows that say something of an address of a block. -/
noncomputable def rowsWithin (blocks : BlockTable) (space : AddressSpace) (bytes : Bytes) :
    List Bytes :=
  open Classical in (rows bytes).filter (SpeaksWithin blocks space ·)

theorem lastYields_rowsWithin_iff {blocks : BlockTable} {space : AddressSpace} {bytes : Bytes}
    {a : Word} (within : Within blocks a) (i : Instruction) :
    LastYields instructionColumns space (rowsWithin blocks space bytes) a i ↔
      LastYields instructionColumns space (rows bytes) a i := by
  classical
  exact lastYields_filter_iff fun _ _ v yields => decide_eq_true ⟨a, v, within, yields⟩

/-- Files with the same rows within the blocks have the same instructions there. -/
theorem get?_eq_of_rowsWithin_eq {blocks : BlockTable} {space : AddressSpace}
    {bytes bytes' : Bytes} {instructions instructions' : InstructionTable}
    (read : (readInstructions space bytes).result = .ok instructions)
    (read' : (readInstructions space bytes').result = .ok instructions')
    (same : rowsWithin blocks space bytes = rowsWithin blocks space bytes') {a : Word}
    (within : Within blocks a) : instructions.get? a = instructions'.get? a := by
  refine Option.ext fun i => ?_
  rw [(reads_instructions space bytes).get?_iff _ read,
    (reads_instructions space bytes').get?_iff _ read', ← lastYields_rowsWithin_iff within, same,
    lastYields_rowsWithin_iff within]

end Facts

/-- Two instruction tables that agree at the addresses of the blocks give the same blocks or the
same gap, the same overruns and the same listing of members. So rows that say nothing of these
addresses decide nothing of what two files are reconciled to. -/
theorem population_is_local :
    (∀ (blocks : BlockTable) (instructions instructions' : InstructionTable),
      (∀ a, Within blocks a → instructions.get? a = instructions'.get? a) →
      populateTraced blocks instructions = populateTraced blocks instructions' ∧
      (populateTraced blocks instructions).2.map (listing .cfg · instructions) =
        (populateTraced blocks instructions').2.map (listing .cfg · instructions')) ∧
    ∀ (space : AddressSpace) (path path' : String) (bytes bytes' : Bytes) (blockFile : FactFile)
      (instructions instructions' : InstructionTable),
      (readInstructions space bytes).result = .ok instructions →
      (readInstructions space bytes').result = .ok instructions' →
      (∀ blocks, (blockFile.read blockRow space).2 = .ok blocks →
        rowsWithin blocks space bytes = rowsWithin blocks space bytes') →
      (reconcile ⟨path, some bytes⟩ blockFile space .cfg).result =
        (reconcile ⟨path', some bytes'⟩ blockFile space .cfg).result := by
  constructor
  · intro blocks instructions instructions' agree
    have same : populateTraced blocks instructions = populateTraced blocks instructions' := by
      rw [populateTraced, populateTraced, populate_congr agree]
    exact ⟨same, by rw [same]; rfl⟩
  · intro space path path' bytes bytes' blockFile instructions instructions' read read' same
    rw [reconcile_result, reconcile_result, read_eq_ok_iff.mpr ⟨bytes, rfl, read⟩,
      read_eq_ok_iff.mpr ⟨bytes', rfl, read'⟩]
    dsimp only
    cases blocksRead : (blockFile.read blockRow space).2 with
    | error fault => rfl
    | ok blocks =>
      have agree : ∀ a, Within blocks a → instructions.get? a = instructions'.get? a :=
        fun a within => get?_eq_of_rowsWithin_eq read read' (same blocks blocksRead) within
      dsimp only
      rw [populate_congr agree]
      rfl

/-- An instruction right behind the only block leaves no trace. -/
theorem row_behind_block_leaves_no_trace :
    let bytes := Utf8.encode "1024\t2\tmov\n1026\t1\tnop\n"
    let bytes' := Utf8.encode "1027\t1\tret\n1024\t2\tmov\n1026\t1\tnop\n"
    let instructions : InstructionTable := .ofList [(1024, ⟨"mov", 2⟩), (1026, ⟨"nop", 1⟩)]
    let instructions' : InstructionTable :=
      .ofList [(1024, ⟨"mov", 2⟩), (1026, ⟨"nop", 1⟩), (1027, ⟨"ret", 1⟩)]
    let blocks : BlockTable := .ofList [(1024, 3)]
    let blockFile : FactFile := ⟨"b", some (Utf8.encode "1024\t3\t\n")⟩
    (∀ a, Within blocks a → instructions.get? a = instructions'.get? a) ∧
      populateTraced blocks instructions = populateTraced blocks instructions' ∧
      (readInstructions .identity bytes).result = .ok instructions ∧
      (readInstructions .identity bytes').result = .ok instructions' ∧
      rowsWithin blocks .identity bytes = rowsWithin blocks .identity bytes' ∧
      (reconcile ⟨"i", some bytes⟩ blockFile .identity .cfg).result =
        (reconcile ⟨"j", some bytes'⟩ blockFile .identity .cfg).result := by
  intro bytes bytes' instructions instructions' blocks blockFile
  have read : (readInstructions .identity bytes).result = .ok instructions := by decide +kernel
  have read' : (readInstructions .identity bytes').result = .ok instructions' := by decide +kernel
  have blocksRead : (blockFile.read blockRow .identity).2 = .ok blocks := by decide +kernel
  have outside : ¬ SpeaksWithin blocks .identity (Utf8.encode "1027\t1\tret") := by
    rintro ⟨a, i, ⟨s, n, found, _, below⟩, yields⟩
    have entry := (blocks.mem_entries_iff s n).mpr found
    have spoken := (added?_eq_some_iff (r := ⟨0, .start, Utf8.encode "1027\t1\tret"⟩)).mpr yields
    have judged : (judge instructionColumns.reader .identity
        ⟨0, .start, Utf8.encode "1027\t1\tret"⟩).added? = some (1027, ⟨"ret", 1⟩) := by
      decide +kernel
    obtain ⟨rfl, _⟩ := Prod.mk.inj (Option.some.inj (judged.symm.trans spoken))
    have only : blocks.entries = [(1024, 3)] := rfl
    obtain ⟨rfl, rfl⟩ := Prod.mk.inj (List.mem_singleton.mp (only ▸ entry))
    exact absurd below (by decide)
  have same : rowsWithin blocks .identity bytes = rowsWithin blocks .identity bytes' := by
    have split : rows bytes' = Utf8.encode "1027\t1\tret" :: rows bytes := by decide +kernel
    rw [rowsWithin, rowsWithin, split, List.filter_cons_of_neg (by simpa using outside)]
  have agree : ∀ a, Within blocks a → instructions.get? a = instructions'.get? a :=
    fun a within => get?_eq_of_rowsWithin_eq read read' same within
  obtain ⟨tables, files⟩ := population_is_local
  refine ⟨agree, (tables blocks instructions instructions' agree).1, read, read', same,
    files .identity "i" "j" bytes bytes' blockFile _ _ read read' fun blocks' read'' => ?_⟩
  obtain rfl := Except.ok.inj (blocksRead.symm.trans read'')
  exact same

end BasicBlocks

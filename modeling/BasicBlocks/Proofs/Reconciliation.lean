import BasicBlocks.Proofs.FactTables
import BasicBlocks.Proofs.Population

/-!
# Reconciled fact files

What a reconciliation returns is consistent with the bytes of the two files: the blocks start at the
rows of the one, and their members are rows of the other, each as far from the one before as that
one's size. The listing of members has no conflict, however blocks overlap, and lies within the
listing of all instructions. The scope decides nothing but the listing.
-/

namespace BasicBlocks

open Facts Population
open Utf8 (Bytes)

theorem Traced.map_eq {ε α β : Type} (f : α → β) (t : Traced ε α) :
    f <$> t = ⟨t.events, t.result.map f⟩ := by
  obtain ⟨events, failure | a⟩ := t
  · rfl
  · exact congrArg (Traced.mk · _) (List.append_nil events)

theorem Traced.pure_eq {ε α : Type} (a : α) : (pure a : Traced ε α) = ⟨[], .ok a⟩ := rfl

theorem Staged.pure_eq {m : Type → Type} [Monad m] {α : Type} (a : α) (stage : Stage) :
    (pure a : Staged m α) stage = pure (a, stage) := rfl

/-- How a reconciliation goes on, stage by stage, and where it stops. -/
theorem reconcileStages_eq (instructionFile blockFile : FactFile) (space : AddressSpace)
    (scope : Scope) (stage : Stage) :
    reconcileStages instructionFile blockFile space scope stage =
      match instructionFile.read instructionRow space with
      | (skipped, .error fault) => ⟨skipped, .error ⟨stage, fault⟩⟩
      | (skipped, .ok instructions) =>
        let parsed := skipped ++ [.stageChanged stage .instructionsParsed]
        match blockFile.read blockRow space with
        | (skipped', .error fault) => ⟨parsed ++ skipped', .error ⟨.instructionsParsed, fault⟩⟩
        | (skipped', .ok blocks) =>
          let parsed' := parsed ++ skipped' ++ [.stageChanged .instructionsParsed .blocksParsed]
          match populateTraced blocks instructions with
          | (overruns, .error fault) => ⟨parsed' ++ overruns, .error ⟨.blocksParsed, fault⟩⟩
          | (overruns, .ok populated) =>
            ⟨parsed' ++ overruns ++ [.stageChanged .blocksParsed .blocksPopulated,
                .tablesReconciled instructions.size populated.size],
              .ok (⟨listing scope populated instructions, populated⟩, .blocksPopulated)⟩ := by
  simp only [reconcileStages, bind, StateT.bind, Traced.atStage, Traced.advance]
  rcases instructionFile.read instructionRow space with ⟨skipped, fault | instructions⟩
  · rfl
  · dsimp only [Except.mapError, Except.map]
    rcases blockFile.read blockRow space with ⟨skipped', fault | blocks⟩
    · simp
    · dsimp only [Except.mapError, Except.map]
      rcases populateTraced blocks instructions with ⟨overruns, fault | populated⟩
      · simp
      · simp [liftM, monadLift, MonadLift.monadLift, StateT.lift, bind, Staged.pure_eq,
          Traced.pure_eq, Traced.report]

/-- Files that are there are reconciled from the stage at which they are located. -/
theorem reconcile_eq (instructionFile blockFile : FactFile) (space : AddressSpace)
    (scope : Scope) :
    reconcile instructionFile blockFile space scope =
      ⟨(reconcileStages instructionFile blockFile space scope .factsLocated).events,
        (reconcileStages instructionFile blockFile space scope .factsLocated).result.map (·.1)⟩ :=
  Traced.map_eq _ _

/-- Whatever reconciles goes on until the blocks are populated. -/
theorem reconcileStages_factsLocated (instructionFile blockFile : FactFile) (space : AddressSpace)
    (scope : Scope) :
    reconcileStages instructionFile blockFile space scope .factsLocated =
      ⟨(reconcile instructionFile blockFile space scope).events,
        (reconcile instructionFile blockFile space scope).result.map (·, .blocksPopulated)⟩ := by
  rw [reconcile_eq, reconcileStages_eq]
  rcases instructionFile.read instructionRow space with ⟨skipped, fault | instructions⟩
  · rfl
  · rcases blockFile.read blockRow space with ⟨skipped', fault | blocks⟩
    · rfl
    · dsimp only
      rcases populateTraced blocks instructions with ⟨overruns, fault | populated⟩
      · rfl
      · rfl

/-- The result, stage by stage. -/
theorem reconcile_result (instructionFile blockFile : FactFile) (space : AddressSpace)
    (scope : Scope) :
    (reconcile instructionFile blockFile space scope).result =
      match (instructionFile.read instructionRow space).2 with
      | .error fault => .error ⟨.factsLocated, fault⟩
      | .ok instructions =>
        match (blockFile.read blockRow space).2 with
        | .error fault => .error ⟨.instructionsParsed, fault⟩
        | .ok blocks =>
          match (populate blocks instructions).2 with
          | .error gap => .error ⟨.blocksParsed, gap.fault⟩
          | .ok populated => .ok ⟨listing scope populated instructions, populated⟩ := by
  rw [reconcile_eq, reconcileStages_eq]
  rcases instructionFile.read instructionRow space with ⟨skipped, fault | instructions⟩
  · rfl
  · rcases blockFile.read blockRow space with ⟨skipped', fault | blocks⟩
    · rfl
    · dsimp only [populateTraced]
      rcases populate blocks instructions with ⟨overruns, gap | populated⟩
      · rfl
      · rfl

theorem read_eq_ok_iff {α : Type} {reader : RowReader α} {space : AddressSpace} {file : FactFile}
    {t : Table α} :
    (file.read reader space).2 = .ok t ↔
      ∃ bytes, file.contents = some bytes ∧ (Facts.read reader space bytes).result = .ok t := by
  rw [FactFile.read]
  cases file.contents with
  | none => simp
  | some bytes =>
    dsimp only
    cases result : (Facts.read reader space bytes).result <;> simp [Except.mapError, result]

theorem reconcile_eq_ok_iff {instructionFile blockFile : FactFile} {space : AddressSpace}
    {scope : Scope} {r : Reconciled} :
    (reconcile instructionFile blockFile space scope).result = .ok r ↔
      ∃ instructions blocks, (instructionFile.read instructionRow space).2 = .ok instructions ∧
        (blockFile.read blockRow space).2 = .ok blocks ∧
        (populate blocks instructions).2 = .ok r.blocks ∧
        r.instructions = listing scope r.blocks instructions := by
  rw [reconcile_result]
  constructor
  · intro h
    cases hi : (instructionFile.read instructionRow space).2 with
    | error fault => simp [hi] at h
    | ok instructions =>
      cases hb : (blockFile.read blockRow space).2 with
      | error fault => simp [hi, hb] at h
      | ok blocks =>
        cases hp : (populate blocks instructions).2 with
        | error gap => simp [hi, hb, hp] at h
        | ok populated =>
          simp only [hi, hb, hp, Except.ok.injEq] at h
          subst h
          exact ⟨instructions, blocks, rfl, rfl, hp, rfl⟩
  · rintro ⟨instructions, blocks, hi, hb, hp, listed⟩
    simp only [hi, hb, hp, ← listed]

section

variable {instructionPath blockPath : String} {instructionBytes blockBytes : Bytes}
  {space : AddressSpace} {instructions : InstructionTable} {blocks : BlockTable} {scope : Scope}
  (hi : (readInstructions space instructionBytes).result = .ok instructions)
  (hb : (readBlocks space blockBytes).result = .ok blocks)

include hi hb

/-- Where both files can be read, the tables decide. -/
theorem reconcile_result_of_read :
    (reconcile ⟨instructionPath, some instructionBytes⟩ ⟨blockPath, some blockBytes⟩
        space scope).result =
      match (populate blocks instructions).2 with
      | .error gap => .error ⟨.blocksParsed, gap.fault⟩
      | .ok populated => .ok ⟨listing scope populated instructions, populated⟩ := by
  have instructionsRead : (FactFile.read instructionRow space
      ⟨instructionPath, some instructionBytes⟩).2 = .ok instructions :=
    read_eq_ok_iff.mpr ⟨instructionBytes, rfl, hi⟩
  have blocksRead : (FactFile.read blockRow space ⟨blockPath, some blockBytes⟩).2 = .ok blocks :=
    read_eq_ok_iff.mpr ⟨blockBytes, rfl, hb⟩
  rw [reconcile_result, instructionsRead]
  dsimp only
  rw [blocksRead]

theorem reconcile_ok_iff_of_read {r : Reconciled} :
    (reconcile ⟨instructionPath, some instructionBytes⟩ ⟨blockPath, some blockBytes⟩
        space scope).result = .ok r ↔
      (populate blocks instructions).2 = .ok r.blocks ∧
        r.instructions = listing scope r.blocks instructions := by
  rw [reconcile_result_of_read hi hb]
  cases (populate blocks instructions).2 with
  | error gap => simp
  | ok populated =>
    simp only [Except.ok.injEq]
    constructor
    · rintro rfl
      exact ⟨rfl, rfl⟩
    · rintro ⟨rfl, listed⟩
      rw [← listed]

/-- Where both files can be read, only a gap can be in the way. -/
theorem gap_of_reconcile_error {failure : Failure}
    (h : (reconcile ⟨instructionPath, some instructionBytes⟩ ⟨blockPath, some blockBytes⟩
        space scope).result = .error failure) :
    ∃ block address, failure = ⟨.blocksParsed, .gap block address⟩ := by
  rw [reconcile_result_of_read hi hb] at h
  cases hp : (populate blocks instructions).2 with
  | error gap =>
    rw [hp] at h
    cases h
    exact ⟨gap.block, gap.address, rfl⟩
  | ok populated =>
    rw [hp] at h
    cases h

end

theorem get?_listing_exhaustive (blocks : Table Block) (instructions : InstructionTable)
    (a : Word) (text : String) :
    (listing .exhaustive blocks instructions).get? a = some text ↔
      ∃ i, instructions.get? a = some i ∧ i.text = text := by
  rw [listing, Table.get?_map, Option.map_eq_some_iff]

/-- Members that agree with one table agree with each other, so none is lost in the listing. -/
theorem get?_listing_cfg {blocks : Table Block} {instructions : InstructionTable}
    (fromTable : ∀ key b, blocks.get? key = some b → ∀ m ∈ b.members, FromTable instructions m)
    (a : Word) (text : String) :
    (listing .cfg blocks instructions).get? a = some text ↔
      ∃ key b, blocks.get? key = some b ∧ ⟨a, text⟩ ∈ b.members := by
  have entry : ∀ a text, (a, text) ∈
      ((blocks.values.flatMap (·.members)).map fun m => (m.address, m.text)) ↔
        ∃ key b, blocks.get? key = some b ∧ ⟨a, text⟩ ∈ b.members := by
    intro a text
    simp only [← Table.mem_entries_iff, Table.values, List.mem_map, List.mem_flatMap]
    constructor
    · rintro ⟨⟨a', text'⟩, ⟨b, ⟨⟨key, b'⟩, hb, rfl⟩, hm⟩, heq⟩
      cases heq
      exact ⟨key, b', hb, hm⟩
    · rintro ⟨key, b, hb, hm⟩
      exact ⟨⟨a, text⟩, ⟨b, ⟨(key, b), hb, rfl⟩, hm⟩, rfl⟩
  rw [listing, Table.get?_ofList_of_agree, entry]
  intro a text text' h h'
  obtain ⟨key, b, hb, hm⟩ := (entry a text).mp h
  obtain ⟨key', b', hb', hm'⟩ := (entry a text').mp h'
  obtain ⟨i, hi, rfl⟩ := fromTable key b hb _ hm
  obtain ⟨j, hj, rfl⟩ := fromTable key' b' hb' _ hm'
  exact congrArg Instruction.text (Option.some.inj (hi.symm.trans hj))

theorem fromTable_of_populate {blocks : BlockTable} {instructions : InstructionTable}
    {t : Table Block} (h : (populate blocks instructions).2 = .ok t) (key : Word) (b : Block)
    (hb : t.get? key = some b) : ∀ m ∈ b.members, FromTable instructions m := by
  obtain ⟨n, _, populated⟩ := (get?_of_populate h key b).mp hb
  exact (holdsChain_of_populateBlock populated).texts

/-- The members of a block are rows of the instruction file, walked from the block's start. -/
structure WalksRows (space : AddressSpace) (bytes : Bytes) (b : Block) : Prop where
  texts : ∀ m ∈ b.members, ∃ i,
    LastYields instructionColumns space (rows bytes) m.address i ∧ m.text = i.text
  first : ∀ m ∈ b.members.head?, m.address = b.start
  consecutive : b.members.IsChain fun m m' => ∃ i,
    LastYields instructionColumns space (rows bytes) m.address i ∧
      m'.address.toNat = m.address.toNat + i.size.toNat

/-- What is listed under either scope: the members of all blocks, or all instructions. -/
def ListsScope (space : AddressSpace) (bytes : Bytes) (r : Reconciled) : Scope → Prop
  | .cfg => ∀ a text, r.instructions.get? a = some text ↔
      ∃ key b, r.blocks.get? key = some b ∧ ⟨a, text⟩ ∈ b.members
  | .exhaustive => ∀ a text, r.instructions.get? a = some text ↔
      ∃ i, LastYields instructionColumns space (rows bytes) a i ∧ i.text = text

theorem size_ne_zero_of_lastYields {space : AddressSpace} {rows : List Bytes} {a : Word}
    {i : Instruction} (h : LastYields instructionColumns space rows a i) : i.size ≠ 0 := by
  obtain ⟨_, _, _, _, ⟨text, address, size, _, passes, _, rfl⟩, _⟩ := h
  intro zero
  have admitted := passes.sizeAdmitted zero
  cases admitted

theorem walksRows_of_populateBlock {space : AddressSpace} {bytes : Bytes}
    {instructions : InstructionTable}
    (read : ∀ a i, instructions.get? a = some i ↔
      LastYields instructionColumns space (rows bytes) a i)
    {s n : Word} {b : Block} (h : populateBlock instructions s n = .ok b) :
    WalksRows space bytes b := by
  obtain ⟨_, rfl⟩ := populateBlock_eq_ok_iff.mp h
  refine ⟨?_, ?_, ?_⟩
  · intro m hm
    obtain ⟨_, _, i, found, text⟩ := (mem_visited_iff _ _ _ _).mp hm
    exact ⟨i, (read m.address i).mp found, text⟩
  · intro m hm
    exact (address_of_head_visited hm).1
  · refine (visited_isChain instructions (stop s n) s).imp ?_
    rintro m m' ⟨i, found, reached⟩
    have last := (read m.address i).mp found
    have positive : i.size.toNat ≠ 0 := by
      intro zero
      exact size_ne_zero_of_lastYields last (UInt64.toNat_inj.mp zero)
    exact ⟨i, last, by omega⟩

/-- What is returned agrees with the rows of the files it comes from. The listing of members lies
within that of all instructions, and the scope changes neither the blocks nor the failure. -/
theorem reconciled_agrees_with_rows (instructionFile blockFile : FactFile)
    (space : AddressSpace) :
    (∀ scope r, (reconcile instructionFile blockFile space scope).result = .ok r →
      ∃ instructionBytes blockBytes,
        instructionFile.contents = some instructionBytes ∧
        blockFile.contents = some blockBytes ∧
        (∀ key, key ∈ r.blocks.keys ↔
          ∃ row ∈ rows blockBytes, ∃ size, Yields blockColumns space row key size) ∧
        (∀ key b, r.blocks.get? key = some b →
          b.start = key ∧ WalksRows space instructionBytes b) ∧
        ListsScope space instructionBytes r scope) ∧
    (∀ r r', (reconcile instructionFile blockFile space .cfg).result = .ok r →
      (reconcile instructionFile blockFile space .exhaustive).result = .ok r' →
      ∀ a text, r.instructions.get? a = some text → r'.instructions.get? a = some text) ∧
    (∀ scope scope',
      (reconcile instructionFile blockFile space scope).result.map (·.blocks) =
        (reconcile instructionFile blockFile space scope').result.map (·.blocks)) := by
  refine ⟨?_, ?_, ?_⟩
  · intro scope r h
    obtain ⟨instructions, blocks, hi, hb, hp, listed⟩ := reconcile_eq_ok_iff.mp h
    obtain ⟨instructionBytes, hic, hir⟩ := read_eq_ok_iff.mp hi
    obtain ⟨blockBytes, hbc, hbr⟩ := read_eq_ok_iff.mp hb
    have read := (reads_instructions space instructionBytes).get?_iff instructions hir
    refine ⟨instructionBytes, blockBytes, hic, hbc, ?_, ?_, ?_⟩
    · rw [keys_of_populate hp]
      exact (reads_blocks space blockBytes).keys_iff blocks hbr
    · intro key b hkey
      obtain ⟨n, _, populated⟩ := (get?_of_populate hp key b).mp hkey
      exact ⟨start_of_populateBlock populated, walksRows_of_populateBlock read populated⟩
    · cases scope with
      | cfg =>
        intro a text
        rw [listed]
        exact get?_listing_cfg (fromTable_of_populate hp) a text
      | exhaustive =>
        intro a text
        rw [listed, get?_listing_exhaustive]
        simp only [read]
  · intro r r' h h' a text member
    obtain ⟨instructions, blocks, hi, hb, hp, listed⟩ := reconcile_eq_ok_iff.mp h
    obtain ⟨instructions', blocks', hi', hb', hp', listed'⟩ := reconcile_eq_ok_iff.mp h'
    obtain rfl : instructions = instructions' := Except.ok.inj (hi.symm.trans hi')
    rw [listed, get?_listing_cfg (fromTable_of_populate hp)] at member
    rw [listed', get?_listing_exhaustive]
    obtain ⟨key, b, hkey, hm⟩ := member
    obtain ⟨i, found, agrees⟩ := fromTable_of_populate hp key b hkey _ hm
    exact ⟨i, found, agrees.symm⟩
  · intro scope scope'
    simp only [reconcile_result]
    cases (instructionFile.read instructionRow space).2 with
    | error fault => rfl
    | ok instructions =>
      cases (blockFile.read blockRow space).2 with
      | error fault => rfl
      | ok blocks =>
        dsimp only
        cases (populate blocks instructions).2 with
        | error gap => rfl
        | ok populated => rfl

end BasicBlocks

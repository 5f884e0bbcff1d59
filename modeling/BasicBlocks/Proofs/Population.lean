import Mathlib.Data.List.Forall2
import BasicBlocks.Reconciliation
import BasicBlocks.Proofs.Tables
import BasicBlocks.Proofs.Walk

/-!
# Populated tables

A table of blocks is populated exactly when no block's chain breaks off. The populated blocks then
hold their chains, and otherwise the fault names the first block in ascending order whose chain
breaks off, and where it does.
-/

namespace BasicBlocks.Population

theorem populateBlock_eq_ok_iff {instructions : InstructionTable} {s n : Word} {b : Block} :
    populateBlock instructions s n = .ok b ↔
      (∀ a, ¬ BreaksAt instructions (extent s n) s a) ∧
        b = ⟨s, (walk instructions (stop s n) s).visited⟩ := by
  simp only [← toNat_stop, ← ending_eq_missing_iff]
  rw [populateBlock]
  cases (walk instructions (stop s n) s).ending with
  | missing address => simp
  | arrived cursor => simp [eq_comm]

theorem populateBlock_eq_error_iff {instructions : InstructionTable} {s n : Word} {g : Gap} :
    populateBlock instructions s n = .error g ↔
      g.block = s ∧ BreaksAt instructions (extent s n) s g.address := by
  simp only [← toNat_stop, ← ending_eq_missing_iff]
  rw [populateBlock]
  obtain ⟨block, address⟩ := g
  cases (walk instructions (stop s n) s).ending with
  | missing found => simp [eq_comm]
  | arrived cursor => simp

theorem start_of_populateBlock {instructions : InstructionTable} {s n : Word} {b : Block}
    (h : populateBlock instructions s n = .ok b) : b.start = s := by
  rw [(populateBlock_eq_ok_iff.mp h).2]

theorem populateList_eq_ok_iff {instructions : InstructionTable} {es : List (Word × Word)}
    {bs : List Block} :
    (populateList instructions es).result = .ok bs ↔
      List.Forall₂ (fun e b => populateBlock instructions e.1 e.2 = .ok b) es bs := by
  induction es generalizing bs with
  | nil => simp [populateList, eq_comm]
  | cons e rest ih =>
    obtain ⟨s, n⟩ := e
    rw [populateList]
    cases h : populateBlock instructions s n with
    | error g =>
      constructor
      · intro impossible; cases impossible
      · intro all
        cases all with
        | cons first _ => rw [h] at first; cases first
    | ok b =>
      constructor
      · intro hok
        cases hlater : (populateList instructions rest).result with
        | error g => simp [hlater, Except.map] at hok
        | ok later =>
          simp only [hlater, Except.map, Except.ok.injEq] at hok
          exact hok ▸ .cons h (ih.mp hlater)
      · intro all
        cases all with
        | cons first later =>
          have same : _ = b := Except.ok.inj (first.symm.trans h)
          simp [ih.mpr later, same, Except.map]

theorem populateList_eq_error_iff {instructions : InstructionTable} {es : List (Word × Word)}
    {g : Gap} :
    (populateList instructions es).result = .error g ↔
      ∃ before e after, es = before ++ e :: after ∧
        (∀ f ∈ before, ∃ b, populateBlock instructions f.1 f.2 = .ok b) ∧
        populateBlock instructions e.1 e.2 = .error g := by
  induction es with
  | nil => simp [populateList]
  | cons e rest ih =>
    obtain ⟨s, n⟩ := e
    rw [exists_split_cons_iff, ← ih, populateList]
    cases h : populateBlock instructions s n with
    | error first => simp
    | ok b => cases result : (populateList instructions rest).result <;> simp [Except.map, result]

theorem keys_eq_of_forall₂ {α β : Type} {R : Word × α → Word × β → Prop}
    {es : List (Word × α)} {fs : List (Word × β)}
    (h : List.Forall₂ (fun e f => f.1 = e.1 ∧ R e f) es fs) : es.map (·.1) = fs.map (·.1) := by
  rw [← List.forall₂_eq_eq_eq]
  exact List.forall₂_map_left_iff.mpr
    (List.forall₂_map_right_iff.mpr (h.imp fun _ _ related => related.1.symm))

/-- Population goes entry by entry and keeps the keys. -/
theorem populate_eq_ok_iff {blocks : BlockTable} {instructions : InstructionTable}
    {t : Table Block} :
    (populate blocks instructions).2 = .ok t ↔
      List.Forall₂ (fun e f => f.1 = e.1 ∧ populateBlock instructions e.1 e.2 = .ok f.2)
        blocks.entries t.entries := by
  have split : (populate blocks instructions).2 = .ok t ↔
      ∃ bs, List.Forall₂ (fun e b => populateBlock instructions e.1 e.2 = .ok b)
        blocks.entries bs ∧ Table.ofList (bs.map fun b => (b.start, b)) = t := by
    simp only [← populateList_eq_ok_iff]
    rw [populate]
    dsimp only
    cases (populateList instructions blocks.entries).result <;> simp [Except.map]
  rw [split]
  constructor
  · rintro ⟨bs, all, rfl⟩
    have keyed : List.Forall₂
        (fun e f => f.1 = e.1 ∧ populateBlock instructions e.1 e.2 = .ok f.2)
        blocks.entries (bs.map fun b => (b.start, b)) :=
      List.forall₂_map_right_iff.mpr
        (all.imp fun e b h => ⟨start_of_populateBlock h, h⟩)
    -- Blocks start at the keys they are populated from, so their list ascends as it is.
    have ascending : Ascending (bs.map fun b => (b.start, b)) := by
      have keys : (blocks.entries.map (·.1)).Pairwise (· < ·) := List.pairwise_map.mpr blocks.ascending
      rw [keys_eq_of_forall₂ keyed] at keys
      exact List.pairwise_map.mp keys
    rw [Table.entries_ofList ascending]
    exact keyed
  · intro all
    refine ⟨t.values, List.forall₂_map_right_iff.mpr (all.imp fun _ _ h => h.2), ?_⟩
    have rekeyed : (t.values.map fun b => (b.start, b)) = t.entries := by
      rw [Table.values, List.map_map]
      refine List.map_congr_left ?_ |>.trans (List.map_id t.entries)
      intro f hf
      obtain ⟨e, _, key, populated⟩ := exists_left_of_forall₂ all hf
      exact Prod.ext ((start_of_populateBlock populated).trans key.symm) rfl
    apply Table.ext_entries
    rw [rekeyed]
    exact Table.entries_ofList t.ascending

theorem keys_of_populate {blocks : BlockTable} {instructions : InstructionTable} {t : Table Block}
    (h : (populate blocks instructions).2 = .ok t) : t.keys = blocks.keys :=
  (keys_eq_of_forall₂ (populate_eq_ok_iff.mp h)).symm

theorem get?_of_populate {blocks : BlockTable} {instructions : InstructionTable} {t : Table Block}
    (h : (populate blocks instructions).2 = .ok t) (s : Word) (b : Block) :
    t.get? s = some b ↔
      ∃ n, blocks.get? s = some n ∧ populateBlock instructions s n = .ok b := by
  have all := populate_eq_ok_iff.mp h
  simp only [← Table.mem_entries_iff]
  constructor
  · intro hb
    obtain ⟨⟨key, n⟩, he, rfl, populated⟩ := exists_left_of_forall₂ all hb
    exact ⟨n, he, populated⟩
  · rintro ⟨n, hn, populated⟩
    obtain ⟨⟨key, c⟩, hc, rfl, populated'⟩ := exists_right_of_forall₂ all hn
    have same : b = c := Except.ok.inj (populated.symm.trans populated')
    exact same ▸ hc

theorem exists_populated {blocks : BlockTable} {instructions : InstructionTable} {t : Table Block}
    (h : (populate blocks instructions).2 = .ok t) {s n : Word} (hn : blocks.get? s = some n) :
    ∃ b, t.get? s = some b ∧ populateBlock instructions s n = .ok b := by
  have hmem := (blocks.mem_entries_iff s n).mpr hn
  obtain ⟨⟨key, b⟩, hb, rfl, populated⟩ :=
    exists_right_of_forall₂ (populate_eq_ok_iff.mp h) hmem
  exact ⟨b, (t.mem_entries_iff key b).mp hb, populated⟩

/-- The fault is that of the first block in ascending order that cannot be populated. -/
theorem populate_eq_error_iff {blocks : BlockTable} {instructions : InstructionTable} {g : Gap} :
    (populate blocks instructions).2 = .error g ↔
      ∃ s n, blocks.get? s = some n ∧ populateBlock instructions s n = .error g ∧
        ∀ s' n', blocks.get? s' = some n' → s' < s →
          ∃ b, populateBlock instructions s' n' = .ok b := by
  have split : (populate blocks instructions).2 = .error g ↔
      (populateList instructions blocks.entries).result = .error g := by
    rw [populate]
    dsimp only
    cases (populateList instructions blocks.entries).result <;> simp [Except.map]
  rw [split, populateList_eq_error_iff]
  have ascending := blocks.ascending
  simp only [← Table.mem_entries_iff]
  constructor
  · rintro ⟨before, ⟨s, n⟩, after, heq, good, bad⟩
    rw [heq] at ascending ⊢
    refine ⟨s, n, by simp, bad, ?_⟩
    intro s' n' hmem lower
    rcases List.mem_append.mp hmem with hmem | hmem
    · exact good (s', n') hmem
    · have later : ∀ e ∈ (s, n) :: after, s ≤ e.1 := by
        intro e he
        rcases List.mem_cons.mp he with rfl | he
        · exact UInt64.le_refl _
        · exact UInt64.le_of_lt
            (List.rel_of_pairwise_cons (List.pairwise_append.mp ascending).2.1 he)
      exact absurd lower (UInt64.not_lt.mpr (later (s', n') hmem))
  · rintro ⟨s, n, hmem, bad, good⟩
    obtain ⟨before, after, heq⟩ := List.append_of_mem hmem
    rw [heq] at ascending good
    refine ⟨before, (s, n), after, heq, ?_, bad⟩
    rintro ⟨s', n'⟩ hf
    have lower : s' < s := (List.pairwise_append.mp ascending).2.2 (s', n') hf (s, n)
      List.mem_cons_self
    exact good s' n' (List.mem_append_left _ hf) lower

/-- A block that holds the chain of its extent, with the table's texts. -/
structure HoldsChain (instructions : InstructionTable) (s n : Word) (b : Block) : Prop where
  start : b.start = s
  ascending : b.members.Pairwise (·.address < ·.address)
  addresses : ∀ a, (∃ m ∈ b.members, m.address = a) ↔
    OnChain instructions (extent s n) s a ∧ a.toNat < extent s n
  texts : ∀ m ∈ b.members, FromTable instructions m

theorem holdsChain_of_populateBlock {instructions : InstructionTable} {s n : Word} {b : Block}
    (h : populateBlock instructions s n = .ok b) : HoldsChain instructions s n b := by
  obtain ⟨unbroken, rfl⟩ := populateBlock_eq_ok_iff.mp h
  have member := mem_visited_iff instructions (stop s n) s
  simp only [toNat_stop, UInt64.lt_iff_toNat_lt] at member
  refine ⟨rfl, visited_ascending instructions (stop s n) s, ?_, ?_⟩
  · intro a
    constructor
    · rintro ⟨m, hm, rfl⟩
      have := (member m).mp hm
      exact ⟨this.1, this.2.1⟩
    · rintro ⟨chain, below⟩
      cases found : instructions.get? a with
      | none => exact absurd ⟨chain, below, found⟩ (unbroken a)
      | some i => exact ⟨⟨a, i.text⟩, (member _).mpr ⟨chain, below, i, found, rfl⟩, rfl⟩
  · intro m hm
    exact ((member m).mp hm).2.2

theorem populateBlock_ok_iff_unbroken {instructions : InstructionTable} {s n : Word} :
    (∃ b, populateBlock instructions s n = .ok b) ↔
      ∀ a, ¬ BreaksAt instructions (extent s n) s a := by
  simp only [populateBlock_eq_ok_iff, exists_and_left, exists_eq, and_true]

theorem populate_ok_iff_blocks {blocks : BlockTable} {instructions : InstructionTable} :
    (∃ t, (populate blocks instructions).2 = .ok t) ↔
      ∀ s n, blocks.get? s = some n → ∃ b, populateBlock instructions s n = .ok b := by
  constructor
  · rintro ⟨t, h⟩ s n hn
    obtain ⟨b, _, populated⟩ := exists_populated h hn
    exact ⟨b, populated⟩
  · intro all
    cases h : (populate blocks instructions).2 with
    | ok t => exact ⟨t, rfl⟩
    | error g =>
      obtain ⟨s, n, hn, bad, _⟩ := populate_eq_error_iff.mp h
      obtain ⟨b, good⟩ := all s n hn
      rw [bad] at good
      cases good

theorem populate_ok_iff_unbroken (blocks : BlockTable) (instructions : InstructionTable) :
    (∃ t, (populate blocks instructions).2 = .ok t) ↔
      ∀ s n, blocks.get? s = some n → ∀ a, ¬ BreaksAt instructions (extent s n) s a := by
  simp only [populate_ok_iff_blocks, populateBlock_ok_iff_unbroken]

theorem populateTraced_eq_ok_iff {blocks : BlockTable} {instructions : InstructionTable}
    {t : Table Block} :
    (populateTraced blocks instructions).2 = .ok t ↔ (populate blocks instructions).2 = .ok t := by
  rw [populateTraced]
  dsimp only
  cases (populate blocks instructions).2 <;> simp [Except.mapError]

theorem populateTraced_eq_error_iff {blocks : BlockTable} {instructions : InstructionTable}
    {fault : Fault} :
    (populateTraced blocks instructions).2 = .error fault ↔
      ∃ g, (populate blocks instructions).2 = .error g ∧ fault = g.fault := by
  rw [populateTraced]
  dsimp only
  cases (populate blocks instructions).2 <;> simp [Except.mapError, eq_comm]

/-- The result as a whole. Population succeeds exactly if no chain of a block breaks off; the
blocks then have the keys of the table and hold their chains. The fault is always a gap: that of
the least start whose chain breaks off, at the address where it does. -/
theorem populate_chains_or_first_gap (blocks : BlockTable) (instructions : InstructionTable) :
    ((∃ t, (populateTraced blocks instructions).2 = .ok t) ↔
      ∀ s n, blocks.get? s = some n → ∀ a, ¬ BreaksAt instructions (extent s n) s a) ∧
    (∀ t, (populateTraced blocks instructions).2 = .ok t →
      t.keys = blocks.keys ∧
      ∀ s n, blocks.get? s = some n → ∃ b, t.get? s = some b ∧ HoldsChain instructions s n b) ∧
    (∀ fault, (populateTraced blocks instructions).2 = .error fault ↔
      ∃ s n a, fault = .gap s a ∧ blocks.get? s = some n ∧
        BreaksAt instructions (extent s n) s a ∧
        ∀ s' n', blocks.get? s' = some n' → s' < s →
          ∀ a', ¬ BreaksAt instructions (extent s' n') s' a') := by
  refine ⟨?_, ?_, ?_⟩
  · simp only [populateTraced_eq_ok_iff]
    exact populate_ok_iff_unbroken blocks instructions
  · intro t ht
    have h := populateTraced_eq_ok_iff.mp ht
    refine ⟨keys_of_populate h, ?_⟩
    intro s n hn
    obtain ⟨b, hb, populated⟩ := exists_populated h hn
    exact ⟨b, hb, holdsChain_of_populateBlock populated⟩
  · intro fault
    rw [populateTraced_eq_error_iff]
    simp only [populate_eq_error_iff, populateBlock_eq_error_iff, populateBlock_ok_iff_unbroken]
    constructor
    · rintro ⟨g, ⟨s, n, hn, ⟨rfl, broken⟩, earlier⟩, rfl⟩
      exact ⟨g.block, n, g.address, rfl, hn, broken, earlier⟩
    · rintro ⟨s, n, a, rfl, hn, broken, earlier⟩
      exact ⟨⟨s, a⟩, ⟨s, n, hn, ⟨rfl, broken⟩, earlier⟩, rfl⟩

end BasicBlocks.Population

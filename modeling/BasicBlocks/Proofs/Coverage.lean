import Mathlib.Algebra.GroupWithZero.Nat
import Mathlib.Data.List.TakeWhile
import Mathlib.Order.CompletePartialOrder
import Mathlib.Order.Interval.Set.Disjoint
import BasicBlocks.Proofs.Population

/-!
# What the members of a block cover

A member covers the addresses from its own on, as many as its instruction's size and one at least.
The members of a populated block cover a range without gaps or overlaps, from the block's start to
the end of the block or past it, and an overrun says how far past it. Addresses are counted exactly
here. Only the last address of all is special: a walk that comes to it has arrived, so a block that
contains it can be populated without it.
-/

namespace BasicBlocks

/-- What is taken off the front of an ascending list has nothing before it that is not. -/
theorem Ascending.mem_takeWhile_iff {α : Type} {entries : List (Word × α)}
    (h : Ascending entries) {p : Word × α → Bool} {entry : Word × α} :
    entry ∈ entries.takeWhile p ↔
      entry ∈ entries ∧ ∀ f ∈ entries, f.1 ≤ entry.1 → p f = true := by
  induction entries with
  | nil => simp
  | cons first rest ih =>
    have later : ∀ f ∈ rest, first.1 < f.1 := fun f hf => List.rel_of_pairwise_cons h hf
    rw [List.takeWhile_cons, List.forall_mem_cons, List.mem_cons]
    split
    next taken =>
      rw [List.mem_cons, ih (List.Pairwise.of_cons h)]
      constructor
      · rintro (rfl | ⟨member, earlier⟩)
        · exact ⟨Or.inl rfl, fun _ => taken, fun f hf notHigher =>
            absurd (later f hf) (UInt64.not_lt.mpr notHigher)⟩
        · exact ⟨Or.inr member, fun _ => taken, earlier⟩
      · rintro ⟨rfl | member, _, earlier⟩
        · exact Or.inl rfl
        · exact Or.inr ⟨member, earlier⟩
    next notTaken =>
      refine iff_of_false List.not_mem_nil ?_
      rintro ⟨rfl | member, atFirst, _⟩
      · exact notTaken (atFirst (UInt64.le_refl _))
      · exact notTaken (atFirst (UInt64.le_of_lt (later entry member)))

namespace Population

/-- How many addresses a member covers. -/
def width (instructions : InstructionTable) (m : Member) : Nat :=
  ((instructions.get? m.address).map fun i => max 1 i.size.toNat).getD 1

/-- The addresses that a member covers. -/
def span (instructions : InstructionTable) (m : Member) : Set Nat :=
  Set.Ico m.address.toNat (m.address.toNat + width instructions m)

/-- How many addresses members cover together, if none of them is covered twice. -/
def total (instructions : InstructionTable) (members : List Member) : Nat :=
  (members.map (width instructions)).sum

variable {instructions : InstructionTable} {e s n a c : Word} {b : Block}

theorem width_of_get? {m : Member} {i : Instruction} (h : instructions.get? m.address = some i) :
    width instructions m = max 1 i.size.toNat := by
  rw [width, h]
  rfl

theorem total_cons (m : Member) (rest : List Member) :
    total instructions (m :: rest) = width instructions m + total instructions rest := by
  simp [total]

/-! ## Walks -/

/-- The sum of the widths takes a walk to its end, or to the last address. -/
theorem toNat_of_arrived (h : (walk instructions e a).ending = .arrived c) :
    ¬ c < e ∧
      c.toNat = min (a.toNat + total instructions (walk instructions e a).visited) (2 ^ 64 - 1) := by
  induction a using walk_induction instructions e with
  | past a notBelow =>
    rw [walk_past notBelow] at h ⊢
    obtain rfl := WalkEnd.arrived.inj h
    have bound := a.toNat_lt
    exact ⟨notBelow, by simp [total]; omega⟩
  | missing a below absent =>
    rw [walk_missing below absent] at h
    cases h
  | step a i below found ih =>
    rw [walk_step below found] at h ⊢
    obtain ⟨ended, reached⟩ := ih h
    refine ⟨ended, ?_⟩
    have wide : width instructions ⟨a, i.text⟩ = max 1 i.size.toNat := width_of_get? found
    rw [reached, toNat_next, total_cons, wide]
    omega

/-- A step is not clipped if another member comes after it. -/
theorem toNat_next_of_visited {size : Word} {m : Member}
    (h : m ∈ (walk instructions e (next a size)).visited) :
    (next a size).toNat = a.toNat + max 1 size.toNat := by
  have below : next a size < e :=
    UInt64.lt_of_le_of_lt (le_of_mem_visited h) ((mem_visited_iff instructions e _ m).mp h).2.1
  have reached := toNat_next a size
  have bound := e.toNat_lt
  rw [UInt64.lt_iff_toNat_lt] at below
  omega

/-- The members of a walk from an address cover a range that begins there. -/
theorem exists_span_iff (x : Nat) :
    (∃ m ∈ (walk instructions e a).visited, x ∈ span instructions m) ↔
      a.toNat ≤ x ∧ x < a.toNat + total instructions (walk instructions e a).visited := by
  induction a using walk_induction instructions e with
  | past a notBelow => simp [walk_past notBelow, total]
  | missing a below absent => simp [walk_missing below absent, total]
  | step a i below found ih =>
    have wide : width instructions ⟨a, i.text⟩ = max 1 i.size.toNat := width_of_get? found
    rw [walk_step below found, total_cons, List.exists_mem_cons_iff, ih, span, Set.mem_Ico, wide]
    dsimp only
    generalize visited : (walk instructions e (next a i.size)).visited = rest
    cases rest with
    | nil => simp [total]
    | cons m rest =>
      have exact' := toNat_next_of_visited (m := m) (by rw [visited]; exact List.mem_cons_self)
      omega

/-- What is covered by one member is not covered by a later one. -/
theorem visited_disjoint (instructions : InstructionTable) (e a : Word) :
    (walk instructions e a).visited.Pairwise fun m m' =>
      Disjoint (span instructions m) (span instructions m') := by
  induction a using walk_induction instructions e with
  | past a notBelow => rw [walk_past notBelow]; exact List.Pairwise.nil
  | missing a below absent => rw [walk_missing below absent]; exact List.Pairwise.nil
  | step a i below found ih =>
    rw [walk_step below found]
    refine List.Pairwise.cons (fun m hm => ?_) ih
    have wide : width instructions ⟨a, i.text⟩ = max 1 i.size.toNat := width_of_get? found
    have after := UInt64.le_iff_toNat_le.mp (le_of_mem_visited hm)
    rw [toNat_next_of_visited hm] at after
    rw [span, span, wide, Set.Ico_disjoint_Ico]
    dsimp only
    omega

/-- The last member ends where all of them do. -/
theorem end_of_getLast_visited {m : Member}
    (h : m ∈ (walk instructions e a).visited.getLast?) :
    m.address.toNat + width instructions m =
      a.toNat + total instructions (walk instructions e a).visited := by
  induction a using walk_induction instructions e with
  | past a notBelow => simp [walk_past notBelow] at h
  | missing a below absent => simp [walk_missing below absent] at h
  | step a i below found ih =>
    have wide : width instructions ⟨a, i.text⟩ = max 1 i.size.toNat := width_of_get? found
    rw [walk_step below found] at h ⊢
    rw [total_cons, wide]
    dsimp only at h ⊢
    generalize visited : (walk instructions e (next a i.size)).visited = rest at h ih ⊢
    cases rest with
    | nil =>
      obtain rfl : ⟨a, i.text⟩ = m := by simpa using h
      rw [wide]
      simp [total]
    | cons m' rest =>
      have exact' := toNat_next_of_visited (m := m') (by rw [visited]; exact List.mem_cons_self)
      rw [ih (by simpa [List.getLast?_cons_cons] using h), exact']
      omega

/-! ## Blocks -/

/-- The members of a block cover a range from its start, in order and each address once. -/
structure IsTiled (instructions : InstructionTable) (b : Block) : Prop where
  first : ∀ m ∈ b.members.head?, m.address = b.start
  adjoining : b.members.IsChain fun m m' =>
    m'.address.toNat = m.address.toNat + width instructions m
  disjoint : b.members.Pairwise fun m m' => Disjoint (span instructions m) (span instructions m')
  covered : ∀ x, (∃ m ∈ b.members, x ∈ span instructions m) ↔
    b.start.toNat ≤ x ∧ x < b.start.toNat + total instructions b.members
  last : ∀ m ∈ b.members.getLast?,
    m.address.toNat + width instructions m = b.start.toNat + total instructions b.members
  texts : ∀ m ∈ b.members, FromTable instructions m

/-- An address that is covered is covered by one member only. -/
theorem IsTiled.existsUnique (h : IsTiled instructions b) {x : Nat} (lower : b.start.toNat ≤ x)
    (upper : x < b.start.toNat + total instructions b.members) :
    ∃! m, m ∈ b.members ∧ x ∈ span instructions m := by
  obtain ⟨m, hm, inside⟩ := (h.covered x).mpr ⟨lower, upper⟩
  refine ⟨m, ⟨hm, inside⟩, fun m' ⟨hm', inside'⟩ => ?_⟩
  by_contra different
  have symmetric : Std.Symm fun m m' =>
      Disjoint (span instructions m) (span instructions m') := ⟨fun _ _ apart => apart.symm⟩
  exact Set.disjoint_left.mp (h.disjoint.forall hm' hm different) inside' inside

/-- A block covers a range, and the walk that makes it ends where the range does. -/
theorem isTiled_of_populateBlock (h : populateBlock instructions s n = .ok b) :
    b.start = s ∧ IsTiled instructions b ∧ ∃ cursor : Word,
      (walk instructions (stop s n) s).ending = .arrived cursor ∧ extent s n ≤ cursor.toNat ∧
        cursor.toNat = min (s.toNat + total instructions b.members) (2 ^ 64 - 1) := by
  have unbroken := (populateBlock_eq_ok_iff.mp h).1
  obtain rfl := (populateBlock_eq_ok_iff.mp h).2
  refine ⟨rfl, ⟨fun m hm => (address_of_head_visited hm).1, ?_, visited_disjoint _ _ _,
    exists_span_iff, fun m hm => end_of_getLast_visited hm,
    fun m hm => ((mem_visited_iff _ _ _ m).mp hm).2.2⟩, ?_⟩
  · refine (visited_isChain instructions (stop s n) s).imp fun m m' ⟨i, found, exact'⟩ => ?_
    rw [width_of_get? found, exact']
  · cases ended : (walk instructions (stop s n) s).ending with
    | missing address =>
      rw [ending_eq_missing_iff, toNat_stop] at ended
      exact absurd ended (unbroken address)
    | arrived cursor =>
      obtain ⟨notBelow, reached⟩ := toNat_of_arrived ended
      rw [UInt64.not_lt, UInt64.le_iff_toNat_le, toNat_stop] at notBelow
      exact ⟨cursor, rfl, notBelow, reached⟩

/-! ## Overruns -/

/-- The addresses that an overrun counts: those that the members cover past the block's end. They
are fewer than the last member's. -/
structure Overshoots (instructions : InstructionTable) (n : Word) (b : Block) (o : Overrun) :
    Prop where
  block : o.block = b.start
  size : o.size = n
  counted : n.toNat + o.overshoot.toNat = total instructions b.members
  positive : 0 < o.overshoot
  withinLast : ∃ m i, b.members.getLast? = some m ∧ instructions.get? m.address = some i ∧
    o.overshoot < i.size

theorem overrun?_eq_some_iff {o : Overrun} :
    overrun? instructions s n = some o ↔
      ∃ cursor, (walk instructions (stop s n) s).ending = .arrived cursor ∧
        cursor ≠ stop s n ∧ o = ⟨s, n, cursor - stop s n⟩ := by
  rw [overrun?]
  cases (walk instructions (stop s n) s).ending with
  | missing address => simp
  | arrived cursor =>
    by_cases same : cursor = stop s n
    · simp [same]
    · simp [same, eq_comm]

theorem block_of_overrun? {o : Overrun} (h : overrun? instructions s n = some o) :
    o.block = s := by
  obtain ⟨cursor, _, _, rfl⟩ := overrun?_eq_some_iff.mp h
  rfl

/-- A walk that is past the end of a block has not been stopped by the last address. -/
theorem room_of_overrun? {o : Overrun} (h : overrun? instructions s n = some o) :
    s.toNat + n.toNat < 2 ^ 64 := by
  obtain ⟨cursor, ended, different, _⟩ := overrun?_eq_some_iff.mp h
  have notBelow := (toNat_of_arrived ended).1
  have stopped := toNat_stop s n
  have bound := cursor.toNat_lt
  rw [extent] at stopped
  rw [UInt64.not_lt, UInt64.le_iff_toNat_le] at notBelow
  rw [ne_eq, ← UInt64.toNat_inj] at different
  omega

section

variable (fits : ∀ a i, instructions.get? a = some i → a.toNat + max 1 i.size.toNat < 2 ^ 64)
  (room : s.toNat + n.toNat < 2 ^ 64) (populated : populateBlock instructions s n = .ok b)

include fits populated

/-- No sum is clipped where every instruction ends before the end of the address space. -/
theorem total_lt_of_fits : s.toNat + total instructions b.members < 2 ^ 64 := by
  obtain ⟨rfl, tiled, _⟩ := isTiled_of_populateBlock populated
  cases last : b.members.getLast? with
  | none =>
    have bound := b.start.toNat_lt
    simpa [List.getLast?_eq_none_iff.mp last, total] using bound
  | some m =>
    obtain ⟨i, found, _⟩ := tiled.texts m (List.mem_of_getLast? last)
    rw [← tiled.last m last, width_of_get? found]
    exact fits _ _ found

include room

/-- The members cover the block, exactly or with an overrun. -/
theorem overrun?_eq :
    n.toNat ≤ total instructions b.members ∧
      (total instructions b.members = n.toNat → overrun? instructions s n = none) ∧
      (total instructions b.members ≠ n.toNat → ∃ o, overrun? instructions s n = some o ∧
        Overshoots instructions n b o) := by
  have unclipped := total_lt_of_fits fits populated
  obtain ⟨rfl, tiled, cursor, ended, past, reached⟩ := isTiled_of_populateBlock populated
  have stopped := toNat_stop b.start n
  rw [extent] at past stopped
  have same : cursor = stop b.start n ↔ total instructions b.members = n.toNat := by
    rw [← UInt64.toNat_inj]
    omega
  refine ⟨by omega, fun covered => ?_, fun uncovered => ?_⟩
  · rw [overrun?, ended]
    exact if_pos (same.mpr covered)
  · have reported := overrun?_eq_some_iff.mpr ⟨cursor, ended, mt same.mp uncovered, rfl⟩
    have further : stop b.start n ≤ cursor := UInt64.le_iff_toNat_le.mpr (by omega)
    have difference := UInt64.toNat_sub_of_le _ _ further
    have counted : n.toNat + (cursor - stop b.start n).toNat = total instructions b.members := by
      omega
    refine ⟨_, reported, rfl, rfl, counted, ?_, ?_⟩
    · rw [UInt64.lt_iff_toNat_lt, UInt64.toNat_zero]
      dsimp only
      omega
    · cases last : b.members.getLast? with
      | none =>
        have empty := List.getLast?_eq_none_iff.mp last
        rw [empty] at counted uncovered
        simp [total] at counted uncovered
        omega
      | some m =>
        -- The last member begins before the end of the block.
        obtain ⟨i, found, _⟩ := tiled.texts m (List.mem_of_getLast? last)
        have ends := tiled.last m last
        have begins : m.address.toNat < extent b.start n :=
          (((holdsChain_of_populateBlock populated).addresses m.address).mp
            ⟨m, List.mem_of_getLast? last, rfl⟩).2
        refine ⟨m, i, rfl, found, ?_⟩
        rw [width_of_get? found] at ends
        rw [extent] at begins
        rw [UInt64.lt_iff_toNat_lt]
        dsimp only
        omega

end

/-- The overruns of a list are those of its blocks up to the first gap. -/
theorem overruns_populateList (es : List (Word × Word)) :
    (populateList instructions es).overruns =
      (es.takeWhile fun e => (populateBlock instructions e.1 e.2).isOk).filterMap
        fun e => overrun? instructions e.1 e.2 := by
  induction es with
  | nil => rfl
  | cons e rest ih =>
    obtain ⟨s, n⟩ := e
    rw [populateList, List.takeWhile_cons]
    cases populated : populateBlock instructions s n with
    | error g => simp [Except.isOk, Except.toBool]
    | ok b =>
      cases reported : overrun? instructions s n <;>
        simp [Except.isOk, Except.toBool, reported, ih]

theorem isOk_populateBlock_iff :
    (populateBlock instructions s n).isOk = true ↔ ∃ b, populateBlock instructions s n = .ok b := by
  cases populateBlock instructions s n <;> simp [Except.isOk, Except.toBool]

theorem exists_populated_of_overrun? {o : Overrun} (h : overrun? instructions s n = some o) :
    ∃ b, populateBlock instructions s n = .ok b := by
  obtain ⟨cursor, ended, _, _⟩ := overrun?_eq_some_iff.mp h
  rw [populateBlock, ended]
  exact ⟨_, rfl⟩

/-- Every block before this one can be populated. -/
def Reached (blocks : BlockTable) (instructions : InstructionTable) (s : Word) : Prop :=
  ∀ s' n', blocks.get? s' = some n' → s' < s → ∃ b, populateBlock instructions s' n' = .ok b

/-- Overruns come in the order of the blocks, at most one of each. -/
theorem overruns_ascending (blocks : BlockTable) (instructions : InstructionTable) :
    (populate blocks instructions).1.Pairwise (·.block < ·.block) := by
  have ascending := blocks.ascending
  rw [populate]
  dsimp only
  rw [overruns_populateList]
  refine List.Pairwise.filterMap _ ?_ (ascending.sublist (List.takeWhile_sublist _))
  intro e e' lower o ho o' ho'
  rw [block_of_overrun? ho, block_of_overrun? ho']
  exact lower

/-- A block reports the overrun that it has, if it is reached. -/
theorem mem_overruns_iff {blocks : BlockTable} {o : Overrun} :
    o ∈ (populate blocks instructions).1 ↔
      ∃ n, blocks.get? o.block = some n ∧ Reached blocks instructions o.block ∧
        overrun? instructions o.block n = some o := by
  have listed := blocks.mem_entries_iff
  rw [populate]
  dsimp only
  rw [overruns_populateList, List.mem_filterMap]
  simp only [blocks.ascending.mem_takeWhile_iff, isOk_populateBlock_iff]
  constructor
  · rintro ⟨⟨s, n⟩, ⟨entry, earlier⟩, reported⟩
    obtain rfl := block_of_overrun? reported
    exact ⟨n, (listed _ n).mp entry, fun s' n' found lower =>
      earlier (s', n') ((listed s' n').mpr found) (UInt64.le_of_lt lower), reported⟩
  · rintro ⟨n, found, reached, reported⟩
    refine ⟨(o.block, n), ⟨(listed _ n).mpr found, fun e entry notHigher => ?_⟩, reported⟩
    have found' := (listed e.1 e.2).mp entry
    by_cases same : e.1 = o.block
    · obtain rfl : n = e.2 := Option.some.inj (found.symm.trans (same ▸ found'))
      exact same ▸ exists_populated_of_overrun? reported
    · exact reached e.1 e.2 found' (UInt64.lt_of_le_of_ne notHigher same)

/-- Blocks as they are covered by their members, where no instruction reaches the end of the address
space: exactly, or with an overrun, which is then reported in the order of the blocks. -/
theorem blocks_are_covered (instructions : InstructionTable)
    (fits : ∀ a i, instructions.get? a = some i → a.toNat + max 1 i.size.toNat < 2 ^ 64) :
    (∀ s n b, s.toNat + n.toNat < 2 ^ 64 → populateBlock instructions s n = .ok b →
      b.start = s ∧ IsTiled instructions b ∧
      ∀ x, s.toNat ≤ x → x < s.toNat + n.toNat →
        ∃! m, m ∈ b.members ∧ x ∈ span instructions m) ∧
    ∀ blocks : BlockTable, ∃ overruns : List Overrun,
      (populateTraced blocks instructions).1 = overruns.map .overrun ∧
      overruns.Pairwise (·.block < ·.block) ∧
      (∀ o ∈ overruns, ∃ n b, blocks.get? o.block = some n ∧ Reached blocks instructions o.block ∧
        populateBlock instructions o.block n = .ok b ∧ Overshoots instructions n b o) ∧
      (∀ s n b, blocks.get? s = some n → s.toNat + n.toNat < 2 ^ 64 →
        Reached blocks instructions s → populateBlock instructions s n = .ok b →
        ((∃ o ∈ overruns, o.block = s) ↔ total instructions b.members ≠ n.toNat)) ∧
      ∀ t, (populateTraced blocks instructions).2 = .ok t → ∀ s, Reached blocks instructions s := by
  constructor
  · intro s n b room populated
    obtain ⟨enough, _⟩ := overrun?_eq fits room populated
    obtain ⟨rfl, tiled, _⟩ := isTiled_of_populateBlock populated
    exact ⟨rfl, tiled, fun x lower upper => tiled.existsUnique lower (by omega)⟩
  · intro blocks
    refine ⟨_, rfl, overruns_ascending blocks instructions, ?_, ?_, ?_⟩
    · intro o ho
      obtain ⟨n, found, reached, reported⟩ := mem_overruns_iff.mp ho
      obtain ⟨b, populated⟩ := exists_populated_of_overrun? reported
      obtain ⟨_, covered, uncovered⟩ := overrun?_eq fits (room_of_overrun? reported) populated
      obtain ⟨o', reported', overshoots⟩ := uncovered fun equal =>
        nomatch (covered equal).symm.trans reported
      obtain rfl := Option.some.inj (reported.symm.trans reported')
      exact ⟨n, b, found, reached, populated, overshoots⟩
    · intro s n b found room reached populated
      obtain ⟨_, covered, uncovered⟩ := overrun?_eq fits room populated
      constructor
      · rintro ⟨o, ho, rfl⟩ equal
        obtain ⟨n', found', _, reported⟩ := mem_overruns_iff.mp ho
        obtain rfl := Option.some.inj (found.symm.trans found')
        exact nomatch (covered equal).symm.trans reported
      · intro more
        obtain ⟨o, reported, _⟩ := uncovered more
        have same := block_of_overrun? reported
        exact ⟨o, mem_overruns_iff.mpr ⟨n, same ▸ found, same ▸ reached, same ▸ reported⟩, same⟩
    · intro t ht s s' n' found' _
      obtain ⟨b', _, populated'⟩ := exists_populated (populateTraced_eq_ok_iff.mp ht) found'
      exact ⟨b', populated'⟩

/-- Three instructions, the second without a size. -/
def sampleInstructions : InstructionTable :=
  Table.ofList [(0x400, ⟨"mov eax,0", 2⟩), (0x402, ⟨"nop", 0⟩), (0x403, ⟨"jmp 0x410", 5⟩)]

def sampleBlock : Block :=
  ⟨0x400, [⟨0x400, "mov eax,0"⟩, ⟨0x402, "nop"⟩, ⟨0x403, "jmp 0x410"⟩]⟩

/-- The last of them goes two bytes past the block. -/
theorem sample_block_overruns_by_two :
    (∀ a i, sampleInstructions.get? a = some i → a.toNat + max 1 i.size.toNat < 2 ^ 64) ∧
      IsTiled sampleInstructions sampleBlock ∧
      ∃ o, .overrun o ∈ (populateTraced (Table.ofList [(0x400, 6)]) sampleInstructions).1 ∧
        o.block = 0x400 ∧ o.overshoot = 2 := by
  have fits : ∀ a i, sampleInstructions.get? a = some i →
      a.toNat + max 1 i.size.toNat < 2 ^ 64 := by
    intro a i found
    have all : ∀ f ∈ sampleInstructions.entries, f.1.toNat + max 1 f.2.size.toNat < 2 ^ 64 := by
      decide +kernel
    exact all (a, i) ((sampleInstructions.mem_entries_iff a i).mpr found)
  have populated : populateBlock sampleInstructions 0x400 6 = .ok sampleBlock := by
    decide +kernel
  have whole : (populateTraced (Table.ofList [(0x400, 6)]) sampleInstructions).2 =
      .ok (Table.ofList [(0x400, sampleBlock)]) := by
    decide +kernel
  have found : (Table.ofList [((0x400 : Word), (6 : Word))]).get? 0x400 = some 6 := by
    decide +kernel
  obtain ⟨covered, reports⟩ := blocks_are_covered sampleInstructions fits
  obtain ⟨overruns, reported, _, each, overrunning, reached⟩ := reports (Table.ofList [(0x400, 6)])
  obtain ⟨o, ho, block⟩ := (overrunning 0x400 6 _ found (by decide) (reached _ whole 0x400)
    populated).mpr (by decide +kernel)
  refine ⟨fits, (covered 0x400 6 _ (by decide) populated).2.1, o, ?_, block, ?_⟩
  · rw [reported]
    exact List.mem_map_of_mem ho
  · obtain ⟨n, b, found', _, populated', overshoots⟩ := each o ho
    rw [block] at found' populated'
    obtain rfl := Option.some.inj (found.symm.trans found')
    obtain rfl := Except.ok.inj (populated.symm.trans populated')
    have counted := overshoots.counted
    have together : total sampleInstructions sampleBlock.members = 8 := by decide +kernel
    rw [together] at counted
    rw [← UInt64.toNat_inj]
    exact Nat.add_left_cancel counted

/-! ## The end of the address space -/

/-- A block that reaches to the end of the address space is covered up to the last address, or the
first address that is missing below it is a gap. Where the members do not end just before the last
address they cover that too. -/
theorem top_blocks_are_covered_below_the_last_address (blocks : BlockTable)
    (instructions : InstructionTable) {s n : Word} (found : blocks.get? s = some n)
    (high : 2 ^ 64 ≤ s.toNat + n.toNat) :
    (∀ a, BreaksAt instructions (2 ^ 64 - 1) s a →
      ∃ s' a', (populateTraced blocks instructions).2 = .error (.gap s' a') ∧ s' ≤ s) ∧
    ∀ t, (populateTraced blocks instructions).2 = .ok t →
      ∃ b, t.get? s = some b ∧ b.start = s ∧ IsTiled instructions b ∧
        2 ^ 64 - 1 ≤ s.toNat + total instructions b.members ∧
        (∀ x, s.toNat ≤ x → x < 2 ^ 64 - 1 →
          ∃! m, m ∈ b.members ∧ x ∈ span instructions m) ∧
        (s.toNat + total instructions b.members ≠ 2 ^ 64 - 1 →
          (∃ m, b.members.getLast? = some m ∧
            2 ^ 64 ≤ m.address.toNat + width instructions m) ∧
          ∀ x, s.toNat ≤ x → x < 2 ^ 64 →
            ∃! m, m ∈ b.members ∧ x ∈ span instructions m) := by
  have whole : extent s n = 2 ^ 64 - 1 := by
    rw [extent]
    omega
  constructor
  · intro a broken
    cases result : (populate blocks instructions).2 with
    | ok t =>
      have unbroken := (populate_ok_iff_unbroken blocks instructions).mp ⟨t, result⟩ s n found a
      exact absurd (whole ▸ broken) unbroken
    | error g =>
      obtain ⟨s', n', _, bad, earlier⟩ := populate_eq_error_iff.mp result
      refine ⟨g.block, g.address, populateTraced_eq_error_iff.mpr ⟨g, result, rfl⟩, ?_⟩
      rw [(populateBlock_eq_error_iff.mp bad).1]
      -- A block before the first that fails would have been populated.
      refine UInt64.not_lt.mp fun lower => ?_
      obtain ⟨b, populated⟩ := earlier s n found lower
      exact (populateBlock_eq_ok_iff.mp populated).1 a (whole ▸ broken)
  · intro t ht
    obtain ⟨b, hb, populated⟩ := exists_populated (populateTraced_eq_ok_iff.mp ht) found
    obtain ⟨rfl, tiled, cursor, _, past, reached⟩ := isTiled_of_populateBlock populated
    rw [whole] at past
    refine ⟨b, hb, rfl, tiled, by omega, fun x lower upper =>
      tiled.existsUnique lower (by omega), fun further => ⟨?_, fun x lower upper =>
        tiled.existsUnique lower (by omega)⟩⟩
    cases last : b.members.getLast? with
    | none =>
      have bound := b.start.toNat_lt
      have nothing : total instructions b.members = 0 := by
        rw [List.getLast?_eq_none_iff.mp last]
        rfl
      omega
    | some m => exact ⟨m, rfl, by rw [tiled.last m last]; omega⟩

/-- An instruction that covers the last two addresses covers a block of them. -/
theorem last_two_addresses_are_covered :
    let instructions : InstructionTable := Table.ofList [(0xfffffffffffffffe, ⟨"jmp", 2⟩)]
    let blocks : BlockTable := Table.ofList [(0xfffffffffffffffe, 2)]
    2 ^ 64 ≤ (0xfffffffffffffffe : Word).toNat + (2 : Word).toNat ∧
      ∃ t b, (populateTraced blocks instructions).2 = .ok t ∧
        t.get? 0xfffffffffffffffe = some b ∧
        ∃ m ∈ b.members, Word.last.toNat ∈ span instructions m := by
  intro instructions blocks
  have found : blocks.get? 0xfffffffffffffffe = some 2 := by decide +kernel
  have populated : (populateTraced blocks instructions).2 =
      .ok (Table.ofList [(0xfffffffffffffffe, ⟨0xfffffffffffffffe,
        [⟨0xfffffffffffffffe, "jmp"⟩]⟩)]) := by decide +kernel
  obtain ⟨b, hb, _, _, _, _, further⟩ :=
    (top_blocks_are_covered_below_the_last_address blocks instructions found (by decide)).2 _
      populated
  have same : b = ⟨0xfffffffffffffffe, [⟨0xfffffffffffffffe, "jmp"⟩]⟩ :=
    Option.some.inj (hb.symm.trans (by decide +kernel))
  have ends : (0xfffffffffffffffe : Word).toNat + total instructions b.members ≠ 2 ^ 64 - 1 := by
    rw [same]
    decide +kernel
  obtain ⟨m, ⟨hm, inside⟩, _⟩ := (further ends).2 Word.last.toNat (by decide) (by decide)
  exact ⟨by decide, _, b, populated, hb, m, hm, inside⟩

/-- The last address is not asked for by a walk that comes to it: a block of two addresses is
populated by an instruction of one byte, with nothing at the last address. -/
theorem last_address_is_not_asked_for :
    let instructions : InstructionTable := Table.ofList [(0xfffffffffffffffe, ⟨"nop", 1⟩)]
    let blocks : BlockTable := Table.ofList [(0xfffffffffffffffe, 2)]
    ∃ t b, (populateTraced blocks instructions).2 = .ok t ∧
      t.get? 0xfffffffffffffffe = some b ∧ instructions.get? Word.last = none ∧
      ∀ m ∈ b.members, m.address.toNat + width instructions m < 2 ^ 64 ∧
        Word.last.toNat ∉ span instructions m := by
  intro instructions blocks
  refine ⟨Table.ofList [(0xfffffffffffffffe, ⟨0xfffffffffffffffe,
    [⟨0xfffffffffffffffe, "nop"⟩]⟩)], ⟨0xfffffffffffffffe, [⟨0xfffffffffffffffe, "nop"⟩]⟩,
    by decide +kernel, by decide +kernel, by decide +kernel, fun m hm => ?_⟩
  obtain rfl := List.mem_singleton.mp hm
  have one : width instructions ⟨0xfffffffffffffffe, "nop"⟩ = 1 := by decide +kernel
  rw [span, one, Set.mem_Ico]
  decide

end Population
end BasicBlocks

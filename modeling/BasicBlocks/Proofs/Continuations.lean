import BasicBlocks.Proofs.Coverage

/-!
# Walks taken up again

A walk has no memory: from an address that it visits it goes on as the walk that begins there, and a
walk to a later stop goes on where the walk to an earlier one has arrived. So blocks that come to
one address have their members in common from there, as far as the block goes that ends first, and a
block that is cut where a walk arrives is populated in two parts.
-/

namespace BasicBlocks.Population

variable {instructions : InstructionTable} {e e' a c s s' n n' : Word} {b b' : Block}

/-- A walk to a later stop goes on where the walk to the earlier one has arrived. -/
theorem walk_of_arrived (later : e ≤ e') (arrived : (walk instructions e a).ending = .arrived c) :
    walk instructions e' a =
      ⟨(walk instructions e a).visited ++ (walk instructions e' c).visited,
        (walk instructions e' c).ending⟩ := by
  induction a using walk_induction instructions e with
  | past a notBelow =>
    rw [walk_past notBelow] at arrived ⊢
    cases arrived
    rfl
  | missing a below absent =>
    rw [walk_missing below absent] at arrived
    cases arrived
  | step a i below found ih =>
    rw [walk_step below found] at arrived ⊢
    rw [walk_step (UInt64.lt_of_lt_of_le below later) found, ih arrived]
    rfl

/-- The walk to the later of two stops has the members of the walk to the earlier one, and others
only from that stop on. -/
theorem exists_visited_append (later : e ≤ e')
    (arrived : (walk instructions e a).ending = .arrived c) :
    ∃ further, (walk instructions e' a).visited = (walk instructions e a).visited ++ further ∧
      ∀ m ∈ further, e ≤ m.address := by
  rw [walk_of_arrived later arrived]
  refine ⟨_, rfl, fun m visits => ?_⟩
  have past : e ≤ c := UInt64.not_lt.mp (toNat_of_arrived arrived).1
  exact UInt64.le_trans past (le_of_mem_visited visits)

/-- From an address that it visits a walk goes on as the walk that begins there. -/
theorem walk_of_mem_visited {m : Member} (visits : m ∈ (walk instructions e a).visited) :
    ∃ before, (∀ q ∈ before, q.address < m.address) ∧
      walk instructions e a =
        ⟨before ++ (walk instructions e m.address).visited,
          (walk instructions e m.address).ending⟩ := by
  induction a using walk_induction instructions e with
  | past a notBelow =>
    rw [walk_past notBelow] at visits
    cases visits
  | missing a below absent =>
    rw [walk_missing below absent] at visits
    cases visits
  | step a i below found ih =>
    rw [walk_step below found] at visits
    rcases List.mem_cons.mp visits with rfl | visits
    · exact ⟨[], by simp, rfl⟩
    · obtain ⟨before, earlier, rest⟩ := ih visits
      have first : a < m.address :=
        UInt64.lt_of_lt_of_le (lt_next below i.size) (le_of_mem_visited visits)
      refine ⟨⟨a, i.text⟩ :: before, List.forall_mem_cons.mpr ⟨first, earlier⟩, ?_⟩
      rw [walk_step below found, rest]
      rfl

theorem head?_visited_of_mem {m : Member} (visits : m ∈ (walk instructions e a).visited) :
    (walk instructions e m.address).visited.head? = some m := by
  obtain ⟨_, below, i, found, text⟩ := (mem_visited_iff instructions e a m).mp visits
  rw [walk_step below found, ← text]
  rfl

theorem populateBlock_eq_ok_iff_arrived :
    populateBlock instructions s n = .ok b ↔
      (∃ c, (walk instructions (stop s n) s).ending = .arrived c) ∧
        b = ⟨s, (walk instructions (stop s n) s).visited⟩ := by
  rw [populateBlock]
  cases (walk instructions (stop s n) s).ending <;> simp [eq_comm]

theorem stop_le_stop_iff : stop s n ≤ stop s' n' ↔ extent s n ≤ extent s' n' := by
  rw [UInt64.le_iff_toNat_le, toNat_stop, toNat_stop]

/-! ## Blocks that overlap -/

/-- From their members at `a` on, two blocks share the members below `e`. The first block has no
others there; the second has others only beyond. -/
structure SharesFrom (a : Word) (e : Nat) (b b' : Block)
    (before before' shared further : List Member) : Prop where
  first : b.members = before ++ shared
  second : b'.members = before' ++ (shared ++ further)
  earlier : ∀ m ∈ before ++ before', m.address < a
  meets : ∃ m, shared.head? = some m ∧ m.address = a
  below : ∀ m ∈ shared, m.address.toNat < e
  beyond : ∀ m ∈ further, e ≤ m.address.toNat

section

variable (populated : populateBlock instructions s n = .ok b)
include populated

theorem exists_sharesFrom (populated' : populateBlock instructions s' n' = .ok b')
    (later : extent s n ≤ extent s' n') {m m' : Member} (hm : m ∈ b.members)
    (hm' : m' ∈ b'.members) (same : m.address = m'.address) :
    ∃ before before' shared further,
      SharesFrom m.address (extent s n) b b' before before' shared further := by
  obtain ⟨⟨c, arrived⟩, rfl⟩ := populateBlock_eq_ok_iff_arrived.mp populated
  obtain ⟨_, rfl⟩ := populateBlock_eq_ok_iff_arrived.mp populated'
  -- Both walks go on as walks from the address at which they meet.
  obtain ⟨before, earlier, first⟩ := walk_of_mem_visited hm
  obtain ⟨before', earlier', second⟩ := walk_of_mem_visited hm'
  rw [← same] at earlier' second
  rw [first] at arrived
  obtain ⟨further, goesOn, beyond⟩ := exists_visited_append (stop_le_stop_iff.mpr later) arrived
  refine ⟨before, before', _, further, congrArg Walk.visited first, ?_,
    List.forall_mem_append.mpr ⟨earlier, earlier'⟩, ⟨m, head?_visited_of_mem hm, rfl⟩,
    fun q hq => ?_, fun q hq => ?_⟩
  · rw [← goesOn]
    exact congrArg Walk.visited second
  · rw [← toNat_stop, ← UInt64.lt_iff_toNat_lt]
    exact ((mem_visited_iff _ _ _ q).mp hq).2.1
  · rw [← toNat_stop, ← UInt64.le_iff_toNat_le]
    exact beyond q hq

/-- The members of a block begin those of a longer one from the same start. -/
theorem members_prefix_of_le (populated' : populateBlock instructions s n' = .ok b')
    (longer : n ≤ n') : b.members <+: b'.members := by
  obtain ⟨⟨c, arrived⟩, rfl⟩ := populateBlock_eq_ok_iff_arrived.mp populated
  obtain ⟨_, rfl⟩ := populateBlock_eq_ok_iff_arrived.mp populated'
  have later : stop s n ≤ stop s n' := by
    rw [UInt64.le_iff_toNat_le] at longer
    rw [stop_le_stop_iff, extent, extent]
    omega
  obtain ⟨further, goesOn, _⟩ := exists_visited_append later arrived
  exact ⟨further, goesOn.symm⟩

end

/-- Blocks of one populated table, or of two with the same instructions, that come to one address
have their members in common from there, up to the end of the block that ends first. If they start
together, the members of the shorter begin those of the longer. -/
theorem overlapping_blocks_agree {instructions : InstructionTable} {blocks blocks' : BlockTable}
    {t t' : Table Block} (populated : (populateTraced blocks instructions).2 = .ok t)
    (populated' : (populateTraced blocks' instructions).2 = .ok t') {s s' n n' : Word}
    {b b' : Block} (sized : blocks.get? s = some n) (sized' : blocks'.get? s' = some n')
    (found : t.get? s = some b) (found' : t'.get? s' = some b') :
    (extent s n ≤ extent s' n' → ∀ m ∈ b.members, ∀ m' ∈ b'.members, m.address = m'.address →
      ∃ before before' shared further,
        SharesFrom m.address (extent s n) b b' before before' shared further) ∧
    (s = s' → n ≤ n' → b.members <+: b'.members) := by
  have block : populateBlock instructions s n = .ok b := by
    obtain ⟨_, hn, h⟩ := (get?_of_populate (populateTraced_eq_ok_iff.mp populated) s b).mp found
    obtain rfl := Option.some.inj (sized.symm.trans hn)
    exact h
  have block' : populateBlock instructions s' n' = .ok b' := by
    obtain ⟨_, hn, h⟩ := (get?_of_populate (populateTraced_eq_ok_iff.mp populated') s' b').mp found'
    obtain rfl := Option.some.inj (sized'.symm.trans hn)
    exact h
  constructor
  · intro later m hm m' hm' same
    exact exists_sharesFrom block block' later hm hm' same
  · rintro rfl longer
    exact members_prefix_of_le block block' longer

/-- Three instructions at the top of the address space: the first has no size, and the last reaches
past the end. -/
def topInstructions : InstructionTable :=
  Table.ofList [(0xfffffffffffffff0, ⟨"nop", 0⟩), (0xfffffffffffffff1, ⟨"call", 4⟩),
    (0xfffffffffffffff5, ⟨"jmp", 0x20⟩)]

/-- A block that ends before the jump meets one that ends past it at the call, and begins the one
from its own start that ends past it. -/
theorem blocks_at_the_top_agree :
    let nop : Member := ⟨0xfffffffffffffff0, "nop"⟩
    let call : Member := ⟨0xfffffffffffffff1, "call"⟩
    let jump : Member := ⟨0xfffffffffffffff5, "jmp"⟩
    let short : Block := ⟨nop.address, [nop, call]⟩
    let crossing : Block := ⟨call.address, [call, jump]⟩
    let long : Block := ⟨nop.address, [nop, call, jump]⟩
    (populateTraced (Table.ofList [(nop.address, 5), (call.address, 0x40)]) topInstructions).2 =
        .ok (Table.ofList [(nop.address, short), (call.address, crossing)]) ∧
      (populateTraced (Table.ofList [(nop.address, 0x40)]) topInstructions).2 =
        .ok (Table.ofList [(nop.address, long)]) ∧
      (∃ before before' shared further, SharesFrom call.address (extent nop.address 5) short
        crossing before before' shared further) ∧
      short.members <+: long.members := by
  intro nop call jump short crossing long
  have populated : (populateTraced (Table.ofList [(nop.address, 5), (call.address, 0x40)])
      topInstructions).2 = .ok (Table.ofList [(nop.address, short), (call.address, crossing)]) := by
    decide +kernel
  have populated' : (populateTraced (Table.ofList [(nop.address, 0x40)]) topInstructions).2 =
      .ok (Table.ofList [(nop.address, long)]) := by
    decide +kernel
  have hs : (Table.ofList [(nop.address, short), (call.address, crossing)]).get? nop.address =
      some short := by decide +kernel
  have hc : (Table.ofList [(nop.address, short), (call.address, crossing)]).get? call.address =
      some crossing := by decide +kernel
  have hl : (Table.ofList [(nop.address, long)]).get? nop.address = some long := by decide +kernel
  obtain ⟨meets, _⟩ := overlapping_blocks_agree populated populated rfl rfl hs hc
  obtain ⟨_, begins⟩ := overlapping_blocks_agree populated populated' rfl rfl hs hl
  exact ⟨populated, populated', meets (by decide) call (by decide) call (by decide) rfl,
    begins rfl (by decide)⟩

/-! ## Blocks that are cut -/

theorem stop_eq_add (room : s.toNat + n.toNat < 2 ^ 64) : stop s n = s + n := by
  rw [stop, Word.clippedAdd]
  exact if_pos room

/-- A block that is cut where its walk arrives has the members of the first part and then those of
the second. What becomes of it beyond the cut becomes of the second part: it is populated if that
is, it overruns as that does, and it misses the instruction that that misses. -/
theorem cut_block_is_populated_in_parts {instructions : InstructionTable} {s n m : Word} {b : Block}
    (room : s.toNat + n.toNat + m.toNat < 2 ^ 64)
    (populated : populateBlock instructions s n = .ok b)
    (exact : (walk instructions (stop s n) s).ending = .arrived (s + n)) :
    (∀ whole, populateBlock instructions s (n + m) = .ok whole ↔
      ∃ second, populateBlock instructions (s + n) m = .ok second ∧
        whole = ⟨s, b.members ++ second.members⟩) ∧
    (∀ gap, populateBlock instructions s (n + m) = .error gap ↔
      ∃ address, populateBlock instructions (s + n) m = .error ⟨s + n, address⟩ ∧
        gap = ⟨s, address⟩) ∧
    overrun? instructions s (n + m) =
      (overrun? instructions (s + n) m).map fun o => ⟨s, n + m, o.overshoot⟩ := by
  obtain ⟨_, rfl⟩ := populateBlock_eq_ok_iff_arrived.mp populated
  have bound : Word.bound = 2 ^ 64 := rfl
  have sum : (s + n).toNat = s.toNat + n.toNat := Word.toNat_add_of_lt (by omega)
  have size : (n + m).toNat = n.toNat + m.toNat := Word.toNat_add_of_lt (by omega)
  have ends : stop s (n + m) = stop (s + n) m := by
    rw [stop_eq_add (by omega), stop_eq_add (by omega), UInt64.add_assoc]
  have later : stop s n ≤ stop (s + n) m := by
    rw [stop_le_stop_iff, extent, extent]
    omega
  have goesOn := walk_of_arrived later exact
  rw [populateBlock, populateBlock, overrun?, overrun?, ends, goesOn]
  dsimp only
  cases (walk instructions (stop (s + n) m) (s + n)).ending with
  | missing address => simp [eq_comm]
  | arrived cursor => by_cases same : cursor = stop (s + n) m <;> simp [same, eq_comm]

/-- A block that is cut before its jump overruns as the jump does, and breaks off behind it. -/
theorem sample_block_is_cut_before_the_jump :
    (0x400 : Word).toNat + (3 : Word).toNat + (0x10 : Word).toNat < 2 ^ 64 ∧
      (walk sampleInstructions (stop 0x400 3) 0x400).ending = .arrived (0x400 + 3) ∧
      populateBlock sampleInstructions 0x400 (3 + 3) =
        .ok ⟨0x400, [⟨0x400, "mov eax,0"⟩, ⟨0x402, "nop"⟩, ⟨0x403, "jmp 0x410"⟩]⟩ ∧
      overrun? sampleInstructions 0x400 (3 + 3) = some ⟨0x400, 6, 2⟩ ∧
      populateBlock sampleInstructions 0x400 (3 + 0x10) = .error ⟨0x400, 0x408⟩ := by
  have populated : populateBlock sampleInstructions 0x400 3 =
      .ok ⟨0x400, [⟨0x400, "mov eax,0"⟩, ⟨0x402, "nop"⟩]⟩ := by decide +kernel
  have exact : (walk sampleInstructions (stop 0x400 3) 0x400).ending = .arrived (0x400 + 3) := by
    decide +kernel
  obtain ⟨whole, _, overruns⟩ :=
    cut_block_is_populated_in_parts (m := 3) (by decide) populated exact
  obtain ⟨_, breaks, _⟩ := cut_block_is_populated_in_parts (m := 0x10) (by decide) populated exact
  refine ⟨by decide, exact, (whole _).mpr ⟨⟨0x403, [⟨0x403, "jmp 0x410"⟩]⟩, by decide +kernel, rfl⟩,
    ?_, (breaks _).mpr ⟨0x408, by decide +kernel, rfl⟩⟩
  rw [overruns]
  decide +kernel

end BasicBlocks.Population

import Mathlib.Algebra.Group.Nat.Defs
import Mathlib.Data.List.Chain
import Mathlib.Logic.Relation
import BasicBlocks.Population

/-!
# Walks as chains

The chain from an address is the address, the one that its instruction leads to, and so on; it ends
at the first address that is past the stop or holds no instruction. A walk visits exactly the
addresses of its chain below the stop, in ascending order, and it misses an instruction exactly
where its chain breaks off below the stop.
-/

namespace BasicBlocks.Population

/-- The end of a block: the exact sum, at most the last address. -/
def extent (start size : Word) : Nat := min (start.toNat + size.toNat) (2 ^ 64 - 1)

/-- An address below the stop leads on by its instruction's size, and by one at least. -/
def Step (instructions : InstructionTable) (stop : Nat) (a b : Word) : Prop :=
  a.toNat < stop ∧ ∃ i, instructions.get? a = some i ∧
    b.toNat = min (a.toNat + max 1 i.size.toNat) (2 ^ 64 - 1)

def OnChain (instructions : InstructionTable) (stop : Nat) (start a : Word) : Prop :=
  Relation.ReflTransGen (Step instructions stop) start a

/-- The chain comes to an address below the stop that holds no instruction. -/
def BreaksAt (instructions : InstructionTable) (stop : Nat) (start a : Word) : Prop :=
  OnChain instructions stop start a ∧ a.toNat < stop ∧ instructions.get? a = none

theorem toNat_max_one (size : Word) : (max size 1).toNat = max 1 size.toNat := by
  have one : (1 : Word).toNat = 1 := rfl
  simp only [max, UInt64.le_iff_toNat_le, one]
  split
  · split <;> omega
  · split <;> omega

theorem toNat_next (a size : Word) :
    (next a size).toNat = min (a.toNat + max 1 size.toNat) (2 ^ 64 - 1) := by
  rw [next, Word.toNat_clippedAdd, toNat_max_one]
  rfl

theorem toNat_stop (start size : Word) : (stop start size).toNat = extent start size :=
  Word.toNat_clippedAdd start size

theorem step_iff {instructions : InstructionTable} {e a b : Word} :
    Step instructions e.toNat a b ↔
      a < e ∧ ∃ i, instructions.get? a = some i ∧ b = next a i.size := by
  simp only [Step, UInt64.lt_iff_toNat_lt, ← UInt64.toNat_inj, toNat_next]

theorem Step.lt {instructions : InstructionTable} {e a b : Word}
    (h : Step instructions e.toNat a b) : a < b := by
  obtain ⟨below, i, _, rfl⟩ := step_iff.mp h
  exact lt_next below i.size

theorem OnChain.le {instructions : InstructionTable} {e a b : Word}
    (h : OnChain instructions e.toNat a b) : a ≤ b := by
  induction h with
  | refl => exact UInt64.le_refl a
  | tail _ step ih => exact UInt64.le_trans ih (UInt64.le_of_lt step.lt)

/-- A chain from an address with an instruction goes on from the next one. -/
theorem onChain_next_iff {instructions : InstructionTable} {e a b : Word} {i : Instruction}
    (below : a < e) (found : instructions.get? a = some i) :
    OnChain instructions e.toNat a b ↔
      a = b ∨ OnChain instructions e.toNat (next a i.size) b := by
  unfold OnChain
  rw [Relation.ReflTransGen.cases_head_iff]
  constructor
  · rintro (same | ⟨c, step, rest⟩)
    · exact Or.inl same
    · obtain ⟨_, j, hj, rfl⟩ := step_iff.mp step
      have same : i = j := Option.some.inj (found.symm.trans hj)
      exact Or.inr (same ▸ rest)
  · rintro (same | rest)
    · exact Or.inl same
    · exact Or.inr ⟨next a i.size, step_iff.mpr ⟨below, i, found, rfl⟩, rest⟩

/-- No chain goes on from an address at the stop or without an instruction. -/
theorem onChain_end_iff {instructions : InstructionTable} {e a b : Word}
    (ended : ¬ a < e ∨ instructions.get? a = none) :
    OnChain instructions e.toNat a b ↔ a = b := by
  unfold OnChain
  rw [Relation.ReflTransGen.cases_head_iff]
  constructor
  · rintro (same | ⟨c, step, _⟩)
    · exact same
    · obtain ⟨below, i, found, _⟩ := step_iff.mp step
      rcases ended with past | absent
      · exact absurd below past
      · rw [absent] at found
        cases found
  · exact Or.inl

theorem walk_past {instructions : InstructionTable} {e a : Word} (h : ¬ a < e) :
    walk instructions e a = ⟨[], .arrived a⟩ := by
  rw [walk, dif_neg h]

theorem walk_missing {instructions : InstructionTable} {e a : Word} (h : a < e)
    (absent : instructions.get? a = none) : walk instructions e a = ⟨[], .missing a⟩ := by
  rw [walk, dif_pos h]
  split
  next => rfl
  next found => rw [absent] at found; cases found

theorem walk_step {instructions : InstructionTable} {e a : Word} {i : Instruction} (h : a < e)
    (found : instructions.get? a = some i) :
    walk instructions e a = ⟨⟨a, i.text⟩ :: (walk instructions e (next a i.size)).visited,
      (walk instructions e (next a i.size)).ending⟩ := by
  rw [walk, dif_pos h]
  split
  next absent => rw [absent] at found; cases found
  next j hj =>
    have same : i = j := Option.some.inj (found.symm.trans hj)
    rw [same]

/-- What holds where walks end and is handed back by a step holds of every cursor. -/
theorem walk_induction (instructions : InstructionTable) (e : Word) {P : Word → Prop}
    (past : ∀ a, ¬ a < e → P a)
    (missing : ∀ a, a < e → instructions.get? a = none → P a)
    (step : ∀ a i, a < e → instructions.get? a = some i → P (next a i.size) → P a)
    (a : Word) : P a := by
  induction a using walk.induct instructions e with
  | case1 a below absent => exact missing a below absent
  | case2 a below i found ih => exact step a i below found ih
  | case3 a notBelow => exact past a notBelow

/-- The table has the member's text at the member's address. -/
def FromTable (instructions : InstructionTable) (m : Member) : Prop :=
  ∃ i, instructions.get? m.address = some i ∧ m.text = i.text

theorem mem_visited_iff (instructions : InstructionTable) (e a : Word) (m : Member) :
    m ∈ (walk instructions e a).visited ↔
      OnChain instructions e.toNat a m.address ∧ m.address < e ∧ FromTable instructions m := by
  induction a using walk_induction instructions e with
  | past a notBelow =>
    rw [walk_past notBelow, onChain_end_iff (Or.inl notBelow)]
    constructor
    · intro h; cases h
    · rintro ⟨rfl, below, _⟩
      exact absurd below notBelow
  | missing a below absent =>
    rw [walk_missing below absent, onChain_end_iff (Or.inr absent)]
    constructor
    · intro h; cases h
    · rintro ⟨rfl, _, i, found, _⟩
      rw [absent] at found
      cases found
  | step a i below found ih =>
    rw [walk_step below found, onChain_next_iff below found, List.mem_cons, ih]
    constructor
    · rintro (rfl | ⟨chain, rest⟩)
      · exact ⟨Or.inl rfl, below, i, found, rfl⟩
      · exact ⟨Or.inr chain, rest⟩
    · rintro ⟨same | chain, rest⟩
      · obtain ⟨address, text⟩ := m
        obtain rfl : a = address := same
        obtain ⟨_, j, hj, rfl⟩ := rest
        have agree : i = j := Option.some.inj (found.symm.trans hj)
        exact Or.inl (agree ▸ rfl)
      · exact Or.inr ⟨chain, rest⟩

theorem le_of_mem_visited {instructions : InstructionTable} {e a : Word} {m : Member}
    (h : m ∈ (walk instructions e a).visited) : a ≤ m.address :=
  ((mem_visited_iff instructions e a m).mp h).1.le

theorem visited_ascending (instructions : InstructionTable) (e a : Word) :
    (walk instructions e a).visited.Pairwise (·.address < ·.address) := by
  induction a using walk_induction instructions e with
  | past a notBelow => rw [walk_past notBelow]; exact List.Pairwise.nil
  | missing a below absent => rw [walk_missing below absent]; exact List.Pairwise.nil
  | step a i below found ih =>
    rw [walk_step below found]
    refine List.Pairwise.cons ?_ ih
    intro m hm
    exact UInt64.lt_of_lt_of_le (lt_next below i.size) (le_of_mem_visited hm)

theorem address_of_head_visited {instructions : InstructionTable} {e a : Word} {m : Member}
    (h : m ∈ (walk instructions e a).visited.head?) : m.address = a ∧ a < e := by
  by_cases below : a < e
  · cases found : instructions.get? a with
    | none =>
      rw [walk_missing below found] at h
      cases h
    | some i =>
      rw [walk_step below found] at h
      cases h
      exact ⟨rfl, below⟩
  · rw [walk_past below] at h
    cases h

/-- No sum is clipped on the way from one member to the next. -/
theorem visited_isChain (instructions : InstructionTable) (e a : Word) :
    (walk instructions e a).visited.IsChain fun m m' =>
      ∃ i, instructions.get? m.address = some i ∧
        m'.address.toNat = m.address.toNat + max 1 i.size.toNat := by
  induction a using walk_induction instructions e with
  | past a notBelow => rw [walk_past notBelow]; exact .nil
  | missing a below absent => rw [walk_missing below absent]; exact .nil
  | step a i below found ih =>
    rw [walk_step below found]
    refine ih.cons ?_
    intro m hm
    obtain ⟨address, lower⟩ := address_of_head_visited hm
    refine ⟨i, found, ?_⟩
    have reached := toNat_next a i.size
    have bound := e.toNat_lt
    rw [UInt64.lt_iff_toNat_lt] at lower
    rw [address]
    dsimp only
    omega

theorem ending_eq_missing_iff (instructions : InstructionTable) (e a b : Word) :
    (walk instructions e a).ending = .missing b ↔ BreaksAt instructions e.toNat a b := by
  unfold BreaksAt
  rw [← UInt64.lt_iff_toNat_lt]
  induction a using walk_induction instructions e with
  | past a notBelow =>
    rw [walk_past notBelow, onChain_end_iff (Or.inl notBelow)]
    constructor
    · intro h; cases h
    · rintro ⟨rfl, below, _⟩
      exact absurd below notBelow
  | missing a below absent =>
    rw [walk_missing below absent, onChain_end_iff (Or.inr absent)]
    constructor
    · intro h
      cases h
      exact ⟨rfl, below, absent⟩
    · rintro ⟨rfl, _, _⟩
      rfl
  | step a i below found ih =>
    rw [walk_step below found, onChain_next_iff below found, ih]
    constructor
    · rintro ⟨chain, rest⟩
      exact ⟨Or.inr chain, rest⟩
    · rintro ⟨rfl | chain, rest⟩
      · rw [found] at rest
        cases rest.2
      · exact ⟨chain, rest⟩

end BasicBlocks.Population

import Mathlib.Data.List.Perm.Subperm
import BasicBlocks.Proofs.Tables
import BasicBlocks.Proofs.Walk

/-!
# Lookups of a walk

A walk asks the instruction table once in every round. Every round uses up at least one address
below the end of the block, so a walk is over after at most as many successful lookups as the block
has addresses, and after at most as many as the table has entries there. One more lookup fails at
most. Where none does, the cursor is at the end of the block or past it, and the difference between
the two is a word.
-/

namespace BasicBlocks.Population

/-- A question to the instruction table, with its answer. -/
structure Lookup where
  address : Word
  answer : Option Instruction
  deriving DecidableEq, Repr

namespace Lookup

def succeeds (l : Lookup) : Bool := l.answer.isSome

/-- What a lookup adds to the block. -/
def member? (l : Lookup) : Option Member := l.answer.map fun i => ⟨l.address, i.text⟩

end Lookup

/-- The rounds from an address on: the lookups that they make, in order, and how they end. Rounds
that went on forever would have no derivation. -/
inductive Runs (instructions : InstructionTable) (stop : Nat) :
    Word → List Lookup → WalkEnd → Prop
  | arrived {a : Word} (past : stop ≤ a.toNat) : Runs instructions stop a [] (.arrived a)
  | missing {a : Word} (below : a.toNat < stop) (absent : instructions.get? a = none) :
      Runs instructions stop a [⟨a, none⟩] (.missing a)
  | found {a b : Word} {i : Instruction} {later : List Lookup} {ending : WalkEnd}
      (below : a.toNat < stop) (found : instructions.get? a = some i)
      (advance : b.toNat = min (a.toNat + max 1 i.size.toNat) (2 ^ 64 - 1))
      (rest : Runs instructions stop b later ending) :
      Runs instructions stop a (⟨a, some i⟩ :: later) ending

/-- The entries of a table with addresses from `a` on and below the stop. -/
def entriesWithin (instructions : InstructionTable) (a : Word) (stop : Nat) :
    List (Word × Instruction) :=
  instructions.entries.filter fun f => a.toNat ≤ f.1.toNat && f.1.toNat < stop

variable {instructions : InstructionTable} {stop : Nat} {a : Word} {lookups : List Lookup}
  {ending : WalkEnd}

namespace Runs

/-- The table decides each round. -/
theorem unique (run : Runs instructions stop a lookups ending) {lookups' : List Lookup}
    {ending' : WalkEnd} (run' : Runs instructions stop a lookups' ending') :
    lookups' = lookups ∧ ending' = ending := by
  induction run generalizing lookups' ending' with
  | arrived past =>
    cases run' with
    | arrived _ => exact ⟨rfl, rfl⟩
    | missing below _ => omega
    | found below _ _ _ => omega
  | missing below absent =>
    cases run' with
    | arrived past => omega
    | missing _ _ => exact ⟨rfl, rfl⟩
    | found _ found _ _ => rw [absent] at found; cases found
  | found below found advance _ ih =>
    cases run' with
    | arrived past => omega
    | missing _ absent => rw [absent] at found; cases found
    | found _ found' advance' rest' =>
      obtain rfl := Option.some.inj (found.symm.trans found')
      obtain rfl := UInt64.toNat_inj.mp (advance.trans advance'.symm)
      obtain ⟨rfl, rfl⟩ := ih rest'
      exact ⟨rfl, rfl⟩

/-- An advance is one address at least, as the stop is a word itself. -/
theorem lt_of_advance {b e size : Word} (below : a.toNat < e.toNat)
    (advance : b.toNat = min (a.toNat + max 1 size.toNat) (2 ^ 64 - 1)) : a.toNat < b.toNat := by
  have bound := e.toNat_lt
  omega

theorem address_within {e : Word} (run : Runs instructions e.toNat a lookups ending) :
    ∀ l ∈ lookups, a.toNat ≤ l.address.toNat ∧ l.address.toNat < e.toNat := by
  induction run with
  | arrived past => simp
  | missing below _ => simpa using below
  | found below found advance rest ih =>
    have further := lt_of_advance below advance
    refine List.forall_mem_cons.mpr ⟨⟨Nat.le_refl _, below⟩, fun l hl => ?_⟩
    obtain ⟨lower, upper⟩ := ih l hl
    exact ⟨by omega, upper⟩

/-- Every lookup is further on than those before it. -/
theorem ascending {e : Word} (run : Runs instructions e.toNat a lookups ending) :
    lookups.Pairwise (·.address < ·.address) := by
  induction run with
  | arrived past => exact List.Pairwise.nil
  | missing below _ => exact List.pairwise_singleton _ _
  | found below found advance rest ih =>
    have further := lt_of_advance below advance
    refine List.Pairwise.cons (fun l hl => ?_) ih
    have later := (rest.address_within l hl).1
    exact UInt64.lt_iff_toNat_lt.mpr (Nat.lt_of_lt_of_le further later)

theorem answer_eq (run : Runs instructions stop a lookups ending) :
    ∀ l ∈ lookups, l.answer = instructions.get? l.address := by
  induction run with
  | arrived past => simp
  | missing _ absent => simpa using absent.symm
  | found _ found _ _ ih => exact List.forall_mem_cons.mpr ⟨found.symm, ih⟩

/-- At most one lookup fails. -/
theorem length_le_succ (run : Runs instructions stop a lookups ending) :
    lookups.length ≤ (lookups.filter (·.succeeds)).length + 1 := by
  induction run with
  | arrived past => simp
  | missing _ _ => simp
  | found _ _ _ _ ih => simpa [Lookup.succeeds] using ih

/-- Every successful lookup uses up an address below the stop. -/
theorem length_succeeds_le {e : Word} (run : Runs instructions e.toNat a lookups ending) :
    (lookups.filter (·.succeeds)).length ≤ e.toNat - a.toNat := by
  induction run with
  | arrived past => simp
  | missing _ _ => simp [Lookup.succeeds]
  | found below found advance rest ih =>
    have further := lt_of_advance below advance
    rw [List.filter_cons_of_pos rfl, List.length_cons]
    omega

/-- Every successful lookup has an entry of its own. -/
theorem length_succeeds_le_entries {e : Word} (run : Runs instructions e.toNat a lookups ending) :
    (lookups.filter (·.succeeds)).length ≤ (entriesWithin instructions a e.toNat).length := by
  have apart : ((lookups.filter (·.succeeds)).map (·.address)).Nodup := by
    rw [List.Nodup, List.pairwise_map]
    exact (run.ascending.sublist List.filter_sublist).imp UInt64.ne_of_lt
  have entered : (lookups.filter (·.succeeds)).map (·.address) ⊆
      (entriesWithin instructions a e.toNat).map (·.1) := by
    intro address asked
    obtain ⟨l, hl, rfl⟩ := List.mem_map.mp asked
    obtain ⟨hl, success⟩ := List.mem_filter.mp hl
    obtain ⟨i, answer⟩ := Option.isSome_iff_exists.mp success
    have entry := (instructions.mem_entries_iff l.address i).mpr (run.answer_eq l hl ▸ answer)
    have within := run.address_within l hl
    exact List.mem_map.mpr ⟨_, List.mem_filter.mpr ⟨entry, by simpa using within⟩, rfl⟩
  simpa using (apart.subperm entered).length_le

end Runs

/-- The walk is what the rounds make. -/
theorem exists_runs (instructions : InstructionTable) (e a : Word) :
    ∃ lookups, Runs instructions e.toNat a lookups (walk instructions e a).ending ∧
      lookups.filterMap (·.member?) = (walk instructions e a).visited := by
  induction a using walk_induction instructions e with
  | past a notBelow =>
    rw [walk_past notBelow]
    exact ⟨[], .arrived (UInt64.le_iff_toNat_le.mp (UInt64.not_lt.mp notBelow)), rfl⟩
  | missing a below absent =>
    rw [walk_missing below absent]
    exact ⟨[⟨a, none⟩], .missing (UInt64.lt_iff_toNat_lt.mp below) absent, rfl⟩
  | step a i below found ih =>
    obtain ⟨later, rest, members⟩ := ih
    rw [walk_step below found]
    refine ⟨⟨a, some i⟩ :: later,
      .found (UInt64.lt_iff_toNat_lt.mp below) found (toNat_next a i.size) rest, ?_⟩
    simpa [Lookup.member?] using members

/-- Rounds that end without a miss have come to the stop. -/
theorem Runs.stop_le {c : Word} (run : Runs instructions stop a lookups ending)
    (ended : ending = .arrived c) : stop ≤ c.toNat := by
  induction run with
  | arrived past =>
    obtain rfl := WalkEnd.arrived.inj ended
    exact past
  | missing _ _ => cases ended
  | found _ _ _ _ ih => exact ih ended

/-- The overshoot is the exact difference of cursor and end, of which the cursor is the greater. -/
theorem overrun?_of_arrived {s n c : Word}
    (ended : (walk instructions (Population.stop s n) s).ending = .arrived c)
    (past : extent s n ≤ c.toNat) :
    ∃ d : Word, extent s n + d.toNat = c.toNat ∧
      overrun? instructions s n = if d = 0 then none else some ⟨s, n, d⟩ := by
  rw [← toNat_stop] at past ⊢
  have difference := UInt64.toNat_sub_of_le _ _ (UInt64.le_iff_toNat_le.mpr past)
  have same : c - Population.stop s n = 0 ↔ c = Population.stop s n := by
    rw [← UInt64.toNat_inj, ← UInt64.toNat_inj, difference, UInt64.toNat_zero]
    omega
  refine ⟨c - Population.stop s n, by omega, ?_⟩
  rw [overrun?, ended]
  simp only [same]

/-- The walk of a block is over after a number of lookups that the block and the table bound. Each
is further on than the one before; and a walk that misses nothing ends where the block does, or
past it. -/
theorem walk_ends_within_block (instructions : InstructionTable) (s n : Word) :
    ∃ lookups : List Lookup,
      (∀ others ending, Runs instructions (extent s n) s others ending ↔
        others = lookups ∧ ending = (walk instructions (Population.stop s n) s).ending) ∧
      lookups.filterMap (·.member?) = (walk instructions (Population.stop s n) s).visited ∧
      lookups.Pairwise (·.address < ·.address) ∧
      (lookups.filter (·.succeeds)).length ≤
        min n.toNat (entriesWithin instructions s (extent s n)).length ∧
      lookups.length ≤ (lookups.filter (·.succeeds)).length + 1 ∧
      ∀ cursor, (walk instructions (Population.stop s n) s).ending = .arrived cursor →
        extent s n ≤ cursor.toNat ∧ ∃ overshoot : Word,
          extent s n + overshoot.toNat = cursor.toNat ∧
          overrun? instructions s n = if overshoot = 0 then none else some ⟨s, n, overshoot⟩ := by
  obtain ⟨lookups, run, members⟩ := exists_runs instructions (Population.stop s n) s
  have stopped := toNat_stop s n
  have short := run.length_succeeds_le
  have few := run.length_succeeds_le_entries
  refine ⟨lookups, fun others ending => ?_, members, run.ascending, ?_, run.length_le_succ,
    fun cursor ended => ?_⟩
  · rw [← stopped]
    constructor
    · exact run.unique
    · rintro ⟨rfl, rfl⟩
      exact run
  · rw [stopped] at short few
    rw [extent] at short
    exact Nat.le_min.mpr ⟨by omega, few⟩
  · have past := run.stop_le ended
    rw [stopped] at past
    exact ⟨past, overrun?_of_arrived ended past⟩

/-- Three addresses from an instruction without a size: two lookups, the second three past the end. -/
theorem unsized_instruction_is_passed :
    let instructions : InstructionTable := Table.ofList [(0x400, ⟨"nop", 0⟩), (0x401, ⟨"jmp", 5⟩)]
    ∃ lookups, Runs instructions (extent 0x400 3) 0x400 lookups (.arrived 0x406) ∧
      lookups.length ≤ 3 ∧ overrun? instructions 0x400 3 = some ⟨0x400, 3, 3⟩ := by
  intro instructions
  have ended : (walk instructions (Population.stop 0x400 3) 0x400).ending = .arrived 0x406 := by
    decide +kernel
  have entries : (entriesWithin instructions 0x400 (extent 0x400 3)).length = 2 := by
    decide +kernel
  obtain ⟨lookups, runs, _, _, few, single, arrives⟩ := walk_ends_within_block instructions 0x400 3
  obtain ⟨_, overshoot, exact', reported⟩ := arrives 0x406 ended
  have three : overshoot = 3 := by
    rw [← UInt64.toNat_inj]
    exact Nat.add_left_cancel exact'
  rw [three] at reported
  rw [entries] at few
  have two : min (3 : Word).toNat 2 = 2 := by decide
  exact ⟨lookups, (runs _ _).mpr ⟨rfl, ended.symm⟩, by omega, reported⟩

end BasicBlocks.Population

import BasicBlocks.Facts.FactTable

/-!
# Block population

A block is rebuilt by walking the instruction table from the block's start, by one instruction's
size at a time, until its end. Every step has to land on a known instruction. The last step may
overrun the end.
-/

namespace BasicBlocks

structure Member where
  address : Word
  text : String
  deriving DecidableEq, Repr

/-- Members stand in the order of the walk. -/
structure Block where
  start : Word
  members : List Member
  deriving DecidableEq, Repr

namespace Population

/-- A step is at least one, so a walk over sizes of zero still ends. -/
def next (cursor size : Word) : Word := Word.clippedAdd cursor (max size 1)

theorem lt_next {cursor stop : Word} (h : cursor < stop) (size : Word) :
    cursor < next cursor size := by
  have hstop := Word.toNat_lt_bound stop
  rw [UInt64.lt_iff_toNat_lt] at *
  have one : 1 ≤ (max size 1).toNat := by
    rw [← UInt64.toNat_one, ← UInt64.le_iff_toNat_le, UInt64.le_iff_toNat_le]
    simp only [max]
    split
    · exact Nat.le_refl _
    next h => simpa [UInt64.le_iff_toNat_le] using Nat.le_of_lt (Nat.lt_of_not_le h)
  rw [next, Word.toNat_clippedAdd]
  omega

inductive WalkEnd
  /-- The cursor is at the end or past it. -/
  | arrived (cursor : Word)
  | missing (address : Word)
  deriving DecidableEq, Repr

structure Walk where
  visited : List Member
  ending : WalkEnd
  deriving DecidableEq, Repr

def walk (instructions : InstructionTable) (stop cursor : Word) : Walk :=
  if _ : cursor < stop then
    match instructions.get? cursor with
    | none => ⟨[], .missing cursor⟩
    | some i =>
      let rest := walk instructions stop (next cursor i.size)
      { rest with visited := ⟨cursor, i.text⟩ :: rest.visited }
  else ⟨[], .arrived cursor⟩
termination_by stop.toNat - cursor.toNat
decreasing_by
  have := lt_next ‹cursor < stop› i.size
  rw [UInt64.lt_iff_toNat_lt] at *
  omega

/-- The end of a block, clipped to the last word. -/
def stop (start size : Word) : Word := Word.clippedAdd start size

structure Overrun where
  block : Word
  size : Word
  overshoot : Word
  deriving DecidableEq, Repr

structure Gap where
  block : Word
  address : Word
  deriving DecidableEq, Repr

def populateBlock (instructions : InstructionTable) (start size : Word) : Except Gap Block :=
  let w := walk instructions (stop start size) start
  match w.ending with
  | .missing address => .error ⟨start, address⟩
  | .arrived _ => .ok ⟨start, w.visited⟩

def overrun? (instructions : InstructionTable) (start size : Word) : Option Overrun :=
  let last := stop start size
  match (walk instructions last start).ending with
  | .missing _ => none
  | .arrived cursor => if cursor = last then none else some ⟨start, size, cursor - last⟩

/-- Populated blocks, with the overruns met before the first gap. -/
structure Outcome where
  overruns : List Overrun
  result : Except Gap (List Block)

def populateList (instructions : InstructionTable) : List (Word × Word) → Outcome
  | [] => ⟨[], .ok []⟩
  | (start, size) :: rest =>
    match populateBlock instructions start size with
    | .error gap => ⟨[], .error gap⟩
    | .ok block =>
      let later := populateList instructions rest
      ⟨(overrun? instructions start size).toList ++ later.overruns,
        later.result.map (block :: ·)⟩

end Population

/-- All blocks by start, or the first gap in ascending order of the blocks. -/
def populate (blocks : BlockTable) (instructions : InstructionTable) :
    List Population.Overrun × Except Population.Gap (Table Block) :=
  let outcome := Population.populateList instructions blocks.entries
  (outcome.overruns, outcome.result.map fun bs => Table.ofList (bs.map fun b => (b.start, b)))

/-- Which instructions are listed beside the blocks. -/
inductive Scope
  /-- Those that are members of blocks. -/
  | cfg
  | exhaustive
  deriving DecidableEq, Repr

def listing (scope : Scope) (blocks : Table Block) (instructions : InstructionTable) :
    Table String :=
  match scope with
  | .cfg =>
    Table.ofList ((blocks.values.flatMap (·.members)).map fun m => (m.address, m.text))
  | .exhaustive => instructions.map (·.text)

end BasicBlocks

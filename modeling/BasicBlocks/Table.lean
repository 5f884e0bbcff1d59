import BasicBlocks.Word

/-!
# Tables

Finite maps from words, kept in strictly ascending order of the keys, so that two tables with the
same look-ups are equal. Of several entries for one key the last one given stays: a table is made
from the end of a list to its beginning, and a key that is there already is left alone. So a list
that ascends is taken over one step an entry.
-/

namespace BasicBlocks

universe u v

/-- Puts a value at its place in an ascending list, unless its key has one there. -/
def insertAscending {α : Type u} (key : Word) (value : α) : List (Word × α) → List (Word × α)
  | [] => [(key, value)]
  | entry :: rest =>
    if key < entry.1 then (key, value) :: entry :: rest
    else if key = entry.1 then entry :: rest
    else entry :: insertAscending key value rest

def Ascending {α : Type u} (entries : List (Word × α)) : Prop :=
  entries.Pairwise fun a b => a.1 < b.1

theorem mem_insertAscending {α : Type u} {key : Word} {value : α} {e : Word × α}
    {entries : List (Word × α)} (h : e ∈ insertAscending key value entries) :
    e = (key, value) ∨ e ∈ entries := by
  induction entries with
  | nil => simpa [insertAscending] using h
  | cons head rest ih =>
    rw [insertAscending] at h
    split at h
    · simpa using h
    · split at h
      · exact Or.inr h
      · simp only [List.mem_cons] at h ⊢
        rcases h with h | h
        · exact Or.inr (Or.inl h)
        · rcases ih h with h | h
          · exact Or.inl h
          · exact Or.inr (Or.inr h)

theorem Ascending.insertAscending {α : Type u} {entries : List (Word × α)}
    (h : Ascending entries) (key : Word) (value : α) :
    Ascending (insertAscending key value entries) := by
  induction entries with
  | nil => simp [Ascending, BasicBlocks.insertAscending]
  | cons head rest ih =>
    have hrest : Ascending rest := List.Pairwise.of_cons h
    have hhead : ∀ e ∈ rest, head.1 < e.1 := fun e he => List.rel_of_pairwise_cons h he
    rw [BasicBlocks.insertAscending]
    split
    next lower =>
      refine List.Pairwise.cons ?_ h
      intro e he
      rcases List.mem_cons.1 he with rfl | he
      · exact lower
      · exact UInt64.lt_trans lower (hhead e he)
    next notLower =>
      split
      next => exact h
      next different =>
        refine List.Pairwise.cons ?_ (ih hrest)
        intro e he
        rcases mem_insertAscending he with rfl | he
        · exact UInt64.lt_of_le_of_ne (UInt64.not_lt.1 notLower) (Ne.symm different)
        · exact hhead e he

theorem lookup_cons_eq_ite {α : Type u} (k : Word) (e : Word × α) (rest : List (Word × α)) :
    (e :: rest).lookup k = if k = e.1 then some e.2 else rest.lookup k := by
  rw [List.lookup_cons]
  by_cases hk : k = e.1
  · simp [hk]
  · rw [beq_false_of_ne hk, if_neg hk]

theorem lookup_eq_none_of_lt {α : Type u} {key : Word} {entries : List (Word × α)}
    (h : ∀ e ∈ entries, key < e.1) : entries.lookup key = none := by
  rw [List.lookup_eq_none_iff]
  intro e he
  have := UInt64.ne_of_lt (h e he)
  simpa using this

theorem lookup_insertAscending {α : Type u} {entries : List (Word × α)} (h : Ascending entries)
    (key : Word) (value : α) (k : Word) :
    (insertAscending key value entries).lookup k =
      (entries.lookup k).or (if k = key then some value else none) := by
  induction entries with
  | nil => simp [insertAscending, lookup_cons_eq_ite]
  | cons head rest ih =>
    have hrest : Ascending rest := List.Pairwise.of_cons h
    have hhead : ∀ e ∈ rest, head.1 < e.1 := fun e he => List.rel_of_pairwise_cons h he
    rw [BasicBlocks.insertAscending]
    split
    next lower =>
      have above : ∀ e ∈ head :: rest, key < e.1 := by
        intro e he
        rcases List.mem_cons.1 he with rfl | he
        · exact lower
        · exact UInt64.lt_trans lower (hhead e he)
      rw [lookup_cons_eq_ite]
      split
      next same => rw [same, lookup_eq_none_of_lt above, Option.none_or]
      next => rw [Option.or_none]
    next =>
      split
      next same =>
        rw [lookup_cons_eq_ite, same]
        split <;> simp
      next =>
        rw [lookup_cons_eq_ite, lookup_cons_eq_ite, ih hrest]
        split <;> simp

structure Table (α : Type u) where
  entries : List (Word × α)
  ascending : Ascending entries

namespace Table

variable {α : Type u} {β : Type v}

instance [DecidableEq α] : DecidableEq (Table α) := fun a b =>
  if h : a.entries = b.entries then
    isTrue (by cases a; cases b; cases h; rfl)
  else isFalse (fun e => h (e ▸ rfl))

def empty : Table α := ⟨[], List.Pairwise.nil⟩

instance : Inhabited (Table α) := ⟨empty⟩

def get? (t : Table α) (key : Word) : Option α := t.entries.lookup key

/-- Adds an entry unless its key is present. -/
def insertIfNew (t : Table α) (key : Word) (value : α) : Table α :=
  ⟨insertAscending key value t.entries, t.ascending.insertAscending key value⟩

/-- Of several values for one key the last stays. -/
def ofList (entries : List (Word × α)) : Table α :=
  entries.foldr (fun e t => t.insertIfNew e.1 e.2) empty

theorem get?_insertIfNew (t : Table α) (key : Word) (value : α) (k : Word) :
    (t.insertIfNew key value).get? k =
      (t.get? k).or (if k = key then some value else none) :=
  lookup_insertAscending t.ascending key value k

theorem get?_ofList (entries : List (Word × α)) (k : Word) :
    (ofList entries).get? k = entries.reverse.lookup k := by
  induction entries with
  | nil => rfl
  | cons e rest ih =>
    have step : ofList (e :: rest) = (ofList rest).insertIfNew e.1 e.2 := rfl
    rw [step, get?_insertIfNew, ih, List.reverse_cons, List.lookup_append]
    rw [lookup_cons_eq_ite, List.lookup_nil]

def keys (t : Table α) : List Word := t.entries.map (·.1)

def values (t : Table α) : List α := t.entries.map (·.2)

def size (t : Table α) : Nat := t.entries.length

def isEmpty (t : Table α) : Bool := t.entries.isEmpty

def map (f : α → β) (t : Table α) : Table β :=
  ⟨t.entries.map fun e => (e.1, f e.2), by
    unfold Ascending
    rw [List.pairwise_map]
    exact t.ascending⟩

end Table
end BasicBlocks

import BasicBlocks.Fault
import BasicBlocks.Text.Utf8

/-!
# File systems

A file system is what lies at which location. A location is the names that lead to it from the
root; the root itself is always a directory. Nothing is said of owners and times.
-/

namespace BasicBlocks

abbrev Location := List String

inductive Entry
  | directory
  | file (contents : Utf8.Bytes) (executable : Bool)
  /-- Leads on to where this path leads from the directory that holds the link. -/
  | link (target : String)
  deriving DecidableEq, Repr

structure FileSystem where
  /-- Where relative paths begin. -/
  current : Location
  entries : List (Location × Entry)
  deriving DecidableEq, Repr

namespace FileSystem

def get? (fs : FileSystem) (place : Location) : Option Entry :=
  if place = [] then some .directory else fs.entries.lookup place

/-- Replaces what was there. -/
def put (fs : FileSystem) (place : Location) (entry : Entry) : FileSystem :=
  { fs with entries := (place, entry) :: fs.entries.filter (·.1 ≠ place) }

/-- Removes what lies at a location or below it. -/
def prune (fs : FileSystem) (place : Location) : FileSystem :=
  { fs with entries := fs.entries.filter (!place.isPrefixOf ·.1) }

/-- What lies below a location, under the names that lead there from it. -/
def below (fs : FileSystem) (place : Location) : List (Location × Entry) :=
  fs.entries.filterMap fun e =>
    if place.isPrefixOf e.1 && place ≠ e.1 then some (e.1.drop place.length, e.2) else none

/-- The names in a directory. -/
def names (fs : FileSystem) (place : Location) : List String :=
  (fs.below place).filterMap fun e =>
    match e.1 with
    | [name] => some name
    | _ => none

theorem get?_root (fs : FileSystem) : fs.get? [] = some .directory := by simp [get?]

theorem lookup_filter {α β : Type} [BEq α] [LawfulBEq α] (p : α → Bool) (entries : List (α × β))
    (a : α) : (entries.filter (p ·.1)).lookup a = if p a then entries.lookup a else none := by
  induction entries with
  | nil => simp
  | cons e rest ih =>
    obtain ⟨key, value⟩ := e
    by_cases ha : a = key
    · subst ha
      by_cases hp : p a <;> simp [hp, ih]
    · have hne : (a == key) = false := by simpa using ha
      by_cases hp : p key <;> simp [hp, ih, List.lookup_cons, hne]

theorem get?_put (fs : FileSystem) (place other : Location) (entry : Entry) (h : place ≠ []) :
    (fs.put place entry).get? other = if other = place then some entry else fs.get? other := by
  unfold get? put
  by_cases ho : other = place
  · subst ho
    simp [h]
  · have hne : (other == place) = false := by simpa using ho
    rw [if_neg ho, List.lookup_cons, hne, lookup_filter (fun l => decide (l ≠ place))]
    simp [ho]

theorem get?_prune (fs : FileSystem) (place other : Location) (h : other ≠ []) :
    (fs.prune place).get? other = if place.isPrefixOf other then none else fs.get? other := by
  unfold get? prune
  have := lookup_filter (fun l => !place.isPrefixOf l) fs.entries other
  rw [if_neg h, if_neg h, this]
  by_cases hp : place.isPrefixOf other <;> simp [hp]

end FileSystem
end BasicBlocks

import BasicBlocks.Log.Record
import BasicBlocks.Text.Blank
import BasicBlocks.Text.Split

/-!
# Log filters

Which records are logged. A filter is a list of directives, each a level for the targets that begin
with a name; the longest name that fits decides, and of two equal names the later one.
-/

namespace BasicBlocks.Log

structure Directive where
  target : String
  /-- The highest rank that is logged. -/
  rank : Nat
  deriving DecidableEq, Repr

structure Filter where
  directives : List Directive
  deriving DecidableEq, Repr

namespace Filter

def rankNames : List (String × Nat) :=
  [("off", 0), ("error", 1), ("warn", 2), ("info", 3), ("debug", 4), ("trace", 5)]

def rank? (name : String) : Option Nat :=
  match rankNames.lookup name.toLower with
  | some rank => some rank
  | none => (Numeral.read? 10 name.toList).filter (· ≤ 5)

/-- The rank of a target without one. -/
def fullRank : Nat := 5

def isTargetChar (c : Char) : Bool := c.isAlphanum || c = '_' || c = ':' || c = '-'

/-- A level, a target, or both; nothing where a directive is neither. A directive for spans, in
brackets, concerns no record. -/
def directive? (text : List Char) : Option (List Directive) :=
  let cs := Text.trim text
  let name := cs.takeWhile isTargetChar
  match cs.drop name.length with
  | [] =>
    if name.isEmpty then none
    else
      match rank? (String.ofList name) with
      | some rank => some [⟨"", rank⟩]
      | none => some [⟨String.ofList name, fullRank⟩]
  | '=' :: rest =>
    if name.isEmpty then none
    else if rest.isEmpty then some [⟨String.ofList name, fullRank⟩]
    else (rank? (String.ofList rest)).map fun rank => [⟨String.ofList name, rank⟩]
  | '[' :: rest => if rest.contains ']' then some [] else none
  | _ => none

def default : Filter := ⟨[⟨"", 3⟩]⟩

/-- The filter that a text describes; an empty text keeps errors only. -/
def read? (text : String) : Option Filter :=
  let pieces := (Split.pieces ',' text.toList).filter (!·.isEmpty)
  if pieces.isEmpty then some ⟨[⟨"", 1⟩]⟩
  else (pieces.mapM directive?).map fun directives => ⟨directives.flatten⟩

/-- The filter of a text, if there is one that describes a filter. -/
def ofText (text : Option String) : Filter := (text.bind read?).getD .default

/-- The directive that decides about a target. -/
def deciding? (f : Filter) (target : String) : Option Directive :=
  f.directives.foldl (fun best d =>
    if d.target.toList.isPrefixOf target.toList then
      match best with
      | none => some d
      | some b => if b.target.length ≤ d.target.length then some d else best
    else best) none

def admits (f : Filter) (level : Level) (target : String) : Bool :=
  match f.deciding? target with
  | none => false
  | some d => level.rank ≤ d.rank

/-- The entry of an event, if it is logged. -/
def entry (f : Filter) (span : Option Span) (event : Event) : Option Entry :=
  let record := Record.ofEvent event
  if f.admits record.level record.target then
    some ⟨record, if f.admits Span.level Span.target then span else none⟩
  else none

end Filter
end BasicBlocks.Log

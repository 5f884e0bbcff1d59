import BasicBlocks.FileSystem.Access

/-!
# Shell patterns

A pattern is a text some of whose characters are active: a star matches any text, a question mark
any character, and brackets any character that they list.
-/

namespace BasicBlocks.Shell

/-- A character of a text, and whether it is taken literally. -/
structure Mark where
  char : Char
  literal : Bool
  deriving DecidableEq, Repr

namespace Pattern

def isActive (m : Mark) : Bool := !m.literal && ['*', '?', '['].contains m.char

/-- Whether a character is in a list with ranges. -/
def inList (c : Char) : List Char → Bool
  | lo :: '-' :: hi :: rest => (lo.toNat ≤ c.toNat && c.toNat ≤ hi.toNat) || inList c rest
  | x :: rest => x = c || inList c rest
  | [] => false

/-- The list between brackets, whether it is negated, and what follows it. -/
def bracket? (marks : List Mark) : Option (Bool × List Char × List Mark) :=
  let (negated, body) := match marks with
    | ⟨'!', false⟩ :: rest => (true, rest)
    | _ => (false, marks)
  let first := body.take 1
  let more := (body.drop 1).takeWhile (·.char ≠ ']')
  match (body.drop 1).drop more.length with
  | _ :: rest => some (negated, (first ++ more).map (·.char), rest)
  | [] => none

def accepts : Nat → List Mark → List Char → Bool
  | 0, _, _ => false
  | _, [], cs => cs.isEmpty
  | n + 1, ⟨'*', false⟩ :: ms, cs =>
    accepts n ms cs ||
      match cs with
      | [] => false
      | _ :: rest => accepts n (⟨'*', false⟩ :: ms) rest
  | n + 1, ⟨'?', false⟩ :: ms, cs =>
    match cs with
    | [] => false
    | _ :: rest => accepts n ms rest
  | n + 1, ⟨'[', false⟩ :: ms, cs =>
    match bracket? ms, cs with
    | some (negated, listed, ms), c :: rest => (inList c listed != negated) && accepts n ms rest
    | some _, [] => false
    | none, c :: rest => c = '[' && accepts n ms rest
    | none, [] => false
  | n + 1, m :: ms, cs =>
    match cs with
    | [] => false
    | c :: rest => m.char = c && accepts n ms rest

def fits (pattern : List Mark) (cs : List Char) : Bool :=
  accepts (pattern.length + cs.length + 1) pattern cs

/-- The text without its shortest or longest match at the front. -/
def trimFront (pattern : List Mark) (longest : Bool) (cs : List Char) : List Char :=
  let cuts := List.range (cs.length + 1)
  let cuts := if longest then cuts.reverse else cuts
  match cuts.find? fun n => fits pattern (cs.take n) with
  | some n => cs.drop n
  | none => cs

def trimEnd (pattern : List Mark) (longest : Bool) (cs : List Char) : List Char :=
  let cuts := List.range (cs.length + 1)
  let cuts := if longest then cuts else cuts.reverse
  match cuts.find? fun n => fits pattern (cs.drop n) with
  | some n => cs.take n
  | none => cs

def splitMarks : List Mark → List (List Mark)
  | [] => [[]]
  | m :: ms =>
    if m.char = '/' then [] :: splitMarks ms
    else
      match splitMarks ms with
      | [] => [[m]]
      | piece :: rest => (m :: piece) :: rest

def plain (ms : List Mark) : String := String.ofList (ms.map (·.char))

/-- The paths that continue a path by one piece of a pattern. -/
def extend (fs : FileSystem) (isLast : Bool) (path : String) (piece : List Mark) : List String :=
  if piece.any isActive then
    let names := (fs.list (if path.isEmpty then "." else path)).toOption.getD []
    let hidden := piece.head?.any (·.char = '.')
    let found := names.filter fun name =>
      (hidden || name.toList.head? ≠ some '.') && fits piece name.toList
    (found.mergeSort fun a b => !(b < a)).map (path ++ ·)
  else
    let next := path ++ plain piece
    if isLast && !next.isEmpty && (fs.find next).toOption.isNone then [] else [next]

def extendAll (fs : FileSystem) (paths : List String) : List (List Mark) → List String
  | [] => paths
  | [piece] => paths.flatMap (extend fs true · piece)
  | piece :: rest =>
    extendAll fs ((paths.flatMap (extend fs false · piece)).map (· ++ "/")) rest

/-- The paths that match, in order, or the pattern itself where none does. -/
def paths (fs : FileSystem) (pattern : List Mark) : List String :=
  if pattern.any isActive then
    let found := extendAll fs [""] (splitMarks pattern)
    if found.isEmpty then [plain pattern] else found
  else [plain pattern]

end Pattern
end BasicBlocks.Shell

import BasicBlocks.Text.Split

/-!
# Paths

A path is a text; its pieces are what stands between slashes, and its components are the pieces that
say something. Empty pieces say nothing, nor does a dot, except in front. Joining keeps both texts
as they are; stripping compares components and keeps what is left as it is written.
-/

namespace BasicBlocks.Path

inductive Component
  | root
  /-- The dot that a path begins with. -/
  | here
  | up
  | name (text : String)
  deriving DecidableEq, Repr

/-- What stands between slashes. -/
def pieces (path : String) : List (List Char) := Split.pieces '/' path.toList

def isAbsolute (path : String) : Bool := path.toList.head? = some '/'

/-- A piece that says nothing inside a path. -/
def isVoid (piece : List Char) : Bool := piece = [] || piece = ['.']

def Component.ofPiece (piece : List Char) : Component :=
  if piece = ['.', '.'] then .up else .name (String.ofList piece)

/-- How a path begins: at the root, at a dot, or neither; and the pieces after that. -/
def front (path : String) : Option Component × List (List Char) :=
  match pieces path with
  | [] => (none, [])
  | piece :: rest =>
    if isAbsolute path then (some .root, rest)
    else if piece = ['.'] then (some .here, rest)
    else (none, piece :: rest)

def components (path : String) : List Component :=
  let (first, body) := front path
  first.toList ++ (body.filter (!isVoid ·)).map .ofPiece

/-- One slash between two paths, unless the left one ends in a slash or is empty; an absolute path
on the right stands alone. -/
def join (left right : String) : String :=
  if isAbsolute right then right
  else
    match left.toList.getLast? with
    | none => right
    | some '/' => left ++ right
    | some _ => left ++ "/" ++ right

def trimBody (body : List (List Char)) : List (List Char) :=
  (body.reverse.dropWhile isVoid).reverse

/-- The text of a path that begins in this way. -/
def assemble (first : Option Component) (body : List (List Char)) : String :=
  match first with
  | some .root => if body.isEmpty then "/" else String.ofList (Split.joined '/' ([] :: body))
  | some _ => String.ofList (Split.joined '/' (['.'] :: body))
  | none => String.ofList (Split.joined '/' body)

/-- The path without its last component. -/
def parent? (path : String) : Option String :=
  let (first, body) := front path
  let kept := trimBody body
  if kept.isEmpty then if first = some .here then some "" else none
  else some (assemble first (trimBody kept.dropLast))

def ancestorsUpTo : Nat → String → List String
  | 0, _ => []
  | n + 1, path =>
    path ::
      match parent? path with
      | none => []
      | some above => ancestorsUpTo n above

/-- The path, its parent, and so on. -/
def ancestors (path : String) : List String := ancestorsUpTo ((components path).length + 1) path

/-- The pieces after so many components. -/
def dropComponents : Nat → List (List Char) → List (List Char)
  | 0, body => body.dropWhile isVoid
  | n + 1, body =>
    match body.dropWhile isVoid with
    | [] => []
    | _ :: rest => dropComponents n rest

/-- What follows the components of `base` in a path that begins with them. -/
def strip? (path base : String) : Option String :=
  let (first, body) := front path
  let wanted := components base
  if wanted.isPrefixOf (components path) then
    match wanted.length with
    | 0 => some (assemble first (trimBody body))
    | n + 1 =>
      let n := if first.isSome then n else n + 1
      some (String.ofList (Split.joined '/' (trimBody (dropComponents n body))))
  else none

/-- The last component, if it is a name. -/
def fileName? (path : String) : Option String :=
  match (components path).getLast? with
  | some (.name text) => some text
  | _ => none

/-- What follows the last dot of the file name, if that does not begin with it. -/
def extension? (path : String) : Option String := do
  let name ← fileName? path
  let chars := name.toList.reverse
  let last := chars.takeWhile (· ≠ '.')
  match chars.drop last.length with
  | '.' :: _ :: _ => some (String.ofList last.reverse)
  | _ => none

end BasicBlocks.Path

import BasicBlocks.FileSystem
import BasicBlocks.Path

/-!
# Access to files

What a path denotes, and what can be done there. A path is walked piece by piece from the root or
from the current directory. Whatever is walked through has to be a directory, also where a piece
says nothing, so only a directory can be named with a slash at the end. The last location of a walk
may be vacant. Where a walk comes to a link it goes on along the link's own path, and only what
makes or removes an entry takes a link at the end of a path as it is.
-/

namespace BasicBlocks

open Utf8 (Bytes)

/-- The path of a location, without redundancy. -/
def Location.path (place : Location) : String :=
  if place = [] then "/" else String.join (place.map ("/" ++ ·))

/-- Where the walk along a path begins that is taken from here. -/
def Path.origin (here : Location) (path : String) : Location := if isAbsolute path then [] else here

namespace FileSystem

/-- The most bytes in a name. -/
def nameLimit : Nat := 255

/-- The bound on the bytes of a path. -/
def pathBound : Nat := 4096

/-- The most links that are followed on the way of a path. -/
def linkLimit : Nat := 40

def walkStep (fs : FileSystem) (here : Location) (piece : List Char) : Except IoFault Location :=
  match fs.get? here with
  | none => .error .notFound
  | some (.file ..) | some (.link _) => .error .notADirectory
  | some .directory =>
    if Path.isVoid piece then .ok here
    else if piece = ['.', '.'] then .ok here.dropLast
    else
      let name := String.ofList piece
      if nameLimit < name.utf8ByteSize then .error .nameTooLong else .ok (here ++ [name])

def start (fs : FileSystem) (path : String) : Except IoFault Location :=
  if path.toList.contains '\x00' then .error .nulInName
  else if path.isEmpty then .error .notFound
  else if pathBound ≤ path.utf8ByteSize then .error .nameTooLong
  else .ok (Path.origin fs.current path)

/-- Walks on from here, up to a link that is left to `follow` with all that comes after it. -/
def walkOn (fs : FileSystem)
    (follow : Location → List (List Char) → Except IoFault Location) :
    Location → List (List Char) → Except IoFault Location
  | here, [] => .ok here
  | here, piece :: rest => do
    let next ← fs.walkStep here piece
    match fs.get? next with
    | some (.link target) => follow (Path.origin here target) (Path.pieces target ++ rest)
    | _ => fs.walkOn follow next rest

/-- Walks on from here, along no more links than so many. -/
def walkWithin (fs : FileSystem) : Nat → Location → List (List Char) → Except IoFault Location
  | 0 => fs.walkOn fun _ _ => .error .tooManyLinks
  | n + 1 => fs.walkOn (fs.walkWithin n)

def walk (fs : FileSystem) (here : Location) (pieces : List (List Char)) :
    Except IoFault Location :=
  fs.walkWithin linkLimit here pieces

def locate (fs : FileSystem) (path : String) : Except IoFault Location := do
  fs.walk (← fs.start path) (Path.pieces path)

def find (fs : FileSystem) (path : String) : Except IoFault (Location × Entry) := do
  let place ← fs.locate path
  match fs.get? place with
  | none => .error .notFound
  | some entry => .ok (place, entry)

def isFile (fs : FileSystem) (path : String) : Bool :=
  match fs.find path with
  | .ok (_, .file ..) => true
  | _ => false

def isDirectory (fs : FileSystem) (path : String) : Bool :=
  match fs.find path with
  | .ok (_, .directory) => true
  | _ => false

/-- The path of the current directory, as long as it is there. -/
def currentPath (fs : FileSystem) : Except IoFault String :=
  if fs.get? fs.current = some .directory then .ok fs.current.path else .error .notFound

/-- A path from the root, whatever the current directory. -/
def absolute (fs : FileSystem) (path : String) : Except IoFault String := do
  if Path.isAbsolute path then return path else return Path.join (← fs.currentPath) path

/-- The one path of what is found at a path. -/
def canonical (fs : FileSystem) (path : String) : Except IoFault String := do
  return (← fs.find path).1.path

/-- The canonical path, or the path seen from the current directory where nothing is found. -/
def resolve (fs : FileSystem) (path : String) : Except IoFault String := do
  if Path.components path = [.here] then fs.currentPath
  else
    match fs.canonical path with
    | .ok found => return found
    | .error _ => return Path.join (← fs.currentPath) path

def read (fs : FileSystem) (path : String) : Except IoFault Bytes := do
  match (← fs.find path).2 with
  | .file contents _ => .ok contents
  | _ => .error .isADirectory

/-- The pieces of a path without the empty ones at its end. -/
def namingPieces (path : String) : List (List Char) :=
  ((Path.pieces path).reverse.dropWhile (· = [])).reverse

/-- Where something may be made that a path names: a location whose directory exists. -/
def slot (fs : FileSystem) (path : String) : Except IoFault Location := do
  let here ← fs.start path
  match (namingPieces path).getLast? with
  | none => return here
  | some piece => fs.walkStep (← fs.walk here (namingPieces path).dropLast) piece

/-- What lies in the directory under the name that a path ends in. -/
def entryAt (fs : FileSystem) (path : String) : Except IoFault (Location × Entry) := do
  let place ← fs.slot path
  match fs.get? place with
  | none => .error .notFound
  | some .directory => .ok (place, .directory)
  | some entry =>
    if path.toList.getLast? = some '/' then .error .notADirectory else .ok (place, entry)

/-- A file keeps its mode when its contents are replaced. A link is written through. -/
def write (fs : FileSystem) (path : String) (contents : Bytes) : Except IoFault FileSystem := do
  let place ← fs.walk (← fs.start path) (namingPieces path)
  if path.toList.getLast? = some '/' then .error .isADirectory
  else
    match fs.get? place with
    | some .directory => .error .isADirectory
    | some (.file _ executable) => .ok (fs.put place (.file contents executable))
    | _ => .ok (fs.put place (.file contents false))

/-- Makes a file that was not there. -/
def createFile (fs : FileSystem) (path : String) (contents : Bytes) :
    Except IoFault FileSystem := do
  let place ← fs.slot path
  if path.toList.getLast? = some '/' then .error .isADirectory
  else
    match fs.get? place with
    | some _ => .error .alreadyExists
    | none => .ok (fs.put place (.file contents false))

def makeDirectory (fs : FileSystem) (path : String) : Except IoFault FileSystem := do
  let place ← fs.slot path
  match fs.get? place with
  | some _ => .error .alreadyExists
  | none => .ok (fs.put place .directory)

/-- Makes a link that was not there. -/
def makeLink (fs : FileSystem) (path target : String) : Except IoFault FileSystem := do
  let place ← fs.slot path
  if target.isEmpty || path.toList.getLast? = some '/' then .error .notFound
  else
    match fs.get? place with
    | some _ => .error .alreadyExists
    | none => .ok (fs.put place (.link target))

/-- Makes the first of these directories, after the others where it has no place yet. What has been
made is kept when a later one fails. -/
def makeFirst (fs : FileSystem) : List String → FileSystem × Except IoFault Unit
  | [] => (fs, .ok ())
  | path :: above =>
    if path.isEmpty then (fs, .ok ())
    else
      match fs.makeDirectory path with
      | .ok made => (made, .ok ())
      | .error .alreadyExists =>
        if fs.isDirectory path then (fs, .ok ()) else (fs, .error .alreadyExists)
      | .error .notFound =>
        match fs.makeFirst above with
        | (made, .error cause) => (made, .error cause)
        | (made, .ok ()) =>
          match made.makeDirectory path with
          | .ok made => (made, .ok ())
          | .error .alreadyExists =>
            if made.isDirectory path then (made, .ok ()) else (made, .error .alreadyExists)
          | .error cause => (made, .error cause)
      | .error cause => (fs, .error cause)

/-- Makes a directory and those above it that are missing. -/
def makeDirectories (fs : FileSystem) (path : String) : FileSystem × Except IoFault Unit :=
  fs.makeFirst (Path.ancestors path)

/-- Removes a file, or a link and not what it leads to. -/
def removeFile (fs : FileSystem) (path : String) : Except IoFault FileSystem := do
  let (place, entry) ← fs.entryAt path
  match entry with
  | .directory => .error .isADirectory
  | _ => .ok (fs.prune place)

/-- Removes a directory with all it holds, or a link and not what it leads to. -/
def removeDirectory (fs : FileSystem) (path : String) : Except IoFault FileSystem := do
  let (place, entry) ← fs.entryAt path
  match entry with
  | .file .. => .error .notADirectory
  | _ => .ok (fs.prune place)

/-- The names in the directory at a path. -/
def list (fs : FileSystem) (path : String) : Except IoFault (List String) := do
  let (place, entry) ← fs.find path
  match entry with
  | .directory => .ok (fs.names place)
  | _ => .error .notADirectory

end FileSystem
end BasicBlocks

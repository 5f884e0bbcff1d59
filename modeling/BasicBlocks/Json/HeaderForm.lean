import BasicBlocks.Header
import BasicBlocks.Json.Decoding

/-!
# Headers in JSON
-/

namespace BasicBlocks

open Json

def Format.names : List (String × Format) :=
  [("Elf", .elf), ("Pe", .pe), ("MachO", .machO), ("Unknown", .unknown)]

def Format.name : Format → String
  | .elf => "Elf"
  | .pe => "Pe"
  | .machO => "MachO"
  | .unknown => "Unknown"

def ObjectKind.names : List (String × ObjectKind) :=
  [("shared_object", .sharedObject), ("executable", .executable), ("relocatable", .relocatable),
    ("core", .core), ("unknown", .unknown)]

def ObjectKind.name : ObjectKind → String
  | .sharedObject => "shared_object"
  | .executable => "executable"
  | .relocatable => "relocatable"
  | .core => "core"
  | .unknown => "unknown"

namespace Section

def toJson (s : Section) : Json :=
  .object [("name", ofText s.name), ("address", ofWord s.address), ("size", ofWord s.size),
    ("offset", ofWord s.offset)]

def ofJson? (level : Nat) (j : Json) : Option Section := do
  match ← asFields? level ["name", "address", "size", "offset"] j with
  | [some name, some address, some size, some offset] =>
    return { name := ← asText? name, address := ← asWord? address, size := ← asWord? size,
             offset := ← asWord? offset }
  | _ => none

end Section

namespace Header

def toJson (h : Header) : Json :=
  .object [("format", ofText h.format.name), ("kind", ofText h.kind.name),
    ("is_64", .bool h.is64), ("entry", ofOptional ofWord h.entry),
    ("sections", .array (h.sections.map Section.toJson))]

/-- Only the entry may be missing. -/
def ofJson? (j : Json) : Option Header := do
  match ← asFields? 1 ["format", "kind", "is_64", "entry", "sections"] j with
  | [some format, some kind, some is64, entry, some sections] =>
    return { format := ← asCase? 2 Format.names format, kind := ← asCase? 2 ObjectKind.names kind,
             is64 := ← asBool? is64, entry := ← asOptional? asWord? (entry.getD .null),
             sections := ← asList? 2 (Section.ofJson? 3) sections }
  | _ => none

end Header
end BasicBlocks

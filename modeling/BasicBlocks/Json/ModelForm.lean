import BasicBlocks.Json.Decoding
import BasicBlocks.Model

/-!
# Blocks and models in JSON

Tables are objects whose keys are numbers in quotes.
-/

namespace BasicBlocks

open Json

namespace Member

def toJson (m : Member) : Json :=
  .object [("address", ofWord m.address), ("text", ofText m.text)]

def ofJson? (level : Nat) (j : Json) : Option Member := do
  match ← asFields? level ["address", "text"] j with
  | [some address, some text] => return ⟨← asWord? address, ← asText? text⟩
  | _ => none

end Member

namespace Block

def toJson (b : Block) : Json :=
  .object [("start", ofWord b.start), ("members", .array (b.members.map Member.toJson))]

def ofJson? (level : Nat) (j : Json) : Option Block := do
  match ← asFields? level ["start", "members"] j with
  | [some start, some members] =>
    return ⟨← asWord? start, ← asList? (level + 1) (Member.ofJson? (level + 2)) members⟩
  | _ => none

end Block

namespace Reconciled

def toJson (r : Reconciled) : Json :=
  .object [("instructions", ofTable ofText r.instructions),
    ("original_blocks", ofTable Block.toJson r.blocks)]

def ofJson? (j : Json) : Option Reconciled := do
  match ← asFields? 1 ["instructions", "original_blocks"] j with
  | [some instructions, some blocks] =>
    return ⟨← asTable? 2 asText? instructions, ← asTable? 2 (Block.ofJson? 3) blocks⟩
  | _ => none

end Reconciled

namespace Meta

def toJson (o : Meta) : Json :=
  .object [("tool_name", ofText o.toolName), ("tool_version", ofText o.toolVersion),
    ("source_version", ofText o.sourceVersion), ("elapsed_time", ofFloat o.elapsedSeconds),
    ("extracted_at", ofText o.extractedAt)]

def ofJson? (level : Nat) (j : Json) : Option Meta := do
  let names := ["tool_name", "tool_version", "source_version", "elapsed_time", "extracted_at"]
  match ← asFields? level names j with
  | [some toolName, some toolVersion, some sourceVersion, some elapsed, some extractedAt] =>
    return { toolName := ← asText? toolName, toolVersion := ← asText? toolVersion,
             sourceVersion := ← asText? sourceVersion, elapsedSeconds := ← asFloat? elapsed,
             extractedAt := ← asText? extractedAt }
  | _ => none

end Meta

namespace Model

def toJson (m : Model) : Json :=
  .object [("meta", m.origin.toJson), ("instructions", ofTable ofText m.instructions),
    ("original_blocks", ofTable Block.toJson m.blocks), ("data", ofTable id m.data)]

/-- Only the data may be missing. -/
def ofJson? (j : Json) : Option Model := do
  match ← asFields? 1 ["meta", "instructions", "original_blocks", "data"] j with
  | [some origin, some instructions, some blocks, data] =>
    return { origin := ← Meta.ofJson? 2 origin
             instructions := ← asTable? 2 asText? instructions
             blocks := ← asTable? 2 (Block.ofJson? 3) blocks
             data := ← asTable? 2 (canonical? 3) (data.getD (.object [])) }
  | _ => none

end Model
end BasicBlocks

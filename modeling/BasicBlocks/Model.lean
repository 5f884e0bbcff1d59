import BasicBlocks.Json.Document
import BasicBlocks.Reconciliation

/-!
# Models

The complete result of a run: the listing and the blocks, and how they came about.
-/

namespace BasicBlocks

/-- The version of the layout of models. -/
def sourceVersion : String := "0.1"

structure Meta where
  toolName : String
  toolVersion : String
  sourceVersion : String
  elapsedSeconds : Float
  extractedAt : String

structure Model where
  origin : Meta
  instructions : Table String
  blocks : Table Block
  /-- Reserved for references to data. -/
  data : Table Json

def Model.block? (m : Model) (start : Word) : Option Block := m.blocks.get? start

end BasicBlocks

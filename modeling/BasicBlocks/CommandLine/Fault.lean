import BasicBlocks.Digest.FileDigest
import BasicBlocks.Fault
import BasicBlocks.Text.Split

/-!
# Failures of commands

Why a command fails, told from the outermost cause to the innermost.
-/

namespace BasicBlocks

inductive CommandFault
  | noCurrentDirectory (cause : IoFault)
  | binaryMissing (path : String)
  | header (fault : Fault)
  | digest (fault : DigestFault)
  | config (path : String) (fault : Fault)
  | extraction (path : String) (fault : Fault)
  | reconciliation (instructions blocks : String) (fault : Fault)
  | output (path : String) (cause : IoFault)
  deriving DecidableEq, Repr

namespace CommandFault

def faultChain (f : Fault) : List String := f.message :: (f.cause?.map IoFault.message).toList

def chain : CommandFault → List String
  | .noCurrentDirectory cause => ["Failed to get current directory", cause.message]
  | .binaryMissing path => ["Binary file does not exist: " ++ path]
  | .header fault => faultChain fault
  | .digest fault => [fault.message, fault.cause.message]
  | .config path fault => ("Failed to load extractor config " ++ path) :: faultChain fault
  | .extraction path fault => ("Extraction failed for " ++ path) :: faultChain fault
  | .reconciliation instructions blocks fault =>
    ("Failed to reconcile " ++ instructions ++ " with " ++ blocks) :: faultChain fault
  | .output path cause => ["Failed to write " ++ path, cause.message]

/-- A text whose first line follows a mark and whose other lines follow a margin. -/
def indented (mark margin text : String) : String :=
  let lines := (Split.pieces '\n' text.toList).map String.ofList
  mark ++ ("\n" ++ margin).intercalate lines

def numberMark (n : Nat) : String :=
  let digits := Numeral.decimal n
  String.ofList (List.replicate (5 - digits.length) ' ') ++ digits ++ ": "

/-- Several causes are numbered; a single one is not. -/
def causeLines : List String → List String
  | [] => []
  | [cause] => [indented "    " "    " cause]
  | causes => causes.mapIdx fun n cause => indented (numberMark n) "       " cause

def render (f : CommandFault) : String :=
  match f.chain with
  | [] => "Error: \n"
  | [top] => "Error: " ++ top ++ "\n"
  | top :: causes =>
    "Error: " ++ top ++ "\n\nCaused by:\n" ++ "\n".intercalate (causeLines causes) ++ "\n"

end CommandFault
end BasicBlocks

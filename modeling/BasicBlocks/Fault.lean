import BasicBlocks.Text.Numeral

/-!
# Failures

Every way in which a run can fail. A failure leaves no partial result. Each has one wording.
-/

namespace BasicBlocks

/-- Why the file system refused an operation. -/
inductive IoFault
  | notFound
  | permissionDenied
  | execFormat
  | alreadyExists
  | notADirectory
  | isADirectory
  | nameTooLong
  | directoryNotEmpty
  | tooManyLinks
  | invalidText
  | nulInName
  deriving DecidableEq, Repr

def IoFault.reason : IoFault → String
  | .notFound => "No such file or directory"
  | .permissionDenied => "Permission denied"
  | .execFormat => "Exec format error"
  | .alreadyExists => "File exists"
  | .notADirectory => "Not a directory"
  | .isADirectory => "Is a directory"
  | .nameTooLong => "File name too long"
  | .directoryNotEmpty => "Directory not empty"
  | .tooManyLinks => "Too many levels of symbolic links"
  | .invalidText => "stream did not contain valid UTF-8"
  | .nulInName => "file name contained an unexpected NUL byte"

/-- The number of a fault that the system itself reports. -/
def IoFault.number? : IoFault → Option Nat
  | .notFound => some 2
  | .permissionDenied => some 13
  | .execFormat => some 8
  | .alreadyExists => some 17
  | .notADirectory => some 20
  | .isADirectory => some 21
  | .nameTooLong => some 36
  | .directoryNotEmpty => some 39
  | .tooManyLinks => some 40
  | .invalidText => none
  | .nulInName => none

def IoFault.message (f : IoFault) : String :=
  match f.number? with
  | some n => f.reason ++ " (os error " ++ Numeral.decimal n ++ ")"
  | none => f.reason

inductive FactColumn
  | address
  | size
  deriving DecidableEq, Repr

def FactColumn.label : FactColumn → String
  | .address => "address"
  | .size => "size"

/-- What is wrong with a row of a fact table. -/
inductive FactFault
  /-- A field that is no text: the row's number, line and first byte, the field's number, and the
  count of well-formed bytes at the field's start. -/
  | notText (row line start field valid : Nat)
  | notAnInteger (column : FactColumn) (text : String)
  | zeroSize (address : Word)
  deriving DecidableEq, Repr

def FactFault.message : FactFault → String
  | .notText row line start field valid =>
    "CSV parse error: record " ++ Numeral.decimal row ++ " (line " ++ Numeral.decimal line
      ++ ", field: " ++ Numeral.decimal field ++ ", byte: " ++ Numeral.decimal start
      ++ "): invalid utf-8: invalid UTF-8 in field " ++ Numeral.decimal field
      ++ " near byte index " ++ Numeral.decimal valid
  | .notAnInteger column text =>
    column.label ++ " field '" ++ text ++ "' is not an integer"
  | .zeroSize address =>
    "instruction at " ++ Numeral.decimal address.toNat ++ " has zero size"

inductive ConfigFault
  | unreadable (path : String) (cause : IoFault)
  | malformed (path : String)
  deriving DecidableEq, Repr

/-- Which rule a malformed document breaks is not recorded. -/
def ConfigFault.message : ConfigFault → String
  | .unreadable path cause => "failed to read " ++ path ++ ": " ++ cause.message
  | .malformed path => "failed to parse " ++ path ++ ": <detail>"

inductive Fault
  | unknownFormat (tool : String)
  | unreadableHeader (path : String) (cause : IoFault)
  | toolNotStarted (tool : String) (cause : IoFault)
  | toolFailed (tool : String) (code : Option Int) (output : String)
  | toolTimedOut (tool : String) (seconds : Word)
  | missingFacts (path : String)
  | malformedFact (path : String) (line : Nat) (fault : FactFault)
  | unmappedAddress (address : Word)
  | gap (block address : Word)
  | scratch (path : String) (cause : IoFault)
  | config (fault : ConfigFault)
  deriving DecidableEq, Repr

namespace Fault

def exitCodeText : Option Int → String
  | none => "None"
  | some code => "Some(" ++ Numeral.intDecimal code ++ ")"

def message : Fault → String
  | .unknownFormat tool => "Unknown binary format; " ++ tool ++ " not invoked"
  | .unreadableHeader path cause =>
    "Failed to parse binary header: failed to read " ++ path ++ ": " ++ cause.message
  | .toolNotStarted tool cause => "Failed to spawn " ++ tool ++ ": " ++ cause.message
  | .toolFailed tool code output =>
    tool ++ " exited with code " ++ exitCodeText code ++ ": " ++ output
  | .toolTimedOut tool seconds =>
    tool ++ " did not finish within " ++ Numeral.decimal seconds.toNat ++ "s"
  | .missingFacts path => "Fact file not found at " ++ path
  | .malformedFact path line fault =>
    "Malformed fact at " ++ path ++ ":" ++ Numeral.decimal line ++ ": " ++ fault.message
  | .unmappedAddress address =>
    "Virtual address 0x" ++ Numeral.hexadecimal address.toNat ++ " does not map to a file offset"
  | .gap block address =>
    "Block 0x" ++ Numeral.hexadecimal block.toNat ++ " reaches 0x"
      ++ Numeral.hexadecimal address.toNat ++ ", which is not in the instruction table"
  | .scratch path cause => "Scratch directory error at " ++ path ++ ": " ++ cause.message
  | .config fault => "Invalid configuration: " ++ fault.message

/-- The failure beneath a failure, where it is reported on a line of its own. -/
def cause? : Fault → Option IoFault
  | .toolNotStarted _ cause => some cause
  | .scratch _ cause => some cause
  | _ => none

end Fault
end BasicBlocks

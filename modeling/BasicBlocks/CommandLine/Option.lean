/-!
# Options

What a command understands: options with a value or without, and what help says of them. The order
of the options is the order of the help.
-/

namespace BasicBlocks.CommandLine

structure OptionForm where
  name : String
  takesValue : Bool
  required : Bool
  about : String
  deriving DecidableEq, Repr

namespace OptionForm

def flag (name about : String) : OptionForm := ⟨name, false, false, about⟩

def optional (name about : String) : OptionForm := ⟨name, true, false, about⟩

def mandatory (name about : String) : OptionForm := ⟨name, true, true, about⟩

/-- The option as help and usage write it, as in `--out <OUT>`. -/
def written (o : OptionForm) : String :=
  "--" ++ o.name ++ if o.takesValue then " <" ++ o.name.toUpper ++ ">" else ""

end OptionForm

/-- The flag that is understood before and after the name of a command. -/
def logFlag : OptionForm := .flag "log-json" "Emit logs as JSON (logs always go to stderr)"

structure CommandForm where
  name : String
  about : String
  /-- What only the full help adds. -/
  details : Option String
  options : List OptionForm
  deriving DecidableEq, Repr

namespace CommandForm

def option? (c : CommandForm) (name : String) : Option OptionForm :=
  c.options.find? (·.name = name)

def extract : CommandForm where
  name := "extract"
  about := "Run ddisasm against a binary and print the reconciled model as JSON"
  details := some "Exits non-zero, printing nothing on stdout, if any stage fails."
  options :=
    [.mandatory "binary" "Path to the binary to analyze",
      logFlag,
      .optional "config" "Extractor config file (JSON, or YAML with a .yaml/.yml extension)",
      .optional "scratch" "Scratch root directory; overrides the config",
      .optional "timeout" "Kill ddisasm after this many seconds; overrides the config",
      .flag "exhaustive" "List every decoded instruction, not only those inside blocks",
      .optional "out" "Write the JSON report here instead of stdout"]

def reconcile : CommandForm where
  name := "reconcile"
  about := "Reconcile existing `instruction.facts` / `block_information.csv` files"
  details := none
  options :=
    [.mandatory "instructions" "Exhaustive instruction table",
      logFlag,
      .mandatory "blocks" "Block boundary table",
      .optional "binary" "Binary the facts describe; selects the address translation",
      .flag "exhaustive" "List every decoded instruction, not only those inside blocks",
      .optional "out" "Write the JSON result here instead of stdout"]

def header : CommandForm where
  name := "header"
  about := "Show header classification and section mapping for a binary"
  details := none
  options :=
    [.mandatory "binary" "", logFlag, .flag "json" "Emit JSON instead of human-readable text"]

def showConfig : CommandForm where
  name := "show-config"
  about := "Print the effective extractor configuration"
  details := none
  options := [.optional "config" "", logFlag]

def all : List CommandForm := [extract, reconcile, header, showConfig]

end CommandForm
end BasicBlocks.CommandLine

import BasicBlocks.CommandLine.Arguments
import BasicBlocks.CommandLine.Fault
import BasicBlocks.CommandLine.Report
import BasicBlocks.Config.Document
import BasicBlocks.Extraction
import BasicBlocks.Image.Recognition
import BasicBlocks.Json.HeaderForm
import BasicBlocks.Log.Filter

/-!
# The program

A command from its arguments to what it prints, the messages on the way, its exit code and the files
it leaves. A command that fails prints nothing but its failure.
-/

namespace BasicBlocks

def programName : String := "ddfacts"

def programAbout : String := "Reconcile ddisasm fact tables into an instruction/block model"

def programVersion : String := "0.1.0"

/-- What the program is told besides its arguments. -/
structure Environment where
  /-- A disassembler that replaces the launcher. -/
  disassembler : Option String
  logFilter : Option String
  /-- The directory for what is temporary, if one is named. -/
  temporary : Option String
  now : String
  /-- What is drawn for the name of a run's root. -/
  draw : Draw
  host : Host

def Environment.tempDir (env : Environment) : String := env.temporary.getD "/tmp"

/-- What a command that succeeds prints, and what it says about it. -/
structure Delivery where
  output : String
  note : Option String
  deriving DecidableEq, Repr

inductive Message
  | entry (asJson : Bool) (e : Log.Entry)
  | text (s : String)

structure Outcome where
  code : Nat
  output : String
  messages : List Message
  files : FileSystem

namespace Program

def header (fs : FileSystem) (path : String) : Except Fault Header :=
  match fs.read path with
  | .ok image => .ok (.ofImage image)
  | .error cause => .error (.unreadableHeader path cause)

/-- The configuration of a file, or else the default, under the environment. -/
def config (env : Environment) (fs : FileSystem) (path : Option String) :
    Except CommandFault Config := do
  let loaded ← match path with
    | none => .ok (.default env.tempDir)
    | some path => (Config.ofFile env.tempDir path (fs.read path)).mapError (.config path)
  return loaded.withEnvironment env.disassembler

/-- Prints a document, or writes it to a file. -/
def deliver (document : Json) : Option String → Task CommandFault Delivery
  | none => return ⟨document.pretty ++ "\n", none⟩
  | some path => do
    (Task.change fun fs => fs.write path (Utf8.encode document.pretty)).mapFault (.output path)
    return ⟨"", some ("Wrote " ++ path ++ "\n")⟩

/-- The one path of what an argument names, or where that would be. -/
def resolve (fs : FileSystem) (path : String) : Except CommandFault String :=
  (fs.resolve path).mapError .noCurrentDirectory

def extractCommand (env : Environment) (o : ExtractOptions) : Task CommandFault Delivery := do
  let path ← Task.tell (resolve · o.binary)
  if ← Task.ask (·.isFile path) then
    let config := (← Task.tell (config env · o.config)).withOverrides o.overrides
    let header ← Task.tell fun fs => (header fs path).mapError .header
    let sha256 ← Task.tell fun fs => (fs.digest path).mapError .digest
    let tool := Tool.disassembler env.host config.launcher config.timeoutSeconds
    let model ← (Extractor.extract ⟨tool, config⟩ env.now env.draw path header).mapFault
      (.extraction path)
    deliver (Report.toJson { binary := path, sha256, model }) o.out
  else Task.fail (.binaryMissing path)

/-- The header of a binary, or one that leaves all addresses as they are. -/
def headerOr (fs : FileSystem) : Option String → Except CommandFault Header
  | none => .ok .unrecognised
  | some binary => do (header fs (← resolve fs binary)).mapError .header

def reconcileCommand (o : ReconcileOptions) : Task CommandFault Delivery := do
  let header ← Task.tell (headerOr · o.binary)
  let instructions ← Task.tell (resolve · o.instructions)
  let blocks ← Task.tell (resolve · o.blocks)
  let reconciled ← Task.ask fun fs =>
    reconcile (Extractor.factFile fs instructions) (Extractor.factFile fs blocks)
      (.ofHeader header) o.scope
  let result ← (Task.ofTraced reconciled).mapFault fun failure =>
    .reconciliation instructions blocks failure.fault
  deliver result.toJson o.out

def headerCommand (binary : String) (asJson : Bool) : Task CommandFault Delivery := do
  let path ← Task.tell (resolve · binary)
  let header ← Task.tell fun fs => (header fs path).mapError .header
  return ⟨if asJson then header.toJson.pretty ++ "\n" else header.summary path, none⟩

def showConfigCommand (env : Environment) (path : Option String) :
    Task CommandFault Delivery := do
  let config ← Task.tell (config env · path)
  return ⟨config.toJson.pretty ++ "\n", none⟩

def perform (env : Environment) : Action → Task CommandFault Delivery
  | .extract o => extractCommand env o
  | .reconcile o => reconcileCommand o
  | .header binary asJson => headerCommand binary asJson
  | .showConfig path => showConfigCommand env path

/-- The run that the events of an action belong to. -/
def span? (fs : FileSystem) : Action → Option Log.Span
  | .extract o => (fs.resolve o.binary).toOption.map (⟨Disassembler.toolName, ·⟩)
  | _ => none

def messages (env : Environment) (i : Invocation) (fs : FileSystem) (events : List Event) :
    List Message :=
  let filter := Log.Filter.ofText env.logFilter
  ((filter.entry none (.starting programVersion)).toList
    ++ events.filterMap (filter.entry (span? fs i.action))).map (.entry i.logAsJson)

/-- What the program says of itself. -/
def notice : Notice → String
  | .version => programName ++ " " ++ programVersion ++ "\n"
  | .help => CommandLine.Help.ofProgram programName programAbout
  | .helpOn command full => CommandLine.Help.ofCommand programName full command
  | .helpOnHelp => CommandLine.Help.ofHelp programName

def run (env : Environment) (arguments : List String) (fs : FileSystem) : Outcome :=
  match Arguments.read arguments with
  | .refused => ⟨2, "", [.text (CommandLine.Help.ofProgram programName programAbout)], fs⟩
  | .notice n => ⟨0, notice n, [], fs⟩
  | .options i =>
    let ending := perform env i.action fs
    let said := messages env i fs ending.events
    match ending.result with
    | .ok d => ⟨0, d.output, said ++ (d.note.map .text).toList, ending.files⟩
    | .error f => ⟨1, "", said ++ [.text f.render], ending.files⟩

end Program
end BasicBlocks

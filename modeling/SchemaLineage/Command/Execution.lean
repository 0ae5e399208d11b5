import SchemaLineage.Command.Arguments
import SchemaLineage.Command.Error
import SchemaLineage.Command.Path
import SchemaLineage.Document.Merged
import SchemaLineage.Output.Dataclasses
import SchemaLineage.Output.GraphQL
import SchemaLineage.Output.Header
import SchemaLineage.Output.Stub
import SchemaLineage.Source.Printing

/-!
How a command is carried out, step by step: what it asks of its host, what it prints, and where it
fails. A step that fails ends the command, but takes nothing back that was done before it.
-/
namespace SchemaLineage

/-- What a command can ask for. Files can be refused; printing cannot. -/
class Host (m : Type → Type) where
  read : String → m (Except FileError ByteArray)
  makeDirectories : String → m (Except FileError Unit)
  write : String → String → m (Except FileError Unit)
  print : String → m Unit
  printError : String → m Unit

/-- Steps of a command, each of which may be its last one. -/
abbrev Steps (m : Type → Type) := ExceptT CommandError m

namespace Steps

variable {m : Type → Type} [Monad m] {α : Type}

def ofExcept (x : Except CommandError α) : Steps m α :=
  ExceptT.mk (pure x)

def request (answer : m (Except FileError α)) (refused : FileError → CommandError) : Steps m α :=
  ExceptT.mk ((·.mapError refused) <$> answer)

/-- What became of some steps, which do not end the command if they fail. -/
def outcome (x : Steps m α) : Steps m (Except CommandError α) :=
  ExceptT.lift x.run

variable [Host m]

def print (text : String) : Steps m Unit :=
  ExceptT.lift (Host.print text)

def printError (text : String) : Steps m Unit :=
  ExceptT.lift (Host.printError text)

end Steps

namespace Command

def toolName : String := "asdlgen"

def textOf (path : String) (bytes : ByteArray) : Except CommandError String :=
  match String.fromUTF8? bytes with
  | some text => .ok text
  | none => .error (.unreadable path .invalidText)

def schemaOf (path source : String) : Except CommandError Schema :=
  (Schema.ofText (Path.displayName path) source).mapError .malformed

def validated (path : String) (s : Schema) : Except CommandError Unit :=
  if s.defects.isEmpty then .ok () else .error (.invalid path s.defects)

def settingsOf (path : String) (bytes : ByteArray) : Except CommandError Settings :=
  match String.fromUTF8? bytes with
  | some text => (Settings.ofYaml text).mapError fun e => .settings path (.yaml e)
  | none => .error (.settings path (.yaml .malformed))

def flagged (withDefaults : Bool) (settings : Settings) : Settings :=
  { settings with withDefaults := withDefaults || settings.withDefaults }

/-- Why settings are missing. A directory can be opened but not read. -/
def settingsRefused (path : String) (e : FileError) : CommandError :=
  .settings path (if e = .isADirectory then .unread e else .unopened e)

structure LoadedSnapshot where
  path : String
  source : String
  snapshot : Snapshot

def LoadedSnapshot.inputText (l : LoadedSnapshot) : InputText :=
  ⟨Path.displayName l.path, l.source⟩

def snapshotOf (path source : String) : Except CommandError LoadedSnapshot :=
  match Snapshot.ofText (Path.displayName path) source with
  | .ok snapshot => .ok ⟨path, source, snapshot⟩
  | .error e => .error (.unloadable e)

def formatSchema (format : ModelFormat) (s : Schema) : Except YamlError String :=
  match format with
  | .json => .ok s.document.jsonText
  | .yaml => s.document.yamlText
  | .asdl => .ok s.text

def formatMerged (format : DumpFormat) (m : MergedSchema) : Except YamlError String :=
  match format with
  | .json => .ok m.document.jsonText
  | .yaml => m.document.yamlText

/-- The lines of an outline: all nodes with their kinds, or the labels of one kind. -/
def outlineLines (kind? : Option NodeKind) (entries : List OutlineEntry) : List String :=
  match kind? with
  | none => entries.map fun e =>
    String.join (List.replicate e.depth "  ") ++ e.node.kind.name ++ " " ++ e.node.label
  | some kind => (entries.filter (·.node.kind = kind)).map (·.node.label)

def codeOf (target : Target) (settings : Settings) (s : Schema) : String :=
  match target with
  | .python => Dataclasses.text settings s
  | .graphql => GraphQL.text s

/-- A text under a header that names its inputs, if the settings ask for one. -/
def stamp (settings : Settings) (inputs : List InputText) (body : String) : String :=
  if settings.header then Header.text "#" toolName inputs ++ "\n" ++ body else body

variable {m : Type → Type} [Monad m] [Host m]

def readText (path : String) : Steps m String := do
  let bytes ← .request (Host.read path) (.unreadable path)
  .ofExcept (textOf path bytes)

def readSettings : Option String → Steps m Settings
  | none => return {}
  | some path => do
    let bytes ← .request (Host.read path) (settingsRefused path)
    .ofExcept (settingsOf path bytes)

def readSnapshot (path : String) : Steps m LoadedSnapshot := do
  let source ← readText path
  .ofExcept (snapshotOf path source)

def makeParent (path : String) : Steps m Unit :=
  let parent := Path.parent path
  if parent = "" then pure () else .request (Host.makeDirectories parent) (.directory parent)

def putOut (output? : Option String) (text : String) : Steps m Unit :=
  match output? with
  | none => .print text
  | some path => do
    makeParent path
    .request (Host.write path text) (.unwritable path)
    .print ("Wrote '" ++ path ++ "'.\n")

def runParse (input : String) (format : ModelFormat) : Steps m Unit := do
  let source ← readText input
  let schema ← .ofExcept (schemaOf input source)
  let text ← .ofExcept ((formatSchema format schema).mapError .unprintable)
  .print (Text.withFinalNewline text)

def report (path : String) (found : Except CommandError Schema) : Steps m Bool := do
  match found with
  | .error e =>
    .printError (e.message ++ "\n")
    return false
  | .ok schema =>
    if schema.defects.isEmpty then
      .print (path ++ ": ok (" ++ toString schema.types.length ++ " type(s))\n")
      return true
    else
      schema.defects.forM fun d => .printError (path ++ ": " ++ d.message ++ "\n")
      return false

/-- Judges every file on its own, after all of them were read. -/
def runCheck (inputs : List String) : Steps m Unit := do
  let found ← inputs.mapM fun path => Steps.outcome do
    let source ← readText path
    .ofExcept (schemaOf path source)
  let good ← (inputs.zip found).mapM fun (path, found) => report path found
  let failed := good.count false
  if failed > 0 then throw (.failedChecks failed inputs.length)
  .print ("Validated " ++ toString inputs.length ++ " schema file(s).\n")

def runOutline (input : String) (kind? : Option String) : Steps m Unit := do
  let kind? ← .ofExcept ((kind?.mapM NodeKind.ofText).mapError .unknownKind)
  let source ← readText input
  let schema ← .ofExcept (schemaOf input source)
  (outlineLines kind? schema.outline).forM fun line => .print (line ++ "\n")

def runGenerate (input : String) (target : Target) (withDefaults : Bool)
    (output? config? : Option String) : Steps m Unit := do
  let settings := flagged withDefaults (← readSettings config?)
  let source ← readText input
  let schema ← .ofExcept (schemaOf input source)
  .ofExcept (validated input schema)
  let body := codeOf target settings schema
  putOut output? (stamp settings [⟨Path.displayName input, source⟩] body)

def runMerge (inputs : List String) (format : DumpFormat) : Steps m Unit := do
  let loaded ← inputs.mapM readSnapshot
  let merged ← .ofExcept ((SchemaLineage.merge (loaded.map (·.snapshot))).mapError .unmergeable)
  let text ← .ofExcept ((formatMerged format merged).mapError .unprintable)
  .print (Text.withFinalNewline text)

def runStub (inputs : List String) (output? config? : Option String) : Steps m Unit := do
  let settings ← readSettings config?
  let loaded ← inputs.mapM readSnapshot
  let merged ← .ofExcept ((SchemaLineage.merge (loaded.map (·.snapshot))).mapError .unmergeable)
  putOut output? (stamp settings (loaded.map (·.inputText)) (Stub.text settings merged))

def steps : Command → Steps m Unit
  | parse input format => runParse input format
  | check inputs => runCheck inputs
  | outline input kind? => runOutline input kind?
  | generate input target withDefaults output? config? =>
    runGenerate input target withDefaults output? config?
  | merge inputs format => runMerge inputs format
  | stub inputs output? config? => runStub inputs output? config?

def errorLine (e : CommandError) : String :=
  "error: " ++ e.message ++ "\n"

def run (c : Command) : m UInt32 := do
  match ← (steps c : Steps m Unit).run with
  | .ok _ => return 0
  | .error e =>
    Host.printError (errorLine e)
    return 1

end Command

end SchemaLineage

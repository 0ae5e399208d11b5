/-!
The arguments of the command line. After the command stand its files and options in any order; an
option with a value is written as two words or with an equals sign, may be given once, and needs the
equals sign if its value starts with a hyphen. After two hyphens every word is a file.
-/
namespace SchemaLineage

inductive ModelFormat where
  | json
  | yaml
  | asdl
  deriving DecidableEq, Inhabited

inductive DumpFormat where
  | json
  | yaml
  deriving DecidableEq, Inhabited

inductive Target where
  | python
  | graphql
  deriving DecidableEq, Inhabited

inductive Command where
  | parse (input : String) (format : ModelFormat)
  | check (inputs : List String)
  | outline (input : String) (kind? : Option String)
  | generate (input : String) (target : Target) (withDefaults : Bool)
      (output? config? : Option String)
  | merge (inputs : List String) (format : DumpFormat)
  | stub (inputs : List String) (output? config? : Option String)
  deriving DecidableEq, Inhabited

structure Invocation where
  verbose : Bool
  command : Command
  deriving DecidableEq

namespace ModelFormat

def ofName? (s : String) : Option ModelFormat :=
  if s = "json" then some json
  else if s = "yaml" then some yaml
  else if s = "asdl" then some asdl
  else none

end ModelFormat

namespace DumpFormat

def ofName? (s : String) : Option DumpFormat :=
  if s = "json" then some json else if s = "yaml" then some yaml else none

end DumpFormat

namespace Target

def ofName? (s : String) : Option Target :=
  if s = "python" then some python else if s = "graphql" then some graphql else none

end Target

namespace Arguments

/-- The words of a command, sorted into files, flags, and options with their values. -/
structure Words where
  files : List String
  flags : List String
  options : List (String × String)

structure Known where
  flags : List String
  options : List String

def Words.withFile (w : Words) (file : String) : Words :=
  { w with files := file :: w.files }

def Words.withFlag? (w : Words) (flag : String) : Option Words :=
  if flag ∈ w.flags then none else some { w with flags := flag :: w.flags }

def Words.withOption? (w : Words) (name value : String) : Option Words :=
  if (w.options.lookup name).isSome then none
  else some { w with options := (name, value) :: w.options }

def isOption (word : String) : Bool :=
  word.toList.head? = some '-' && word ≠ "-"

def splitOption? (word : String) : Option (String × Option String) :=
  match word.toList with
  | '-' :: '-' :: cs =>
    let (name, value) := cs.span (· ≠ '=')
    some (String.ofList name,
      match value with
      | [] => none
      | _ :: value => some (String.ofList value))
  | _ => none

def sort? (known : Known) : List String → Option Words
  | [] => some ⟨[], [], []⟩
  | word :: rest =>
    if word = "--" then some ⟨rest, [], []⟩
    else if !isOption word then (sort? known rest).map (·.withFile word)
    else
      match splitOption? word with
      | none => none
      | some (name, none) =>
        if name ∈ known.flags then (sort? known rest).bind (·.withFlag? name)
        else if name ∈ known.options then
          match rest with
          | [] => none
          | value :: rest =>
            if isOption value then none else (sort? known rest).bind (·.withOption? name value)
        else none
      | some (name, some value) =>
        if name ∈ known.options then (sort? known rest).bind (·.withOption? name value)
        else none

def Words.oneFile? (w : Words) : Option String :=
  match w.files with
  | [file] => if file = "" then none else some file
  | _ => none

/-- The files of a command: at least one, and no empty names. -/
def Words.someFiles? (w : Words) : Option (List String) :=
  if w.files.isEmpty || w.files.contains "" then none else some w.files

/-- The value of an option that names a file, which may be missing but not empty. -/
def Words.path? (w : Words) (name : String) : Option (Option String) :=
  match w.options.lookup name with
  | some "" => none
  | value => some value

def Words.choice? {α : Type} (w : Words) (name : String) (default : Option α)
    (read : String → Option α) : Option α :=
  match w.options.lookup name with
  | some value => read value
  | none => default

def Words.verbose (w : Words) : Bool :=
  w.flags.contains "verbose"

def command? (name : String) (words : List String) : Option Invocation := do
  if name = "parse" then
    let w ← sort? ⟨["verbose"], ["format"]⟩ words
    let input ← w.oneFile?
    let format ← w.choice? "format" (some .json) ModelFormat.ofName?
    return ⟨w.verbose, .parse input format⟩
  else if name = "check" then
    let w ← sort? ⟨["verbose"], []⟩ words
    let inputs ← w.someFiles?
    return ⟨w.verbose, .check inputs⟩
  else if name = "outline" then
    let w ← sort? ⟨["verbose"], ["kind"]⟩ words
    let input ← w.oneFile?
    return ⟨w.verbose, .outline input (w.options.lookup "kind")⟩
  else if name = "generate" then
    let w ← sort? ⟨["verbose", "with-defaults"], ["target", "output", "config"]⟩ words
    let input ← w.oneFile?
    let target ← w.choice? "target" none Target.ofName?
    let output? ← w.path? "output"
    let config? ← w.path? "config"
    return ⟨w.verbose, .generate input target (w.flags.contains "with-defaults") output? config?⟩
  else if name = "merge" then
    let w ← sort? ⟨["verbose"], ["format"]⟩ words
    let inputs ← w.someFiles?
    let format ← w.choice? "format" (some .json) DumpFormat.ofName?
    return ⟨w.verbose, .merge inputs format⟩
  else if name = "stub" then
    let w ← sort? ⟨["verbose"], ["output", "config"]⟩ words
    let inputs ← w.someFiles?
    let output? ← w.path? "output"
    let config? ← w.path? "config"
    return ⟨w.verbose, .stub inputs output? config?⟩
  else none

end Arguments

namespace Invocation

def ofArguments? : List String → Option Invocation
  | "--verbose" :: name :: words =>
    (Arguments.command? name words).map fun i => { i with verbose := true }
  | name :: words => Arguments.command? name words
  | [] => none

end Invocation

end SchemaLineage

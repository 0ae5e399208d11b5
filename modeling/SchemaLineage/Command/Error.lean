import SchemaLineage.Lineage.Merge
import SchemaLineage.Schema.Visitor
import SchemaLineage.Yaml.Settings

/-!
Why a command fails. Each error carries the path or the cause that its message names.
-/
namespace SchemaLineage

inductive FileError where
  | notFound
  | notADirectory
  | isADirectory
  | alreadyExists
  | invalidText
  | other (message : String)
  deriving DecidableEq

def FileError.message : FileError → String
  | notFound => "No such file or directory (os error 2)"
  | notADirectory => "Not a directory (os error 20)"
  | isADirectory => "Is a directory (os error 21)"
  | alreadyExists => "File exists (os error 17)"
  | invalidText => "stream did not contain valid UTF-8"
  | other message => message

inductive SettingsError where
  | unopened (error : FileError)
  | unread (error : FileError)
  | yaml (error : YamlError)
  deriving DecidableEq

def SettingsError.message : SettingsError → String
  | unopened e => "I/O error: " ++ e.message
  | unread e => "YAML error: " ++ e.message
  | yaml e => "YAML error: " ++ e.message

inductive CommandError where
  | unreadable (path : String) (cause : FileError)
  | malformed (cause : SyntaxError)
  | invalid (path : String) (defects : List Defect)
  | unknownKind (cause : NodeKind.UnknownKind)
  | unloadable (cause : LoadError)
  | unmergeable (cause : MergeError)
  | unprintable (cause : YamlError)
  | settings (path : String) (cause : SettingsError)
  | directory (path : String) (cause : FileError)
  | unwritable (path : String) (cause : FileError)
  | failedChecks (failed total : Nat)
  deriving DecidableEq

def CommandError.message : CommandError → String
  | unreadable path cause => "Failed to read '" ++ path ++ "': " ++ cause.message
  | malformed cause => cause.message
  | invalid path defects =>
    "'" ++ path ++ "' is invalid: " ++ "; ".intercalate (defects.map Defect.message)
  | unknownKind cause => cause.message
  | unloadable cause => cause.message
  | unmergeable cause => "merge failed: " ++ cause.message
  | unprintable cause => "YAML error: " ++ cause.message
  | settings path cause => "Failed to load config '" ++ path ++ "': " ++ cause.message
  | directory path cause =>
    "Failed to create output directory '" ++ path ++ "': " ++ cause.message
  | unwritable path cause => "Failed to write '" ++ path ++ "': " ++ cause.message
  | failedChecks failed total =>
    toString failed ++ " of " ++ toString total ++ " schema file(s) failed validation"

end SchemaLineage

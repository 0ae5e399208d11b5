import SchemaLineage.Source.Comment
import SchemaLineage.Source.Reading
import SchemaLineage.Version.Reading

/-!
Snapshots: a schema with the version that a comment of its text names. The first comment that starts
with the tag decides; later ones are not looked at.
-/
namespace SchemaLineage

structure Snapshot where
  version : Version
  schema : Schema
  deriving DecidableEq

inductive LoadError where
  | syntaxError (error : SyntaxError)
  | missingTag (filename : String)
  | invalidTag (filename tag : String) (cause : VersionError)
  deriving DecidableEq

def LoadError.message : LoadError → String
  | syntaxError e => e.message
  | missingTag filename => filename ++ ": no `version=` tag found in comments"
  | invalidTag filename tag cause =>
    filename ++ ": invalid version tag " ++ Text.quoted tag ++ ": " ++ cause.message

/-- What a comment says about the version: all after the tag but the blanks at the end. -/
def Comment.tag? (c : Comment) : Option (List Char) :=
  ("version=".toList.isPrefixOf? (Text.trimStart c.text)).map Text.trimEnd

namespace Version

def ofTag (filename source : String) : Except LoadError Version :=
  match (Comment.all source.toList).findSome? Comment.tag? with
  | none => .error (.missingTag filename)
  | some tag =>
    match ofChars tag with
    | .ok v => .ok v
    | .error cause => .error (.invalidTag filename (String.ofList tag) cause)

end Version

namespace Snapshot

/-- The snapshot that a text holds; its tag is looked at first. -/
def ofText (filename source : String) : Except LoadError Snapshot := do
  let version ← Version.ofTag filename source
  let schema ← (Schema.ofText filename source).mapError .syntaxError
  return ⟨version, schema⟩

end Snapshot

end SchemaLineage

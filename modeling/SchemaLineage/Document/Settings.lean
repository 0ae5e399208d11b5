import SchemaLineage.Document.Basic
import SchemaLineage.Output.Settings

/-!
Settings as documents, and settings read from JSON. A missing setting has its default.
-/
namespace SchemaLineage.Settings

def document (s : Settings) : Document :=
  .record [("base_class", .text s.baseClass), ("with_defaults", .flag s.withDefaults),
    ("version_variable", .text s.versionVariable), ("header", .flag s.header),
    ("indent", .text s.indent)]

def keys : List String :=
  ["base_class", "with_defaults", "version_variable", "header", "indent"]

def ofJson? (j : Json) : Option Settings :=
  let default : Settings := {}
  match j.record? keys with
  | some [baseClass, withDefaults, versionVariable, header, indent] => do
    let baseClass ← Json.orDefault default.baseClass Json.string? baseClass
    let withDefaults ← Json.orDefault default.withDefaults Json.bool? withDefaults
    let versionVariable ← Json.orDefault default.versionVariable Json.string? versionVariable
    let header ← Json.orDefault default.header Json.bool? header
    let indent ← Json.orDefault default.indent Json.string? indent
    return ⟨baseClass, withDefaults, versionVariable, header, indent⟩
  | _ => none

end SchemaLineage.Settings

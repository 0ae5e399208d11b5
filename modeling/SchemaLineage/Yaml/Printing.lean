import SchemaLineage.Document.Basic
import SchemaLineage.Yaml.Scalar

/-!
Documents in the block style of YAML. A list sits at the depth of its key, a record two spaces
deeper; a variant with content is tagged. A variant directly within a variant has no such form.
-/
namespace SchemaLineage

namespace Document

def isVariant : Document → Bool
  | variant _ _ => true
  | _ => false

mutual

def hasNestedVariant : Document → Bool
  | list xs => anyNestedVariant xs
  | record fields => anyFieldNestedVariant fields
  | variant _ content => isVariant content || hasNestedVariant content
  | _ => false

def anyNestedVariant : List Document → Bool
  | [] => false
  | x :: xs => hasNestedVariant x || anyNestedVariant xs

def anyFieldNestedVariant : List (String × Document) → Bool
  | [] => false
  | (_, x) :: fields => hasNestedVariant x || anyFieldNestedVariant fields

end

end Document

namespace Yaml

mutual

def afterKey (depth : Nat) : Document → List Char
  | .text s => [' '] ++ scalarLine (depth + 2) s
  | .flag b => [' '] ++ (if b then "true" else "false").toList ++ ['\n']
  | .unit tag => [' '] ++ scalarLine (depth + 2) tag
  | .variant tag content => [' ', '!'] ++ tag.toList ++ afterKey depth content
  | .list [] => [' ', '[', ']', '\n']
  | .list (x :: xs) =>
    ['\n'] ++ spaces depth ++ ['-'] ++ afterDash depth x ++ elements depth xs
  | .record [] => [' ', '\x7b', '\x7d', '\n']
  | .record ((key, x) :: rest) =>
    ['\n'] ++ spaces (depth + 2) ++ scalar (depth + 2) key ++ [':'] ++ afterKey (depth + 2) x ++
      fields (depth + 2) rest

/-- What follows the dash of an element at a depth. A list or a record starts on the same line. -/
def afterDash (depth : Nat) : Document → List Char
  | .text s => [' '] ++ scalarLine (depth + 2) s
  | .flag b => [' '] ++ (if b then "true" else "false").toList ++ ['\n']
  | .unit tag => [' '] ++ scalarLine (depth + 2) tag
  | .variant tag content => [' ', '!'] ++ tag.toList ++ afterKey depth content
  | .list [] => [' ', '[', ']', '\n']
  | .list (x :: xs) =>
    [' ', '-'] ++ afterDash (depth + 2) x ++ elements (depth + 2) xs
  | .record [] => [' ', '\x7b', '\x7d', '\n']
  | .record ((key, x) :: rest) =>
    [' '] ++ scalar (depth + 2) key ++ [':'] ++ afterKey (depth + 2) x ++ fields (depth + 2) rest

def elements (depth : Nat) : List Document → List Char
  | [] => []
  | x :: xs => spaces depth ++ ['-'] ++ afterDash depth x ++ elements depth xs

def fields (depth : Nat) : List (String × Document) → List Char
  | [] => []
  | (key, x) :: rest =>
    spaces depth ++ scalar depth key ++ [':'] ++ afterKey depth x ++ fields depth rest

end

end Yaml

inductive YamlError where
  | nestedVariant
  | malformed
  deriving DecidableEq

def YamlError.message : YamlError → String
  | nestedVariant => "serializing nested enums in YAML is not supported yet"
  | malformed => "malformed document"

namespace Document

def yamlChars : Document → List Char
  | list (x :: xs) => Yaml.elements 0 (x :: xs)
  | record (f :: fs) => Yaml.fields 0 (f :: fs)
  | d => (Yaml.afterKey 0 d).drop 1

def yamlText (d : Document) : Except YamlError String :=
  if d.hasNestedVariant then .error .nestedVariant else .ok (String.ofList d.yamlChars)

end Document

end SchemaLineage

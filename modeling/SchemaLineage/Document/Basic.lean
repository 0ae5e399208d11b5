import SchemaLineage.Json.Printing

/-!
Documents: values with records and variants, as they are exchanged with other tools. In JSON a
variant is a string, or an object whose only key is its tag.
-/
namespace SchemaLineage

inductive Document where
  | text (value : String)
  | flag (value : Bool)
  | list (elements : List Document)
  | record (fields : List (String × Document))
  /-- One of several forms, without content. -/
  | unit (tag : String)
  /-- One of several forms, with content. -/
  | variant (tag : String) (content : Document)
  deriving Inhabited

namespace Document

mutual

def toJson : Document → Json
  | text s => .string s
  | flag b => .bool b
  | list xs => .array (elementsToJson xs)
  | record fields => .object (fieldsToJson fields)
  | unit tag => .string tag
  | variant tag content => .object [(tag, toJson content)]

def elementsToJson : List Document → List Json
  | [] => []
  | x :: xs => toJson x :: elementsToJson xs

def fieldsToJson : List (String × Document) → List (String × Json)
  | [] => []
  | (key, x) :: fields => (key, toJson x) :: fieldsToJson fields

end

def jsonText (d : Document) : String :=
  d.toJson.text

end Document

end SchemaLineage

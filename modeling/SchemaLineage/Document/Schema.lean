import SchemaLineage.Document.Basic
import SchemaLineage.Json.Reading
import SchemaLineage.Schema.Basic

/-!
Schemas as documents, and schemas read from JSON. What is written is read back as it was; in what is
read, missing attributes and types are empty, a missing qualifier is `required`, and other keys do
not matter.
-/
namespace SchemaLineage

namespace Field

def document (f : Field) : Document :=
  .record [("kind", .text f.kind), ("name", .text f.name), ("qualifier", .unit f.qualifier.name)]

end Field

namespace Constructor

/-- Without a list of fields, the key is left out. -/
def document (c : Constructor) : Document :=
  .record (("name", .text c.name) ::
    match c.fields? with
    | some fs => [("fields", .list (fs.map Field.document))]
    | none => [])

end Constructor

namespace TypeBody

def document : TypeBody → Document
  | sum s => .record [("kind", .text "sum"), ("types", .list (s.constructors.map (·.document))),
      ("attributes", .list (s.attributes.map Field.document))]
  | product p => .record [("kind", .text "product"),
      ("fields", .list (p.fields.map Field.document)),
      ("attributes", .list (p.attributes.map Field.document))]

end TypeBody

namespace TypeDef

def document (t : TypeDef) : Document :=
  .record [("name", .text t.name), ("value", t.body.document)]

end TypeDef

namespace Schema

def document (s : Schema) : Document :=
  .record [("name", .text s.name), ("body", .list (s.types.map TypeDef.document))]

end Schema

namespace Json

/-- A form without content: its tag, or an object from its tag to null. Within the body of a type,
an empty object serves as null. -/
def tag? (inBody : Bool) (j : Json) : Option String :=
  match j with
  | string s => some s
  | j =>
    match j.single? with
    | some (tag, null) => some tag
    | some (tag, object []) => if inBody then some tag else none
    | _ => none

end Json

namespace Qualifier

def ofJson? (inBody : Bool) (j : Json) : Option Qualifier :=
  (j.tag? inBody).bind ofName?

end Qualifier

namespace Field

def ofJson? (inBody : Bool) (j : Json) : Option Field :=
  match j.record? ["kind", "name", "qualifier"] with
  | some [some kind, some name, qualifier] => do
    let kind ← kind.string?
    let name ← name.string?
    let qualifier ← Json.orDefault .required (Qualifier.ofJson? inBody) qualifier
    return ⟨kind, name, qualifier⟩
  | _ => none

def listOfJson? (inBody : Bool) (j : Json) : Option (List Field) :=
  j.arrayOf? (ofJson? inBody)

end Field

namespace Constructor

/-- The fields of a constructor may be missing or null. -/
def ofJson? (inBody : Bool) (j : Json) : Option Constructor :=
  match j.record? ["name", "fields"] with
  | some [some name, fields] => do
    let name ← name.string?
    match fields with
    | none => return ⟨name, none⟩
    | some .null => return ⟨name, none⟩
    | some fields =>
      let fields ← Field.listOfJson? inBody fields
      return ⟨name, some fields⟩
  | _ => none

end Constructor

namespace SumType

def ofJson? (j : Json) : Option SumType :=
  match j.record? ["kind", "types", "attributes"] with
  | some [_, some types, attributes] => do
    let constructors ← types.arrayOf? (Constructor.ofJson? true)
    let attributes ← Json.orDefault [] (Field.listOfJson? true) attributes
    return ⟨constructors, attributes⟩
  | _ => none

end SumType

namespace ProductType

def ofJson? (j : Json) : Option ProductType :=
  match j.record? ["kind", "fields", "attributes"] with
  | some [_, some fields, attributes] => do
    let fields ← Field.listOfJson? true fields
    let attributes ← Json.orDefault [] (Field.listOfJson? true) attributes
    return ⟨fields, attributes⟩
  | _ => none

end ProductType

namespace TypeBody

/-- The kind of a type, its first value, tells how to read the others. -/
def ofJson? (j : Json) : Option TypeBody :=
  let kind := match j with
    | .object members => Json.lookup "kind" members
    | .array (kind :: _) => some kind
    | _ => none
  match kind with
  | some (.string "sum") => (SumType.ofJson? j).map sum
  | some (.string "product") => (ProductType.ofJson? j).map product
  | _ => none

end TypeBody

namespace TypeDef

def ofJson? (j : Json) : Option TypeDef :=
  match j.record? ["name", "value"] with
  | some [some name, some body] => do
    let name ← name.string?
    let body ← TypeBody.ofJson? body
    return ⟨name, body⟩
  | _ => none

end TypeDef

namespace Schema

def ofJson? (j : Json) : Option Schema :=
  match j.record? ["name", "body"] with
  | some [some name, types] => do
    let name ← name.string?
    let types ← Json.orDefault [] (Json.arrayOf? TypeDef.ofJson?) types
    return ⟨name, types⟩
  | _ => none

def ofJsonText? (s : String) : Option Schema :=
  (Json.ofText? s).bind ofJson?

end Schema

end SchemaLineage

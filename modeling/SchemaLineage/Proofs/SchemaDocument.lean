import SchemaLineage.Document.Schema
import SchemaLineage.Proofs.JsonText

/-!
Schemas in JSON. Each part of a schema is read back from the value of its document: a missing list
of fields is told from an empty one by its key, and a sum from a product by its kind.
Main statement: the JSON text of every schema is read as that schema, so a schema that was read from
any JSON value is the same after it is written and read again.
-/
namespace SchemaLineage

namespace Document

theorem elementsToJson_map {α : Type} (document : α → Document) (xs : List α) :
    elementsToJson (xs.map document) = xs.map fun x => (document x).toJson := by
  induction xs with
  | nil => rfl
  | cons x xs ih => rw [List.map_cons, elementsToJson, ih, List.map_cons]

/-- If each element is read back, so is a list of them. -/
theorem arrayOf?_list {α : Type} {document : α → Document} {read : Json → Option α}
    (h : ∀ x, read (document x).toJson = some x) (xs : List α) :
    Json.arrayOf? read (list (xs.map document)).toJson = some xs := by
  rw [toJson, elementsToJson_map, Json.arrayOf?, Json.array?, Option.bind_some]
  induction xs with
  | nil => rfl
  | cons x xs ih =>
    rw [List.map_cons, List.mapM_cons, h x, ih]
    rfl

end Document

open Document (list)

theorem Field.ofJson?_document (inBody : Bool) (f : Field) :
    Field.ofJson? inBody f.document.toJson = some f := by
  have hrecord : f.document.toJson.record? ["kind", "name", "qualifier"] =
      some [some (.string f.kind), some (.string f.name), some (.string f.qualifier.name)] := rfl
  have hqualifier : Qualifier.ofJson? inBody (.string f.qualifier.name) = some f.qualifier :=
    f.qualifier.ofName?_name
  simp only [Field.ofJson?, hrecord, Json.orDefault, hqualifier]
  rfl

theorem Field.listOfJson?_document (inBody : Bool) (fs : List Field) :
    Field.listOfJson? inBody (list (fs.map Field.document)).toJson = some fs :=
  Document.arrayOf?_list (Field.ofJson?_document inBody) fs

/-- Without a list of fields there is no key for it, and an empty list is not null. -/
theorem Constructor.ofJson?_document (inBody : Bool) (c : Constructor) :
    Constructor.ofJson? inBody c.document.toJson = some c := by
  obtain ⟨name, fields?⟩ := c
  cases fields? with
  | none => rfl
  | some fs =>
    have hrecord : (Constructor.mk name (some fs)).document.toJson.record? ["name", "fields"] =
        some [some (.string name), some (list (fs.map Field.document)).toJson] := rfl
    have hfields := Field.listOfJson?_document inBody fs
    rw [Document.toJson] at hrecord hfields
    simp only [Constructor.ofJson?, hrecord, hfields]
    rfl

theorem SumType.ofJson?_document (s : SumType) :
    SumType.ofJson? (TypeBody.sum s).document.toJson = some s := by
  have hrecord : (TypeBody.sum s).document.toJson.record? ["kind", "types", "attributes"] =
      some [some (.string "sum"), some (list (s.constructors.map (·.document))).toJson,
        some (list (s.attributes.map Field.document)).toJson] := rfl
  have hconstructors := Document.arrayOf?_list (Constructor.ofJson?_document true) s.constructors
  have hattributes := Field.listOfJson?_document true s.attributes
  simp only [SumType.ofJson?, hrecord, hconstructors, Json.orDefault, hattributes]
  rfl

theorem ProductType.ofJson?_document (p : ProductType) :
    ProductType.ofJson? (TypeBody.product p).document.toJson = some p := by
  have hrecord : (TypeBody.product p).document.toJson.record? ["kind", "fields", "attributes"] =
      some [some (.string "product"), some (list (p.fields.map Field.document)).toJson,
        some (list (p.attributes.map Field.document)).toJson] := rfl
  have hfields := Field.listOfJson?_document true p.fields
  have hattributes := Field.listOfJson?_document true p.attributes
  simp only [ProductType.ofJson?, hrecord, hfields, Json.orDefault, hattributes]
  rfl

theorem TypeBody.ofJson?_document (b : TypeBody) :
    TypeBody.ofJson? b.document.toJson = some b := by
  cases b with
  | sum s =>
    have hsum := congrArg (Option.map TypeBody.sum) (SumType.ofJson?_document s)
    exact hsum
  | product p =>
    have hproduct := congrArg (Option.map TypeBody.product) (ProductType.ofJson?_document p)
    exact hproduct

theorem TypeDef.ofJson?_document (t : TypeDef) :
    TypeDef.ofJson? t.document.toJson = some t := by
  have hrecord : t.document.toJson.record? ["name", "value"] =
      some [some (.string t.name), some t.body.document.toJson] := rfl
  simp only [TypeDef.ofJson?, hrecord, TypeBody.ofJson?_document]
  rfl

/-- A schema is read back from the value of its document. -/
theorem Schema.ofJson?_document (s : Schema) : Schema.ofJson? s.document.toJson = some s := by
  have hrecord : s.document.toJson.record? ["name", "body"] =
      some [some (.string s.name), some (list (s.types.map TypeDef.document)).toJson] := rfl
  have htypes := Document.arrayOf?_list TypeDef.ofJson?_document s.types
  simp only [Schema.ofJson?, hrecord, Json.orDefault, htypes]
  rfl

/-- Every schema is read back from its JSON text. So whatever JSON value a schema was read from,
with defaults for what was missing, it stays the same when it is written and read again. -/
theorem schema_json_round_trip :
    (∀ s : Schema, Schema.ofJsonText? s.document.jsonText = some s) ∧
      ∀ j s, Schema.ofJson? j = some s → Schema.ofJsonText? s.document.jsonText = some s := by
  have hread : ∀ s : Schema, Schema.ofJsonText? s.document.jsonText = some s := by
    intro s
    rw [Schema.ofJsonText?, Document.ofText?_jsonText, Option.bind_some, Schema.ofJson?_document]
  exact ⟨hread, fun _ s _ => hread s⟩

/-- A value with a key that schemas do not have and without some that they may leave out. -/
def looseValue : Json :=
  .object [
    ("note", .null),
    ("body", .array [.object [
      ("value", .object [
        ("kind", .string "sum"),
        ("types", .array [
          .object [("name", .string "Circle")],
          .object [("fields", .null), ("name", .string "Square")],
          .object [("name", .string "Point"), ("fields", .array [])],
          .object [("name", .string "Label"), ("fields", .array [
            .object [("name", .string "text"), ("kind", .string "string")]])]])]),
      ("name", .string "shape")]]),
    ("name", .string "Drawing")]

def looseSchema : Schema :=
  ⟨"Drawing", [⟨"shape", .sum ⟨[⟨"Circle", none⟩, ⟨"Square", none⟩, ⟨"Point", some []⟩,
    ⟨"Label", some [⟨"string", "text", .required⟩]⟩], []⟩⟩]⟩

theorem schema_json_looseValue :
    Schema.ofJson? looseValue = some looseSchema ∧
      Schema.ofJsonText? looseSchema.document.jsonText = some looseSchema := by
  have hread : Schema.ofJson? looseValue = some looseSchema := rfl
  exact ⟨hread, schema_json_round_trip.2 looseValue looseSchema hread⟩

end SchemaLineage

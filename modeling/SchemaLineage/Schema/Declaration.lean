import SchemaLineage.Schema.Basic

/-!
The flat namespace of a schema. A sum declares its own name and then one name per constructor, a
product declares its name; a constructor's base is its sum.
-/
namespace SchemaLineage

inductive Base where
  | root
  | named (name : String)
  deriving DecidableEq, Inhabited

def Base.text : Base → String
  | root => "<root>"
  | named name => name

inductive DeclarationKind where
  | sum
  | product
  | constructor
  deriving DecidableEq, Inhabited

namespace DeclarationKind

def name : DeclarationKind → String
  | sum => "sum"
  | product => "product"
  | constructor => "constructor"

def ofName? (s : String) : Option DeclarationKind :=
  [sum, product, constructor].find? (·.name = s)

theorem ofName?_name (k : DeclarationKind) : ofName? k.name = some k := by
  cases k <;> rfl

end DeclarationKind

/-- One name of the flat namespace. -/
structure Declaration where
  name : String
  kind : DeclarationKind
  base : Base
  fields : List Field
  deriving DecidableEq, Inhabited

namespace Constructor

def declaration (sum : String) (c : Constructor) : Declaration :=
  ⟨c.name, .constructor, .named sum, c.fields⟩

end Constructor

/-- The declarations of a type, its own first. A product's attributes follow its fields. -/
def TypeDef.declarations (t : TypeDef) : List Declaration :=
  match t.body with
  | .sum s => ⟨t.name, .sum, .root, s.attributes⟩ :: s.constructors.map (·.declaration t.name)
  | .product p => [⟨t.name, .product, .root, p.fields ++ p.attributes⟩]

def Schema.declarations (s : Schema) : List Declaration :=
  s.types.flatMap TypeDef.declarations

end SchemaLineage

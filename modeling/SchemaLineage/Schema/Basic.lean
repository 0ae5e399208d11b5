/-!
Schemas: named types in order. A type is a sum, a choice of constructors that share attributes, or a
product, one record of fields. Equality of schemas is equality of their parts.
-/
namespace SchemaLineage

inductive Qualifier where
  | required
  | optional
  | sequence
  deriving DecidableEq, Inhabited

namespace Qualifier

def marker : Qualifier → String
  | required => ""
  | optional => "?"
  | sequence => "*"

def ofMarker? (c : Char) : Option Qualifier :=
  if c = '?' then some optional else if c = '*' then some sequence else none

def name : Qualifier → String
  | required => "required"
  | optional => "optional"
  | sequence => "sequence"

def ofName? (s : String) : Option Qualifier :=
  [required, optional, sequence].find? (·.name = s)

theorem ofName?_name (q : Qualifier) : ofName? q.name = some q := by
  cases q <;> rfl

end Qualifier

/-- A field holds values of the type `kind`. -/
structure Field where
  kind : String
  name : String
  qualifier : Qualifier
  deriving DecidableEq, Inhabited

def Field.text (f : Field) : String :=
  f.kind ++ f.qualifier.marker ++ " " ++ f.name

/-- A case of a sum. It may be written without a list of fields, or with an empty one. -/
structure Constructor where
  name : String
  fields? : Option (List Field)
  deriving DecidableEq, Inhabited

def Constructor.fields (c : Constructor) : List Field :=
  c.fields?.getD []

structure SumType where
  constructors : List Constructor
  attributes : List Field
  deriving DecidableEq, Inhabited

def SumType.isSimple (s : SumType) : Bool :=
  s.constructors.all (·.fields.isEmpty)

structure ProductType where
  fields : List Field
  attributes : List Field
  deriving DecidableEq, Inhabited

inductive TypeBody where
  | sum (type : SumType)
  | product (type : ProductType)
  deriving DecidableEq, Inhabited

namespace TypeBody

def attributes : TypeBody → List Field
  | sum s => s.attributes
  | product p => p.attributes

def withAttribute (f : Field) : TypeBody → TypeBody
  | sum s => sum { s with attributes := s.attributes ++ [f] }
  | product p => product { p with attributes := p.attributes ++ [f] }

end TypeBody

structure TypeDef where
  name : String
  body : TypeBody
  deriving DecidableEq, Inhabited

structure Schema where
  name : String
  types : List TypeDef
  deriving DecidableEq, Inhabited

namespace Schema

def withType (s : Schema) (t : TypeDef) : Schema :=
  { s with types := s.types ++ [t] }

def typeNames (s : Schema) : List String :=
  s.types.map (·.name)

def find? (s : Schema) (name : String) : Option TypeDef :=
  s.types.find? (·.name = name)

end Schema

end SchemaLineage

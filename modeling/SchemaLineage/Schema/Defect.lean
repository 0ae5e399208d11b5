import SchemaLineage.Schema.Basic
import SchemaLineage.Text.Blank

/-!
What is wrong with a schema. The check goes through the schema in order, keeps the names declared so
far, and reports each defect where it stands; a schema without defects has a well-formed flat
namespace.
-/
namespace SchemaLineage

inductive Defect where
  | emptyModuleName
  | emptyTypeName
  | emptyConstructorName (sum : String)
  | emptyField (declaration : String)
  | duplicateType (name : String)
  | duplicateConstructor (sum constructor : String)
  | duplicateField (declaration field : String)
  | duplicateDeclaration (name : String)
  deriving DecidableEq

def Defect.message : Defect → String
  | emptyModuleName => "module name cannot be empty"
  | emptyTypeName => "type name cannot be empty"
  | emptyConstructorName sum => "constructor name cannot be empty in sum " ++ sum
  | emptyField declaration => "field kind and name cannot be empty in " ++ declaration
  | duplicateType name => "duplicate type in module: " ++ name
  | duplicateConstructor sum constructor =>
    "duplicate constructor " ++ constructor ++ " in sum " ++ sum
  | duplicateField declaration field => "duplicate field " ++ field ++ " in " ++ declaration
  | duplicateDeclaration name => "declaration name defined more than once: " ++ name

/-- The names declared so far; `types` are those that a type declared first. -/
structure Namespace where
  types : List String
  constructors : List String

namespace Namespace

def empty : Namespace := ⟨[], []⟩

/-- A type takes a name: the names after it, and the defect if the name was taken. -/
def declareType (names : Namespace) (name : String) : List Defect × Namespace :=
  if name ∈ names.types then ([.duplicateType name], names)
  else if name ∈ names.constructors then ([.duplicateDeclaration name], names)
  else ([], { names with types := name :: names.types })

def declareConstructor (names : Namespace) (name : String) : List Defect × Namespace :=
  if name ∈ names.types ∨ name ∈ names.constructors then ([.duplicateDeclaration name], names)
  else ([], { names with constructors := name :: names.constructors })

end Namespace

def Field.defects (declaration : String) (f : Field) : List Defect :=
  if Text.isBlankText f.kind || Text.isBlankText f.name then [.emptyField declaration] else []

/-- The defects of the fields of one declaration; `seen` holds the field names before them. -/
def fieldDefects (declaration : String) (seen : List String) : List Field → List Defect
  | [] => []
  | f :: rest =>
    f.defects declaration ++
      if f.name = "" then fieldDefects declaration seen rest
      else if f.name ∈ seen then
        .duplicateField declaration f.name :: fieldDefects declaration seen rest
      else fieldDefects declaration (f.name :: seen) rest

/-- The defects of a constructor on its own; one without a name declares nothing. -/
def Constructor.defects (sum : String) (names : Namespace) (c : Constructor) :
    List Defect × Namespace :=
  if Text.isBlankText c.name then ([.emptyConstructorName sum], names)
  else
    let (taken, names) := names.declareConstructor c.name
    (taken ++ fieldDefects c.name [] c.fields, names)

/-- The defects of the constructors of one sum; `seen` holds the constructor names before them. A
second constructor of a name is reported and not looked into. -/
def constructorDefects (sum : String) (seen : List String) (names : Namespace) :
    List Constructor → List Defect × Namespace
  | [] => ([], names)
  | c :: rest =>
    if c.name ≠ "" ∧ c.name ∈ seen then
      let (later, names) := constructorDefects sum seen names rest
      (.duplicateConstructor sum c.name :: later, names)
    else
      let (own, names) := c.defects sum names
      let (later, names) := constructorDefects sum (c.name :: seen) names rest
      (own ++ later, names)

def TypeBody.defects (name : String) (names : Namespace) : TypeBody → List Defect × Namespace
  | sum s =>
    let (inner, names) := constructorDefects name [] names s.constructors
    (inner ++ fieldDefects name [] s.attributes, names)
  | product p => (fieldDefects name [] (p.fields ++ p.attributes), names)

/-- The defects of a type; one without a name declares nothing but is looked into. -/
def TypeDef.defects (names : Namespace) (t : TypeDef) : List Defect × Namespace :=
  let (own, names) :=
    if Text.isBlankText t.name then ([.emptyTypeName], names) else names.declareType t.name
  let (inner, names) := t.body.defects t.name names
  (own ++ inner, names)

def typeDefects (names : Namespace) : List TypeDef → List Defect
  | [] => []
  | t :: rest =>
    let (own, names) := t.defects names
    own ++ typeDefects names rest

def Schema.defects (s : Schema) : List Defect :=
  (if Text.isBlankText s.name then [.emptyModuleName] else []) ++ typeDefects .empty s.types

end SchemaLineage

import SchemaLineage.Schema.Basic
import SchemaLineage.Text.Blank
import SchemaLineage.Text.Quoted

/-!
The nodes of a schema as a tree. Every part of a schema is a node with a kind, and a node's children
lie one level below it, so that a walk over them ends.
-/
namespace SchemaLineage

inductive NodeKind where
  | module
  | type
  | sum
  | product
  | constructor
  | field
  deriving DecidableEq, Inhabited

namespace NodeKind

def all : List NodeKind :=
  [module, type, sum, product, constructor, field]

def name : NodeKind → String
  | module => "module"
  | type => "type"
  | sum => "sum"
  | product => "product"
  | constructor => "constructor"
  | field => "field"

def ofName? (s : String) : Option NodeKind :=
  all.find? (·.name = s)

theorem ofName?_name (k : NodeKind) : ofName? k.name = some k := by
  cases k <;> rfl

structure UnknownKind where
  given : String
  deriving DecidableEq

def UnknownKind.message (e : UnknownKind) : String :=
  "unknown node kind: " ++ Text.quoted e.given ++
    " (expected one of " ++ ", ".intercalate (all.map name) ++ ")"

/-- The kind that the text names; blanks around it and the case of ASCII letters do not matter. -/
def ofText (s : String) : Except UnknownKind NodeKind :=
  match ofName? (String.ofList ((Text.trim s.toList).map Char.toLower)) with
  | some kind => .ok kind
  | none => .error ⟨s⟩

end NodeKind

inductive Node where
  | module (schema : Schema)
  | type (type : TypeDef)
  | sum (type : SumType)
  | product (type : ProductType)
  | constructor (constructor : Constructor)
  | field (field : Field)
  deriving DecidableEq

namespace Node

def kind : Node → NodeKind
  | module _ => .module
  | type _ => .type
  | sum _ => .sum
  | product _ => .product
  | constructor _ => .constructor
  | field _ => .field

/-- The name of the part; sums and products have none of their own. -/
def name? : Node → Option String
  | module s => some s.name
  | type t => some t.name
  | sum _ => none
  | product _ => none
  | constructor c => some c.name
  | field f => some f.name

def ofBody : TypeBody → Node
  | .sum s => sum s
  | .product p => product p

/-- The parts directly below a part: a sum's constructors before its attributes, a product's fields
before its attributes. -/
def children : Node → List Node
  | module s => s.types.map type
  | type t => [ofBody t.body]
  | sum s => s.constructors.map constructor ++ s.attributes.map field
  | product p => p.fields.map field ++ p.attributes.map field
  | constructor c => c.fields.map field
  | field _ => []

def height : Node → Nat
  | module _ => 4
  | type _ => 3
  | sum _ => 2
  | product _ => 2
  | constructor _ => 1
  | field _ => 0

theorem height_lt_of_mem_children {node child : Node} (h : child ∈ node.children) :
    child.height < node.height := by
  cases node with
  | module s =>
    obtain ⟨t, -, rfl⟩ := List.mem_map.1 h
    simp [height]
  | type t =>
    have hc : child = ofBody t.body := by simpa [children] using h
    subst hc
    cases t.body <;> simp [ofBody, height]
  | sum s =>
    simp only [children, List.mem_append, List.mem_map] at h
    rcases h with ⟨c, -, rfl⟩ | ⟨f, -, rfl⟩ <;> simp [height]
  | product p =>
    simp only [children, List.mem_append, List.mem_map] at h
    rcases h with ⟨f, -, rfl⟩ | ⟨f, -, rfl⟩ <;> simp [height]
  | constructor c =>
    obtain ⟨f, -, rfl⟩ := List.mem_map.1 h
    simp [height]
  | field f => cases h

def label : Node → String
  | field f => f.text
  | node => node.name?.getD ""

end Node

end SchemaLineage

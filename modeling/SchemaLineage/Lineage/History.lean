import SchemaLineage.Lineage.Grouping
import SchemaLineage.Schema.Declaration
import SchemaLineage.Source.Tag
import SchemaLineage.Version.Set

/-!
The history of a name: the declarations of that name over all snapshots. From a history come the
shapes of its fields and the versions in which a shape, a kind or a base is in use.
-/
namespace SchemaLineage

/-- The declarations of one name, each with its version, in the order of the snapshots. -/
structure History where
  name : String
  entries : List (Version × Declaration)
  deriving DecidableEq

/-- A value and the versions in which it is in use. -/
structure Span (α : Type) where
  value : α
  versions : VersionSet
  deriving DecidableEq

/-- The distinct values in first-seen order, each with the set of its versions. -/
def spans {α : Type} [DecidableEq α] (uses : List (α × Version)) : List (Span α) :=
  (groupByKey uses).map fun group => ⟨group.1, VersionSet.ofList group.2⟩

def scan (snapshots : List Snapshot) : List (Version × Declaration) :=
  snapshots.flatMap fun s => s.schema.declarations.map fun d => (s.version, d)

def histories (snapshots : List Snapshot) : List History :=
  (groupByKey ((scan snapshots).map fun entry => (entry.2.name, entry))).map
    fun group => ⟨group.1, group.2⟩

namespace History

def observed (h : History) : VersionSet :=
  VersionSet.ofList (h.entries.map (·.1))

def latest? (h : History) : Option Declaration :=
  h.entries.getLast?.map (·.2)

def kinds (h : History) : List (Span DeclarationKind) :=
  spans (h.entries.map fun entry => (entry.2.kind, entry.1))

def bases (h : History) : List (Span Base) :=
  spans (h.entries.map fun entry => (entry.2.base, entry.1))

end History

/-- The field shapes of a history in first-seen order. Fields that differ in kind, name or
qualifier have different shapes. -/
structure FieldShapes where
  entries : List (Span Field)

namespace FieldShapes

def ofHistory (h : History) : FieldShapes :=
  ⟨spans (h.entries.flatMap fun entry => entry.2.fields.map fun f => (f, entry.1))⟩

def size (shapes : FieldShapes) : Nat :=
  shapes.entries.length

def get? (shapes : FieldShapes) (rank : Nat) : Option (Span Field) :=
  shapes.entries[rank]?

def rank? (shapes : FieldShapes) (f : Field) : Option Nat :=
  shapes.entries.findIdx? (·.value = f)

end FieldShapes

end SchemaLineage

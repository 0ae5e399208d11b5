import SchemaLineage.Guard.Tree
import SchemaLineage.Schema.Declaration

/-!
Merged schemas: one guard tree over the declarations of a whole lineage. At each version a merged
schema evaluates to the flat declarations of that version. Where a declaration changes its base, an
alias before it chooses the base by version.
-/
namespace SchemaLineage

structure Case (α : Type) where
  condition : Condition
  value : α
  deriving DecidableEq

def selectCase? {α : Type} (cases : List (Case α)) (v : Version) : Option α :=
  (cases.find? (·.condition.holds v)).map (·.value)

structure BaseAlias where
  name : String
  cases : List (Case Base)
  deriving DecidableEq

def BaseAlias.resolve (a : BaseAlias) (v : Version) : Option Base :=
  selectCase? a.cases v

/-- The base of a merged declaration: one for all versions, or chosen by an alias. -/
inductive BaseRef where
  | fixed (base : Base)
  | aliased (name : String)
  deriving DecidableEq

/-- A declaration over all its versions. The kinds and the fields are guarded relative to those
versions, the existence relative to the versions of the whole lineage. -/
structure MergedDeclaration where
  name : String
  kinds : List (Case DeclarationKind)
  base : BaseRef
  versions : VersionSet
  existence : Condition
  body : GuardTree Field
  deriving DecidableEq

def MergedDeclaration.kindAt (d : MergedDeclaration) (v : Version) : Option DeclarationKind :=
  selectCase? d.kinds v

inductive MergedItem where
  | baseAlias (value : BaseAlias)
  | declaration (value : MergedDeclaration)
  deriving DecidableEq

namespace MergedItem

def declaration? : MergedItem → Option MergedDeclaration
  | declaration d => some d
  | baseAlias _ => none

def baseAlias? : MergedItem → Option BaseAlias
  | baseAlias a => some a
  | declaration _ => none

end MergedItem

/-- An item of a rendered tree: an alias as it was, or what a declaration was rendered to. -/
inductive Rendered (β : Type) where
  | baseAlias (value : BaseAlias)
  | declaration (value : β)
  deriving DecidableEq

structure MergedSchema where
  name : String
  versions : VersionSet
  body : GuardTree MergedItem
  deriving DecidableEq

namespace MergedSchema

def declarations (m : MergedSchema) : List MergedDeclaration :=
  m.body.items.filterMap MergedItem.declaration?

def find? (m : MergedSchema) (name : String) : Option MergedDeclaration :=
  m.declarations.find? (·.name = name)

def findAlias? (m : MergedSchema) (name : String) : Option BaseAlias :=
  (m.body.items.filterMap MergedItem.baseAlias?).find? (·.name = name)

def render {m : Type → Type} [Monad m] {β : Type} (merged : MergedSchema)
    (f : String → BaseRef → GuardTree Field → m β) : m (GuardTree (Rendered β)) :=
  merged.body.mapM fun
    | .baseAlias a => return .baseAlias a
    | .declaration d => Rendered.declaration <$> f d.name d.base d.body

/-- The base that a reference stands for among the aliases visible at a version; the root, if no
alias of that name has a case that holds. -/
def resolveBase (aliases : List BaseAlias) (v : Version) : BaseRef → Base
  | .fixed base => base
  | .aliased name =>
    ((aliases.filter (·.name = name)).findSome? (·.resolve v)).getD .root

def declarationAt (aliases : List BaseAlias) (v : Version) (d : MergedDeclaration) :
    Option Declaration :=
  (d.kindAt v).map fun kind => ⟨d.name, kind, resolveBase aliases v d.base, d.body.evaluate v⟩

def evaluate (m : MergedSchema) (v : Version) : List Declaration :=
  let visible := m.body.evaluate v
  let aliases := visible.filterMap MergedItem.baseAlias?
  (visible.filterMap MergedItem.declaration?).filterMap (declarationAt aliases v)

end MergedSchema

end SchemaLineage

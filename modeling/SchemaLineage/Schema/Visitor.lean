import SchemaLineage.Schema.Node

/-!
Visitors walk the nodes of a schema. A visitor says what to do at a node, given what it does at the
children; the structural fallback does nothing but visit the children in order. The outline of a
schema is what a visitor records that notes each node with its depth and otherwise falls back; it
may be told not to go below nodes of some kinds.
-/
namespace SchemaLineage

/-- What is done at a node: `below` is the same visitor at a child, and the context is handed from
a node to its children. -/
def Visitor (m : Type → Type) (γ ω : Type) : Type :=
  (node : Node) → (below : (child : Node) → child ∈ node.children → γ → m ω) → γ → m ω

namespace Visitor

variable {m : Type → Type} {γ ω : Type}

def visit (visitor : Visitor m γ ω) (node : Node) : γ → m ω :=
  visitor node fun child _ => visit visitor child
termination_by node.height
decreasing_by exact Node.height_lt_of_mem_children ‹_›

/-- The results at the nodes of a list, in order. Nothing is done at a node before the result at the
one before it is there. -/
def visitAll [Monad m] (visitor : Visitor m γ ω) (nodes : List Node) (context : γ) : m (List ω) :=
  nodes.mapM fun node => visitor.visit node context

/-- The structural fallback: visit every child under one context and answer the default. -/
def fallback [Monad m] [Inhabited ω] : Visitor m γ ω :=
  fun node below context => do
    for h : child in node.children do
      let _ ← below child h context
    return default

def atChildren [Monad m] (node : Node) (below : (child : Node) → child ∈ node.children → γ → m ω)
    (kind : NodeKind) (context : γ) : m (List ω) :=
  (node.children.attach.filter (·.1.kind = kind)).mapM fun child => below child.1 child.2 context

theorem visit_eq (visitor : Visitor m γ ω) (node : Node) :
    visitor.visit node = visitor node fun child _ => visitor.visit child := by
  rw [visit]

/-- Below a visited node, the children of one kind are visited one after the other. -/
theorem atChildren_visit [Monad m] [LawfulMonad m] (visitor : Visitor m γ ω) (node : Node)
    (kind : NodeKind) (context : γ) :
    atChildren node (fun child _ => visitor.visit child) kind context =
      visitor.visitAll (node.children.filter (·.kind = kind)) context := by
  have hchildren : node.children.filter (·.kind = kind) =
      (node.children.attach.filter (·.1.kind = kind)).map Subtype.val :=
    calc
      _ = (node.children.attach.map Subtype.val).filter (·.kind = kind) := by
        rw [List.attach_map_subtype_val]
      _ = _ := List.filter_map
  rw [atChildren, visitAll, hchildren, List.mapM_map]
  rfl

end Visitor

structure OutlineEntry where
  depth : Nat
  node : Node
  deriving DecidableEq

/-- Notes each node with its depth, and goes on below it unless its kind is closed. -/
def Visitor.outliner (closed : List NodeKind) : Visitor (StateM (List OutlineEntry)) Nat Unit :=
  fun node below depth => do
    modify (· ++ [⟨depth, node⟩])
    if node.kind ∈ closed then return ()
    Visitor.fallback node below (depth + 1)

namespace Schema

/-- The nodes of a schema with their depths, parents before children, without those below nodes of
the closed kinds. -/
def outlineAbove (closed : List NodeKind) (s : Schema) : List OutlineEntry :=
  ((Visitor.outliner closed).visit (.module s) 0 |>.run []).2

def outline (s : Schema) : List OutlineEntry :=
  s.outlineAbove []

end Schema

end SchemaLineage

import SchemaLineage.Yaml.Token

/-!
The values of YAML texts. A value may have a name, an anchor, by which others refer to it.
-/
namespace SchemaLineage.Yaml

inductive Node where
  | scalar (content : Scalar)
  | list (elements : List Node)
  | mapping (entries : List (Node × Node))
  /-- Stands for the node whose anchor has a number. -/
  | reference (anchor : Nat)
  deriving Inhabited

def Node.empty : Node :=
  .scalar {}

structure Names where
  handles : List (List Char × FullTag)
  /-- The numbers of anchors, each of which has only the number that it got last. -/
  anchors : List (String × Nat) := []
  /-- The nodes that got a number, last ones first; only scalars are kept. -/
  scalars : List (Nat × Option Scalar) := []

namespace Names

def fullTag? (n : Names) (t : Tag) : Option FullTag :=
  if t.handle.isEmpty then some t.octets
  else (n.handles.lookup t.handle).map (· ++ t.octets)

/-- The names with an anchor for a node. Its number is how many anchors there are, so that after an
anchor is used anew, the next one shares its number. -/
def withAnchor (n : Names) (anchor : Option String) (content : Option Scalar) : Names :=
  match anchor with
  | none => n
  | some name =>
    let number := n.anchors.length
    { n with
      anchors := (name, number) :: n.anchors.filter (·.1 ≠ name)
      scalars := (number, content) :: n.scalars }

/-- The scalar that a node is or refers to. A number refers to the last node that got it. -/
def scalar? (n : Names) : Node → Option Scalar
  | .scalar content => some content
  | .reference anchor => (n.scalars.lookup anchor).join
  | _ => none

end Names

end SchemaLineage.Yaml

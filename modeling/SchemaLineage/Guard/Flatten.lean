import SchemaLineage.Guard.Tree

/-!
Flattening a guard tree. Guards that add nothing to the guard around them give way to their bodies,
guards without a body go, and neighbours under one condition become one guard. What is visible at
a version stays as it is.
-/
namespace SchemaLineage

namespace GuardBody

variable {α : Type}

/-- One body after the other; if guards under one condition meet, their bodies are joined. -/
def join : GuardBody α → GuardBody α → GuardBody α
  | nil, tail => tail
  | item x rest, tail => item x (join rest tail)
  | guard c inner nil, guard c' inner' tail =>
    if c = c' then guard c (join inner inner') tail
    else guard c inner (guard c' inner' tail)
  | guard c inner rest, tail => guard c inner (join rest tail)

/-- The flat form of a body that stands under the condition `enclosing`. -/
def flatten (enclosing : Condition) : GuardBody α → GuardBody α
  | nil => nil
  | item x rest => item x (flatten enclosing rest)
  | guard c inner rest =>
    if c = .always ∨ c = enclosing then join (flatten enclosing inner) (flatten enclosing rest)
    else
      match flatten c inner with
      | nil => flatten enclosing rest
      | kept => join (guard c kept nil) (flatten enclosing rest)

end GuardBody

/-- The flat form of a tree; its own condition stays. -/
def GuardTree.flatten {α : Type} (t : GuardTree α) : GuardTree α :=
  ⟨t.condition, t.body.flatten t.condition⟩

end SchemaLineage

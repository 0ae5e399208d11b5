import SchemaLineage.Guard.Condition

/-!
Guard trees: ordered items, some of them under conditions. A tree has one meaning per version, the
list of the items whose enclosing conditions all hold there. Listing the items, evaluating the tree
and mapping it all go through the items in the same order.
-/
namespace SchemaLineage

/-- A sequence of items and of guards, which hold such sequences themselves. -/
inductive GuardBody (α : Type) where
  | nil
  | item (value : α) (rest : GuardBody α)
  | guard (condition : Condition) (inner : GuardBody α) (rest : GuardBody α)
  deriving DecidableEq

namespace GuardBody

variable {α β : Type}

/-- The items whose enclosing guards all hold at a version. -/
def visible (v : Version) : GuardBody α → List α
  | nil => []
  | item x rest => x :: visible v rest
  | guard c inner rest => (if c.holds v then visible v inner else []) ++ visible v rest

def size : GuardBody α → Nat
  | nil => 0
  | item _ rest => size rest + 1
  | guard _ inner rest => size inner + size rest + 1

def stackSize : List (GuardBody α) → Nat
  | [] => 0
  | body :: stack => 2 * body.size + 1 + stackSize stack

/-- The items of the bodies on a stack, the top of the stack first. A guard puts its own body on
the stack, above what follows it. -/
def walk : List (GuardBody α) → List α
  | [] => []
  | nil :: stack => walk stack
  | item x rest :: stack => x :: walk (rest :: stack)
  | guard _ inner rest :: stack => walk (inner :: rest :: stack)
termination_by stack => stackSize stack
decreasing_by all_goals simp only [stackSize, size]; omega

def items (body : GuardBody α) : List α :=
  walk [body]

def mapM {m : Type → Type} [Monad m] (f : α → m β) : GuardBody α → m (GuardBody β)
  | nil => pure nil
  | item x rest => do
    let y ← f x
    let rest ← mapM f rest
    return item y rest
  | guard c inner rest => do
    let inner ← mapM f inner
    let rest ← mapM f rest
    return guard c inner rest

def map (f : α → β) : GuardBody α → GuardBody β
  | nil => nil
  | item x rest => item (f x) (map f rest)
  | guard c inner rest => guard c (map f inner) (map f rest)

def append : GuardBody α → GuardBody α → GuardBody α
  | nil, tail => tail
  | item x rest, tail => item x (append rest tail)
  | guard c inner rest, tail => guard c inner (append rest tail)

instance : Append (GuardBody α) := ⟨append⟩

def ofItems (xs : List α) : GuardBody α :=
  xs.foldr item nil

def isEmpty : GuardBody α → Bool
  | nil => true
  | _ => false

end GuardBody

structure GuardTree (α : Type) where
  condition : Condition
  body : GuardBody α
  deriving DecidableEq

namespace GuardTree

variable {α β : Type}

def unconditional (body : GuardBody α) : GuardTree α :=
  ⟨.always, body⟩

def asGuard (t : GuardTree α) : GuardBody α :=
  .guard t.condition t.body .nil

def isEmpty (t : GuardTree α) : Bool :=
  t.body.isEmpty

/-- The items visible at a version, in order. -/
def evaluate (t : GuardTree α) (v : Version) : List α :=
  if t.condition.holds v then t.body.visible v else []

def items (t : GuardTree α) : List α :=
  t.body.items

def mapM {m : Type → Type} [Monad m] (f : α → m β) (t : GuardTree α) : m (GuardTree β) :=
  GuardTree.mk t.condition <$> t.body.mapM f

def map (f : α → β) (t : GuardTree α) : GuardTree β :=
  ⟨t.condition, t.body.map f⟩

end GuardTree

end SchemaLineage

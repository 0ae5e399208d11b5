import SchemaLineage.Lineage.History

/-!
One order for all field shapes of a history, in which each version's own order is a subsequence.
Shapes are known by their ranks. A rank is placed when nothing that must come before it is left, and
of several such ranks the least is placed first.
-/
namespace SchemaLineage.FieldOrder

def neighbours {α : Type} (xs : List α) : List (α × α) :=
  xs.zip xs.tail

/-- Which rank follows which directly in some version; each pair is listed once. -/
def edges (h : History) (shapes : FieldShapes) : List (Nat × Nat) :=
  (h.entries.flatMap fun entry => neighbours (entry.2.fields.filterMap shapes.rank?)).eraseDups

def indegree (edges : List (Nat × Nat)) (rank : Nat) : Nat :=
  edges.countP (·.2 = rank)

def decrement (count : Nat → Nat) (rank : Nat) : Nat → Nat :=
  fun r => if r = rank then count r - 1 else count r

def release (edges : List (Nat × Nat)) (rank : Nat) (count : Nat → Nat) : Nat → Nat :=
  ((edges.filter (·.1 = rank)).map (·.2)).foldl decrement count

/-- Places the pending ranks, given how many edges still lead to each: the placed ranks in order,
and those that could not be placed. -/
def place (edges : List (Nat × Nat)) (pending : List Nat) (count : Nat → Nat) :
    List Nat × List Nat :=
  match _hnext : pending.find? (count · = 0) with
  | none => ([], pending)
  | some rank =>
    let (order, stuck) := place edges (pending.erase rank) (release edges rank count)
    (rank :: order, stuck)
termination_by pending.length
decreasing_by
  have hmem := List.mem_of_find?_eq_some _hnext
  have := List.length_erase_of_mem hmem
  have := List.length_pos_of_mem hmem
  omega

/-- The least order of all ranks that agrees with every version, or the ranks that stand on or
behind a cycle. -/
def order (h : History) (shapes : FieldShapes) : Except (List Nat) (List Nat) :=
  let edges := edges h shapes
  match place edges (List.range shapes.size) (indegree edges) with
  | (order, []) => .ok order
  | (_, stuck) => .error stuck

end SchemaLineage.FieldOrder

import Mathlib.Data.List.Basic
import SchemaLineage.Schema.Node

/-!
The order of the nodes of a schema. A node below another one has a place, the indices of the
children that lead to it, and so every part of a schema is told from parts that equal it. Main
statements: the occurrences of nodes below a node are listed at all places that there are, in
ascending order of their places, with the nodes above them; the listing of a schema is that of its
types with all their parts.
-/
namespace SchemaLineage

/-! ## Places -/

namespace Node

/-- The node at a place below a node: the indices of the children that lead to it. -/
def at? : Node → (place : List Nat) → Option Node
  | node, [] => some node
  | node, i :: place => (node.children[i]?).bind (·.at? place)

/-- The nodes above a place, the outermost first. -/
def above : Node → (place : List Nat) → List Node
  | _, [] => []
  | node, i :: place => node :: ((node.children[i]?).map (·.above place)).getD []

end Node

structure Occurrence where
  place : List Nat
  above : List Node
  node : Node
  deriving DecidableEq

/-- The occurrence as it is seen from the parent of the node that it is below. -/
def Occurrence.within (parent : Node) (i : Nat) (o : Occurrence) : Occurrence :=
  ⟨i :: o.place, parent :: o.above, o.node⟩

namespace Node

@[elab_as_elim]
theorem children_induction {P : Node → Prop}
    (step : ∀ node : Node, (∀ child ∈ node.children, P child) → P node) (node : Node) : P node :=
  step node fun child _ => children_induction step child
termination_by node.height
decreasing_by exact height_lt_of_mem_children ‹_›

def occurrences (node : Node) : List Occurrence :=
  ⟨[], [], node⟩ :: node.children.attach.zipIdx.flatMap fun (child, i) =>
    (occurrences child.1).map (.within node i)
termination_by node.height
decreasing_by exact height_lt_of_mem_children child.2

theorem occurrences_eq (node : Node) :
    node.occurrences = ⟨[], [], node⟩ :: node.children.zipIdx.flatMap fun (child, i) =>
      child.occurrences.map (.within node i) := by
  have hchildren : node.children.zipIdx =
      node.children.attach.zipIdx.map fun (child, i) => (child.1, i) := by
    conv_lhs => rw [← List.attach_map_subtype_val node.children, List.zipIdx_map]
    rfl
  rw [hchildren, List.flatMap_map, occurrences]

/-- What is the same for each index of a child can be gathered child by child. -/
theorem map_flatMap_within {ε : Type} {node : Node} {below : Node → List Occurrence}
    {f g : Occurrence → ε} (h : ∀ i o, f (.within node i o) = g o) :
    (node.children.zipIdx.flatMap fun (child, i) => (below child).map (.within node i)).map f =
      node.children.flatMap fun child => (below child).map g := by
  rw [List.map_flatMap]
  conv_rhs => rw [← List.zipIdx_map_fst 0 node.children, List.flatMap_map]
  refine List.flatMap_congr fun (child, i) _ => ?_
  rw [List.map_map]
  exact List.map_congr_left fun o _ => h i o

/-- What is listed is what stands at some place. -/
theorem mem_occurrences_iff {node target : Node} {place : List Nat} {path : List Node} :
    ⟨place, path, target⟩ ∈ node.occurrences ↔
      node.at? place = some target ∧ path = node.above place := by
  induction place generalizing node path with
  | nil =>
    rw [occurrences_eq, List.mem_cons, Occurrence.mk.injEq, at?, above, Option.some.injEq]
    constructor
    · rintro (⟨-, rfl, rfl⟩ | hbelow)
      · exact ⟨rfl, rfl⟩
      · obtain ⟨⟨child, i⟩, -, hchild⟩ := List.mem_flatMap.1 hbelow
        obtain ⟨o, -, ho⟩ := List.mem_map.1 hchild
        cases ho
    · rintro ⟨rfl, rfl⟩
      exact .inl ⟨rfl, rfl, rfl⟩
  | cons i place ih =>
    rw [occurrences_eq, List.mem_cons, at?, above]
    constructor
    · rintro (hroot | hbelow)
      · cases hroot
      · obtain ⟨⟨child, j⟩, hmem, hchild⟩ := List.mem_flatMap.1 hbelow
        obtain ⟨o, ho, heq⟩ := List.mem_map.1 hchild
        cases heq
        obtain ⟨hat, habove⟩ := ih.1 ho
        rw [List.mk_mem_zipIdx_iff_getElem?.1 hmem]
        exact ⟨hat, congrArg (node :: ·) habove⟩
    · rintro ⟨hat, rfl⟩
      obtain ⟨child, hchild, hat⟩ := Option.bind_eq_some_iff.1 hat
      rw [hchild]
      refine .inr (List.mem_flatMap.2 ⟨(child, i), List.mk_mem_zipIdx_iff_getElem?.2 hchild, ?_⟩)
      exact List.mem_map.2 ⟨⟨place, child.above place, target⟩, ih.2 ⟨hat, rfl⟩, rfl⟩

theorem pairwise_zipIdx {α : Type} (xs : List α) (n : Nat) :
    (xs.zipIdx n).Pairwise fun x y => x.2 < y.2 := by
  have hindices : ((xs.zipIdx n).map Prod.snd).Pairwise (· < ·) := by
    rw [List.zipIdx_map_snd]
    exact List.pairwise_lt_range'
  exact List.pairwise_map.1 hindices

/-- Places are listed in ascending order: a node before the nodes below it, and what is below a
child before what is below the next one. -/
theorem pairwise_place_occurrences (node : Node) :
    (node.occurrences.map Occurrence.place).Pairwise (· < ·) := by
  induction node using children_induction with
  | step node ih =>
    have hplaces : node.occurrences.map Occurrence.place = [] ::
        node.children.zipIdx.flatMap fun (child, i) =>
          (child.occurrences.map Occurrence.place).map (i :: ·) := by
      rw [occurrences_eq, List.map_cons, List.map_flatMap]
      simp only [List.map_map]
      rfl
    -- The node is before all places below, which are in order within a child and across children.
    rw [hplaces, List.pairwise_cons, List.pairwise_flatMap]
    refine ⟨fun place hplace => ?_, fun ⟨child, i⟩ hchild => ?_, ?_⟩
    · obtain ⟨⟨child, i⟩, -, hchild⟩ := List.mem_flatMap.1 hplace
      obtain ⟨below, -, rfl⟩ := List.mem_map.1 hchild
      exact List.nil_lt_cons i below
    · rw [List.pairwise_map]
      exact (ih child (List.fst_mem_of_mem_zipIdx hchild)).imp List.cons_lt_cons_self.2
    · refine (pairwise_zipIdx node.children 0).imp fun hlt place hplace other hother => ?_
      obtain ⟨below, -, rfl⟩ := List.mem_map.1 hplace
      obtain ⟨below', -, rfl⟩ := List.mem_map.1 hother
      exact List.cons_lt_cons_iff.2 (.inl hlt)

/-- The occurrences that no node above them keeps out of reach by its kind. -/
def reached (closed : List NodeKind) (node : Node) : List Occurrence :=
  node.occurrences.filter fun o => ∀ a ∈ o.above, a.kind ∉ closed

variable {closed : List NodeKind} {node : Node}

theorem reached_of_closed (h : node.kind ∈ closed) : node.reached closed = [⟨[], [], node⟩] := by
  rw [reached, occurrences_eq, List.filter_cons_of_pos (by simp), List.filter_eq_nil_iff.2]
  intro o ho
  obtain ⟨⟨child, i⟩, -, hchild⟩ := List.mem_flatMap.1 ho
  obtain ⟨below, -, rfl⟩ := List.mem_map.1 hchild
  simp [Occurrence.within, h]

theorem reached_of_open (h : node.kind ∉ closed) :
    node.reached closed = ⟨[], [], node⟩ :: node.children.zipIdx.flatMap fun (child, i) =>
      (child.reached closed).map (.within node i) := by
  rw [reached, occurrences_eq, List.filter_cons_of_pos (by simp), List.filter_flatMap]
  refine congrArg (_ :: ·) (List.flatMap_congr fun (child, i) _ => ?_)
  simp only [reached, List.filter_map]
  refine congrArg (List.map _) (List.filter_congr fun o _ => ?_)
  simp [Occurrence.within, h]

end Node

/-- A listing of all nodes at and below a node: their places are in ascending order, so that none is
listed twice, parents come before children and siblings in their order; and every node stands at its
place, with the nodes above it. -/
structure PreorderListing (root : Node) (listing : List Occurrence) : Prop where
  ascending : (listing.map Occurrence.place).Pairwise (· < ·)
  mem_iff : ∀ place above node, ⟨place, above, node⟩ ∈ listing ↔
    root.at? place = some node ∧ above = root.above place

theorem preorderListing_occurrences (root : Node) : PreorderListing root root.occurrences :=
  ⟨root.pairwise_place_occurrences, fun _ _ _ => Node.mem_occurrences_iff⟩

/-! ## The listing of a schema -/

def Constructor.nodes (c : Constructor) : List Node :=
  .constructor c :: c.fields.map .field

def TypeBody.nodes : TypeBody → List Node
  | sum s => .sum s :: (s.constructors.flatMap Constructor.nodes ++ s.attributes.map .field)
  | product p => .product p :: (p.fields.map .field ++ p.attributes.map .field)

def TypeDef.nodes (t : TypeDef) : List Node :=
  .type t :: t.body.nodes

/-- A schema with its types and all their parts, each before what it consists of. -/
def Schema.nodes (s : Schema) : List Node :=
  .module s :: s.types.flatMap TypeDef.nodes

namespace Node

theorem map_node_occurrences (node : Node) :
    node.occurrences.map Occurrence.node =
      node :: node.children.flatMap fun child => child.occurrences.map Occurrence.node := by
  rw [occurrences_eq, List.map_cons, map_flatMap_within fun _ _ => rfl]

theorem listed_fields (fields : List Field) :
    fields.flatMap (fun f => (field f).occurrences.map Occurrence.node) = fields.map field := by
  have hfield : ∀ f, (field f).occurrences.map Occurrence.node = [field f] := fun f => by
    rw [map_node_occurrences]
    rfl
  simp only [hfield, List.map_eq_flatMap]

theorem listed_constructor (c : Constructor) :
    (constructor c).occurrences.map Occurrence.node = c.nodes := by
  rw [map_node_occurrences, children, List.flatMap_map, listed_fields, Constructor.nodes]

theorem listed_body (body : TypeBody) :
    (ofBody body).occurrences.map Occurrence.node = body.nodes := by
  rw [map_node_occurrences]
  cases body with
  | sum s =>
    rw [ofBody, children, List.flatMap_append, List.flatMap_map, List.flatMap_map, listed_fields,
      TypeBody.nodes]
    simp only [listed_constructor]
  | product p =>
    rw [ofBody, children, List.flatMap_append, List.flatMap_map, List.flatMap_map, listed_fields,
      listed_fields, TypeBody.nodes]

theorem listed_type (t : TypeDef) :
    (type t).occurrences.map Occurrence.node = t.nodes := by
  rw [map_node_occurrences, children, List.flatMap_singleton, listed_body, TypeDef.nodes]

theorem listed_module (s : Schema) :
    (module s).occurrences.map Occurrence.node = s.nodes := by
  rw [map_node_occurrences, children, List.flatMap_map, Schema.nodes]
  simp only [listed_type]

theorem reached_nil (node : Node) : node.reached [] = node.occurrences := by
  rw [reached, List.filter_eq_self]
  simp

end Node

end SchemaLineage

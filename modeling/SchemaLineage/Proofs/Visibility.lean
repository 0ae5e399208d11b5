import SchemaLineage.Proofs.FlatForm

/-!
At which versions the items of a guard tree are visible. Both the list of all items and the items
shown at a version are read off the visibility of a tree, which lists its items in order, each with
the versions at which the condition of the tree and all conditions around the item hold. Main
statement: flattening, which can be done node by node, leaves the visibility of a tree as it is.
-/
namespace SchemaLineage.GuardTree

variable {α : Type}

def visibility (t : GuardTree α) : List (α × (Version → Bool)) :=
  t.body.placed.map fun p => (p.2, fun v => t.condition.holds v && p.1.all (·.holds v))

theorem items_eq_visibility (t : GuardTree α) : t.items = t.visibility.map Prod.fst := by
  rw [items, GuardBody.items_eq_placed, visibility, List.map_map]
  rfl

theorem evaluate_eq_visibility (t : GuardTree α) (v : Version) :
    t.evaluate v = (t.visibility.filter fun entry => entry.2 v).map Prod.fst := by
  rw [evaluate, visibility, List.filter_map, List.map_map, GuardBody.visible_eq_placed]
  by_cases hroot : t.condition.holds v = true
  · simp [hroot, Function.comp_def]
  · simp [hroot, Function.comp_def]

/-- Item by item, a flat tree is visible where the tree was: the conditions that flattening takes
from a path are implied by those around them. -/
theorem visibility_flatten (t : GuardTree α) : t.flatten.visibility = t.visibility := by
  rw [visibility, flatten, GuardBody.placed_flatten, List.map_map]
  refine List.map_congr_left fun p _ => Prod.ext rfl (funext fun v => ?_)
  by_cases hroot : t.condition.holds v = true
  · simp [hroot, GuardBody.all_holds_essential p.1 hroot]
  · simp [hroot]

/-- Flattening, which can be done node by node, keeps what a tree means: its condition, its items,
where each of them is visible, and so what it shows at every version. -/
theorem flatten_keeps_meaning (t : GuardTree α) :
    t.rebuild = t.flatten ∧ t.flatten.condition = t.condition ∧ t.flatten.items = t.items ∧
      (∀ v, t.flatten.evaluate v = t.evaluate v) ∧ t.flatten.visibility = t.visibility := by
  refine ⟨rebuild_eq_flatten t, rfl, ?_, fun v => ?_, visibility_flatten t⟩
  · rw [items_eq_visibility, items_eq_visibility, visibility_flatten]
  · rw [evaluate_eq_visibility, evaluate_eq_visibility, visibility_flatten]

end SchemaLineage.GuardTree

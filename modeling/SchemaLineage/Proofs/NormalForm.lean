import SchemaLineage.Proofs.FlatForm

/-!
Flat trees as a normal form. In a flat body every guard is kept with the nodes that it has, and no
two guards meet, so flattening has nothing to do. Main statement: flattening, which can be done node
by node, makes every tree flat, changes no tree that is flat, and so changes nothing when it is done
once more.
-/
namespace SchemaLineage

namespace GuardBody

variable {α : Type} {enclosing : Condition} {body : GuardBody α}

instance decidableLeadsWith (c : Condition) : (body : GuardBody α) → Decidable (LeadsWith c body)
  | nil => isFalse id
  | item _ _ => isFalse id
  | guard c' _ _ => decEq c' c

instance decidableFlat : (enclosing : Condition) → (body : GuardBody α) →
    Decidable (Flat enclosing body)
  | _, nil => isTrue trivial
  | enclosing, item _ rest => decidableFlat enclosing rest
  | enclosing, guard c inner rest =>
    have := decidableFlat c inner
    have := decidableFlat enclosing rest
    have : Decidable (inner ≠ nil) := decidable_of_iff (¬ inner.isEmpty) (not_congr isEmpty_iff)
    inferInstanceAs (Decidable (_ ∧ _ ∧ _ ∧ _ ∧ _ ∧ _))

/-- A guard of a flat body is kept as it is, and it does not meet what follows it. -/
theorem flatten_of_flat (h : Flat enclosing body) : body.flatten enclosing = body := by
  induction body generalizing enclosing with
  | nil => rfl
  | item x rest ih => rw [flatten, ih h]
  | guard c inner rest ihInner ihRest =>
    obtain ⟨halways, hne, hinner, hflat, hlead, hrest⟩ := h
    have hsame : inner.flatten c = inner := ihInner hflat
    have hkept : (guard c inner nil).flatten enclosing = guard c (inner.flatten c) nil :=
      flatten_guard_of_kept (not_or.2 ⟨halways, hne⟩) (hsame.symm ▸ hinner)
    rw [flatten_guard, hkept, hsame, ihRest hrest, guard_join fun hmeet => hlead hmeet.2, join]

end GuardBody

namespace GuardTree

variable {α : Type}

/-- At every depth no guard is empty, always holds or repeats the condition around it, the condition
of the tree included, and no two neighbours are guards under one condition. -/
def Flat (t : GuardTree α) : Prop :=
  t.body.Flat t.condition

instance (t : GuardTree α) : Decidable t.Flat :=
  inferInstanceAs (Decidable (t.body.Flat t.condition))

theorem flat_flatten (t : GuardTree α) : t.flatten.Flat :=
  GuardBody.flat_flatten t.body t.condition

theorem flatten_eq_self_iff (t : GuardTree α) : t.flatten = t ↔ t.Flat := by
  constructor
  · intro h
    exact h ▸ flat_flatten t
  · intro h
    rw [flatten, GuardBody.flatten_of_flat h]

/-- Flattening, which can be done node by node, makes every tree flat and leaves exactly the flat
trees as they are. To flatten a tree once more changes nothing. -/
theorem flatten_reaches_normal_form (t : GuardTree α) :
    t.rebuild = t.flatten ∧ t.flatten.Flat ∧ (t.flatten = t ↔ t.Flat) ∧
      t.flatten.flatten = t.flatten :=
  ⟨rebuild_eq_flatten t, flat_flatten t, flatten_eq_self_iff t,
    (flatten_eq_self_iff t.flatten).2 (flat_flatten t)⟩

/-- When a guard between them gives way, two guards under one condition meet and become one. -/
example :
    (unconditional (.guard (.atLeast ⟨[2]⟩) (.item "a" .nil)
      (.guard .always (.guard (.atLeast ⟨[2]⟩) (.item "b" .nil) .nil) .nil))).flatten =
        unconditional (.guard (.atLeast ⟨[2]⟩) (.item "a" (.item "b" .nil)) .nil) := by
  decide

end GuardTree

end SchemaLineage

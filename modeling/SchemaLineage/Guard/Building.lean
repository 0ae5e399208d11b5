import SchemaLineage.Guard.Flatten

/-!
Flattening node by node. Nodes are put one after the other at the end of what was built so far. A
guard is flattened first; then it is left out if nothing is in it, gives way to its own nodes if it
adds nothing to the guard around it, and is put at the end otherwise. If a guard under the same
condition stands there already, that one takes the nodes of the new one in the same way.
-/
namespace SchemaLineage

namespace GuardBody

variable {α : Type}

/-- The body with a guard at its end; `merge` is what the nodes of the guard make of those of a
guard that stands there under the same condition. -/
def pushLast (c : Condition) (inner : GuardBody α) (merge : GuardBody α → GuardBody α) :
    GuardBody α → GuardBody α
  | nil => guard c inner nil
  | item x rest => item x (pushLast c inner merge rest)
  | guard c' inner' nil =>
    if c' = c then guard c' (merge inner') nil else guard c' inner' (guard c inner nil)
  | guard c' inner' rest => guard c' inner' (pushLast c inner merge rest)

def pushAll (out : GuardBody α) : GuardBody α → GuardBody α
  | nil => out
  | item x rest => pushAll (out ++ item x nil) rest
  | guard c inner rest => pushAll (pushLast c inner (fun prev => pushAll prev inner) out) rest

def pushGuard (out : GuardBody α) (c : Condition) (inner : GuardBody α) : GuardBody α :=
  pushLast c inner (fun prev => pushAll prev inner) out

theorem size_append (a b : GuardBody α) : (a ++ b).size = a.size + b.size := by
  induction a with
  | nil => exact (Nat.zero_add _).symm
  | item x rest ih =>
    change (rest ++ b).size + 1 = rest.size + 1 + b.size
    omega
  | guard c inner rest _ ih =>
    change inner.size + (rest ++ b).size + 1 = inner.size + rest.size + 1 + b.size
    omega

theorem size_pushLast_le {c : Condition} {inner : GuardBody α}
    {merge : GuardBody α → GuardBody α}
    (h : ∀ prev, (merge prev).size ≤ prev.size + inner.size) (out : GuardBody α) :
    (pushLast c inner merge out).size ≤ out.size + inner.size + 1 := by
  fun_induction pushLast c inner merge out with
  | case1 => simp only [size]; omega
  | case2 x rest ih => simp only [size]; omega
  | case3 inner' =>
    have := h inner'
    simp only [size]
    omega
  | case4 c' inner' hne => simp only [size]; omega
  | case5 c' inner' rest hrest ih => simp only [size]; omega

theorem size_pushAll_le (out next : GuardBody α) :
    (pushAll out next).size ≤ out.size + next.size := by
  induction next generalizing out with
  | nil => exact Nat.le_refl _
  | item x rest ih =>
    have hrest := ih (out ++ item x nil)
    rw [size_append] at hrest
    simp only [pushAll, size] at hrest ⊢
    omega
  | guard c inner rest ihInner ihRest =>
    have hguard := size_pushLast_le (c := c) ihInner out
    have hrest := ihRest (pushLast c inner (fun prev => pushAll prev inner) out)
    simp only [pushAll, size]
    omega

theorem size_pushGuard_le (out : GuardBody α) (c : Condition) (inner : GuardBody α) :
    (pushGuard out c inner).size ≤ out.size + inner.size + 1 :=
  size_pushLast_le (fun prev => size_pushAll_le prev inner) out

/-- What stands under the condition `enclosing` with the nodes of a body flattened into it. It has
at most as many nodes as both, so the nodes of a flat guard can be flattened once more. -/
def absorb (enclosing : Condition) (out body : GuardBody α) :
    { built : GuardBody α // built.size ≤ out.size + body.size } :=
  match body with
  | nil => ⟨out, Nat.le_refl _⟩
  | item x rest =>
    let built := absorb enclosing (out ++ item x nil) rest
    ⟨built.1, by have := built.2; simp only [size_append, size] at this ⊢; omega⟩
  | guard c inner rest =>
    let ⟨kept, hkept⟩ := absorb c nil inner
    if kept.isEmpty then
      let built := absorb enclosing out rest
      ⟨built.1, by have := built.2; simp only [size]; omega⟩
    else if c = .always ∨ c = enclosing then
      let spliced := absorb enclosing out kept
      let built := absorb enclosing spliced.1 rest
      ⟨built.1, by have := spliced.2; have := built.2; simp only [size] at hkept ⊢; omega⟩
    else
      have hguard := size_pushGuard_le out c kept
      let built := absorb enclosing (pushGuard out c kept) rest
      ⟨built.1, by have := built.2; simp only [size] at hkept ⊢; omega⟩
termination_by body.size
decreasing_by all_goals simp only [size] at *; omega

end GuardBody

/-- The flat form of a tree, built node by node; its own condition stays. -/
def GuardTree.rebuild {α : Type} (t : GuardTree α) : GuardTree α :=
  ⟨t.condition, (GuardBody.absorb t.condition .nil t.body).1⟩

end SchemaLineage

import SchemaLineage.Lineage.Merged
import SchemaLineage.Proofs.Placement

/-!
Views of one guard tree. The walk over a stack of bodies, the items shown at a version and an
action that is mapped over the tree all go through the items in one order, the recursive one: depth
first, a guard's items before what follows the guard. An action with a state is seen through its
calls, each of which takes the state that the call before it left. Main statement: the three views
agree with the recursive listing of the tree, and so rendering a merged schema calls its action once
for each of the declarations, in their order.
-/
namespace SchemaLineage

variable {α β σ : Type}

/-- An action done on items one after the other, from one state to another. A call is an item with
the result that the action gave for it. -/
inductive Calls (f : α → StateM σ β) : σ → List (α × β) → σ → Prop
  | nil {s : σ} : Calls f s [] s
  | cons {s next after : σ} {x : α} {y : β} {calls : List (α × β)} : (f x).run s = (y, next) →
    Calls f next calls after → Calls f s ((x, y) :: calls) after

theorem Calls.append {f : α → StateM σ β} {s middle after : σ} {calls later : List (α × β)}
    (h : Calls f s calls middle) (hlater : Calls f middle later after) :
    Calls f s (calls ++ later) after := by
  induction h with
  | nil => exact hlater
  | cons hcall _ ih => exact .cons hcall (ih hlater)

namespace GuardBody

variable {f : α → StateM σ β}

def listing : GuardBody α → List α
  | nil => []
  | item x rest => x :: listing rest
  | guard _ inner rest => listing inner ++ listing rest

theorem map_snd_placed (body : GuardBody α) : body.placed.map Prod.snd = body.listing := by
  induction body with
  | nil => rfl
  | item x rest ih => simp [placed, listing, ih]
  | guard c inner rest ihInner ihRest =>
    simp [placed, listing, ← ihInner, ← ihRest, Function.comp_def]

theorem items_eq_listing (body : GuardBody α) : body.items = body.listing := by
  rw [items_eq_placed, map_snd_placed]

theorem placed_map (g : α → β) (body : GuardBody α) :
    (body.map g).placed = body.placed.map fun p => (p.1, g p.2) := by
  induction body with
  | nil => rfl
  | item x rest ih => simp [map, placed, ih]
  | guard c inner rest ihInner ihRest =>
    simp [map, placed, ihInner, ihRest, Function.comp_def]

/-- What is mapped stays where it is. -/
theorem listing_map (g : α → β) (body : GuardBody α) :
    (body.map g).listing = body.listing.map g := by
  rw [← map_snd_placed, placed_map, ← map_snd_placed, List.map_map, List.map_map]
  rfl

theorem visible_map (g : α → β) (body : GuardBody α) (v : Version) :
    (body.map g).visible v = (body.visible v).map g := by
  rw [visible_eq_placed, placed_map, visible_eq_placed, List.filter_map, List.map_map, List.map_map]
  rfl

theorem map_map {γ : Type} (g : α → β) (h : β → γ) (body : GuardBody α) :
    (body.map g).map h = body.map (h ∘ g) := by
  induction body with
  | nil => rfl
  | item x rest ih => simp [map, ih]
  | guard c inner rest ihInner ihRest => simp [map, ihInner, ihRest]

theorem map_congr {g h : α → β} {body : GuardBody α} (heq : ∀ x ∈ body.listing, g x = h x) :
    body.map g = body.map h := by
  induction body with
  | nil => rfl
  | item x rest ih =>
    rw [listing, List.forall_mem_cons] at heq
    rw [map, map, heq.1, ih heq.2]
  | guard c inner rest ihInner ihRest =>
    rw [listing, List.forall_mem_append] at heq
    rw [map, map, ihInner heq.1, ihRest heq.2]

theorem run_mapM_item {x : α} {y : β} {s next after : σ} {rest : GuardBody α}
    {results : GuardBody β} (hx : (f x).run s = (y, next))
    (hrest : (rest.mapM f).run next = (results, after)) :
    ((item x rest).mapM f).run s = (item y results, after) := by
  rw [mapM, StateT.run_bind, hx]
  change ((rest.mapM f >>= fun rest => pure (item y rest)).run next) = _
  rw [StateT.run_bind, hrest]
  rfl

theorem run_mapM_guard {c : Condition} {s middle after : σ} {inner rest : GuardBody α}
    {results later : GuardBody β} (hinner : (inner.mapM f).run s = (results, middle))
    (hrest : (rest.mapM f).run middle = (later, after)) :
    ((guard c inner rest).mapM f).run s = (guard c results later, after) := by
  rw [mapM, StateT.run_bind, hinner]
  change ((rest.mapM f >>= fun rest => pure (guard c results rest)).run middle) = _
  rw [StateT.run_bind, hrest]
  rfl

/-- The calls of a mapped action stand in the tree where their items stood. -/
theorem exists_calls (f : α → StateM σ β) (body : GuardBody α) (s : σ) :
    ∃ (called : GuardBody (α × β)) (after : σ), Calls f s called.listing after ∧
      called.map Prod.fst = body ∧ (body.mapM f).run s = (called.map Prod.snd, after) := by
  induction body generalizing s with
  | nil => exact ⟨nil, s, .nil, rfl, rfl⟩
  | item x rest ih =>
    obtain ⟨called, after, hcalls, hrest, hrun⟩ := ih ((f x).run s).2
    refine ⟨item (x, ((f x).run s).1) called, after, .cons rfl hcalls, ?_, run_mapM_item rfl hrun⟩
    rw [map, hrest]
  | guard c inner rest ihInner ihRest =>
    obtain ⟨called, middle, hcalls, hinner, hrun⟩ := ihInner s
    obtain ⟨later, after, hlater, hrest, hlast⟩ := ihRest middle
    refine ⟨guard c called later, after, hcalls.append hlater, ?_, run_mapM_guard hrun hlast⟩
    rw [map, hinner, hrest]

end GuardBody

namespace GuardTree

/-- The items in order, each with the conditions that enclose it, that of the tree first. -/
def paths (t : GuardTree α) : List (List Condition × α) :=
  t.body.placed.map fun p => (t.condition :: p.1, p.2)

theorem map_snd_paths (t : GuardTree α) : t.paths.map Prod.snd = t.items := by
  rw [items, GuardBody.items_eq_placed, paths, List.map_map]
  rfl

theorem evaluate_eq_paths (t : GuardTree α) (v : Version) :
    t.evaluate v = (t.paths.filter fun p => p.1.all (·.holds v)).map Prod.snd := by
  rw [evaluate, paths, List.filter_map, List.map_map, GuardBody.visible_eq_placed]
  by_cases hroot : t.condition.holds v = true
  · simp [hroot, Function.comp_def]
  · simp [hroot, Function.comp_def]

theorem items_map (g : α → β) (t : GuardTree α) : (t.map g).items = t.items.map g := by
  rw [items, items, map, GuardBody.items_eq_listing, GuardBody.listing_map,
    GuardBody.items_eq_listing]

theorem evaluate_map (g : α → β) (t : GuardTree α) (v : Version) :
    (t.map g).evaluate v = (t.evaluate v).map g := by
  rw [evaluate, evaluate, map, GuardBody.visible_map]
  split
  · rfl
  · rfl

theorem map_map {γ : Type} (g : α → β) (h : β → γ) (t : GuardTree α) :
    (t.map g).map h = t.map (h ∘ g) := by
  rw [map, map, GuardBody.map_map]
  rfl

theorem map_congr {g h : α → β} {t : GuardTree α} (heq : ∀ x ∈ t.items, g x = h x) :
    t.map g = t.map h := by
  rw [items, GuardBody.items_eq_listing] at heq
  rw [map, map, GuardBody.map_congr heq]

/-- A mapped action is called on the items in order. The tree and its result are the two sides of
one tree of calls. -/
theorem exists_calls (f : α → StateM σ β) (t : GuardTree α) (s : σ) :
    ∃ (called : GuardTree (α × β)) (after : σ), Calls f s called.items after ∧
      called.map Prod.fst = t ∧ (t.mapM f).run s = (called.map Prod.snd, after) := by
  obtain ⟨called, after, hcalls, hbody, hrun⟩ := t.body.exists_calls f s
  refine ⟨⟨t.condition, called⟩, after, ?_, ?_, ?_⟩
  · rw [items, GuardBody.items_eq_listing]
    exact hcalls
  · rw [map, hbody]
  · rw [mapM, StateT.run_map, hrun]
    rfl

end GuardTree

/-! ## Rendering -/

namespace Rendered

def declaration? : Rendered β → Option β
  | declaration y => some y
  | baseAlias _ => none

def baseAlias? : Rendered β → Option BaseAlias
  | baseAlias a => some a
  | declaration _ => none

end Rendered

namespace MergedSchema

def renderItem (f : String → BaseRef → GuardTree Field → StateM σ β) :
    MergedItem → StateM σ (Rendered β)
  | .baseAlias a => return .baseAlias a
  | .declaration d => Rendered.declaration <$> f d.name d.base d.body

theorem render_eq (merged : MergedSchema)
    (f : String → BaseRef → GuardTree Field → StateM σ β) :
    merged.render f = merged.body.mapM (renderItem f) :=
  rfl

/-- Between the calls on declarations, aliases change neither the state nor themselves. -/
theorem calls_declarations {f : String → BaseRef → GuardTree Field → StateM σ β} {s after : σ}
    {calls : List (MergedItem × Rendered β)} (h : Calls (renderItem f) s calls after) :
    (∀ call ∈ calls, call.2.baseAlias? = call.1.baseAlias?) ∧
      ∃ own : List (MergedDeclaration × β),
        Calls (fun d => f d.name d.base d.body) s own after ∧
          own.map Prod.fst = (calls.map Prod.fst).filterMap MergedItem.declaration? ∧
          own.map Prod.snd = (calls.map Prod.snd).filterMap Rendered.declaration? := by
  induction h with
  | nil => exact ⟨List.forall_mem_nil _, [], .nil, rfl, rfl⟩
  | @cons s next after item result calls hcall _ ih =>
    obtain ⟨haliases, own, hown, hitems, hresults⟩ := ih
    rw [List.forall_mem_cons]
    cases item with
    | baseAlias a =>
      cases hcall
      exact ⟨⟨rfl, haliases⟩, own, hown, hitems, hresults⟩
    | declaration d =>
      cases hcall
      refine ⟨⟨rfl, haliases⟩, (d, _) :: own, .cons rfl hown, ?_, ?_⟩
      · exact congrArg (d :: ·) hitems
      · exact congrArg (_ :: ·) hresults

/-- Rendering calls its action on the declarations in their order and puts the results in their
places, between the aliases. -/
theorem exists_render_calls (merged : MergedSchema)
    (f : String → BaseRef → GuardTree Field → StateM σ β) (s : σ) :
    ∃ (rendered : GuardTree (Rendered β)) (calls : List (MergedDeclaration × β)) (after : σ),
      (merged.render f).run s = (rendered, after) ∧
        Calls (fun d => f d.name d.base d.body) s calls after ∧
        calls.map Prod.fst = merged.declarations ∧
        calls.map Prod.snd = rendered.items.filterMap Rendered.declaration? ∧
        rendered.map Rendered.baseAlias? = merged.body.map MergedItem.baseAlias? := by
  obtain ⟨called, after, hcalls, hbody, hrun⟩ := merged.body.exists_calls (renderItem f) s
  obtain ⟨haliases, own, hown, hitems, hresults⟩ := calls_declarations hcalls
  refine ⟨called.map Prod.snd, own, after, render_eq merged f ▸ hrun, hown, ?_, ?_, ?_⟩
  · rw [hitems, declarations, ← hbody, GuardTree.items_map]
  · rw [hresults, GuardTree.items_map]
  · rw [← hbody, GuardTree.map_map, GuardTree.map_map]
    exact GuardTree.map_congr haliases

end MergedSchema

/-- The stack walk lists the items of a tree depth first; a version shows those of them whose
enclosing conditions all hold there; and an action mapped over the tree is called on each of them
once, in the same order, and leaves its results in their places, under the same conditions.
Rendering a merged schema so calls its action once for each declaration. -/
theorem tree_views_agree (t : GuardTree α) (merged : MergedSchema) :
    t.items = t.body.listing ∧ t.paths.map Prod.snd = t.items ∧
      (∀ v, t.evaluate v = (t.paths.filter fun p => p.1.all (·.holds v)).map Prod.snd) ∧
      (∀ (f : α → StateM σ β) (s : σ),
        ∃ (called : GuardTree (α × β)) (result : GuardTree β) (after : σ),
          (t.mapM f).run s = (result, after) ∧ Calls f s called.items after ∧
            called.map Prod.fst = t ∧ called.map Prod.snd = result ∧
            ∀ v, t.evaluate v = (called.evaluate v).map Prod.fst ∧
              result.evaluate v = (called.evaluate v).map Prod.snd) ∧
      ∀ (f : String → BaseRef → GuardTree Field → StateM σ β) (s : σ),
        ∃ (rendered : GuardTree (Rendered β)) (calls : List (MergedDeclaration × β)) (after : σ),
          (merged.render f).run s = (rendered, after) ∧
            Calls (fun d => f d.name d.base d.body) s calls after ∧
            calls.map Prod.fst = merged.declarations ∧
            calls.map Prod.snd = rendered.items.filterMap Rendered.declaration? ∧
            rendered.map Rendered.baseAlias? = merged.body.map MergedItem.baseAlias? := by
  refine ⟨t.body.items_eq_listing, t.map_snd_paths, t.evaluate_eq_paths, fun f s => ?_,
    merged.exists_render_calls⟩
  obtain ⟨called, after, hcalls, htree, hrun⟩ := t.exists_calls f s
  refine ⟨called, called.map Prod.snd, after, hrun, hcalls, htree, rfl, fun v => ⟨?_, ?_⟩⟩
  · rw [← htree, GuardTree.evaluate_map]
  · exact GuardTree.evaluate_map Prod.snd called v

/-- A counter numbers the items in the order of the listing, whatever guards them. -/
example :
    (GuardTree.mapM (m := StateM Nat) (fun x : String => fun n => ((x, n), n + 1))
      (.unconditional (.guard (.atLeast ⟨[2]⟩) (.item "a" .nil)
        (.guard .always .nil (.item "b" .nil))))).run 1 =
      (.unconditional (.guard (.atLeast ⟨[2]⟩) (.item ("a", 1) .nil)
        (.guard .always .nil (.item ("b", 2) .nil))), 3) :=
  rfl

end SchemaLineage

import SchemaLineage.Proofs.MergeParts

/-!
Evaluating a merged schema part by part. The items of a merge stand under the existence condition of
their part, so the parts that show at a version are those whose condition holds there. An alias has
the name of its declaration in its own name, so a reference finds the alias of its own part. Main
statements: an evaluation lists what the showing parts are at the version, and at a version of a
history its part is the declaration that the history has there.
-/
namespace SchemaLineage

namespace Merge

theorem aliasName_inj {s t : String} : aliasName s = aliasName t ↔ s = t := by
  rw [aliasName, aliasName, String.append_left_inj, String.append_right_inj]

theorem filter_eq_singleton {α β : Type} [DecidableEq β] {f : α → β} {xs : List α}
    (hnodup : (xs.map f).Nodup) {x : α} (hx : x ∈ xs) : xs.filter (fun y => f y = f x) = [x] := by
  obtain ⟨before, after, rfl⟩ := List.append_of_mem hx
  rw [List.map_append, List.map_cons, List.nodup_append, List.nodup_cons] at hnodup
  obtain ⟨-, ⟨hafter, -⟩, hbefore⟩ := hnodup
  have hleft : before.filter (fun y => f y = f x) = [] := List.filter_eq_nil_iff.2 fun y hy heq =>
    hbefore _ (List.mem_map_of_mem hy) _ List.mem_cons_self (by simpa using heq)
  have hright : after.filter (fun y => f y = f x) = [] := List.filter_eq_nil_iff.2 fun y hy heq =>
    hafter ((by simpa using heq : f y = f x) ▸ List.mem_map_of_mem hy)
  simp [hleft, hright]

section Histories

variable {h : History} {v : Version} {d : Declaration}

/-- At a version of a history one case alone holds, the one of what the declaration has there. -/
theorem filter_cases_eq_singleton {α : Type} [DecidableEq α] (g : Declaration → α)
    {cases : List (Case α)} (hcases : List.Forall₂ (IsCase h.observed) (h.spansBy g) cases)
    (hreg : h.Regular) (hd : (v, d) ∈ h.entries) :
    ∃ c, cases.filter (·.condition.holds v) = [c] ∧ c.value = g d := by
  obtain ⟨s, hs, hvalue⟩ := History.exists_span_of_mem_entries g hd
  have hspans : (h.spansBy g).filter (v ∈ ·.versions) = [s] := by
    rw [← filter_eq_singleton (nodup_value_spans _) hs]
    apply List.filter_congr
    intro s' hs'
    simp [hreg.mem_versions_iff hd hs', hvalue]
  have hvalues := map_value_filter_holds hcases (History.mem_observed.2 ⟨d, hd⟩)
  rw [hspans, List.map_singleton, List.map_eq_singleton_iff] at hvalues
  obtain ⟨c, hc, hcvalue⟩ := hvalues
  exact ⟨c, hc, hcvalue.trans hvalue⟩

/-- At a version of a history the case is selected that tells the declaration there. -/
theorem selectCase?_entries {α : Type} [DecidableEq α] (g : Declaration → α)
    {cases : List (Case α)} (hcases : List.Forall₂ (IsCase h.observed) (h.spansBy g) cases)
    (hreg : h.Regular) (hd : (v, d) ∈ h.entries) : selectCase? cases v = some (g d) := by
  obtain ⟨c, hc, hvalue⟩ := filter_cases_eq_singleton g hcases hreg hd
  rw [selectCase?_eq_head?, hc, List.map_singleton, hvalue]
  rfl

theorem mem_versions_shapes {s : Span Field} (hreg : h.Regular) (hd : (v, d) ∈ h.entries)
    (hs : s ∈ (FieldShapes.ofHistory h).entries) : v ∈ s.versions ↔ s.value ∈ d.fields := by
  rw [FieldShapes.mem_versions hs]
  constructor
  · rintro ⟨d', hd', hf⟩
    exact hreg.eq_of_mem hd' hd ▸ hf
  · intro hf
    exact ⟨d, hd, hf⟩

/-- At a version of a history the fields shown are those of the version, in its own order. -/
theorem evaluate_fieldTree {t : GuardTree Field} (hok : fieldTree h = .ok t)
    (hreg : h.Regular) (hd : (v, d) ∈ h.entries) : t.evaluate v = d.fields := by
  obtain ⟨ordered, cases, hordered, hcases, rfl⟩ := fieldTree_ok hok
  obtain ⟨hperm, hcommon⟩ := orderedShapes_ok hordered
  have hshown : ∀ s ∈ ordered, v ∈ s.versions ↔ s.value ∈ d.fields :=
    fun s hs => mem_versions_shapes hreg hd (hperm.mem_iff.1 hs)
  have heval : (GuardTree.unconditional (bodyOfCases cases)).flatten.evaluate v =
      (ordered.map Span.value).filter (· ∈ d.fields) := by
    rw [evaluate_flatten_bodyOfCases,
      map_value_filter_holds hcases (History.mem_observed.2 ⟨d, hd⟩), List.filter_map]
    congr 1
    exact List.filter_congr fun s hs => by simp [hshown s hs]
  rw [heval]
  -- The version's own list is a part of the order and has the same members as what is shown.
  have hsub : d.fields.Sublist ((ordered.map Span.value).filter (· ∈ d.fields)) := by
    have := (hcommon.sublist _ hd).filter (· ∈ d.fields)
    rwa [List.filter_eq_self.2 (by simp)] at this
  have hle : ((ordered.map Span.value).filter (· ∈ d.fields)).length ≤ d.fields.length := by
    refine (List.subperm_of_subset (hcommon.nodup.filter _) fun f hf => ?_).length_le
    simpa using (List.mem_filter.1 hf).2
  exact (hsub.eq_of_length_le hle).symm

end Histories

namespace Part

theorem filterMap_baseAlias?_items (ps : List Part) :
    (ps.flatMap items).filterMap MergedItem.baseAlias? = ps.filterMap baseAlias? := by
  induction ps with
  | nil => rfl
  | cons p ps ih =>
    cases hp : p.baseAlias? <;>
      simp [items, MergedItem.baseAlias?, List.filterMap_cons, ih, hp]

theorem filterMap_declaration?_items (ps : List Part) :
    (ps.flatMap items).filterMap MergedItem.declaration? = ps.map declaration := by
  induction ps with
  | nil => rfl
  | cons p ps ih =>
    cases hp : p.baseAlias? <;>
      simp [items, MergedItem.declaration?, List.filterMap_cons, ih, hp]

variable {all : VersionSet} {h : History} {p : Part} {v : Version} {d : Declaration}

theorem mem_items_declaration {d : MergedDeclaration} :
    MergedItem.declaration d ∈ p.items ↔ d = p.declaration := by
  cases hp : p.baseAlias? <;> simp [items, hp]

/-- The alias of a part has a case for each base of the history. -/
theorem Describes.cases_of_mem_items (hp : p.Describes all h) {a : BaseAlias}
    (ha : MergedItem.baseAlias a ∈ p.items) :
    a.name = aliasName h.name ∧ List.Forall₂ (IsCase h.observed) h.bases a.cases := by
  rcases baseOf_ok hp.base with ⟨only, -, -, hnone⟩ | ⟨cases, -, hcases, -, hsome⟩
  · simp [items, hnone] at ha
  · obtain rfl : a = ⟨aliasName h.name, cases⟩ := by simpa [items, hsome] using ha
    exact ⟨rfl, hcases⟩

theorem Describes.name_baseAlias? (hp : p.Describes all h) {a : BaseAlias}
    (ha : p.baseAlias? = some a) : a.name = aliasName p.declaration.name := by
  rcases baseOf_ok hp.base with ⟨only, -, -, hnone⟩ | ⟨cases, -, -, -, hsome⟩
  · simp [hnone] at ha
  · rw [ha, Option.some_inj] at hsome
    rw [hsome, hp.name]

/-- A part without an alias has a fixed base; a part with one refers to it. -/
theorem Describes.base_eq (hp : p.Describes all h) :
    (p.baseAlias? = none ∧ ∃ base, p.declaration.base = .fixed base) ∨
      ∃ a, p.baseAlias? = some a ∧ p.declaration.base = .aliased a.name := by
  rcases baseOf_ok hp.base with ⟨only, -, hbase, hnone⟩ | ⟨cases, -, -, hbase, hsome⟩
  · exact Or.inl ⟨hnone, _, hbase⟩
  · exact Or.inr ⟨_, hsome, hbase⟩

theorem Describes.holds_existence_iff (hp : p.Describes all h) (hv : v ∈ all) :
    p.declaration.existence.holds v = true ↔ v ∈ h.observed :=
  Condition.holds_iff_of_classify hp.existence hv

theorem Describes.baseAt_eq (hp : p.Describes all h) (hreg : h.Regular)
    (hd : (v, d) ∈ h.entries) : p.baseAt v = d.base := by
  rcases baseOf_ok hp.base with ⟨only, hbases, hbase, -⟩ | ⟨cases, -, hcases, hbase, hsome⟩
  · obtain ⟨s, hs, hvalue⟩ := History.exists_span_of_mem_entries Declaration.base hd
    rw [← History.bases_eq, hbases, List.mem_singleton] at hs
    rw [baseAt, hbase]
    exact hs ▸ hvalue
  · have := selectCase?_entries Declaration.base hcases hreg hd
    simp [baseAt, hbase, hsome, BaseAlias.resolve, this]

/-- At a version of its history a part is the declaration that the history has there. -/
theorem Describes.at?_eq (hp : p.Describes all h) (hreg : h.Regular)
    (hd : (v, d) ∈ h.entries) (hname : d.name = h.name) : p.at? v = some d := by
  have hkind : p.declaration.kindAt v = some d.kind :=
    selectCase?_entries Declaration.kind (kindCases_ok hp.kinds) hreg hd
  rw [at?, hkind, Option.map_some, hp.baseAt_eq hreg hd, evaluate_fieldTree hp.fields hreg hd,
    hp.name, ← hname]

end Part

namespace Assembled

variable {snapshots : List Snapshot} {m : MergedSchema} {parts : List Part} {v : Version}

theorem condition (hm : Assembled snapshots m parts) : m.body.condition = .always := by
  rw [hm.body]
  rfl

/-- Each item stands under the existence condition of its part, or under none. -/
theorem placed (hm : Assembled snapshots m parts) :
    m.body.body.placed = parts.flatMap fun p =>
      p.items.map fun i => (p.declaration.existence.path, i) := by
  rw [hm.body]
  change (((parts.map Part.body).foldr GuardBody.append .nil).flatten .always).placed = _
  rw [GuardBody.placed_flatten, GuardBody.placed_foldr_append, List.flatMap_map, List.map_flatMap]
  apply List.flatMap_congr
  intro p _
  rw [Part.placed_body, List.map_map]
  exact List.map_congr_left fun i _ => by simp [Condition.essential_path]

/-- The items of a merge are those of its parts, one after the other. -/
theorem items_eq (hm : Assembled snapshots m parts) :
    m.body.items = parts.flatMap Part.items := by
  rw [GuardTree.items, GuardBody.items_eq_placed, hm.placed, List.map_flatMap]
  apply List.flatMap_congr
  intro p _
  rw [List.map_map]
  exact List.map_id _

theorem declarations_eq (hm : Assembled snapshots m parts) :
    m.declarations = parts.map Part.declaration := by
  rw [MergedSchema.declarations, hm.items_eq, Part.filterMap_declaration?_items]

theorem evaluate_body (hm : Assembled snapshots m parts) (v : Version) :
    m.body.evaluate v = (parts.filter (·.declaration.existence.holds v)).flatMap Part.items := by
  have hvisible : m.body.evaluate v = m.body.body.visible v := by
    rw [GuardTree.evaluate, hm.condition]
    rfl
  rw [hvisible, GuardBody.visible_eq_placed, hm.placed]
  clear hm hvisible
  induction parts with
  | nil => rfl
  | cons p parts ih =>
    rw [List.flatMap_cons, List.filter_append, List.map_append, ih, List.filter_cons]
    by_cases hholds : p.declaration.existence.holds v = true
    · simp [List.filter_map, Function.comp_def, Condition.all_holds_path, hholds]
    · simp [List.filter_map, Function.comp_def, Condition.all_holds_path, hholds]

/-- What parts and histories agree on comes in the same order. -/
theorem map_parts {γ : Type} (hm : Assembled snapshots m parts) {f : Part → γ} {g : History → γ}
    (h : ∀ hist ∈ histories snapshots, ∀ p, p.Describes m.versions hist → f p = g hist) :
    parts.map f = (histories snapshots).map g := by
  have heq : List.Forall₂ (fun x y => x = y) ((histories snapshots).map g) (parts.map f) := by
    rw [List.forall₂_map_left_iff, List.forall₂_map_right_iff]
    refine (List.forall₂_iff_get.2 ⟨hm.describes.length_eq, fun i hi hi' => ?_⟩)
    exact (h _ (List.get_mem _ _) _ (hm.describes.get hi hi')).symm
  exact (List.forall₂_eq_eq_eq ▸ heq).symm

theorem nodup_names (hm : Assembled snapshots m parts) :
    (parts.map (·.declaration.name)).Nodup := by
  rw [hm.map_parts (g := History.name) fun _ _ p hp => hp.name]
  exact nodup_name_histories snapshots

theorem exists_history_of_mem (hm : Assembled snapshots m parts) {p : Part} (hp : p ∈ parts) :
    ∃ h ∈ histories snapshots, p.Describes m.versions h :=
  exists_of_mem_of_forall₂ hm.describes.flip hp

/-- The aliases of different parts have different names. -/
theorem nodup_aliasNames (hm : Assembled snapshots m parts) {ps : List Part}
    (hps : ps.Sublist parts) : ((ps.filterMap Part.baseAlias?).map BaseAlias.name).Nodup := by
  have hname : ∀ {q b}, q ∈ ps → q.baseAlias? = some b → b.name = aliasName q.declaration.name :=
    fun hq hb => (hm.exists_history_of_mem (hps.subset hq)).elim
      fun _ h => h.2.name_baseAlias? hb
  have hparts := List.pairwise_map.1 (hm.nodup_names.sublist (hps.map _))
  refine List.pairwise_map.2 (List.pairwise_filterMap.2 (hparts.imp_of_mem ?_))
  intro q q' hq hq' hne b hb b' hb' heq
  rw [hname hq hb, hname hq' hb', aliasName_inj] at heq
  exact hne heq

/-- Among the aliases of some parts a reference finds the alias of its own part. -/
theorem resolveBase_eq (hm : Assembled snapshots m parts) {ps : List Part}
    (hps : ps.Sublist parts) {p : Part} (hp : p ∈ ps) :
    MergedSchema.resolveBase (ps.filterMap Part.baseAlias?) v p.declaration.base = p.baseAt v := by
  obtain ⟨h, -, hdesc⟩ := hm.exists_history_of_mem (hps.subset hp)
  rcases hdesc.base_eq with ⟨-, base, hbase⟩ | ⟨a, ha, hbase⟩
  · rw [Part.baseAt, hbase]
    rfl
  · have hmem : a ∈ ps.filterMap Part.baseAlias? := List.mem_filterMap.2 ⟨p, hp, ha⟩
    rw [hbase, MergedSchema.resolveBase, filter_eq_singleton (hm.nodup_aliasNames hps) hmem,
      Part.baseAt, hbase]
    simp [ha]

/-- An evaluation lists what the parts that show are at the version. -/
theorem evaluate_eq (hm : Assembled snapshots m parts) (v : Version) :
    m.evaluate v =
      (parts.filter (·.declaration.existence.holds v)).filterMap (Part.at? · v) := by
  have hsub := List.filter_sublist (p := fun p : Part => p.declaration.existence.holds v)
    (l := parts)
  rw [MergedSchema.evaluate, hm.evaluate_body]
  generalize parts.filter (fun p => p.declaration.existence.holds v) = ps at hsub
  simp only [Part.filterMap_baseAlias?_items, Part.filterMap_declaration?_items,
    List.filterMap_map]
  apply List.filterMap_congr
  intro p hp
  simp only [Function.comp_apply, MergedSchema.declarationAt, hm.resolveBase_eq hsub hp]
  rfl

/-- At a version of the merge an evaluation lists the declarations of the histories there. -/
theorem evaluate_eq_histories (hm : Assembled snapshots m parts) (hv : v ∈ m.versions) :
    m.evaluate v = (histories snapshots).filterMap (·.at? v) := by
  have hmap : parts.map (fun p => if p.declaration.existence.holds v then p.at? v else none) =
      (histories snapshots).map (·.at? v) := by
    apply hm.map_parts
    intro h hh p hp
    have hreg := hm.ordered.regular hh
    by_cases hobs : v ∈ h.observed
    · obtain ⟨d, hd⟩ := History.mem_observed.1 hobs
      obtain ⟨s, -, -, -, hname⟩ := (mem_entries_of_mem_histories hh).1 hd
      rw [if_pos ((hp.holds_existence_iff hv).2 hobs), hp.at?_eq hreg hd hname,
        hreg.at?_eq_some_iff.2 hd]
    · rw [if_neg (mt (hp.holds_existence_iff hv).1 hobs), History.at?_eq_none_iff.2 hobs]
  have hfilter : ∀ ps : List Part,
      (ps.filter (·.declaration.existence.holds v)).filterMap (Part.at? · v) =
        (ps.map fun p => if p.declaration.existence.holds v then p.at? v else none).filterMap
          id := by
    intro ps
    induction ps with
    | nil => rfl
    | cons p ps ih =>
      by_cases hp : p.declaration.existence.holds v <;> simp [hp, ih, List.filterMap_cons]
  rw [hm.evaluate_eq, hfilter, hmap, List.filterMap_map]
  rfl

end Assembled

end Merge

end SchemaLineage

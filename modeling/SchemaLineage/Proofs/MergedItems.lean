import SchemaLineage.Proofs.Evaluation
import SchemaLineage.Proofs.Mergeability

/-!
What a merge lists and which names it binds. For each declared name, in first-seen order, there is
one declaration, and directly before it, in the same body, the alias of its base if the base
changes. The aliases have names of their own, but these are made from the declared names and not
checked against them: a name is bound twice exactly if a name whose base changes stands beside a
declared name that is its alias's.
-/
namespace SchemaLineage

def BaseChanges (snapshots : List Snapshot) (n : String) : Prop :=
  ∃ v d w e, DeclaredAs snapshots n v d ∧ DeclaredAs snapshots n w e ∧ d.base ≠ e.base

def MergedItem.name : MergedItem → String
  | baseAlias a => a.name
  | declaration d => d.name

def MergedSchema.boundNames (m : MergedSchema) : List String :=
  m.body.items.map MergedItem.name

namespace Merge

variable {snapshots : List Snapshot} {m : MergedSchema}

theorem mem_declaredNames_sorted {n : String} :
    n ∈ declaredNames (sorted snapshots) ↔ (declaringVersions snapshots n).Nonempty := by
  rw [declaredNames, List.mem_eraseDups, List.mem_map]
  constructor
  · rintro ⟨⟨v, d⟩, hd, rfl⟩
    obtain ⟨s, hs, hversion, hd⟩ := mem_scan.1 hd
    exact ⟨v, d, ⟨s, mem_sorted.1 hs, hversion, hd, rfl⟩, trivial⟩
  · rintro ⟨v, d, ⟨s, hs, hversion, hd, hname⟩, -⟩
    exact ⟨(v, d), mem_scan.2 ⟨s, mem_sorted.2 hs, hversion, hd⟩, hname⟩

namespace Part

variable {all : VersionSet} {h : History} {p : Part}

/-- A part with a fixed base has the base of all declarations of its name. -/
theorem Describes.base_of_fixed (hh : h ∈ histories (sorted snapshots)) (hp : p.Describes all h)
    {base : Base} (hbase : p.declaration.base = .fixed base) {v : Version} {d : Declaration}
    (hd : DeclaredAs snapshots h.name v d) : d.base = base := by
  rcases baseOf_ok hp.base with ⟨only, hbases, honly, -⟩ | ⟨cases, -, -, halias, -⟩
  · obtain ⟨s, hs, hvalue⟩ := History.exists_span_of_mem_entries Declaration.base
      ((declaredAs_iff hh).1 hd)
    rw [← History.bases_eq, hbases, List.mem_singleton] at hs
    rw [honly, BaseRef.fixed.injEq] at hbase
    rw [← hbase, ← hs, hvalue]
  · rw [halias] at hbase
    cases hbase

/-- Several bases show in different declarations of the name. -/
theorem baseChanges_of_bases (hh : h ∈ histories (sorted snapshots)) (hreg : h.Regular)
    (hlength : h.bases.length ≠ 1) : BaseChanges snapshots h.name := by
  have hnodup : (h.bases.map Span.value).Nodup := nodup_value_spans _
  cases hbases : h.bases with
  | nil =>
    obtain ⟨e, he⟩ := List.exists_mem_of_ne_nil _ hreg.ne_nil
    obtain ⟨s, hs, -⟩ := History.exists_span_of_mem_entries Declaration.base (d := e.2) he
    rw [← History.bases_eq, hbases] at hs
    simp at hs
  | cons s rest =>
    cases rest with
    | nil => simp [hbases] at hlength
    | cons t rest =>
      have hs : s ∈ h.spansBy Declaration.base := by simp [← History.bases_eq, hbases]
      have ht : t ∈ h.spansBy Declaration.base := by simp [← History.bases_eq, hbases]
      have hne : s.value ≠ t.value := by
        rw [hbases] at hnodup
        simp only [List.map_cons, List.nodup_cons, List.mem_cons, not_or] at hnodup
        exact hnodup.1.1
      obtain ⟨v, d, hd, hdvalue⟩ := History.exists_entry_of_mem_spansBy hs
      obtain ⟨w, e, he, hevalue⟩ := History.exists_entry_of_mem_spansBy ht
      exact ⟨v, d, w, e, (declaredAs_iff hh).2 hd, (declaredAs_iff hh).2 he,
        hdvalue.symm ▸ hevalue.symm ▸ hne⟩

/-- A part has an alias exactly if the base of its name changes. -/
theorem Describes.isSome_baseAlias?_iff (hh : h ∈ histories (sorted snapshots))
    (hreg : h.Regular) (hp : p.Describes all h) :
    p.baseAlias?.isSome = true ↔ BaseChanges snapshots h.name := by
  rcases baseOf_ok hp.base with ⟨only, -, hbase, hnone⟩ | ⟨cases, hlength, -, -, hsome⟩
  · rw [hnone]
    refine iff_of_false (by simp) ?_
    rintro ⟨v, d, w, e, hd, he, hne⟩
    exact hne ((hp.base_of_fixed hh hbase hd).trans (hp.base_of_fixed hh hbase he).symm)
  · rw [hsome]
    exact iff_of_true rfl (baseChanges_of_bases hh hreg hlength)

theorem adjacent_body {a : BaseAlias} (ha : p.baseAlias? = some a) :
    p.body.Adjacent (.baseAlias a) (.declaration p.declaration) := by
  have hitems : GuardBody.ofItems p.items =
      .item (.baseAlias a) (.item (.declaration p.declaration) .nil) := by
    rw [items, ha]
    rfl
  rw [body, hitems]
  split
  · exact .here _
  · exact .within _ _ (.here _)

/-- The aliases and the declarations of parts bind the names that their items bind. -/
theorem map_name_items_perm (ps : List Part) :
    ((ps.flatMap items).map MergedItem.name).Perm
      ((ps.filterMap baseAlias?).map BaseAlias.name ++ ps.map (·.declaration.name)) := by
  induction ps with
  | nil => exact .refl _
  | cons p ps ih =>
    rw [List.flatMap_cons, List.map_append, List.map_cons]
    cases ha : p.baseAlias? with
    | none =>
      rw [List.filterMap_cons_none ha, items, ha]
      exact (ih.cons _).trans List.perm_middle.symm
    | some a =>
      rw [List.filterMap_cons_some ha, items, ha]
      exact ((ih.cons _).trans List.perm_middle.symm).cons _

end Part

namespace Assembled

variable {parts : List Part}

theorem names_eq (hm : Assembled snapshots m parts) :
    parts.map (·.declaration.name) = declaredNames snapshots := by
  rw [hm.map_parts (g := History.name) fun _ _ p hp => hp.name, map_name_histories]

/-- Neighbours in a part are neighbours in the merged schema. -/
theorem adjacent_body (hm : Assembled snapshots m parts) {p : Part} (hp : p ∈ parts)
    {x y : MergedItem} (h : p.body.Adjacent x y) : m.body.body.Adjacent x y := by
  rw [hm.body]
  exact GuardBody.adjacent_flatten
    (GuardBody.adjacent_foldr_append (List.mem_map_of_mem hp) h) .always

end Assembled

/-- The items of a part stand as the declarations of its name demand. -/
structure Part.Placed (snapshots : List Snapshot) (m : MergedSchema) (p : Part) : Prop where
  isSome_baseAlias? : p.baseAlias?.isSome = true ↔ BaseChanges snapshots p.declaration.name
  aliased : ∀ a, p.baseAlias? = some a → p.declaration.base = .aliased a.name ∧
    m.body.body.Adjacent (.baseAlias a) (.declaration p.declaration)
  fixed : p.baseAlias? = none → ∃ base, p.declaration.base = .fixed base ∧
    ∀ v d, DeclaredAs snapshots p.declaration.name v d → d.base = base

theorem Assembled.placed_part {parts : List Part} (hm : Assembled (sorted snapshots) m parts)
    {p : Part} (hp : p ∈ parts) : p.Placed snapshots m := by
  obtain ⟨h, hh, hdesc⟩ := hm.exists_history_of_mem hp
  have hreg := hm.ordered.regular hh
  refine ⟨?_, fun a ha => ⟨?_, hm.adjacent_body hp (Part.adjacent_body ha)⟩, fun hnone => ?_⟩
  · rw [hdesc.name]
    exact hdesc.isSome_baseAlias?_iff hh hreg
  · rcases hdesc.base_eq with ⟨hnone, -⟩ | ⟨b, hb, hbase⟩
    · rw [hnone] at ha
      cases ha
    · rw [hb, Option.some_inj] at ha
      exact ha ▸ hbase
  · rcases hdesc.base_eq with ⟨-, base, hbase⟩ | ⟨b, hb, -⟩
    · refine ⟨base, hbase, fun v d hd => ?_⟩
      rw [hdesc.name] at hd
      exact hdesc.base_of_fixed hh hbase hd
    · rw [hb] at hnone
      cases hnone

section Names

variable {parts : List Part} (hm : Assembled (sorted snapshots) m parts) {n : String}
include hm

theorem Assembled.mem_names_iff :
    n ∈ parts.map (·.declaration.name) ↔ (declaringVersions snapshots n).Nonempty := by
  rw [hm.names_eq]
  exact mem_declaredNames_sorted

/-- There is an alias for each name whose base changes, and no other one. -/
theorem Assembled.mem_aliasNames_iff :
    n ∈ (parts.filterMap Part.baseAlias?).map BaseAlias.name ↔
      ∃ k, BaseChanges snapshots k ∧ aliasName k = n := by
  rw [List.mem_map]
  constructor
  · rintro ⟨a, ha, rfl⟩
    obtain ⟨p, hp, ha⟩ := List.mem_filterMap.1 ha
    obtain ⟨h, -, hdesc⟩ := hm.exists_history_of_mem hp
    have hsome : p.baseAlias?.isSome = true := by rw [ha, Option.isSome_some]
    exact ⟨p.declaration.name, (hm.placed_part hp).isSome_baseAlias?.1 hsome,
      (hdesc.name_baseAlias? ha).symm⟩
  · rintro ⟨k, hk, rfl⟩
    have hdeclared : (declaringVersions snapshots k).Nonempty := by
      obtain ⟨v, d, -, -, hd, -⟩ := hk
      exact ⟨v, d, hd, trivial⟩
    obtain ⟨p, hp, rfl⟩ := List.mem_map.1 (hm.mem_names_iff.2 hdeclared)
    obtain ⟨a, ha⟩ := Option.isSome_iff_exists.1 ((hm.placed_part hp).isSome_baseAlias?.2 hk)
    obtain ⟨h, -, hdesc⟩ := hm.exists_history_of_mem hp
    exact ⟨a, List.mem_filterMap.2 ⟨p, hp, ha⟩, hdesc.name_baseAlias? ha⟩

/-- The aliases differ among each other, and so do the declarations; so a name that is bound twice
is bound by one of each. -/
theorem Assembled.nodup_boundNames_iff :
    m.boundNames.Nodup ↔ ∀ k, BaseChanges snapshots k →
      ¬ (declaringVersions snapshots (aliasName k)).Nonempty := by
  have hperm := Part.map_name_items_perm parts
  rw [MergedSchema.boundNames, hm.items_eq, hperm.nodup_iff, List.nodup_append]
  constructor
  · rintro ⟨-, -, hdistinct⟩ k hk hdeclared
    exact hdistinct _ (hm.mem_aliasNames_iff.2 ⟨k, hk, rfl⟩) _ (hm.mem_names_iff.2 hdeclared) rfl
  · intro hfree
    refine ⟨hm.nodup_aliasNames (List.Sublist.refl _), hm.nodup_names, fun a ha b hb heq => ?_⟩
    obtain ⟨k, hk, rfl⟩ := hm.mem_aliasNames_iff.1 ha
    exact hfree k hk (hm.mem_names_iff.1 (heq ▸ hb))

end Names

end Merge

/-- The items of a merge are, name by name in first-seen order, its declaration and, if its base
changes, directly before it in the same body the alias that it refers to. -/
theorem items_of_merge {snapshots : List Snapshot} {m : MergedSchema}
    (hok : merge snapshots = .ok m) :
    ∃ parts : List Merge.Part, m.body.items = parts.flatMap Merge.Part.items ∧
      parts.map (·.declaration.name) = declaredNames (Merge.sorted snapshots) ∧
      ∀ p ∈ parts, p.Placed snapshots m := by
  obtain ⟨parts, hm⟩ := Merge.exists_assembled hok
  exact ⟨parts, hm.items_eq, hm.names_eq, fun p hp => hm.placed_part hp⟩

/-- The circle of the lineage changes its base, so one of the parts has an alias. -/
theorem items_circleLineage :
    ∃ m, merge circleLineage = .ok m ∧ ∃ parts : List Merge.Part,
      m.body.items = parts.flatMap Merge.Part.items ∧
      parts.map (·.declaration.name) = ["figure", "circle", "square", "point"] ∧
      ∃ p ∈ parts, p.baseAlias?.isSome = true ∧ p.Placed circleLineage m := by
  obtain ⟨m, hm⟩ := exists_merge_circleLineage
  obtain ⟨parts, hitems, hnames, hplaced⟩ := items_of_merge hm
  have hsorted : Merge.sorted circleLineage = circleLineage :=
    List.mergeSort_of_pairwise (by decide +kernel)
  have hdeclared : declaredNames circleLineage = ["figure", "circle", "square", "point"] := by
    decide +kernel
  rw [hsorted, hdeclared] at hnames
  have hcircle : "circle" ∈ parts.map (·.declaration.name) := by
    rw [hnames]
    decide
  obtain ⟨p, hp, hname⟩ := List.mem_map.1 hcircle
  have hchanges : BaseChanges circleLineage "circle" :=
    ⟨⟨[1]⟩, ⟨"circle", .constructor, .named "figure", [⟨"int", "radius", .required⟩]⟩,
      ⟨[2]⟩, ⟨"circle", .product, .root, [⟨"int", "radius", .required⟩]⟩,
      ⟨circleFigure, by decide, rfl, by decide, rfl⟩,
      ⟨circleAlone, by decide, rfl, by decide, rfl⟩, by decide⟩
  have hsome := (hplaced p hp).isSome_baseAlias?.2 (hname ▸ hchanges)
  exact ⟨m, hm, parts, hitems, hnames, p, hp, hsome, hplaced p hp⟩

/-- In a merge the declarations have different names, and so have the aliases. No name is bound
twice exactly if no alias that a changing base calls for has the name of a declaration. -/
theorem boundNames_nodup_iff {snapshots : List Snapshot} {m : MergedSchema}
    (hok : merge snapshots = .ok m) :
    (m.declarations.map (·.name)).Nodup ∧
      ((m.body.items.filterMap MergedItem.baseAlias?).map BaseAlias.name).Nodup ∧
      (m.boundNames.Nodup ↔ ∀ n, BaseChanges snapshots n →
        ¬ (declaringVersions snapshots (Merge.aliasName n)).Nonempty) := by
  obtain ⟨parts, hm⟩ := Merge.exists_assembled hok
  refine ⟨?_, ?_, hm.nodup_boundNames_iff⟩
  · rw [hm.declarations_eq, List.map_map]
    exact hm.nodup_names
  · rw [hm.items_eq, Merge.Part.filterMap_baseAlias?_items]
    exact hm.nodup_aliasNames (List.Sublist.refl _)

/-- No declared name of the lineage starts as an alias does, so each name is bound once. -/
theorem boundNames_circleLineage :
    ∃ m, merge circleLineage = .ok m ∧ m.boundNames.Nodup := by
  obtain ⟨m, hm⟩ := exists_merge_circleLineage
  refine ⟨m, hm, (boundNames_nodup_iff hm).2.2.2 ?_⟩
  have hplain : ∀ s ∈ circleLineage, ∀ d ∈ s.schema.declarations,
      d.name.toList.head? ≠ some '_' := by
    decide +kernel
  rintro n - ⟨v, d, ⟨s, hs, -, hd, hname⟩, -⟩
  apply hplain s hs d hd
  rw [hname, Merge.aliasName]
  simp

/-- A sum that has the name of an alias, beside a circle that is a figure. -/
def figureBesideBase : Snapshot :=
  ⟨⟨[1]⟩, ⟨"Drawing", [
    ⟨"_circleBase", .sum ⟨[⟨"round", none⟩], []⟩⟩,
    ⟨"figure", .sum ⟨[⟨"circle", none⟩], []⟩⟩]⟩⟩

/-- The sum has one more constructor, and the circle is no figure any more. -/
def circleBesideBase : Snapshot :=
  ⟨⟨[2]⟩, ⟨"Drawing", [
    ⟨"_circleBase", .sum ⟨[⟨"round", none⟩, ⟨"flat", none⟩], []⟩⟩,
    ⟨"circle", .product ⟨[], []⟩⟩]⟩⟩

/-- The alias of the circle takes the name of the sum, before the last constructor of the sum. -/
theorem alias_takes_declared_name :
    ∃ m, merge [figureBesideBase, circleBesideBase] = .ok m ∧
      m.boundNames = ["_circleBase", "round", "figure", "_circleBase", "circle", "flat"] ∧
      ¬ m.boundNames.Nodup := by
  have hordered : Merge.Ordered [figureBesideBase, circleBesideBase] :=
    ⟨by decide +kernel, by decide +kernel⟩
  have hlast : [figureBesideBase, circleBesideBase].getLast? = some circleBesideBase := rfl
  have hresult : (Merge.ofSorted circleBesideBase
      [figureBesideBase, circleBesideBase]).toOption.map MergedSchema.boundNames =
        some ["_circleBase", "round", "figure", "_circleBase", "circle", "flat"] := by
    decide +kernel
  obtain ⟨m, hm, hnames⟩ := Merge.exists_merge_of_ofSorted hordered hlast hresult
  refine ⟨m, hm, hnames, ?_⟩
  rw [hnames]
  decide

end SchemaLineage

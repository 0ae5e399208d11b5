import SchemaLineage.Proofs.Evaluation
import SchemaLineage.Proofs.NearestVersions

/-!
Evaluation at versions that no snapshot has. A condition holds there if the nearest snapshots agree
on what it guards, and the kinds, fields and bases of a declaration are judged among its own
versions, of which the nearest are the same as soon as it shows. So an evaluation tells, at any
version, what the declarations of the nearest snapshots have in common: above all snapshots and
below them that is the evaluation of the outermost one, and between two neighbours it is what both
declare alike.
-/
namespace SchemaLineage

def agreed? {α : Type} [DecidableEq α] : List α → Option α
  | [] => none
  | a :: as => if ∀ b ∈ as, b = a then some a else none

/-- What schemas have in common under the name of a merged declaration. It is there if all of them
declare the name, and as one kind; it has the fields that all of them have, in the merged order, and
their base, or the root if they differ. -/
def MergedDeclaration.sharedBy (schemas : List Schema) (d : MergedDeclaration) :
    Option Declaration := do
  let ds ← schemas.mapM fun s => s.declarations.find? (·.name = d.name)
  let kind ← agreed? (ds.map (·.kind))
  return ⟨d.name, kind, (agreed? (ds.map (·.base))).getD .root,
    d.body.items.filter fun f => ∀ e ∈ ds, f ∈ e.fields⟩

theorem Option.mapM_eq_some_iff {α β : Type} {f : α → Option β} {xs : List α} {ys : List β} :
    xs.mapM f = some ys ↔ xs.map f = ys.map some := by
  induction xs generalizing ys with
  | nil =>
    rw [List.mapM_nil, List.map_nil, List.nil_eq, List.map_eq_nil_iff]
    exact ⟨fun h => (Option.some.inj h).symm, fun h => h ▸ rfl⟩
  | cons x xs ih =>
    rw [List.mapM_cons, List.map_cons]
    cases hx : f x with
    | none => cases ys <;> simp
    | some y =>
      cases ys with
      | nil => cases hrest : xs.mapM f <;> simp
      | cons y' ys =>
        rw [List.map_cons, List.cons_eq_cons, ← ih]
        cases hrest : xs.mapM f <;> simp

theorem Option.mapM_eq_none_iff {α β : Type} {f : α → Option β} {xs : List α} :
    xs.mapM f = none ↔ ∃ x ∈ xs, f x = none := by
  induction xs with
  | nil => simp
  | cons x xs ih =>
    rw [List.mapM_cons, List.exists_mem_cons_iff, ← ih]
    cases hx : f x with
    | none => simp
    | some y => cases hrest : xs.mapM f <;> simp

theorem agreed?_eq_some {α : Type} [DecidableEq α] {as : List α} {a : α} (hne : as ≠ [])
    (hall : ∀ b ∈ as, b = a) : agreed? as = some a := by
  cases as with
  | nil => exact absurd rfl hne
  | cons b as =>
    obtain ⟨rfl, hrest⟩ := List.forall_mem_cons.1 hall
    rw [agreed?, if_pos hrest]

/-- The first value that all members of a list are is the one that they agree on. -/
theorem find?_eq_agreed? {α : Type} [DecidableEq α] {as values : List α} (hne : as ≠ [])
    (hsub : ∀ a ∈ as, a ∈ values) : values.find? (fun x => ∀ b ∈ as, b = x) = agreed? as := by
  cases hfind : values.find? (fun x => ∀ b ∈ as, b = x) with
  | some x =>
    have hx : ∀ b ∈ as, b = x := by simpa using List.find?_some hfind
    exact (agreed?_eq_some hne hx).symm
  | none =>
    cases as with
    | nil => exact absurd rfl hne
    | cons a as =>
      have hnot := List.find?_eq_none.1 hfind a (hsub a List.mem_cons_self)
      have hdiffer : ¬ ∀ b ∈ as, b = a := by simpa using hnot
      rw [agreed?, if_neg hdiffer]

theorem find?_eq_some_iff_of_nodup {α κ : Type} [DecidableEq κ] {key : α → κ} {xs : List α}
    (hnodup : (xs.map key).Nodup) {k : κ} {x : α} :
    xs.find? (key · = k) = some x ↔ x ∈ xs ∧ key x = k := by
  constructor
  · intro hfind
    exact ⟨List.mem_of_find?_eq_some hfind, by simpa using List.find?_some hfind⟩
  · rintro ⟨hx, rfl⟩
    cases hfind : xs.find? (key · = key x) with
    | none => simpa using List.find?_eq_none.1 hfind x hx
    | some y =>
      have hkey : key y = key x := by simpa using List.find?_some hfind
      rw [List.inj_on_of_nodup_map hnodup (List.mem_of_find?_eq_some hfind) hx hkey]

/-- The declarations that a history has at the versions nearest to this one. -/
def History.NearestDeclarations (h : History) (v : Version) (ds : List Declaration) : Prop :=
  ∀ d, d ∈ ds ↔ ∃ w, h.observed.Nearest v w ∧ (w, d) ∈ h.entries

namespace Merge

section Histories

variable {h : History} {v : Version} {ds : List Declaration}

theorem ne_nil_of_nearestDeclarations (hreg : h.Regular) (hds : h.NearestDeclarations v ds) :
    ds ≠ [] := by
  obtain ⟨e, he⟩ := List.exists_mem_of_ne_nil _ hreg.ne_nil
  have hobserved := List.ne_nil_of_mem (History.mem_observed.2 ⟨e.2, he⟩)
  obtain ⟨w, hw⟩ := VersionSet.exists_nearest hobserved v
  obtain ⟨d, hd⟩ := History.mem_observed.1 hw.mem
  exact List.ne_nil_of_mem ((hds d).2 ⟨w, hw, hd⟩)

/-- The case of what some declarations of a history have holds if the nearest ones have it. -/
theorem holds_iff_nearestDeclarations {α : Type} {s : Span α} {c : Case α}
    {P : Declaration → Prop} (hcase : IsCase h.observed s c)
    (hversions : ∀ w d, (w, d) ∈ h.entries → (w ∈ s.versions ↔ P d))
    (hds : h.NearestDeclarations v ds) : c.condition.holds v = true ↔ ∀ d ∈ ds, P d := by
  rw [Condition.holds_iff_nearest hcase.condition]
  constructor
  · intro hall d hd
    obtain ⟨w, hw, hwd⟩ := (hds d).1 hd
    exact (hversions w d hwd).1 (hall w hw)
  · intro hall w hw
    obtain ⟨d, hwd⟩ := History.mem_observed.1 hw.mem
    exact (hversions w d hwd).2 (hall d ((hds d).2 ⟨w, hw, hwd⟩))

/-- The case is selected on which the nearest declarations agree. -/
theorem selectCase?_nearestDeclarations {α : Type} [DecidableEq α] (g : Declaration → α)
    {cases : List (Case α)} (hcases : List.Forall₂ (IsCase h.observed) (h.spansBy g) cases)
    (hreg : h.Regular) (hds : h.NearestDeclarations v ds) :
    selectCase? cases v = agreed? (ds.map g) := by
  have hne := ne_nil_of_nearestDeclarations hreg hds
  have hvalues : (cases.filter (·.condition.holds v)).map Case.value =
      ((h.spansBy g).filter (fun s => ∀ b ∈ ds.map g, b = s.value)).map Span.value := by
    apply map_value_filter_of_holds_iff hcases
    intro s hs c hcase
    rw [List.forall_mem_map]
    exact holds_iff_nearestDeclarations hcase
      (fun w d hd => (hreg.mem_versions_iff hd hs).trans eq_comm) hds
  have hmap : ((h.spansBy g).filter (fun s => ∀ b ∈ ds.map g, b = s.value)).map Span.value =
      ((h.spansBy g).map Span.value).filter (fun x => ∀ b ∈ ds.map g, b = x) := by
    rw [List.filter_map]
    rfl
  rw [selectCase?_eq_head?, hvalues, hmap, List.head?_filter]
  apply find?_eq_agreed? (by simpa using hne)
  intro a ha
  obtain ⟨d, hd, rfl⟩ := List.mem_map.1 ha
  obtain ⟨w, -, hwd⟩ := (hds d).1 hd
  obtain ⟨s, hs, hvalue⟩ := History.exists_span_of_mem_entries g hwd
  exact hvalue ▸ List.mem_map_of_mem hs

/-- The fields shown are those that all nearest declarations have, in the order of the tree. -/
theorem evaluate_fieldTree_nearestDeclarations {t : GuardTree Field} (hok : fieldTree h = .ok t)
    (hreg : h.Regular) (hds : h.NearestDeclarations v ds) :
    t.evaluate v = t.items.filter fun f => ∀ d ∈ ds, f ∈ d.fields := by
  obtain ⟨ordered, cases, hordered, hcases, rfl⟩ := fieldTree_ok hok
  have hperm := (orderedShapes_ok hordered).1
  rw [evaluate_flatten_bodyOfCases, items_flatten_bodyOfCases, map_value_cases hcases,
    List.filter_map]
  apply map_value_filter_of_holds_iff hcases
  intro s hs c hcase
  exact holds_iff_nearestDeclarations hcase
    (fun w d hd => mem_versions_shapes hreg hd (hperm.mem_iff.1 hs)) hds

end Histories

namespace Part

variable {all : VersionSet} {h : History} {p : Part} {v : Version} {ds : List Declaration}

theorem Describes.baseAt_nearestDeclarations (hp : p.Describes all h) (hreg : h.Regular)
    (hds : h.NearestDeclarations v ds) :
    p.baseAt v = (agreed? (ds.map (·.base))).getD .root := by
  rcases baseOf_ok hp.base with ⟨only, hbases, hbase, -⟩ | ⟨cases, -, hcases, hbase, hsome⟩
  · have hall : ∀ b ∈ ds.map (·.base), b = only.value := by
      intro b hb
      obtain ⟨d, hd, rfl⟩ := List.mem_map.1 hb
      obtain ⟨w, -, hwd⟩ := (hds d).1 hd
      obtain ⟨s, hs, hvalue⟩ := History.exists_span_of_mem_entries Declaration.base hwd
      rw [← History.bases_eq, hbases, List.mem_singleton] at hs
      exact hs ▸ hvalue.symm
    have hne : ds.map (·.base) ≠ [] := by simpa using ne_nil_of_nearestDeclarations hreg hds
    rw [baseAt, hbase, agreed?_eq_some hne hall]
    rfl
  · have hselect := selectCase?_nearestDeclarations Declaration.base hcases hreg hds
    simp [baseAt, hbase, hsome, BaseAlias.resolve, hselect]

/-- A part is what the nearest declarations of its history have in common. -/
theorem Describes.at?_nearestDeclarations (hp : p.Describes all h) (hreg : h.Regular)
    (hds : h.NearestDeclarations v ds) :
    p.at? v = (agreed? (ds.map (·.kind))).map fun kind =>
      ⟨p.declaration.name, kind, (agreed? (ds.map (·.base))).getD .root,
        p.declaration.body.items.filter fun f => ∀ d ∈ ds, f ∈ d.fields⟩ := by
  have hkind : p.declaration.kindAt v = agreed? (ds.map (·.kind)) :=
    selectCase?_nearestDeclarations Declaration.kind (kindCases_ok hp.kinds) hreg hds
  rw [at?, hkind, hp.baseAt_nearestDeclarations hreg hds,
    evaluate_fieldTree_nearestDeclarations hp.fields hreg hds]

end Part

section Snapshots

variable {snapshots : List Snapshot} {s : Snapshot} {h : History}

/-- What a snapshot declares under the name of a history is what the history has at its version. -/
theorem Ordered.find?_eq_at? (hord : Ordered snapshots) (hh : h ∈ histories snapshots)
    (hs : s ∈ snapshots) :
    s.schema.declarations.find? (·.name = h.name) = h.at? s.version := by
  apply Option.ext
  intro d
  rw [find?_eq_some_iff_of_nodup (Schema.nodup_names_of_defects (hord.valid s hs)),
    (hord.regular hh).at?_eq_some_iff, mem_entries_of_mem_histories hh]
  constructor
  · rintro ⟨hd, hname⟩
    exact ⟨s, hs, rfl, hd, hname⟩
  · rintro ⟨t, ht, hv, hd, hname⟩
    exact ⟨hord.eq_of_version_eq ht hs hv ▸ hd, hname⟩

end Snapshots

namespace Assembled

variable {snapshots : List Snapshot} {m : MergedSchema} {parts : List Part} {v : Version}
  {near : List Snapshot}

/-- If all nearest snapshots declare a name, their declarations are the nearest ones of its history
too: no version of the history is nearer than theirs. -/
theorem nearestDeclarations (hm : Assembled snapshots m parts)
    (hnear : ∀ s, s ∈ near ↔ s ∈ snapshots ∧ m.versions.Nearest v s.version)
    {h : History} (hh : h ∈ histories snapshots) (hsub : ∀ w ∈ h.observed, w ∈ m.versions)
    {ds : List Declaration} (hds : near.map (fun s => h.at? s.version) = ds.map some) :
    (∀ w, m.versions.Nearest v w → w ∈ h.observed) ∧ h.NearestDeclarations v ds := by
  have hreg := hm.ordered.regular hh
  have hmem : ∀ d, d ∈ ds ↔ ∃ s ∈ near, (s.version, d) ∈ h.entries := by
    intro d
    rw [← List.mem_map_of_injective (Option.some_injective _), ← hds, List.mem_map]
    exact exists_congr fun s => and_congr_right fun _ => hreg.at?_eq_some_iff
  have hall : ∀ w, m.versions.Nearest v w → w ∈ h.observed := by
    intro w hw
    obtain ⟨s, hs, rfl⟩ := mem_versionsOf.1 (hm.versions ▸ hw.mem)
    have hat : h.at? s.version ∈ ds.map some :=
      hds ▸ List.mem_map_of_mem ((hnear s).2 ⟨hs, hw⟩)
    obtain ⟨d, -, heq⟩ := List.mem_map.1 hat
    exact History.mem_observed.2 ⟨d, hreg.at?_eq_some_iff.1 heq.symm⟩
  have hsame : ∀ w, h.observed.Nearest v w ↔ m.versions.Nearest v w := fun _ =>
    VersionSet.nearest_iff_of_subset hsub hall
  refine ⟨hall, fun d => ?_⟩
  rw [hmem]
  constructor
  · rintro ⟨s, hs, hd⟩
    exact ⟨s.version, (hsame s.version).2 ((hnear s).1 hs).2, hd⟩
  · rintro ⟨w, hw, hd⟩
    obtain ⟨s, hs, rfl, -⟩ := (mem_entries_of_mem_histories hh).1 hd
    exact ⟨s, (hnear s).2 ⟨hs, (hsame s.version).1 hw⟩, hd⟩

/-- A part shows what its declarations in the nearest snapshots have in common. -/
theorem sharedBy_eq (hm : Assembled snapshots m parts)
    (hnear : ∀ s, s ∈ near ↔ s ∈ snapshots ∧ m.versions.Nearest v s.version)
    {p : Part} (hp : p ∈ parts) :
    p.declaration.sharedBy (near.map Snapshot.schema) =
      if p.declaration.existence.holds v then p.at? v else none := by
  obtain ⟨h, hh, hdesc⟩ := hm.exists_history_of_mem hp
  have hrun := Condition.isRun_of_classify hdesc.existence
  have hholds := Condition.holds_iff_nearest hdesc.existence (v := v)
  have hfind : ∀ s ∈ near, s.schema.declarations.find? (·.name = p.declaration.name) =
      h.at? s.version := fun s hs => hdesc.name ▸ hm.ordered.find?_eq_at? hh ((hnear s).1 hs).1
  rw [MergedDeclaration.sharedBy]
  cases hds : (near.map Snapshot.schema).mapM fun s =>
      s.declarations.find? (·.name = p.declaration.name) with
  | none =>
    obtain ⟨schema, hschema, hnone⟩ := Option.mapM_eq_none_iff.1 hds
    obtain ⟨s, hs, rfl⟩ := List.mem_map.1 hschema
    rw [hfind s hs, History.at?_eq_none_iff] at hnone
    rw [if_neg fun hall => hnone (hholds.1 hall _ ((hnear s).1 hs).2)]
    rfl
  | some ds =>
    rw [Option.mapM_eq_some_iff, List.map_map] at hds
    have hds : near.map (fun s => h.at? s.version) = ds.map some :=
      (List.map_congr_left hfind).symm.trans hds
    obtain ⟨hall, hdeclarations⟩ := hm.nearestDeclarations hnear hh hrun.subset hds
    rw [if_pos (hholds.2 hall), hdesc.at?_nearestDeclarations (hm.ordered.regular hh) hdeclarations,
      Option.map_eq_bind]
    rfl

/-- At any version an evaluation tells what the nearest snapshots have in common. -/
theorem evaluate_eq_sharedBy (hm : Assembled snapshots m parts)
    (hnear : ∀ s, s ∈ near ↔ s ∈ snapshots ∧ m.versions.Nearest v s.version) :
    m.evaluate v = m.declarations.filterMap (·.sharedBy (near.map Snapshot.schema)) := by
  rw [hm.evaluate_eq, hm.declarations_eq, List.filterMap_filter, List.filterMap_map]
  exact List.filterMap_congr fun p hp => (hm.sharedBy_eq hnear hp).symm

/-- Two versions that have one and the same nearest member evaluate alike. -/
theorem evaluate_eq_of_nearest (hm : Assembled snapshots m parts) {u w : Version}
    (hu : ∀ x, m.versions.Nearest u x ↔ x = w) (hv : ∀ x, m.versions.Nearest v x ↔ x = w)
    (hw : w ∈ m.versions) : m.evaluate u = m.evaluate v := by
  rw [hm.versions, mem_versionsOf] at hw
  obtain ⟨s, hs, rfl⟩ := hw
  have hnear : ∀ {x}, (∀ w, m.versions.Nearest x w ↔ w = s.version) →
      ∀ t, t ∈ [s] ↔ t ∈ snapshots ∧ m.versions.Nearest x t.version := by
    intro x hx t
    rw [List.mem_singleton, hx]
    constructor
    · rintro rfl
      exact ⟨hs, rfl⟩
    · rintro ⟨ht, hversion⟩
      exact hm.ordered.eq_of_version_eq ht hs hversion
  rw [hm.evaluate_eq_sharedBy (hnear hu), hm.evaluate_eq_sharedBy (hnear hv)]

end Assembled

end Merge

/-- Above all versions of a merge it evaluates as at the highest one, and below them as at the
lowest one. Strictly between two neighbours it has what the schemas of both have in common. -/
theorem evaluate_unobserved {snapshots : List Snapshot} {m : MergedSchema}
    (hok : merge snapshots = .ok m) (v : Version) :
    (∀ high, m.versions.max? = some high → high < v → m.evaluate v = m.evaluate high) ∧
      (∀ low, m.versions.min? = some low → v < low → m.evaluate v = m.evaluate low) ∧
      ∀ s ∈ snapshots, ∀ t ∈ snapshots, s.version < v → v < t.version →
        (∀ w ∈ m.versions, w ≤ s.version ∨ t.version ≤ w) →
          m.evaluate v = m.declarations.filterMap (·.sharedBy [s.schema, t.schema]) := by
  obtain ⟨parts, hm⟩ := Merge.exists_assembled hok
  refine ⟨fun high hhigh hv => ?_, fun low hlow hv => ?_, fun s hs t ht hsv hvt hnone => ?_⟩
  · exact hm.evaluate_eq_of_nearest (fun _ => VersionSet.nearest_iff_of_max? hhigh hv.le)
      (fun _ => VersionSet.nearest_iff_of_max? hhigh le_rfl) (VersionSet.mem_of_max? hhigh)
  · exact hm.evaluate_eq_of_nearest (fun _ => VersionSet.nearest_iff_of_min? hlow hv.le)
      (fun _ => VersionSet.nearest_iff_of_min? hlow le_rfl) (VersionSet.mem_of_min? hlow)
  · have hs' : s ∈ Merge.sorted snapshots := Merge.mem_sorted.2 hs
    have ht' : t ∈ Merge.sorted snapshots := Merge.mem_sorted.2 ht
    have hmem : ∀ x ∈ Merge.sorted snapshots, x.version ∈ m.versions := fun x hx =>
      hm.versions ▸ Merge.mem_versionsOf.2 ⟨x, hx, rfl⟩
    have hnearest : ∀ w, m.versions.Nearest v w ↔ w = s.version ∨ w = t.version := fun _ =>
      VersionSet.nearest_iff_of_neighbours (hmem s hs') (hmem t ht') hsv hvt hnone
    have hnear : ∀ x, x ∈ [s, t] ↔
        x ∈ Merge.sorted snapshots ∧ m.versions.Nearest v x.version := by
      intro x
      rw [List.mem_pair, hnearest]
      constructor
      · rintro (rfl | rfl)
        · exact ⟨hs', Or.inl rfl⟩
        · exact ⟨ht', Or.inr rfl⟩
      · rintro ⟨hx, hversion | hversion⟩
        · exact Or.inl (hm.ordered.eq_of_version_eq hx hs' hversion)
        · exact Or.inr (hm.ordered.eq_of_version_eq hx ht' hversion)
    exact hm.evaluate_eq_sharedBy hnear

def circleAmongFigures : Snapshot :=
  ⟨⟨[1]⟩, ⟨"Drawing", [
    ⟨"point", .product ⟨[⟨"int", "x", .required⟩], []⟩⟩,
    ⟨"figure", .sum ⟨[⟨"circle",
      some [⟨"int", "radius", .required⟩, ⟨"point", "center", .required⟩]⟩], []⟩⟩]⟩⟩

def circleAmongShapes : Snapshot :=
  ⟨⟨[2]⟩, ⟨"Drawing", [
    ⟨"point", .product ⟨[⟨"int", "x", .required⟩, ⟨"int", "y", .required⟩], []⟩⟩,
    ⟨"shape", .sum ⟨[⟨"circle",
      some [⟨"point", "center", .required⟩, ⟨"int", "color", .optional⟩]⟩], []⟩⟩]⟩⟩

/-- Two versions in which a circle moves from one sum to another. -/
def movedCircle : List Snapshot :=
  [circleAmongFigures, circleAmongShapes]

/-- What the two versions have in common: the sums are gone, and the circle is under the root. -/
def movedCircleShared : List Declaration :=
  [⟨"point", .product, .root, [⟨"int", "x", .required⟩]⟩,
    ⟨"circle", .constructor, .root, [⟨"point", "center", .required⟩]⟩]

theorem exists_merge_movedCircle :
    ∃ m, merge movedCircle = .ok m ∧ m.versions.toList = [⟨[1]⟩, ⟨[2]⟩] ∧
      m.declarations.filterMap
        (·.sharedBy [circleAmongFigures.schema, circleAmongShapes.schema]) =
          movedCircleShared := by
  have hordered : Merge.Ordered movedCircle := ⟨by decide +kernel, by decide +kernel⟩
  have hlast : movedCircle.getLast? = some circleAmongShapes := rfl
  have hresult : (Merge.ofSorted circleAmongShapes movedCircle).toOption.map
      (fun m => (m.versions.toList, m.declarations.filterMap
        (·.sharedBy [circleAmongFigures.schema, circleAmongShapes.schema]))) =
      some ([⟨[1]⟩, ⟨[2]⟩], movedCircleShared) := by
    decide +kernel
  obtain ⟨m, hm, heq⟩ := Merge.exists_merge_of_ofSorted hordered hlast hresult
  obtain ⟨hversions, hshared⟩ := Prod.mk.inj heq
  exact ⟨m, hm, hversions, hshared⟩

theorem evaluate_unobserved_movedCircle :
    ∃ m, merge movedCircle = .ok m ∧ m.evaluate ⟨[0, 9]⟩ = m.evaluate ⟨[1]⟩ ∧
      m.evaluate ⟨[2, 1]⟩ = m.evaluate ⟨[2]⟩ ∧ m.evaluate ⟨[1, 5]⟩ = movedCircleShared := by
  obtain ⟨m, hm, hversions, hshared⟩ := exists_merge_movedCircle
  have hmin : m.versions.min? = some ⟨[1]⟩ := by
    rw [VersionSet.min?, hversions]
    rfl
  have hmax : m.versions.max? = some ⟨[2]⟩ := by
    rw [VersionSet.max?, hversions]
    rfl
  have hnone : ∀ w ∈ m.versions,
      w ≤ circleAmongFigures.version ∨ circleAmongShapes.version ≤ w := by
    change ∀ w ∈ m.versions.toList, _
    rw [hversions]
    decide
  refine ⟨m, hm, (evaluate_unobserved hm _).2.1 _ hmin (by decide),
    (evaluate_unobserved hm _).1 _ hmax (by decide), ?_⟩
  rw [← hshared]
  exact (evaluate_unobserved hm _).2.2 circleAmongFigures (by decide) circleAmongShapes (by decide)
    (by decide) (by decide) hnone

end SchemaLineage

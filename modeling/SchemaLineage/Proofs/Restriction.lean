import SchemaLineage.Proofs.Coverage
import SchemaLineage.Proofs.Mergeability

/-!
Lineages from which snapshots are dropped. What is declared at the versions that are left is what
was declared there before, so a run of versions stays a run among those that are left, and an order
of all field shapes holds an order of those still shown. So what could be merged can be merged after
any snapshots are dropped, and at each version that is left both merges have its declarations.
-/
namespace SchemaLineage

/-- A run stays one if only members of some set are looked at. -/
theorem ContiguousIn.inter {part whole : Set Version} (h : ContiguousIn part whole)
    (left : Set Version) : ContiguousIn (part ∩ left) (whole ∩ left) :=
  fun u hu w hw v hv huv hvw => ⟨h u hu.1 w hw.1 v hv.1 huv hvw, hv.2⟩

section Dropping

variable {snapshots kept : List Snapshot} (hdistinct : (snapshots.map Snapshot.version).Nodup)
  (hkept : ∀ s ∈ kept, s ∈ snapshots)
include hdistinct hkept

/-- At the versions that are left a name is declared as before. -/
theorem declaredAs_of_kept {n : String} {v : Version} {d : Declaration} :
    DeclaredAs kept n v d ↔ DeclaredAs snapshots n v d ∧ v ∈ inputVersions kept := by
  constructor
  · rintro ⟨s, hs, hversion, hd⟩
    exact ⟨⟨s, hkept s hs, hversion, hd⟩, s, hs, hversion⟩
  · rintro ⟨⟨s, hs, hversion, hd⟩, t, ht, hversion'⟩
    have hst : s = t := List.inj_on_of_nodup_map hdistinct hs (hkept t ht)
      (hversion.trans hversion'.symm)
    exact ⟨t, ht, hversion', hst ▸ hd⟩

theorem versionsWith_of_kept (n : String) (P : Declaration → Prop) :
    versionsWith kept n P = versionsWith snapshots n P ∩ inputVersions kept := by
  ext v
  constructor
  · rintro ⟨d, hd, hP⟩
    obtain ⟨hd, hv⟩ := (declaredAs_of_kept hdistinct hkept).1 hd
    exact ⟨⟨d, hd, hP⟩, hv⟩
  · rintro ⟨⟨d, hd, hP⟩, hv⟩
    exact ⟨d, (declaredAs_of_kept hdistinct hkept).2 ⟨hd, hv⟩, hP⟩

theorem contiguousIn_of_kept {n : String} {P : Declaration → Prop}
    (h : ContiguousIn (versionsWith snapshots n P) (declaringVersions snapshots n)) :
    ContiguousIn (versionsWith kept n P) (declaringVersions kept n) := by
  rw [declaringVersions, versionsWith_of_kept hdistinct hkept, versionsWith_of_kept hdistinct hkept]
  exact h.inter (inputVersions kept)

/-- The order of all field shapes holds an order of those that are still shown. -/
theorem exists_commonFieldOrder_of_kept {n : String} {order : List Field}
    (h : CommonFieldOrder snapshots n order) : ∃ order, CommonFieldOrder kept n order := by
  classical
  let shown : Field → Prop := fun f => ∃ v d, DeclaredAs kept n v d ∧ f ∈ d.fields
  refine ⟨order.filter (shown ·), h.nodup.filter _, fun f => ?_, fun v d hd => ?_⟩
  · rw [List.mem_filter, decide_eq_true_eq]
    refine and_iff_right_of_imp ?_
    rintro ⟨v, d, hd, hf⟩
    exact (h.mem_iff f).2 ⟨v, d, ((declaredAs_of_kept hdistinct hkept).1 hd).1, hf⟩
  · have hall : d.fields.filter (shown ·) = d.fields :=
      List.filter_eq_self.2 fun f hf => decide_eq_true ⟨v, d, hd, hf⟩
    have hsub := h.sublist v d ((declaredAs_of_kept hdistinct hkept).1 hd).1
    exact hall ▸ hsub.filter (shown ·)

/-- A name that met the demands meets them among the versions that are left. -/
theorem Mergeable.of_kept {n : String} (h : Mergeable snapshots n) : Mergeable kept n := by
  have hversions : inputVersions kept = inputVersions snapshots ∩ inputVersions kept := by
    refine (Set.inter_eq_right.2 ?_).symm
    rintro v ⟨s, hs, hversion⟩
    exact ⟨s, hkept s hs, hversion⟩
  obtain ⟨order, horder⟩ := h.order
  refine ⟨?_, fun f => contiguousIn_of_kept hdistinct hkept (h.field f),
    fun k => contiguousIn_of_kept hdistinct hkept (h.kind k),
    fun b => contiguousIn_of_kept hdistinct hkept (h.base b),
    exists_commonFieldOrder_of_kept hdistinct hkept horder⟩
  have hexistence := h.existence.inter (inputVersions kept)
  rw [← hversions] at hexistence
  rwa [declaringVersions, versionsWith_of_kept hdistinct hkept]

end Dropping

namespace Merge.Assembled

variable {snapshots : List Snapshot} {m : MergedSchema} {parts : List Part}

theorem distinct (hm : Assembled (sorted snapshots) m parts) :
    (snapshots.map Snapshot.version).Nodup :=
  (map_version_sorted_perm snapshots).nodup_iff.1 hm.ordered.distinct

theorem valid (hm : Assembled (sorted snapshots) m parts) :
    ∀ s ∈ snapshots, s.schema.defects = [] :=
  fun s hs => hm.ordered.valid s (mem_sorted.2 hs)

theorem mergeable (hm : Assembled (sorted snapshots) m parts) {n : String}
    (hn : (declaringVersions snapshots n).Nonempty) : Mergeable snapshots n := by
  obtain ⟨v, d, ⟨s, hs, -, hd, rfl⟩, -⟩ := hn
  obtain ⟨h, hh, hname, -⟩ := exists_history (mem_sorted.2 hs) hd
  obtain ⟨p, -, hp⟩ := exists_of_mem_of_forall₂ hm.describes hh
  rw [hm.versions] at hp
  exact hname ▸ mergeable_of_describes hh hp

/-- At the version of a snapshot the merge has the declarations of that snapshot. -/
theorem evaluate_perm (hm : Assembled (sorted snapshots) m parts) {s : Snapshot}
    (hs : s ∈ snapshots) : (m.evaluate s.version).Perm s.schema.declarations := by
  have hs := mem_sorted.2 hs
  have hversion : s.version ∈ m.versions := by
    rw [hm.versions]
    exact mem_versionsOf.2 ⟨s, hs, rfl⟩
  rw [hm.evaluate_eq_histories hversion]
  have hleft := (nodup_name_filterMap_at? hm.ordered s.version).of_map
  have hright := (Schema.nodup_names_of_defects (hm.ordered.valid s hs)).of_map
  exact (List.perm_ext_iff_of_nodup hleft hright).2 fun d => mem_filterMap_at? hm.ordered hs

end Merge.Assembled

/-- If a lineage can be merged, so can any snapshots out of it, in any order, and at each version
that is left the two merged schemas have the same declarations up to their order. -/
theorem merge_of_subperm {snapshots kept : List Snapshot} {m : MergedSchema}
    (hok : merge snapshots = .ok m) (hsub : kept.Subperm snapshots) (hne : kept ≠ []) :
    ∃ m', merge kept = .ok m' ∧
      ∀ s ∈ kept, (m'.evaluate s.version).Perm (m.evaluate s.version) := by
  obtain ⟨parts, hm⟩ := Merge.exists_assembled hok
  have hkept : ∀ s ∈ kept, s ∈ snapshots := fun s hs => hsub.subset hs
  obtain ⟨rearranged, hperm, hsublist⟩ := hsub
  have hdistinct : (kept.map Snapshot.version).Nodup :=
    (hperm.map _).nodup_iff.1 (hm.distinct.sublist (hsublist.map _))
  have hord := Merge.ordered_sorted hdistinct fun s hs => hm.valid s (hkept s hs)
  cases hmerge : merge kept with
  | error e =>
    -- The error would point to a name whose demands are not met among the snapshots that are left.
    obtain ⟨n, ⟨v, d, hd, -⟩, hnot⟩ :=
      (Merge.genuine_of_merge hne hord hmerge).exists_not_mergeable
    have hdeclared := ((declaredAs_of_kept hm.distinct hkept).1 hd).1
    have hwhole := hm.mergeable ⟨v, d, hdeclared, trivial⟩
    exact absurd (hwhole.of_kept hm.distinct hkept) hnot
  | ok m' =>
    obtain ⟨parts', hm'⟩ := Merge.exists_assembled hmerge
    refine ⟨m', rfl, fun s hs => ?_⟩
    exact (hm'.evaluate_perm hs).trans (hm.evaluate_perm (hkept s hs)).symm

def circleColored : Snapshot :=
  ⟨⟨[3]⟩, ⟨"Drawing", [
    ⟨"point", .product ⟨[⟨"int", "y", .optional⟩], []⟩⟩,
    ⟨"circle", .product ⟨[⟨"color", "fill", .optional⟩, ⟨"int", "radius", .required⟩], []⟩⟩]⟩⟩

theorem exists_merge_circleColored :
    ∃ m, merge [circleFigure, circleAlone, circleColored] = .ok m ∧
      m.evaluate ⟨[3]⟩ = circleColored.schema.declarations.reverse := by
  have hordered : Merge.Ordered [circleFigure, circleAlone, circleColored] :=
    ⟨by decide +kernel, by decide +kernel⟩
  have hlast : [circleFigure, circleAlone, circleColored].getLast? = some circleColored := rfl
  exact Merge.exists_merge_of_ofSorted hordered hlast (by decide +kernel)

/-- The version in the middle is dropped and the others change places. -/
theorem merge_circleColored_circleFigure :
    ∃ m', merge [circleColored, circleFigure] = .ok m' ∧
      (m'.evaluate ⟨[3]⟩).Perm circleColored.schema.declarations.reverse := by
  obtain ⟨m, hm, hcolored⟩ := exists_merge_circleColored
  have hsub : [circleColored, circleFigure].Subperm [circleFigure, circleAlone, circleColored] :=
    List.subperm_of_subset (by decide) (by decide)
  obtain ⟨m', hm', hsame⟩ := merge_of_subperm hm hsub (by decide)
  exact ⟨m', hm', hcolored ▸ hsame circleColored (by decide)⟩

end SchemaLineage

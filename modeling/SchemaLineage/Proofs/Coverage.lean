import SchemaLineage.Proofs.Evaluation

/-!
Coverage of a merge. At each version that was merged, the merged schema tells the declarations of
that version, each of them once: the histories have one declaration per name there, and a name has a
history. The order of the names is the one in which they were first seen, so at the lowest version
it is the version's own.
-/
namespace SchemaLineage

/-- The declarations of the histories at a version of a snapshot are those of the snapshot. -/
theorem Merge.mem_filterMap_at? {snapshots : List Snapshot} (hord : Ordered snapshots)
    {s : Snapshot} (hs : s ∈ snapshots) {d : Declaration} :
    d ∈ (histories snapshots).filterMap (·.at? s.version) ↔ d ∈ s.schema.declarations := by
  rw [List.mem_filterMap]
  constructor
  · rintro ⟨h, hh, hat⟩
    have hmem := (hord.regular hh).at?_eq_some_iff.1 hat
    obtain ⟨t, ht, hversion, hd, -⟩ := (mem_entries_of_mem_histories hh).1 hmem
    rwa [hord.eq_of_version_eq ht hs hversion] at hd
  · intro hd
    obtain ⟨h, hh, -, hmem⟩ := exists_history hs hd
    exact ⟨h, hh, (hord.regular hh).at?_eq_some_iff.2 hmem⟩

/-- At any version the declarations of the histories have different names. -/
theorem Merge.nodup_name_filterMap_at? {snapshots : List Snapshot} (hord : Ordered snapshots)
    (v : Version) :
    (((histories snapshots).filterMap (·.at? v)).map Declaration.name).Nodup := by
  have hname : ∀ h ∈ histories snapshots, ∀ d, h.at? v = some d → d.name = h.name := by
    intro h hh d hat
    have hmem := (hord.regular hh).at?_eq_some_iff.1 hat
    exact ((mem_entries_of_mem_histories hh).1 hmem).elim fun _ hs => hs.2.2.2
  have hnodup := List.pairwise_map.1 (nodup_name_histories snapshots)
  refine List.pairwise_map.2 (List.pairwise_filterMap.2 (hnodup.imp_of_mem ?_))
  intro h h' hh hh' hne d hd d' hd' heq
  rw [hname h hh d hd, hname h' hh' d' hd'] at heq
  exact hne heq

/-- The names of the first snapshot come first, in its own order. -/
theorem declaredNames_cons {s : Snapshot} (snapshots : List Snapshot)
    (hnodup : (s.schema.declarations.map Declaration.name).Nodup) :
    ∃ later, declaredNames (s :: snapshots) =
        s.schema.declarations.map Declaration.name ++ later ∧
      ∀ n ∈ later, n ∉ s.schema.declarations.map Declaration.name := by
  have hscan : (scan (s :: snapshots)).map (·.2.name) =
      s.schema.declarations.map Declaration.name ++ (scan snapshots).map (·.2.name) := by
    simp [scan, Function.comp_def]
  rw [declaredNames, hscan, List.eraseDups_append, eraseDups_of_nodup hnodup]
  refine ⟨_, rfl, fun n hn => ?_⟩
  rw [List.mem_eraseDups] at hn
  simpa [List.removeAll] using (List.mem_filter.1 hn).2

/-- At the lowest version the histories come in the order of its declarations. -/
theorem Merge.filterMap_at?_cons {s : Snapshot} {snapshots : List Snapshot}
    (hord : Ordered (s :: snapshots)) :
    (histories (s :: snapshots)).filterMap (·.at? s.version) = s.schema.declarations := by
  have hmem : s ∈ s :: snapshots := List.mem_cons_self
  obtain ⟨later, hnames, hlater⟩ := declaredNames_cons snapshots
    (Schema.nodup_names_of_defects (hord.valid s hmem))
  have hhist : ∀ n ∈ declaredNames (s :: snapshots),
      ⟨n, (scan (s :: snapshots)).filter (·.2.name = n)⟩ ∈ histories (s :: snapshots) :=
    fun n hn => histories_eq (s :: snapshots) ▸ List.mem_map_of_mem hn
  rw [hnames] at hhist
  rw [histories_eq, hnames, List.map_append, List.filterMap_append]
  have hown : ∀ d ∈ s.schema.declarations,
      History.at? ⟨d.name, (scan (s :: snapshots)).filter (·.2.name = d.name)⟩ s.version =
        some d := by
    intro d hd
    have hh := hhist d.name (List.mem_append_left _ (List.mem_map_of_mem hd))
    exact (hord.regular hh).at?_eq_some_iff.2
      ((mem_entries_of_mem_histories hh).2 ⟨s, hmem, rfl, hd, rfl⟩)
  have hnone : ∀ n ∈ later,
      History.at? ⟨n, (scan (s :: snapshots)).filter (·.2.name = n)⟩ s.version = none := by
    intro n hn
    have hh := hhist n (List.mem_append_right _ hn)
    refine Option.eq_none_iff_forall_ne_some.2 fun d hat => hlater n hn ?_
    have hd := (mem_filterMap_at? hord hmem).1 (List.mem_filterMap.2 ⟨_, hh, hat⟩)
    have hentry := (hord.regular hh).at?_eq_some_iff.1 hat
    obtain ⟨-, -, -, -, hname⟩ := (mem_entries_of_mem_histories hh).1 hentry
    exact List.mem_map.2 ⟨d, hd, hname⟩
  have hfirst := (List.filterMap_congr hown).trans List.filterMap_some
  have hrest := List.filterMap_eq_nil_iff.2 hnone
  rw [List.map_map, List.filterMap_map, List.filterMap_map]
  exact (congrArg₂ (· ++ ·) hfirst hrest).trans (List.append_nil _)

/-- Among ordered snapshots the lowest one is the first. -/
theorem Merge.Ordered.eq_cons_of_le {snapshots : List Snapshot} (hord : Ordered snapshots)
    {s : Snapshot} (hs : s ∈ snapshots) (hlow : ∀ t ∈ snapshots, s.version ≤ t.version) :
    ∃ rest, snapshots = s :: rest := by
  cases snapshots with
  | nil => simp at hs
  | cons first rest =>
    rcases List.mem_cons.1 hs with rfl | hrest
    · exact ⟨rest, rfl⟩
    · have hlt := List.rel_of_pairwise_cons hord.ascending hrest
      exact absurd (hlow first List.mem_cons_self) (not_le_of_gt hlt)

/-- At every version that was merged, the merged schema has the declarations of that version, each
once and as it was; at the lowest one it has them in their own order. -/
theorem evaluate_covers {snapshots : List Snapshot} {m : MergedSchema}
    (hok : merge snapshots = .ok m) {s : Snapshot} (hs : s ∈ snapshots) :
    (m.evaluate s.version).Perm s.schema.declarations ∧
      ((m.evaluate s.version).map Declaration.name).Nodup ∧
      ((∀ t ∈ snapshots, s.version ≤ t.version) →
        m.evaluate s.version = s.schema.declarations) := by
  obtain ⟨parts, hm⟩ := Merge.exists_assembled hok
  have hs' : s ∈ Merge.sorted snapshots := Merge.mem_sorted.2 hs
  have hversion : s.version ∈ m.versions := by
    rw [hm.versions]
    exact Merge.mem_versionsOf.2 ⟨s, hs', rfl⟩
  rw [hm.evaluate_eq_histories hversion]
  have hnames := Merge.nodup_name_filterMap_at? hm.ordered s.version
  refine ⟨?_, hnames, fun hlow => ?_⟩
  · have hnodup := Schema.nodup_names_of_defects (hm.ordered.valid s hs')
    apply (List.perm_ext_iff_of_nodup hnames.of_map hnodup.of_map).2
    intro d
    exact Merge.mem_filterMap_at? hm.ordered hs'
  · obtain ⟨rest, hrest⟩ := hm.ordered.eq_cons_of_le hs' fun t ht =>
      hlow t (Merge.mem_sorted.1 ht)
    have hord := hm.ordered
    rw [hrest] at hord ⊢
    exact Merge.filterMap_at?_cons hord

/-- In the first of two versions with its own order, in the second up to the order. -/
theorem evaluate_covers_circleLineage :
    ∃ m, merge circleLineage = .ok m ∧
      m.evaluate circleFigure.version = circleFigure.schema.declarations ∧
      (m.evaluate circleAlone.version).Perm circleAlone.schema.declarations := by
  obtain ⟨m, hm⟩ := exists_merge_circleLineage
  have hfigure : circleFigure ∈ circleLineage := by decide
  have halone : circleAlone ∈ circleLineage := by decide
  have hlow : ∀ s ∈ circleLineage, circleFigure.version ≤ s.version := by decide
  exact ⟨m, hm, (evaluate_covers hm hfigure).2.2 hlow, (evaluate_covers hm halone).1⟩

end SchemaLineage

import SchemaLineage.Proofs.MergeParts

/-!
Merging does not depend on the order of the snapshots. Sorting leaves no trace of it if the versions
are distinct: then only one arrangement is in ascending order. If a version comes again, snapshots
that share it may still stand in any order, but the merge ends there, with the first such version,
and the sorted versions are the same for every arrangement.
-/
namespace SchemaLineage

namespace Merge

section Arrangements

variable {snapshots arranged : List Snapshot}

theorem sorted_perm_of_perm (h : snapshots.Perm arranged) :
    (sorted snapshots).Perm (sorted arranged) := by
  have hleft : (sorted snapshots).Perm snapshots := List.mergeSort_perm _ _
  have hright : (sorted arranged).Perm arranged := List.mergeSort_perm _ _
  exact (hleft.trans h).trans hright.symm

/-- The versions in ascending order are the same for every arrangement. -/
theorem map_version_sorted_eq_of_perm (h : snapshots.Perm arranged) :
    (sorted snapshots).map Snapshot.version = (sorted arranged).map Snapshot.version := by
  have hascending : ∀ l : List Snapshot, ((sorted l).map Snapshot.version).Pairwise (· ≤ ·) :=
    fun l => List.pairwise_map.2 (pairwise_sorted l)
  have hversions := (sorted_perm_of_perm h).map Snapshot.version
  exact hversions.eq_of_pairwise' (hascending snapshots) (hascending arranged)

/-- Only the versions tell which of them comes again. -/
theorem duplicate?_sorted_eq_of_perm (h : snapshots.Perm arranged) :
    duplicate? (sorted snapshots) = duplicate? (sorted arranged) := by
  unfold duplicate?
  rw [map_version_sorted_eq_of_perm h]

/-- Of snapshots with distinct versions only one arrangement is in ascending order. -/
theorem sorted_eq_of_perm (h : snapshots.Perm arranged)
    (hdistinct : duplicate? (sorted snapshots) = none) : sorted snapshots = sorted arranged := by
  have hascending := (duplicate?_eq_none_iff (pairwise_sorted snapshots)).1 hdistinct
  have hascending' := (duplicate?_eq_none_iff (pairwise_sorted arranged)).1
    (duplicate?_sorted_eq_of_perm h ▸ hdistinct)
  apply (sorted_perm_of_perm h).eq_of_pairwise _ hascending hascending'
  intro s t _ _ hst hts
  exact absurd hts (lt_asymm hst)

/-- A version that comes again is told before anything else about the snapshots. -/
theorem merge_of_duplicate {v : Version} (h : duplicate? (sorted snapshots) = some v) :
    merge snapshots = .error (.duplicateVersion v) := by
  rw [merge]
  cases hlast : (sorted snapshots).getLast? with
  | none =>
    rw [List.getLast?_eq_none_iff.1 hlast] at h
    cases h
  | some latest =>
    simp only [ofSorted, h]
    rfl

end Arrangements

end Merge

/-- The merged schema, or the error with all that it tells, is the same for every arrangement of the
snapshots. -/
theorem merge_eq_of_perm {snapshots arranged : List Snapshot} (h : snapshots.Perm arranged) :
    merge snapshots = merge arranged := by
  cases hdup : Merge.duplicate? (Merge.sorted snapshots) with
  | none =>
    unfold merge
    rw [Merge.sorted_eq_of_perm h hdup]
  | some v =>
    have hdup' : Merge.duplicate? (Merge.sorted arranged) = some v := by
      rw [← Merge.duplicate?_sorted_eq_of_perm h]
      exact hdup
    rw [Merge.merge_of_duplicate hdup, Merge.merge_of_duplicate hdup']

/-- A lineage that is merged in reverse, and one in which two different schemas claim a version. -/
theorem merge_circleLineage_rearranged :
    (∃ m, merge circleLineage = .ok m ∧ merge circleLineage.reverse = .ok m) ∧
      merge [⟨⟨[2]⟩, circleFigure.schema⟩, circleFigure, circleAlone] =
        .error (.duplicateVersion ⟨[2]⟩) := by
  obtain ⟨m, hm⟩ := exists_merge_circleLineage
  refine ⟨⟨m, hm, ?_⟩, ?_⟩
  · rw [merge_eq_of_perm (List.reverse_perm circleLineage)]
    exact hm
  · have hperm : [⟨⟨[2]⟩, circleFigure.schema⟩, circleFigure, circleAlone].Perm
        [circleFigure, ⟨⟨[2]⟩, circleFigure.schema⟩, circleAlone] := List.Perm.swap _ _ _
    have hsorted : Merge.sorted [circleFigure, ⟨⟨[2]⟩, circleFigure.schema⟩, circleAlone] =
        [circleFigure, ⟨⟨[2]⟩, circleFigure.schema⟩, circleAlone] :=
      List.mergeSort_of_pairwise (by decide +kernel)
    rw [merge_eq_of_perm hperm]
    apply Merge.merge_of_duplicate
    rw [hsorted]
    decide +kernel

end SchemaLineage

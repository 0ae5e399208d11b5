import SchemaLineage.Proofs.NearestVersions

/-!
What the condition of a set of versions says. The classification compares the ranks of the lowest
and the highest member with the number of members. Main statement: it finds a condition for exactly
the non-empty parts of the observed versions that skip none between their lowest and their highest
member; the condition then holds at the members alone, and has as few bounds as the place of the set
among the observed versions allows.
-/
namespace SchemaLineage

namespace VersionSet

variable {s all : VersionSet} {v low high : Version}

/-- A part that skips nothing between its bounds skips nothing between any two of its members. -/
theorem isRun_iff_bounds : s.IsRun all ↔ s.toList ≠ [] ∧ (∀ v ∈ s, v ∈ all) ∧
    ∀ low high, s.min? = some low → s.max? = some high → ∀ v ∈ all, low ≤ v → v ≤ high → v ∈ s := by
  constructor
  · intro h
    refine ⟨h.ne_nil, h.subset, fun low high hlow hhigh => ?_⟩
    exact h.convex low (mem_of_min? hlow) high (mem_of_max? hhigh)
  · rintro ⟨hne, hsub, hbounds⟩
    obtain ⟨low, high, hlow, hhigh⟩ := exists_bounds hne
    refine ⟨hne, hsub, fun u hu w hw v hv huv hvw => ?_⟩
    exact hbounds low high hlow hhigh v hv ((min?_le hlow hu).trans huv)
      (hvw.trans (le_max? hhigh hw))

def ProperPrefix (s all : VersionSet) : Prop :=
  s.toList <+: all.toList ∧ s ≠ all

def ProperSuffix (s all : VersionSet) : Prop :=
  s.toList <:+ all.toList ∧ s ≠ all

end VersionSet

namespace Condition

open VersionSet

variable {s all : VersionSet} {c : Condition}

/-- The condition holds at the members of the set alone among the observed versions, and it has a
bound only at an end where observed versions are left out. -/
structure SinglesOut (c : Condition) (s all : VersionSet) : Prop where
  holds_iff : ∀ v ∈ all, c.holds v = true ↔ v ∈ s
  always_iff : c = .always ↔ s = all
  atLeast_iff : ∀ low, s.min? = some low → (c = .atLeast low ↔ s.ProperSuffix all)
  atMost_iff : ∀ high, s.max? = some high → (c = .atMost high ↔ s.ProperPrefix all)
  between_iff : ∀ low high, s.min? = some low → s.max? = some high →
    (c = .between low high ↔ s ≠ all ∧ ¬ s.ProperSuffix all ∧ ¬ s.ProperPrefix all)

theorem singlesOut_of_classify (h : classify s all = some c) : c.SinglesOut s all := by
  have hne := (isRun_of_classify h).ne_nil
  obtain ⟨before, after, low, high, hsplit, hlow, hhigh, hc⟩ := exists_split_of_classify h
  have hwhole := eq_iff_of_split hsplit hne
  have hend : s.ProperSuffix all ↔ before ≠ [] ∧ after = [] := by
    rw [ProperSuffix, isSuffix_iff_of_split hsplit hne, ne_eq, hwhole]
    tauto
  have hstart : s.ProperPrefix all ↔ before = [] ∧ after ≠ [] := by
    rw [ProperPrefix, isPrefix_iff_of_split hsplit hne, ne_eq, hwhole]
    tauto
  refine ⟨fun v hv => holds_iff_of_classify h hv, classify_eq_always_iff h, ?_, ?_, ?_⟩
  · intro low' hlow'
    obtain rfl := Option.some.inj (hlow.symm.trans hlow')
    rw [hend, hc]
    by_cases hb : before = [] <;> by_cases ha : after = [] <;> simp [ofSplit, hb, ha]
  · intro high' hhigh'
    obtain rfl := Option.some.inj (hhigh.symm.trans hhigh')
    rw [hstart, hc]
    by_cases hb : before = [] <;> by_cases ha : after = [] <;> simp [ofSplit, hb, ha]
  · intro low' high' hlow' hhigh'
    obtain rfl := Option.some.inj (hlow.symm.trans hlow')
    obtain rfl := Option.some.inj (hhigh.symm.trans hhigh')
    rw [hend, hstart, ne_eq, hwhole, hc]
    by_cases hb : before = [] <;> by_cases ha : after = [] <;> simp [ofSplit, hb, ha]

/-- The ranks are listed in ascending order, so the first can be taken from the last. -/
theorem first_le_last_of_ranks {ranks : List Nat} {first last : Nat}
    (hranks : s.toList.mapM all.rank? = some ranks) (hfirst : ranks.head? = some first)
    (hlast : ranks.getLast? = some last) : first ≤ last := by
  obtain ⟨hsub, rfl⟩ := ranks_eq hranks
  obtain ⟨low, high, hlow, hhigh, rfl, rfl⟩ := exists_bounds_of_ranks hfirst hlast
  have hle : low ≤ high := min?_le hlow (mem_of_max? hhigh)
  exact (idxOf_le_idxOf_iff (hsub low (mem_of_min? hlow)) (hsub high (mem_of_max? hhigh))).2 hle

/-- Exactly the non-empty parts of the observed versions that skip none between their bounds have a
condition. It singles them out, with bounds at the ends alone where versions are left out. No rank
is taken from a smaller one on the way. -/
theorem classify_exact (s all : VersionSet) :
    ((classify s all).isSome = true ↔ s.toList ≠ [] ∧ (∀ v ∈ s, v ∈ all) ∧
      ∀ low high, s.min? = some low → s.max? = some high →
        ∀ v ∈ all, low ≤ v → v ≤ high → v ∈ s) ∧
    (∀ c, classify s all = some c → c.SinglesOut s all) ∧
    ∀ ranks first last, s.toList.mapM all.rank? = some ranks → ranks.head? = some first →
      ranks.getLast? = some last → first ≤ last := by
  refine ⟨?_, fun c hc => singlesOut_of_classify hc, fun ranks first last => ?_⟩
  · rw [isSome_classify_iff, isRun_iff_bounds]
  · exact first_le_last_of_ranks

def patchReleases : VersionSet :=
  .ofList [⟨[3, 8, 1]⟩, ⟨[3, 8]⟩]

def allReleases : VersionSet :=
  .ofList [⟨[3, 10]⟩, ⟨[3, 7]⟩, ⟨[3, 8]⟩, ⟨[3, 8, 1]⟩]

theorem classify_patchReleases :
    classify patchReleases allReleases = some (.between ⟨[3, 8]⟩ ⟨[3, 8, 1]⟩) ∧
      (between ⟨[3, 8]⟩ ⟨[3, 8, 1]⟩).SinglesOut patchReleases allReleases ∧
      patchReleases.toList.mapM allReleases.rank? = some [1, 2] ∧ 1 ≤ 2 := by
  have hcondition : classify patchReleases allReleases =
      some (.between ⟨[3, 8]⟩ ⟨[3, 8, 1]⟩) := by decide
  have hranks : patchReleases.toList.mapM allReleases.rank? = some [1, 2] := by decide
  obtain ⟨-, hexact, hascend⟩ := classify_exact patchReleases allReleases
  exact ⟨hcondition, hexact _ hcondition, hranks, hascend [1, 2] 1 2 hranks rfl rfl⟩

end Condition

end SchemaLineage

import SchemaLineage.Proofs.VersionRuns

/-!
The nearest members of a set of versions. A version that is no member lies above all members, below
all of them, or between two neighbours; those next to it are its nearest members, and a member is
nearest to itself. A bound is always an observed version, so no bound can tell a version from what
is next to it. Main statements: the condition of a run holds at any version exactly if the nearest
observed versions are all in the run; so among the observed versions it holds at the members of the
run alone.
-/
namespace SchemaLineage

namespace VersionSet

variable {s all : VersionSet} {u v w low high : Version}

/-- A member between which and the version there is no other one. -/
structure Nearest (s : VersionSet) (v w : Version) : Prop where
  mem : w ∈ s
  eq_of_below : ∀ u ∈ s, w ≤ u → u ≤ v → u = w
  eq_of_above : ∀ u ∈ s, v ≤ u → u ≤ w → u = w

def filter (s : VersionSet) (p : Version → Bool) : VersionSet :=
  ⟨s.toList.filter p, s.sorted.filter p⟩

theorem mem_filter {p : Version → Bool} : v ∈ s.filter p ↔ v ∈ s ∧ p v = true :=
  List.mem_filter

/-- Between a member below the version and the version there is a nearest member. -/
theorem exists_nearest_of_le (hu : u ∈ s) (huv : u ≤ v) :
    ∃ w, s.Nearest v w ∧ u ≤ w ∧ w ≤ v := by
  have hmem : u ∈ s.filter (· ≤ v) := mem_filter.2 ⟨hu, by simpa using huv⟩
  obtain ⟨-, w, -, hw⟩ := exists_bounds (List.ne_nil_of_mem hmem)
  obtain ⟨hws, hwv⟩ := mem_filter.1 (mem_of_max? hw)
  have hwv : w ≤ v := by simpa using hwv
  refine ⟨w, ⟨hws, fun x hx hwx hxv => ?_, fun x _ hvx hxw => ?_⟩, le_max? hw hmem, hwv⟩
  · have hxmem : x ∈ s.filter (· ≤ v) := mem_filter.2 ⟨hx, by simpa using hxv⟩
    exact le_antisymm (le_max? hw hxmem) hwx
  · exact le_antisymm hxw (hwv.trans hvx)

/-- Between the version and a member above it there is a nearest member. -/
theorem exists_nearest_of_ge (hu : u ∈ s) (hvu : v ≤ u) :
    ∃ w, s.Nearest v w ∧ v ≤ w ∧ w ≤ u := by
  have hmem : u ∈ s.filter (v ≤ ·) := mem_filter.2 ⟨hu, by simpa using hvu⟩
  obtain ⟨w, -, hw, -⟩ := exists_bounds (List.ne_nil_of_mem hmem)
  obtain ⟨hws, hvw⟩ := mem_filter.1 (mem_of_min? hw)
  have hvw : v ≤ w := by simpa using hvw
  refine ⟨w, ⟨hws, fun x _ hwx hxv => ?_, fun x hx hvx hxw => ?_⟩, hvw, min?_le hw hmem⟩
  · exact le_antisymm (hxv.trans hvw) hwx
  · have hxmem : x ∈ s.filter (v ≤ ·) := mem_filter.2 ⟨hx, by simpa using hvx⟩
    exact le_antisymm hxw (min?_le hw hxmem)

theorem exists_nearest (h : s.toList ≠ []) (v : Version) : ∃ w, s.Nearest v w := by
  obtain ⟨u, hu⟩ := List.exists_mem_of_ne_nil _ h
  rcases le_total u v with huv | hvu
  · obtain ⟨w, hw, -⟩ := exists_nearest_of_le hu huv
    exact ⟨w, hw⟩
  · obtain ⟨w, hw, -⟩ := exists_nearest_of_ge hu hvu
    exact ⟨w, hw⟩

/-- Below a bound that the version and some member are below, there is a nearest member. -/
theorem exists_nearest_lt (hu : u ∈ s) (hulow : u < low) (hvlow : v < low) :
    ∃ w, s.Nearest v w ∧ w < low := by
  rcases le_total u v with huv | hvu
  · obtain ⟨w, hw, -, hwv⟩ := exists_nearest_of_le hu huv
    exact ⟨w, hw, hwv.trans_lt hvlow⟩
  · obtain ⟨w, hw, -, hwu⟩ := exists_nearest_of_ge hu hvu
    exact ⟨w, hw, hwu.trans_lt hulow⟩

/-- Above a bound that the version and some member are above, there is a nearest member. -/
theorem exists_nearest_gt (hu : u ∈ s) (hhighu : high < u) (hhighv : high < v) :
    ∃ w, s.Nearest v w ∧ high < w := by
  rcases le_total u v with huv | hvu
  · obtain ⟨w, hw, huw, -⟩ := exists_nearest_of_le hu huv
    exact ⟨w, hw, hhighu.trans_le huw⟩
  · obtain ⟨w, hw, hvw, -⟩ := exists_nearest_of_ge hu hvu
    exact ⟨w, hw, hhighv.trans_le hvw⟩

/-- A member is its own nearest one, and the only one. -/
theorem nearest_iff_of_mem (hv : v ∈ s) : s.Nearest v w ↔ w = v := by
  constructor
  · intro hw
    rcases le_total v w with hvw | hwv
    · exact (hw.eq_of_above v hv le_rfl hvw).symm
    · exact (hw.eq_of_below v hv hwv le_rfl).symm
  · rintro rfl
    exact ⟨hv, fun u _ hwu huw => le_antisymm huw hwu, fun u _ hwu huw => le_antisymm huw hwu⟩

/-- From the highest member on it is the only nearest one. -/
theorem nearest_iff_of_max? (hhigh : s.max? = some high) (hv : high ≤ v) :
    s.Nearest v w ↔ w = high := by
  constructor
  · intro hw
    exact (hw.eq_of_below high (mem_of_max? hhigh) (le_max? hhigh hw.mem) hv).symm
  · rintro rfl
    refine ⟨mem_of_max? hhigh, fun u hu hwu _ => ?_, fun u _ hvu huw => ?_⟩
    · exact le_antisymm (le_max? hhigh hu) hwu
    · exact le_antisymm huw (hv.trans hvu)

/-- Up to the lowest member it is the only nearest one. -/
theorem nearest_iff_of_min? (hlow : s.min? = some low) (hv : v ≤ low) :
    s.Nearest v w ↔ w = low := by
  constructor
  · intro hw
    exact (hw.eq_of_above low (mem_of_min? hlow) hv (min?_le hlow hw.mem)).symm
  · rintro rfl
    refine ⟨mem_of_min? hlow, fun u _ hwu huv => ?_, fun u hu _ huw => ?_⟩
    · exact le_antisymm (huv.trans hv) hwu
    · exact le_antisymm huw (min?_le hlow hu)

/-- Strictly between two neighbours these are the nearest members. -/
theorem nearest_iff_of_neighbours (hlow : low ∈ s) (hhigh : high ∈ s) (hlv : low < v)
    (hvh : v < high) (hnone : ∀ u ∈ s, u ≤ low ∨ high ≤ u) :
    s.Nearest v w ↔ w = low ∨ w = high := by
  constructor
  · intro hw
    rcases hnone w hw.mem with hwl | hhw
    · exact Or.inl (hw.eq_of_below low hlow hwl hlv.le).symm
    · exact Or.inr (hw.eq_of_above high hhigh hvh.le hhw).symm
  · have hbelow : ∀ u ∈ s, u ≤ v → u ≤ low := fun u hu huv =>
      (hnone u hu).resolve_right fun h => absurd (h.trans huv) (not_le_of_gt hvh)
    have habove : ∀ u ∈ s, v ≤ u → high ≤ u := fun u hu hvu =>
      (hnone u hu).resolve_left fun h => absurd (hvu.trans h) (not_le_of_gt hlv)
    rintro (rfl | rfl)
    · refine ⟨hlow, fun u hu hwu huv => le_antisymm (hbelow u hu huv) hwu, fun u _ hvu huw => ?_⟩
      exact absurd (hvu.trans huw) (not_le_of_gt hlv)
    · refine ⟨hhigh, fun u _ hwu huv => ?_, fun u hu hvu huw => le_antisymm huw (habove u hu hvu)⟩
      exact absurd (hwu.trans huv) (not_le_of_gt hvh)

/-- A part that has all nearest members of the larger set has the same nearest members. -/
theorem nearest_iff_of_subset (hsub : ∀ w ∈ s, w ∈ all) (hin : ∀ w, all.Nearest v w → w ∈ s) :
    s.Nearest v w ↔ all.Nearest v w := by
  constructor
  · intro hw
    refine ⟨hsub w hw.mem, fun u hu hwu huv => ?_, fun u hu hvu huw => ?_⟩
    · obtain ⟨x, hx, hux, hxv⟩ := exists_nearest_of_le hu huv
      have hxw := hw.eq_of_below x (hin x hx) (hwu.trans hux) hxv
      exact le_antisymm (hxw ▸ hux) hwu
    · obtain ⟨x, hx, hvx, hxu⟩ := exists_nearest_of_ge hu hvu
      have hxw := hw.eq_of_above x (hin x hx) hvx (hxu.trans huw)
      exact le_antisymm huw (hxw ▸ hxu)
  · intro hw
    exact ⟨hin w hw, fun u hu => hw.eq_of_below u (hsub u hu),
      fun u hu => hw.eq_of_above u (hsub u hu)⟩

end VersionSet

namespace Condition

open VersionSet

variable {s all : VersionSet} {c : Condition} {v : Version}

/-- The condition has a bound where something is left out, and holds within its bounds. -/
theorem holds_ofSplit_iff {before after : List Version} {low high : Version} :
    (ofSplit before after low high).holds v = true ↔
      (before = [] ∨ low ≤ v) ∧ (after = [] ∨ v ≤ high) := by
  by_cases hb : before = [] <;> by_cases ha : after = [] <;> simp [ofSplit, holds, hb, ha]

/-- The condition of a run holds at a version, observed or not, exactly if the nearest observed
versions belong to the run. -/
theorem holds_iff_nearest (h : classify s all = some c) :
    c.holds v = true ↔ ∀ w, all.Nearest v w → w ∈ s := by
  obtain ⟨before, after, low, high, hsplit, hlow, hhigh, rfl⟩ := exists_split_of_classify h
  have hmem : ∀ w, w ∈ all ↔ w ∈ before ∨ w ∈ s ∨ w ∈ after := fun w => by
    change w ∈ all.toList ↔ _
    rw [hsplit, List.append_assoc, List.mem_append, List.mem_append]
    rfl
  have hsorted := all.sorted
  rw [hsplit, List.pairwise_append, List.pairwise_append] at hsorted
  obtain ⟨⟨-, -, hbefore⟩, -, hafter⟩ := hsorted
  have hbefore : ∀ w ∈ before, w < low := fun w hw => hbefore w hw low (mem_of_min? hlow)
  have hafter : ∀ w ∈ after, high < w :=
    fun w hw => hafter high (List.mem_append_right _ (mem_of_max? hhigh)) w hw
  have hlowAll : low ∈ all := (hmem low).2 (Or.inr (Or.inl (mem_of_min? hlow)))
  have hhighAll : high ∈ all := (hmem high).2 (Or.inr (Or.inl (mem_of_max? hhigh)))
  rw [holds_ofSplit_iff]
  constructor
  · rintro ⟨hlowv, hvhigh⟩ w hw
    rcases (hmem w).1 hw.mem with hwb | hws | hwa
    · have hle := hlowv.resolve_left (List.ne_nil_of_mem hwb)
      exact absurd (hw.eq_of_below low hlowAll (hbefore w hwb).le hle) (hbefore w hwb).ne'
    · exact hws
    · have hle := hvhigh.resolve_left (List.ne_nil_of_mem hwa)
      exact absurd (hw.eq_of_above high hhighAll hle (hafter w hwa).le) (hafter w hwa).ne
  · intro hall
    -- A version beyond a bound has a nearest member that is beyond the bound, too.
    constructor
    · by_contra hnot
      rw [not_or, not_le] at hnot
      obtain ⟨u, hu⟩ := List.exists_mem_of_ne_nil _ hnot.1
      have huall := (hmem u).2 (Or.inl hu)
      obtain ⟨w, hw, hwlow⟩ := exists_nearest_lt huall (hbefore u hu) hnot.2
      exact absurd (min?_le hlow (hall w hw)) (not_le_of_gt hwlow)
    · by_contra hnot
      rw [not_or, not_le] at hnot
      obtain ⟨u, hu⟩ := List.exists_mem_of_ne_nil _ hnot.1
      have huall := (hmem u).2 (Or.inr (Or.inr hu))
      obtain ⟨w, hw, hhighw⟩ := exists_nearest_gt huall (hafter u hu) hnot.2
      exact absurd (le_max? hhigh (hall w hw)) (not_le_of_gt hhighw)

/-- Among the observed versions the condition of a run holds at its members alone. -/
theorem holds_iff_of_classify (h : classify s all = some c) (hv : v ∈ all) :
    c.holds v = true ↔ v ∈ s := by
  rw [holds_iff_nearest h]
  exact ⟨fun hall => hall v ((nearest_iff_of_mem hv).2 rfl),
    fun hs w hw => (nearest_iff_of_mem hv).1 hw ▸ hs⟩

end Condition

end SchemaLineage

import SchemaLineage.Guard.Condition
import Mathlib.Data.List.Sort

/-!
Runs of versions. A set is a run of another one if it is a part of it that skips none of its members
between two of its own; the larger set is then a prefix, the run and a suffix. Main statements: a
condition can be told for a set exactly if the set is a run, and it has no bound at the ends that
the run reaches.
-/
namespace SchemaLineage

instance : LinearOrder Version where
  le_refl := Version.le_refl
  le_trans u v w huv hvw := by
    intro hwu
    by_cases huv' : u < v
    · exact hvw (Version.lt_trans hwu huv')
    · have : u = v := Version.eq_of_not_lt huv' huv
      exact hvw (this ▸ hwu)
  le_antisymm v w hvw hwv := Version.eq_of_not_lt hwv hvw
  le_total v w := by
    by_cases h : w < v
    · exact Or.inr (Version.le_of_lt h)
    · exact Or.inl h
  lt_iff_le_not_ge v w := by
    constructor
    · intro h
      exact ⟨Version.le_of_lt h, fun h' => h' h⟩
    · rintro ⟨-, h⟩
      exact Decidable.not_not.1 h
  toDecidableLE := inferInstance
  toDecidableEq := inferInstance
  toDecidableLT := inferInstance

namespace VersionSet

variable {s t all : VersionSet} {u v w : Version}

theorem ext (h : ∀ v, v ∈ s ↔ v ∈ t) : s = t := by
  cases s with
  | mk vs hvs =>
    cases t with
    | mk ws hws =>
      have : vs = ws := hvs.eq_of_mem_iff hws h
      subst this
      rfl

theorem mem_foldl_insert {vs : List Version} : v ∈ vs.foldl insert s ↔ v ∈ s ∨ v ∈ vs := by
  induction vs generalizing s with
  | nil => simp
  | cons w vs ih =>
    rw [List.foldl_cons, ih, mem_insert, List.mem_cons]
    exact ⟨fun h => by tauto, fun h => by tauto⟩

theorem mem_ofList {vs : List Version} : v ∈ ofList vs ↔ v ∈ vs := by
  rw [ofList, mem_foldl_insert]
  exact or_iff_right (List.not_mem_nil)

theorem nodup_toList (s : VersionSet) : s.toList.Nodup :=
  s.sorted.imp fun h => ne_of_lt h

/-- A part of another set that skips none of its members between two of its own. -/
structure IsRun (s all : VersionSet) : Prop where
  ne_nil : s.toList ≠ []
  subset : ∀ v ∈ s, v ∈ all
  convex : ∀ u ∈ s, ∀ w ∈ s, ∀ v ∈ all, u ≤ v → v ≤ w → v ∈ s

theorem idxOf_lt_idxOf_iff (hu : u ∈ s) (hv : v ∈ s) :
    s.toList.idxOf u < s.toList.idxOf v ↔ u < v := by
  have hmono : ∀ {a b}, a ∈ s → b ∈ s → s.toList.idxOf a < s.toList.idxOf b → a < b := by
    intro a b ha hb hab
    have h := List.pairwise_iff_getElem.1 s.sorted _ _ (List.idxOf_lt_length_of_mem ha)
      (List.idxOf_lt_length_of_mem hb) hab
    simpa only [List.getElem_idxOf] using h
  refine ⟨hmono hu hv, fun huv => ?_⟩
  rcases lt_trichotomy (s.toList.idxOf u) (s.toList.idxOf v) with h | h | h
  · exact h
  · have : u = v := (List.idxOf_inj hu).1 h
    exact absurd huv (this ▸ lt_irrefl u)
  · exact absurd (hmono hv hu h) (lt_asymm huv)

theorem idxOf_le_idxOf_iff (hu : u ∈ s) (hv : v ∈ s) :
    s.toList.idxOf u ≤ s.toList.idxOf v ↔ u ≤ v := by
  rw [← not_lt, idxOf_lt_idxOf_iff hv hu, not_lt]

theorem rank?_of_mem (hv : v ∈ s) : s.rank? v = some (s.toList.idxOf v) := by
  rw [rank?, List.idxOf?_eq_some_iff]
  refine ⟨List.idxOf_lt_length_of_mem hv, by simp, fun j hj => ?_⟩
  simpa using List.not_of_lt_findIdx hj

theorem min?_le {low : Version} (hlow : s.min? = some low) (hv : v ∈ s) : low ≤ v := by
  obtain ⟨rest, hrest⟩ := List.head?_eq_some_iff.1 hlow
  have hsorted := s.sorted
  rw [hrest, List.pairwise_cons] at hsorted
  have hmem : v ∈ low :: rest := hrest ▸ hv
  rcases List.mem_cons.1 hmem with rfl | hmem
  · exact le_rfl
  · exact le_of_lt (hsorted.1 v hmem)

theorem le_max? {high : Version} (hhigh : s.max? = some high) (hv : v ∈ s) : v ≤ high := by
  obtain ⟨rest, hrest⟩ := List.getLast?_eq_some_iff.1 hhigh
  have hsorted := s.sorted
  rw [hrest, List.pairwise_append] at hsorted
  have hmem : v ∈ rest ++ [high] := hrest ▸ hv
  rcases List.mem_append.1 hmem with hmem | hmem
  · exact le_of_lt (hsorted.2.2 v hmem high List.mem_cons_self)
  · exact le_of_eq (List.mem_singleton.1 hmem)

theorem mem_of_min? {low : Version} (hlow : s.min? = some low) : low ∈ s :=
  List.mem_of_head? hlow

theorem mem_of_max? {high : Version} (hhigh : s.max? = some high) : high ∈ s :=
  List.mem_of_getLast? hhigh

theorem exists_bounds (h : s.toList ≠ []) : ∃ low high, s.min? = some low ∧ s.max? = some high :=
  ⟨s.toList.head h, s.toList.getLast h, List.head?_eq_some_head h, List.getLast?_eq_some_getLast h⟩

/-- A run cuts the larger set into what is below it, the run and what is above it. -/
theorem IsRun.exists_split (h : s.IsRun all) :
    ∃ before after, all.toList = before ++ s.toList ++ after := by
  obtain ⟨low, high, hlow, hhigh⟩ := exists_bounds h.ne_nil
  refine ⟨all.toList.filter (· < low), all.toList.filter (high < ·), ?_⟩
  refine all.sorted.eq_of_mem_iff ?_ fun v => ?_
  · refine List.pairwise_append.2 ⟨List.pairwise_append.2
      ⟨all.sorted.filter _, s.sorted, fun u hu v hv => ?_⟩, all.sorted.filter _, fun u hu v hv => ?_⟩
    · have hulow : u < low := by simpa using (List.mem_filter.1 hu).2
      exact lt_of_lt_of_le hulow (min?_le hlow hv)
    · have hvhigh : high < v := by simpa using (List.mem_filter.1 hv).2
      rcases List.mem_append.1 hu with hu | hu
      · have hulow : u < low := by simpa using (List.mem_filter.1 hu).2
        exact hulow.trans_le ((min?_le hlow (mem_of_max? hhigh)).trans hvhigh.le)
      · exact (le_max? hhigh hu).trans_lt hvhigh
  · simp only [List.mem_append, List.mem_filter, decide_eq_true_eq]
    constructor
    · intro hv
      rcases lt_or_ge v low with hvlow | hvlow
      · exact Or.inl (Or.inl ⟨hv, hvlow⟩)
      · rcases lt_or_ge high v with hvhigh | hvhigh
        · exact Or.inr ⟨hv, hvhigh⟩
        · exact Or.inl (Or.inr (h.convex low (mem_of_min? hlow) high (mem_of_max? hhigh) v hv
            hvlow hvhigh))
    · rintro ((hv | hv) | hv)
      · exact hv.1
      · exact h.subset v hv
      · exact hv.1

section Splits

variable {before after : List Version}

/-- A run is a prefix of the larger set exactly if nothing is below it. -/
theorem isPrefix_iff_of_split (h : all.toList = before ++ s.toList ++ after)
    (hne : s.toList ≠ []) : s.toList <+: all.toList ↔ before = [] := by
  rw [h, List.append_assoc]
  constructor
  · rintro ⟨more, hmore⟩
    have hnodup := all.nodup_toList
    rw [h, List.append_assoc, List.nodup_append] at hnodup
    cases before with
    | nil => rfl
    | cons v before =>
      -- The first member of the larger set would be below the run and in it.
      obtain ⟨w, ws, hs⟩ := List.exists_cons_of_ne_nil hne
      rw [hs] at hmore hnodup
      obtain rfl : w = v := (List.cons.inj hmore).1
      exact absurd rfl (hnodup.2.2 w List.mem_cons_self w List.mem_cons_self)
  · rintro rfl
    exact List.prefix_append _ _

/-- A run is a suffix of the larger set exactly if nothing is above it. -/
theorem isSuffix_iff_of_split (h : all.toList = before ++ s.toList ++ after)
    (hne : s.toList ≠ []) : s.toList <:+ all.toList ↔ after = [] := by
  rw [h]
  constructor
  · rintro ⟨more, hmore⟩
    have hnodup := all.nodup_toList
    rw [h, List.nodup_append] at hnodup
    rcases List.eq_nil_or_concat' after with rfl | ⟨after, v, rfl⟩
    · rfl
    · -- The last member of the larger set would be above the run and in it.
      obtain ⟨ws, w, hs⟩ := (List.eq_nil_or_concat' s.toList).resolve_left hne
      rw [hs, ← List.append_assoc, ← List.append_assoc] at hmore
      obtain rfl : w = v := List.singleton_inj.1 (List.append_inj' hmore rfl).2
      exact absurd rfl (hnodup.2.2 w (by simp [hs]) w (by simp))
  · rintro rfl
    rw [List.append_nil]
    exact List.suffix_append _ _

/-- A run is the larger set exactly if nothing is below it or above it. -/
theorem eq_iff_of_split (h : all.toList = before ++ s.toList ++ after) (hne : s.toList ≠ []) :
    s = all ↔ before = [] ∧ after = [] := by
  constructor
  · rintro rfl
    exact ⟨(isPrefix_iff_of_split h hne).1 (List.prefix_refl _),
      (isSuffix_iff_of_split h hne).1 (List.suffix_refl _)⟩
  · rintro ⟨rfl, rfl⟩
    rw [List.nil_append, List.append_nil] at h
    refine VersionSet.ext fun v => ?_
    change v ∈ s.toList ↔ v ∈ all.toList
    rw [h]

end Splits

end VersionSet

namespace Condition

open VersionSet

variable {s all : VersionSet} {c : Condition} {v low high : Version}

/-- The condition of a run between two bounds; an end of the larger set needs no bound. -/
def ofSplit (before after : List Version) (low high : Version) : Condition :=
  if before = [] then
    if after = [] then .always else .atMost high
  else
    if after = [] then .atLeast low else .between low high

private theorem mapM_rank?_of_subset {vs : List Version} (h : ∀ v ∈ vs, v ∈ all) :
    vs.mapM all.rank? = some (vs.map all.toList.idxOf) := by
  induction vs with
  | nil => rfl
  | cons v vs ih =>
    rw [List.mapM_cons, rank?_of_mem (h v List.mem_cons_self),
      ih fun w hw => h w (List.mem_cons_of_mem _ hw)]
    rfl

private theorem subset_of_mapM_rank? {vs : List Version} {ranks : List Nat}
    (h : vs.mapM all.rank? = some ranks) : ∀ v ∈ vs, v ∈ all := by
  induction vs generalizing ranks with
  | nil => simp
  | cons w vs ih =>
    rw [List.mapM_cons] at h
    obtain ⟨rank, hrank, h⟩ := Option.bind_eq_some_iff.1 h
    obtain ⟨rest, hrest, -⟩ := Option.bind_eq_some_iff.1 h
    intro v hv
    rcases List.mem_cons.1 hv with rfl | hv
    · by_contra hnot
      have : all.toList.idxOf? v = none := List.idxOf?_eq_none_iff.2 hnot
      simp [rank?, this] at hrank
    · exact ih hrest v hv

/-- If all members of a set have ranks, these are their places in the larger set. -/
theorem ranks_eq {ranks : List Nat} (h : s.toList.mapM all.rank? = some ranks) :
    (∀ v ∈ s, v ∈ all) ∧ ranks = s.toList.map all.toList.idxOf := by
  have hsub : ∀ v ∈ s.toList, v ∈ all := subset_of_mapM_rank? h
  exact ⟨hsub, Option.some.inj (h.symm.trans (mapM_rank?_of_subset hsub))⟩

/-- The first rank is that of the lowest member, the last rank that of the highest. -/
theorem exists_bounds_of_ranks {first last : Nat}
    (hfirst : (s.toList.map all.toList.idxOf).head? = some first)
    (hlast : (s.toList.map all.toList.idxOf).getLast? = some last) :
    ∃ low high, s.min? = some low ∧ s.max? = some high ∧ all.toList.idxOf low = first ∧
      all.toList.idxOf high = last := by
  rw [List.head?_map] at hfirst
  rw [List.getLast?_map] at hlast
  obtain ⟨low, hlow, hfirst⟩ := Option.map_eq_some_iff.1 hfirst
  obtain ⟨high, hhigh, hlast⟩ := Option.map_eq_some_iff.1 hlast
  exact ⟨low, high, hlow, hhigh, hfirst, hlast⟩

/-- The members of the middle of a list without repetitions have consecutive places. -/
private theorem map_idxOf_middle {before middle after : List Version}
    (h : (before ++ middle ++ after).Nodup) :
    middle.map (before ++ middle ++ after).idxOf =
      List.range' before.length middle.length := by
  apply List.ext_getElem (by simp)
  intro i hi hi'
  have hlt : i < middle.length := by simpa using hi
  have hlt' : before.length + i < (before ++ middle ++ after).length := by
    simp
    omega
  have hget : (before ++ middle ++ after)[before.length + i] = middle[i] := by
    rw [List.getElem_append_left (by simp; omega), List.getElem_append_right (by omega)]
    simp
  rw [List.getElem_map, ← hget, h.idxOf_getElem, List.getElem_range']
  omega

/-- A run is singled out by the condition of its bounds. -/
theorem classify_of_split {before after : List Version}
    (h : all.toList = before ++ s.toList ++ after) (hlow : s.min? = some low)
    (hhigh : s.max? = some high) : classify s all = some (ofSplit before after low high) := by
  have hsub : ∀ v ∈ s.toList, v ∈ all := fun v hv => by
    change v ∈ all.toList
    rw [h]
    exact List.mem_append_left _ (List.mem_append_right _ hv)
  have hranks : s.toList.mapM all.rank? = some (List.range' before.length s.toList.length) := by
    rw [mapM_rank?_of_subset hsub, h, map_idxOf_middle (h ▸ all.nodup_toList)]
  obtain ⟨rest, hrest⟩ := List.head?_eq_some_iff.1 hlow
  have hlen : s.toList.length = rest.length + 1 := by simp [hrest]
  have hsize : all.size = before.length + (rest.length + 1) + after.length := by
    simp only [size, h, hlen, List.length_append]
  have hhead : (List.range' before.length (rest.length + 1)).head? = some before.length := rfl
  have hlast : (List.range' before.length (rest.length + 1)).getLast? =
      some (before.length + rest.length) := by
    simp [List.getLast?_range']
  simp only [classify, hranks, hlen, hhead, hlast, hlow, hhigh, hsize, bind, Option.bind,
    List.length_range', ofSplit]
  rw [if_neg (by omega)]
  by_cases hb : before = []
  · by_cases ha : after = []
    · simp [hb, ha]
    · have : after.length ≠ 0 := by simpa using ha
      rw [if_pos (by simp [hb]), if_neg (by omega), if_pos hb, if_neg ha]
  · have : before.length ≠ 0 := by simpa using hb
    by_cases ha : after = []
    · rw [if_neg this, if_pos (by simp [ha]; omega), if_neg hb, if_pos ha]
    · have : after.length ≠ 0 := by simpa using ha
      rw [if_neg (by omega), if_neg (by omega), if_neg hb, if_neg ha]

/-- Ranks that fill the range between the first and the last of them leave no gap. -/
theorem isRun_of_classify (h : classify s all = some c) : s.IsRun all := by
  obtain ⟨ranks, hranks, h⟩ := Option.bind_eq_some_iff.1 h
  obtain ⟨first, hfirst, h⟩ := Option.bind_eq_some_iff.1 h
  obtain ⟨last, hlast, h⟩ := Option.bind_eq_some_iff.1 h
  obtain ⟨_, -, h⟩ := Option.bind_eq_some_iff.1 h
  obtain ⟨_, -, h⟩ := Option.bind_eq_some_iff.1 h
  have hcount : last - first + 1 = ranks.length := by
    by_contra hne
    simp [hne] at h
  obtain ⟨hsub, rfl⟩ := ranks_eq hranks
  obtain ⟨low, high, hlow, hhigh, rfl, rfl⟩ := exists_bounds_of_ranks hfirst hlast
  have hlowAll := hsub low (mem_of_min? hlow)
  have hhighAll := hsub high (mem_of_max? hhigh)
  have hnodup : (s.toList.map all.toList.idxOf).Nodup :=
    s.nodup_toList.map_on fun u hu v hv huv => (List.idxOf_inj (hsub u hu)).1 huv
  have hrange : s.toList.map all.toList.idxOf ⊆
      List.range' (all.toList.idxOf low) (s.toList.map all.toList.idxOf).length := by
    intro rank hrank
    obtain ⟨v, hv, rfl⟩ := List.mem_map.1 hrank
    have h1 := (idxOf_le_idxOf_iff hlowAll (hsub v hv)).2 (min?_le hlow hv)
    have h2 := (idxOf_le_idxOf_iff (hsub v hv) hhighAll).2 (le_max? hhigh hv)
    rw [List.mem_range'_1, ← hcount]
    omega
  -- The ranks are as many as the places between the outermost two, so they are all of them.
  have hfill := (List.subperm_of_subset hnodup hrange).perm_of_length_le (by simp)
  refine ⟨List.ne_nil_of_mem (mem_of_min? hlow), hsub, fun u hu w hw v hv huv hvw => ?_⟩
  have h1 := (idxOf_le_idxOf_iff hlowAll hv).2 ((min?_le hlow hu).trans huv)
  have h2 := (idxOf_le_idxOf_iff hv hhighAll).2 (hvw.trans (le_max? hhigh hw))
  have hmem : all.toList.idxOf v ∈ s.toList.map all.toList.idxOf := by
    rw [hfill.mem_iff, List.mem_range'_1, ← hcount]
    omega
  obtain ⟨u', hu', heq⟩ := List.mem_map.1 hmem
  have : u' = v := (List.idxOf_inj (hsub u' hu')).1 heq
  exact this ▸ hu'

/-- Exactly the runs of the observed versions have a condition. -/
theorem isSome_classify_iff : (classify s all).isSome = true ↔ s.IsRun all := by
  constructor
  · intro h
    obtain ⟨c, hc⟩ := Option.isSome_iff_exists.1 h
    exact isRun_of_classify hc
  · intro h
    obtain ⟨before, after, hsplit⟩ := h.exists_split
    obtain ⟨low, high, hlow, hhigh⟩ := exists_bounds h.ne_nil
    simp [classify_of_split hsplit hlow hhigh]

/-- A condition comes from a split of the observed versions around the run. -/
theorem exists_split_of_classify (h : classify s all = some c) :
    ∃ before after low high, all.toList = before ++ s.toList ++ after ∧ s.min? = some low ∧
      s.max? = some high ∧ c = ofSplit before after low high := by
  have hrun := isRun_of_classify h
  obtain ⟨before, after, hsplit⟩ := hrun.exists_split
  obtain ⟨low, high, hlow, hhigh⟩ := exists_bounds hrun.ne_nil
  have := h.symm.trans (classify_of_split hsplit hlow hhigh)
  exact ⟨before, after, low, high, hsplit, hlow, hhigh, Option.some.inj this⟩

/-- Only the set of all observed versions needs no bound. -/
theorem classify_eq_always_iff (h : classify s all = some c) : c = .always ↔ s = all := by
  have hne := (isRun_of_classify h).ne_nil
  obtain ⟨before, after, low, high, hsplit, -, -, rfl⟩ := exists_split_of_classify h
  rw [eq_iff_of_split hsplit hne]
  by_cases hb : before = [] <;> by_cases ha : after = [] <;> simp [ofSplit, hb, ha]

end Condition

end SchemaLineage

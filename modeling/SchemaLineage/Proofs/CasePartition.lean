import SchemaLineage.Proofs.Evaluation

/-!
The cases of a declaration as a partition of its versions. The values of a history are listed in the
order of their first use. Where each of them is used in a run of the versions, the runs follow one
another in that order, and one after the other they are all versions of the history. Main statement:
at each version of a merged declaration exactly one of its kinds is in effect, and exactly one case
of its alias if it has one; only the first case is open below and only the last one above, and the
bounds of neighbours are neighbours among the versions.
-/
namespace SchemaLineage

namespace Condition

def lower? : Condition → Option Version
  | atLeast low => some low
  | between low _ => some low
  | _ => none

def upper? : Condition → Option Version
  | atMost high => some high
  | between _ high => some high
  | _ => none

variable {before after : List Version} {low high : Version}

theorem lower?_ofSplit (h : before ≠ []) : (ofSplit before after low high).lower? = some low := by
  rw [ofSplit, if_neg h]
  split <;> rfl

theorem upper?_ofSplit (h : after ≠ []) : (ofSplit before after low high).upper? = some high := by
  simp only [ofSplit, if_neg h]
  split <;> rfl

end Condition

/-- The cases part a set of versions into runs, one after the other. Each version is in the range of
one case, no value comes twice, and the cases are as open at the ends as they can be. -/
structure CasePartition {α : Type} (versions : VersionSet) (cases : List (Case α)) : Prop where
  ne_nil : cases ≠ []
  distinct : (cases.map Case.value).Nodup
  exactly_one : ∀ v ∈ versions, ∃ c, cases.filter (·.condition.holds v) = [c]
  ascending : cases.Pairwise fun c c' => ∀ u ∈ versions, ∀ w ∈ versions,
    c.condition.holds u = true → c'.condition.holds w = true → u < w
  only : ∀ c, cases = [c] → c.condition = .always
  first : ∀ c after, cases = c :: after → after ≠ [] → ∃ high, c.condition = .atMost high
  last : ∀ before c, cases = before ++ [c] → before ≠ [] → ∃ low, c.condition = .atLeast low
  inner : ∀ before c after, cases = before ++ c :: after → before ≠ [] → after ≠ [] →
    ∃ low high, c.condition = .between low high
  adjacent : ∀ c c', [c, c'] <:+: cases → ∃ high low, c.condition.upper? = some high ∧
    c'.condition.lower? = some low ∧ [high, low] <:+: versions.toList

/-- In ascending uses the values are listed in the order of their first use. -/
theorem pairwise_first_use {α : Type} [DecidableEq α] {uses : List (α × Version)}
    (h : uses.Pairwise fun a b => a.2 < b.2) :
    (uses.map Prod.fst).eraseDups.Pairwise fun a b =>
      ∀ w, (b, w) ∈ uses → ∃ v, (a, v) ∈ uses ∧ v < w := by
  induction uses using List.reverseRecOn with
  | nil => simp
  | append_singleton uses use ih =>
    obtain ⟨huses, -, hlast⟩ := List.pairwise_append.1 h
    -- The last use comes after all uses of a value that was seen before.
    have hstep : ∀ a b, a ∈ (uses.map Prod.fst).eraseDups →
        (∀ w, (b, w) ∈ uses → ∃ v, (a, v) ∈ uses ∧ v < w) →
          ∀ w, (b, w) ∈ uses ++ [use] → ∃ v, (a, v) ∈ uses ++ [use] ∧ v < w := by
      intro a b ha hab w hw
      rcases List.mem_append.1 hw with hw | hw
      · obtain ⟨v, hv, hlt⟩ := hab w hw
        exact ⟨v, List.mem_append_left _ hv, hlt⟩
      · obtain ⟨u, hu, rfl⟩ := List.mem_map.1 (List.mem_eraseDups.1 ha)
        exact ⟨u.2, List.mem_append_left _ hu, hlast u hu (b, w) hw⟩
    rw [List.map_append, List.map_singleton, eraseDups_concat]
    have hold := (ih huses).imp_of_mem fun ha _ hab => hstep _ _ ha hab
    split
    · exact hold
    · rename_i hnew
      refine List.pairwise_append.2 ⟨hold, List.pairwise_singleton _ _, fun a ha b hb => ?_⟩
      obtain rfl := List.mem_singleton.1 hb
      apply hstep a use.1 ha
      intro w hw
      exact absurd (List.mem_map_of_mem hw) hnew

theorem exists_split_of_forall₂ {α β : Type} {R : α → β → Prop} {xs : List α}
    {before after : List β} {y : β} (h : List.Forall₂ R xs (before ++ y :: after)) :
    ∃ xs₁ x xs₂, xs = xs₁ ++ x :: xs₂ ∧ List.Forall₂ R xs₁ before ∧ R x y ∧
      List.Forall₂ R xs₂ after := by
  obtain ⟨x, xs₂, hx, hafter, hdrop⟩ :=
    List.forall₂_cons_right_iff.1 (List.forall₂_drop_append xs before (y :: after) h)
  refine ⟨xs.take before.length, x, xs₂, ?_, ?_, hx, hafter⟩
  · rw [← hdrop, List.take_append_drop]
  · exact List.forall₂_take_append xs before (y :: after) h

namespace Merge

section Runs

variable {α : Type} [DecidableEq α] {h : History} {g : Declaration → α}

theorem spansBy_ne_nil (hreg : h.Regular) : h.spansBy g ≠ [] := by
  obtain ⟨⟨v, d⟩, hd⟩ := List.exists_mem_of_ne_nil _ hreg.ne_nil
  obtain ⟨s, hs, -⟩ := History.exists_span_of_mem_entries g hd
  exact List.ne_nil_of_mem hs

/-- Runs of different values do not interlock, so they follow one another as their values do. -/
theorem pairwise_spansBy (hreg : h.Regular)
    (hruns : ∀ s ∈ h.spansBy g, s.versions.IsRun h.observed) :
    (h.spansBy g).Pairwise fun s t => ∀ u ∈ s.versions, ∀ w ∈ t.versions, u < w := by
  have hasc : (h.entries.map fun e => (g e.2, e.1)).Pairwise fun a b => a.2 < b.2 :=
    List.pairwise_map.2 hreg.ascending
  have hfirst := pairwise_first_use hasc
  rw [← map_value_spans, List.pairwise_map] at hfirst
  have hdistinct := List.pairwise_map.1 (nodup_value_spans (h.entries.map fun e => (g e.2, e.1)))
  refine (hfirst.and hdistinct).imp_of_mem ?_
  intro s t hs ht hst u hu w hw
  by_contra hwu
  obtain ⟨v, hv, hvw⟩ := hst.1 w ((mem_versions_of_mem_spans ht).1 hw)
  have hws : w ∈ s.versions := (hruns s hs).convex v ((mem_versions_of_mem_spans hs).2 hv) u hu w
    ((hruns t ht).subset w hw) hvw.le (not_lt.1 hwu)
  obtain ⟨d, hd, hvalue⟩ := (History.mem_versions_of_mem_spansBy ht).1 hw
  exact hst.2 (((hreg.mem_versions_iff hd hs).1 hws).trans hvalue)

/-- One after the other the runs are all versions of the history. -/
theorem flatMap_versions_spansBy (hreg : h.Regular)
    (hruns : ∀ s ∈ h.spansBy g, s.versions.IsRun h.observed) :
    (h.spansBy g).flatMap (·.versions.toList) = h.observed.toList := by
  refine List.Pairwise.eq_of_mem_iff (List.pairwise_flatMap.2 ⟨fun s _ => s.versions.sorted, ?_⟩)
    h.observed.sorted fun v => ?_
  · exact pairwise_spansBy hreg hruns
  · rw [List.mem_flatMap]
    constructor
    · rintro ⟨s, hs, hv⟩
      exact (hruns s hs).subset v hv
    · intro hv
      obtain ⟨d, hd⟩ := History.mem_observed.1 hv
      obtain ⟨s, hs, hvalue⟩ := History.exists_span_of_mem_entries g hd
      exact ⟨s, hs, (hreg.mem_versions_iff hd hs).2 hvalue⟩

end Runs

section Splits

variable {α : Type} {observed : VersionSet} {ss : List (Span α)}
  {cases before after : List (Case α)} {c c' : Case α}

theorem versions_eq_nil_iff (hcases : List.Forall₂ (IsCase observed) ss cases) :
    ss.flatMap (·.versions.toList) = [] ↔ cases = [] := by
  cases hcases with
  | nil => exact iff_of_true rfl rfl
  | cons hcase _ =>
    have hne := (Condition.isRun_of_classify hcase.condition).ne_nil
    simp [hne]

/-- A case has a bound at an end exactly if there are cases beyond it. -/
theorem condition_of_split (hall : ss.flatMap (·.versions.toList) = observed.toList)
    (hcases : List.Forall₂ (IsCase observed) ss (before ++ c :: after)) :
    ∃ low high, c.condition = if before = [] then
        if after = [] then .always else .atMost high
      else if after = [] then .atLeast low else .between low high := by
  obtain ⟨ss₁, s, ss₂, rfl, hbefore, hcase, hafter⟩ := exists_split_of_forall₂ hcases
  have hne := (Condition.isRun_of_classify hcase.condition).ne_nil
  obtain ⟨low, high, hlow, hhigh⟩ := VersionSet.exists_bounds hne
  rw [List.flatMap_append, List.flatMap_cons, ← List.append_assoc] at hall
  have hcondition := Condition.classify_of_split hall.symm hlow hhigh
  rw [hcase.condition, Option.some_inj, Condition.ofSplit] at hcondition
  simp only [versions_eq_nil_iff hbefore, versions_eq_nil_iff hafter] at hcondition
  exact ⟨low, high, hcondition⟩

/-- Where one case ends, the next one starts with the next version. -/
theorem adjacent_bounds (hall : ss.flatMap (·.versions.toList) = observed.toList)
    (hcases : List.Forall₂ (IsCase observed) ss (before ++ c :: c' :: after)) :
    ∃ high low, c.condition.upper? = some high ∧ c'.condition.lower? = some low ∧
      [high, low] <:+: observed.toList := by
  obtain ⟨ss₁, s, ss₂, rfl, -, hcase, hafter⟩ := exists_split_of_forall₂ hcases
  obtain ⟨s', ss₃, hcase', -, rfl⟩ := List.forall₂_cons_right_iff.1 hafter
  have hne := (Condition.isRun_of_classify hcase.condition).ne_nil
  have hne' := (Condition.isRun_of_classify hcase'.condition).ne_nil
  obtain ⟨low, high, hlow, hhigh⟩ := VersionSet.exists_bounds hne
  obtain ⟨low', high', hlow', hhigh'⟩ := VersionSet.exists_bounds hne'
  rw [List.flatMap_append, List.flatMap_cons, List.flatMap_cons] at hall
  have hsplit : observed.toList = ss₁.flatMap (·.versions.toList) ++ s.versions.toList ++
      (s'.versions.toList ++ ss₃.flatMap (·.versions.toList)) := by
    rw [← hall, List.append_assoc]
  have hsplit' : observed.toList = (ss₁.flatMap (·.versions.toList) ++ s.versions.toList) ++
      s'.versions.toList ++ ss₃.flatMap (·.versions.toList) := by
    rw [hsplit]
    simp only [List.append_assoc]
  have hcondition := Condition.classify_of_split hsplit hlow hhigh
  have hcondition' := Condition.classify_of_split hsplit' hlow' hhigh'
  rw [hcase.condition, Option.some_inj] at hcondition
  rw [hcase'.condition, Option.some_inj] at hcondition'
  refine ⟨high, low', ?_, ?_, ?_⟩
  · rw [hcondition]
    exact Condition.upper?_ofSplit (by simp [hne'])
  · rw [hcondition']
    exact Condition.lower?_ofSplit (by simp [hne])
  · obtain ⟨vs, hvs⟩ := List.getLast?_eq_some_iff.1 hhigh
    obtain ⟨ws, hws⟩ := List.head?_eq_some_iff.1 hlow'
    refine ⟨ss₁.flatMap (·.versions.toList) ++ vs, ws ++ ss₃.flatMap (·.versions.toList), ?_⟩
    rw [hsplit, hvs, hws]
    simp

end Splits

/-- The cases of what the declarations of a history have part its versions. -/
theorem casePartition_of_cases {α : Type} [DecidableEq α] {h : History} {g : Declaration → α}
    {cases : List (Case α)} (hreg : h.Regular)
    (hcases : List.Forall₂ (IsCase h.observed) (h.spansBy g) cases) :
    CasePartition h.observed cases := by
  have hruns : ∀ s ∈ h.spansBy g, s.versions.IsRun h.observed := by
    intro s hs
    obtain ⟨c, -, hcase⟩ := exists_of_mem_of_forall₂ hcases hs
    exact Condition.isRun_of_classify hcase.condition
  have hall := flatMap_versions_spansBy hreg hruns
  constructor
  · rintro rfl
    exact spansBy_ne_nil hreg (List.forall₂_nil_right_iff.1 hcases)
  · rw [map_value_cases hcases]
    exact nodup_value_spans _
  · intro v hv
    obtain ⟨d, hd⟩ := History.mem_observed.1 hv
    obtain ⟨c, hc, -⟩ := filter_cases_eq_singleton g hcases hreg hd
    exact ⟨c, hc⟩
  · rw [List.pairwise_iff_getElem]
    intro i j hi hj hij u hu w hw hiu hjw
    rw [← hcases.length_eq] at hi hj
    have hcase : IsCase _ (h.spansBy g)[i] cases[i] := hcases.get hi _
    have hcase' : IsCase _ (h.spansBy g)[j] cases[j] := hcases.get hj _
    rw [Condition.holds_iff_of_classify hcase.condition hu] at hiu
    rw [Condition.holds_iff_of_classify hcase'.condition hw] at hjw
    exact List.pairwise_iff_getElem.1 (pairwise_spansBy hreg hruns) i j hi hj hij u hiu w hjw
  · rintro c rfl
    rw [← List.nil_append [c]] at hcases
    obtain ⟨low, high, hc⟩ := condition_of_split hall hcases
    exact hc
  · rintro c after rfl hafter
    rw [← List.nil_append (c :: after)] at hcases
    obtain ⟨low, high, hc⟩ := condition_of_split hall hcases
    exact ⟨high, by simpa [hafter] using hc⟩
  · rintro before c rfl hbefore
    obtain ⟨low, high, hc⟩ := condition_of_split hall hcases
    exact ⟨low, by simpa [hbefore] using hc⟩
  · rintro before c after rfl hbefore hafter
    obtain ⟨low, high, hc⟩ := condition_of_split hall hcases
    exact ⟨low, high, by simpa [hbefore, hafter] using hc⟩
  · rintro c c' ⟨before, after, rfl⟩
    rw [List.append_assoc] at hcases
    exact adjacent_bounds hall hcases

/-- The name of an alias leads to it, since no other part has an alias of that name. -/
theorem Assembled.findAlias?_eq {snapshots : List Snapshot} {m : MergedSchema} {parts : List Part}
    (hm : Assembled snapshots m parts) {p : Part} (hp : p ∈ parts) {a : BaseAlias}
    (ha : p.baseAlias? = some a) : m.findAlias? a.name = some a := by
  have hmem : a ∈ parts.filterMap Part.baseAlias? := List.mem_filterMap.2 ⟨p, hp, ha⟩
  rw [MergedSchema.findAlias?, hm.items_eq, Part.filterMap_baseAlias?_items, ← List.head?_filter,
    filter_eq_singleton (hm.nodup_aliasNames (List.Sublist.refl _)) hmem]
  rfl

/-- A history has a base, so if it has not one it has at least two. -/
theorem two_le_length_bases {h : History} (hreg : h.Regular) (hmany : h.bases.length ≠ 1) :
    2 ≤ h.bases.length := by
  have hpos : 0 < h.bases.length := by
    rw [History.bases_eq]
    exact List.length_pos_iff.2 (spansBy_ne_nil hreg)
  omega

end Merge

/-- The kinds of a merged declaration part its versions, and so do the bases that its alias, if it
has one, chooses from; these are two or more. -/
theorem cases_partition_versions {snapshots : List Snapshot} {m : MergedSchema}
    (hok : merge snapshots = .ok m) {d : MergedDeclaration} (hd : d ∈ m.declarations) :
    CasePartition d.versions d.kinds ∧ ∀ name, d.base = .aliased name →
      ∃ a, m.findAlias? name = some a ∧ 2 ≤ a.cases.length ∧
        CasePartition d.versions a.cases := by
  obtain ⟨parts, hm⟩ := Merge.exists_assembled hok
  rw [hm.declarations_eq] at hd
  obtain ⟨p, hp, rfl⟩ := List.mem_map.1 hd
  obtain ⟨h, hh, hdesc⟩ := hm.exists_history_of_mem hp
  have hreg := hm.ordered.regular hh
  rw [hdesc.versions]
  refine ⟨Merge.casePartition_of_cases hreg (Merge.kindCases_ok hdesc.kinds), fun name hname => ?_⟩
  rcases Merge.baseOf_ok hdesc.base with ⟨only, -, hbase, -⟩ | ⟨cases, hmany, hcases, hbase, ha⟩
  · rw [hbase] at hname
    cases hname
  · rw [hbase] at hname
    obtain rfl := BaseRef.aliased.inj hname
    refine ⟨_, hm.findAlias?_eq hp ha, ?_, Merge.casePartition_of_cases hreg hcases⟩
    rw [← hcases.length_eq]
    exact Merge.two_le_length_bases hreg hmany

/-- A circle that is a sum, after it was a constructor and a product. -/
def circleSum : Snapshot :=
  ⟨⟨[3]⟩, ⟨"Drawing", [
    ⟨"circle", .sum ⟨[⟨"disc", none⟩], [⟨"int", "radius", .required⟩]⟩⟩]⟩⟩

/-- Three kinds part the versions of the circle, and two bases do. -/
theorem cases_partition_circle :
    ∃ m, merge (circleLineage ++ [circleSum]) = .ok m ∧ ∃ d ∈ m.declarations,
      d.kinds = [⟨.atMost ⟨[1]⟩, .constructor⟩, ⟨.between ⟨[2]⟩ ⟨[2]⟩, .product⟩,
        ⟨.atLeast ⟨[3]⟩, .sum⟩] ∧ CasePartition d.versions d.kinds ∧
      ∃ a, m.findAlias? "_circleBase" = some a ∧ 2 ≤ a.cases.length ∧
        CasePartition d.versions a.cases := by
  have hordered : Merge.Ordered (circleLineage ++ [circleSum]) :=
    ⟨by decide +kernel, by decide +kernel⟩
  have hlast : (circleLineage ++ [circleSum]).getLast? = some circleSum := rfl
  have hresult : (Merge.ofSorted circleSum (circleLineage ++ [circleSum])).toOption.map
      (fun m => (m.find? "circle").map fun d => (d.kinds, d.base)) =
        some (some ([⟨.atMost ⟨[1]⟩, .constructor⟩, ⟨.between ⟨[2]⟩ ⟨[2]⟩, .product⟩,
          ⟨.atLeast ⟨[3]⟩, .sum⟩], .aliased "_circleBase")) := by
    decide +kernel
  obtain ⟨m, hm, hfind⟩ := Merge.exists_merge_of_ofSorted hordered hlast hresult
  obtain ⟨d, hd, hcircle⟩ := Option.map_eq_some_iff.1 hfind
  have hmem : d ∈ m.declarations := List.mem_of_find?_eq_some hd
  obtain ⟨hkinds, hbases⟩ := cases_partition_versions hm hmem
  exact ⟨m, hm, d, hmem, congrArg Prod.fst hcircle, hkinds,
    hbases _ (congrArg Prod.snd hcircle)⟩

end SchemaLineage

import SchemaLineage.Lineage.History
import SchemaLineage.Proofs.VersionRuns
import Mathlib.Data.List.Induction

/-!
What grouping keeps. The groups of a list of pairs are its keys in first-seen order, each with the
values that stood beside it. From this come the spans of a list of uses, each the set of the
versions that use its value, and the histories of a list of snapshots, each the part of the scan
with its name.
-/
namespace SchemaLineage

section Grouping

variable {κ β : Type} [DecidableEq κ]

theorem eraseDups_concat {α : Type} [DecidableEq α] (xs : List α) (x : α) :
    (xs ++ [x]).eraseDups = if x ∈ xs then xs.eraseDups else xs.eraseDups ++ [x] := by
  rw [List.eraseDups_append]
  by_cases hx : x ∈ xs <;> simp [List.removeAll, hx, List.eraseDups_cons]

theorem nodup_eraseDups {α : Type} [DecidableEq α] (xs : List α) : xs.eraseDups.Nodup := by
  induction xs using List.reverseRecOn with
  | nil => simp
  | append_singleton xs x ih =>
    rw [eraseDups_concat]
    split
    · exact ih
    · rename_i hx
      have hnot : x ∉ xs.eraseDups := fun h => hx (List.mem_eraseDups.1 h)
      exact List.nodup_append.2 ⟨ih, List.nodup_singleton x, fun y hy z hz heq =>
        hnot (List.mem_singleton.1 hz ▸ heq ▸ hy)⟩

theorem eraseDups_of_nodup {α : Type} [DecidableEq α] {xs : List α} (h : xs.Nodup) :
    xs.eraseDups = xs := by
  induction xs using List.reverseRecOn with
  | nil => rfl
  | append_singleton xs x ih =>
    obtain ⟨hxs, -, hdisjoint⟩ := List.nodup_append.1 h
    have hx : x ∉ xs := fun hmem => hdisjoint x hmem x (List.mem_singleton_self x) rfl
    rw [eraseDups_concat, if_neg hx, ih hxs]

private theorem addToGroup_of_mem (key : κ) (value : β) (f : κ → List β) {keys : List κ}
    (hnodup : keys.Nodup) (hmem : key ∈ keys) :
    addToGroup key value (keys.map fun k => (k, f k)) =
      keys.map fun k => (k, if k = key then f k ++ [value] else f k) := by
  induction keys with
  | nil => simp at hmem
  | cons k keys ih =>
    rw [List.nodup_cons] at hnodup
    simp only [List.map_cons, addToGroup]
    by_cases hk : k = key
    · subst hk
      have hrest : ∀ k' ∈ keys, k' ≠ k := fun k' hk' heq => hnodup.1 (heq ▸ hk')
      rw [if_pos rfl, if_pos rfl]
      congr 1
      exact List.map_congr_left fun k' hk' => by rw [if_neg (hrest k' hk')]
    · have hmem' : key ∈ keys := (List.mem_cons.1 hmem).resolve_left (Ne.symm hk)
      rw [if_neg hk, if_neg hk, ih hnodup.2 hmem']

theorem addToGroup_at_end {key : κ} (value : β) {groups : List (κ × List β)}
    (hnew : ∀ g ∈ groups, g.1 ≠ key) :
    addToGroup key value groups = groups ++ [(key, [value])] := by
  induction groups with
  | nil => rfl
  | cons group groups ih =>
    rw [List.forall_mem_cons] at hnew
    rw [addToGroup, if_neg hnew.1, ih hnew.2, List.cons_append]

theorem groupByKey_concat (pairs : List (κ × β)) (pair : κ × β) :
    groupByKey (pairs ++ [pair]) = addToGroup pair.1 pair.2 (groupByKey pairs) := by
  simp [groupByKey]

/-- The keys in first-seen order, each with the values beside it in their order. -/
theorem groupByKey_eq (pairs : List (κ × β)) :
    groupByKey pairs = (pairs.map Prod.fst).eraseDups.map fun k =>
      (k, (pairs.filter (·.1 = k)).map Prod.snd) := by
  induction pairs using List.reverseRecOn with
  | nil => rfl
  | append_singleton pairs pair ih =>
    rw [groupByKey_concat, ih, List.map_append, List.map_singleton, eraseDups_concat]
    by_cases hmem : pair.1 ∈ pairs.map Prod.fst
    · rw [if_pos hmem, addToGroup_of_mem _ _ _ (nodup_eraseDups _) (List.mem_eraseDups.2 hmem)]
      apply List.map_congr_left
      intro k _
      by_cases hk : k = pair.1
      · simp [hk, List.filter_append]
      · simp [hk, List.filter_append, Ne.symm hk]
    · have hnone : pairs.filter (fun p => p.1 = pair.1) = [] := by
        apply List.filter_eq_nil_iff.2
        intro p hp
        simp only [decide_eq_true_eq]
        exact fun heq => hmem (List.mem_map.2 ⟨p, hp, heq⟩)
      have hnew : ∀ k ∈ (pairs.map Prod.fst).eraseDups, k ≠ pair.1 := fun k hk heq =>
        hmem (heq ▸ List.mem_eraseDups.1 hk)
      rw [if_neg hmem, addToGroup_at_end _ (List.forall_mem_map.2 hnew), List.map_append]
      congr 1
      · apply List.map_congr_left
        intro k hk
        have hne : pair.1 ≠ k := (hnew k hk).symm
        simp [List.filter_append, hne]
      · simp [List.filter_append, hnone]

end Grouping

section Spans

variable {α : Type} [DecidableEq α] {uses : List (α × Version)} {s : Span α} {v : Version}

theorem map_value_spans : (spans uses).map Span.value = (uses.map Prod.fst).eraseDups := by
  simp [spans, groupByKey_eq, Function.comp_def]

theorem nodup_value_spans (uses : List (α × Version)) : ((spans uses).map Span.value).Nodup := by
  rw [map_value_spans]
  exact nodup_eraseDups _

/-- A span holds the versions that use its value. -/
theorem mem_versions_of_mem_spans (hs : s ∈ spans uses) :
    v ∈ s.versions ↔ (s.value, v) ∈ uses := by
  simp only [spans, groupByKey_eq, List.map_map, List.mem_map, Function.comp_def] at hs
  obtain ⟨a, -, rfl⟩ := hs
  rw [VersionSet.mem_ofList]
  simp

theorem exists_span_of_mem {a : α} (h : (a, v) ∈ uses) : ∃ s ∈ spans uses, s.value = a := by
  have hmem : a ∈ (spans uses).map Span.value := by
    rw [map_value_spans, List.mem_eraseDups]
    exact List.mem_map.2 ⟨(a, v), h, rfl⟩
  obtain ⟨s, hs, rfl⟩ := List.mem_map.1 hmem
  exact ⟨s, hs, rfl⟩

theorem exists_use_of_mem_spans (hs : s ∈ spans uses) : ∃ v, (s.value, v) ∈ uses := by
  have hmem : s.value ∈ (spans uses).map Span.value := List.mem_map_of_mem hs
  rw [map_value_spans, List.mem_eraseDups] at hmem
  obtain ⟨use, huse, heq⟩ := List.mem_map.1 hmem
  exact ⟨use.2, heq ▸ huse⟩

theorem ne_nil_of_mem_spans (hs : s ∈ spans uses) : s.versions.toList ≠ [] := by
  obtain ⟨v, hv⟩ := exists_use_of_mem_spans hs
  exact List.ne_nil_of_mem ((mem_versions_of_mem_spans hs).2 hv)

end Spans

theorem mem_scan {snapshots : List Snapshot} {v : Version} {d : Declaration} :
    (v, d) ∈ scan snapshots ↔
      ∃ s ∈ snapshots, s.version = v ∧ d ∈ s.schema.declarations := by
  simp only [scan, List.mem_flatMap, List.mem_map, Prod.mk.injEq]
  constructor
  · rintro ⟨s, hs, d', hd', rfl, rfl⟩
    exact ⟨s, hs, rfl, hd'⟩
  · rintro ⟨s, hs, rfl, hd⟩
    exact ⟨s, hs, d, hd, rfl, rfl⟩

/-- The names that a scan declares, in first-seen order. -/
def declaredNames (snapshots : List Snapshot) : List String :=
  ((scan snapshots).map (·.2.name)).eraseDups

/-- A history is the part of the scan with its name. -/
theorem histories_eq (snapshots : List Snapshot) :
    histories snapshots = (declaredNames snapshots).map fun n =>
      ⟨n, (scan snapshots).filter (·.2.name = n)⟩ := by
  simp [histories, groupByKey_eq, declaredNames, List.filter_map, Function.comp_def]

theorem map_name_histories (snapshots : List Snapshot) :
    (histories snapshots).map History.name = declaredNames snapshots := by
  simp [histories_eq, Function.comp_def]

theorem mem_entries_of_mem_histories {snapshots : List Snapshot} {h : History}
    (hh : h ∈ histories snapshots) {v : Version} {d : Declaration} :
    (v, d) ∈ h.entries ↔
      ∃ s ∈ snapshots, s.version = v ∧ d ∈ s.schema.declarations ∧ d.name = h.name := by
  rw [histories_eq, List.mem_map] at hh
  obtain ⟨n, -, rfl⟩ := hh
  simp only [List.mem_filter, mem_scan, decide_eq_true_eq]
  constructor
  · rintro ⟨⟨s, hs, hv, hd⟩, hn⟩
    exact ⟨s, hs, hv, hd, hn⟩
  · rintro ⟨s, hs, hv, hd, hn⟩
    exact ⟨⟨s, hs, hv, hd⟩, hn⟩

theorem exists_history {snapshots : List Snapshot} {s : Snapshot} {d : Declaration}
    (hs : s ∈ snapshots) (hd : d ∈ s.schema.declarations) :
    ∃ h ∈ histories snapshots, h.name = d.name ∧ (s.version, d) ∈ h.entries := by
  have hmem : d.name ∈ (histories snapshots).map History.name := by
    rw [map_name_histories, declaredNames, List.mem_eraseDups]
    exact List.mem_map.2 ⟨(s.version, d), mem_scan.2 ⟨s, hs, rfl, hd⟩, rfl⟩
  obtain ⟨h, hh, hname⟩ := List.mem_map.1 hmem
  exact ⟨h, hh, hname, (mem_entries_of_mem_histories hh).2 ⟨s, hs, rfl, hd, hname.symm⟩⟩

theorem nodup_name_histories (snapshots : List Snapshot) :
    ((histories snapshots).map History.name).Nodup := by
  rw [map_name_histories]
  exact nodup_eraseDups _

namespace History

/-- A history with one declaration per version, none of which repeats a field shape. -/
structure Regular (h : History) : Prop where
  ne_nil : h.entries ≠ []
  ascending : h.entries.Pairwise fun e e' => e.1 < e'.1
  fields_nodup : ∀ e ∈ h.entries, e.2.fields.Nodup

/-- The spans of what a declaration has, such as its kind or its base. -/
def spansBy {α : Type} [DecidableEq α] (h : History) (g : Declaration → α) : List (Span α) :=
  spans (h.entries.map fun e => (g e.2, e.1))

theorem bases_eq (h : History) : h.bases = h.spansBy Declaration.base :=
  rfl

variable {h : History} {v : Version} {d d' : Declaration}

theorem mem_observed : v ∈ h.observed ↔ ∃ d, (v, d) ∈ h.entries := by
  rw [observed, VersionSet.mem_ofList, List.mem_map]
  constructor
  · rintro ⟨⟨v, d⟩, hmem, rfl⟩
    exact ⟨d, hmem⟩
  · rintro ⟨d, hmem⟩
    exact ⟨(v, d), hmem, rfl⟩

section Spans

variable {α : Type} [DecidableEq α] {g : Declaration → α} {s : Span α}

theorem mem_versions_of_mem_spansBy (hs : s ∈ h.spansBy g) :
    v ∈ s.versions ↔ ∃ d, (v, d) ∈ h.entries ∧ g d = s.value := by
  rw [mem_versions_of_mem_spans hs, List.mem_map]
  constructor
  · rintro ⟨e, he, heq⟩
    obtain ⟨hvalue, rfl⟩ := Prod.mk.inj heq
    exact ⟨e.2, he, hvalue⟩
  · rintro ⟨d, hd, hvalue⟩
    exact ⟨(v, d), hd, by rw [hvalue]⟩

theorem exists_span_of_mem_entries (g : Declaration → α) (hd : (v, d) ∈ h.entries) :
    ∃ s ∈ h.spansBy g, s.value = g d :=
  exists_span_of_mem (List.mem_map.2 ⟨(v, d), hd, rfl⟩)

theorem exists_entry_of_mem_spansBy (hs : s ∈ h.spansBy g) :
    ∃ v d, (v, d) ∈ h.entries ∧ g d = s.value := by
  obtain ⟨v, hv⟩ := List.exists_mem_of_ne_nil _ (ne_nil_of_mem_spans hs)
  exact ⟨v, (mem_versions_of_mem_spansBy hs).1 hv⟩

end Spans

def at? (h : History) (v : Version) : Option Declaration :=
  (h.entries.find? (·.1 = v)).map Prod.snd

theorem Regular.eq_of_mem (hreg : h.Regular) (hd : (v, d) ∈ h.entries)
    (hd' : (v, d') ∈ h.entries) : d = d' := by
  have hnodup : (h.entries.map Prod.fst).Nodup :=
    List.pairwise_map.2 (hreg.ascending.imp fun hlt => ne_of_lt hlt)
  exact congrArg Prod.snd (List.inj_on_of_nodup_map hnodup hd hd' rfl)

/-- At a version of a regular history the span of what its declaration has is the only one. -/
theorem Regular.mem_versions_iff {α : Type} [DecidableEq α] {g : Declaration → α} {s : Span α}
    (hreg : h.Regular) (hd : (v, d) ∈ h.entries) (hs : s ∈ h.spansBy g) :
    v ∈ s.versions ↔ s.value = g d := by
  rw [mem_versions_of_mem_spansBy hs]
  constructor
  · rintro ⟨d', hd', hvalue⟩
    rw [hreg.eq_of_mem hd hd', hvalue]
  · intro hvalue
    exact ⟨d, hd, hvalue.symm⟩

theorem Regular.at?_eq_some_iff (hreg : h.Regular) : h.at? v = some d ↔ (v, d) ∈ h.entries := by
  constructor
  · intro hat
    obtain ⟨e, he, rfl⟩ := Option.map_eq_some_iff.1 hat
    have hv : e.1 = v := by simpa using List.find?_some he
    exact hv ▸ List.mem_of_find?_eq_some he
  · intro hmem
    cases hfind : h.entries.find? (·.1 = v) with
    | none => simpa using List.find?_eq_none.1 hfind _ hmem
    | some e =>
      have hv : e.1 = v := by simpa using List.find?_some hfind
      have hmem' : (v, e.2) ∈ h.entries := hv ▸ List.mem_of_find?_eq_some hfind
      rw [at?, hfind, hreg.eq_of_mem hmem hmem']
      rfl

theorem at?_eq_none_iff : h.at? v = none ↔ v ∉ h.observed := by
  rw [at?, Option.map_eq_none_iff, List.find?_eq_none, mem_observed]
  constructor
  · rintro hnone ⟨d, hd⟩
    simpa using hnone (v, d) hd
  · intro hnot e he
    simp only [decide_eq_true_eq]
    exact fun heq => hnot ⟨e.2, heq ▸ he⟩

end History

end SchemaLineage

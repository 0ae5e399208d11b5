import SchemaLineage.Proofs.Cases

/-!
What a merge puts together. A merge that succeeds has one part per history, in the order of the
histories: a declaration, and before it the alias of its base if the base changes. Main statements:
the snapshots of such a merge are well-formed and distinct, its items are those of the parts, each
under the existence condition of its part alone, and an evaluation takes each part on its own.
-/
namespace SchemaLineage

namespace Merge

section Sorting

variable {snapshots : List Snapshot}

theorem mem_sorted {s : Snapshot} : s ∈ sorted snapshots ↔ s ∈ snapshots :=
  (List.mergeSort_perm _ _).mem_iff

theorem map_version_sorted_perm (snapshots : List Snapshot) :
    ((sorted snapshots).map Snapshot.version).Perm (snapshots.map Snapshot.version) :=
  (List.mergeSort_perm _ _).map _

theorem pairwise_sorted (snapshots : List Snapshot) :
    (sorted snapshots).Pairwise fun s t => s.version ≤ t.version := by
  have htrans : ∀ s t u : Snapshot, decide (s.version ≤ t.version) →
      decide (t.version ≤ u.version) → decide (s.version ≤ u.version) := by
    intro s t u hst htu
    simp only [decide_eq_true_eq] at *
    exact hst.trans htu
  have htotal : ∀ s t : Snapshot,
      decide (s.version ≤ t.version) || decide (t.version ≤ s.version) := by
    intro s t
    simp only [Bool.or_eq_true, decide_eq_true_eq]
    exact le_total _ _
  exact (List.pairwise_mergeSort htrans htotal snapshots).imp fun h => by simpa using h

/-- In a sorted list no version comes again if none of its neighbours agree. -/
theorem duplicate?_eq_none_iff (hsorted : snapshots.Pairwise fun s t => s.version ≤ t.version) :
    duplicate? snapshots = none ↔ snapshots.Pairwise fun s t => s.version < t.version := by
  rw [duplicate?, List.findSome?_eq_none_iff]
  constructor
  · intro h
    have hchain : (snapshots.map Snapshot.version).IsChain (· < ·) := by
      apply FieldOrder.isChain_of_neighbours
      intro p hp
      have hne : p.1 ≠ p.2 := by simpa using h p hp
      have hle := (List.pairwise_map.2 hsorted).sublist (FieldOrder.sublist_of_mem_neighbours hp)
      exact lt_of_le_of_ne (by simpa using hle) hne
    exact List.pairwise_map.1 (List.isChain_iff_pairwise.1 hchain)
  · intro h p hp
    have hlt := (List.pairwise_map.2 h).sublist (FieldOrder.sublist_of_mem_neighbours hp)
    have hne : p.1 ≠ p.2 := ne_of_lt (by simpa using hlt)
    simp [hne]

theorem invalid?_eq_none_iff :
    invalid? snapshots = none ↔ ∀ s ∈ snapshots, s.schema.defects = [] := by
  rw [invalid?, List.findSome?_eq_none_iff]
  apply forall₂_congr
  intro s _
  cases s.schema.defects <;> simp

end Sorting

/-- Snapshots in ascending order, each of them without defects. -/
structure Ordered (snapshots : List Snapshot) : Prop where
  ascending : snapshots.Pairwise fun s t => s.version < t.version
  valid : ∀ s ∈ snapshots, s.schema.defects = []

theorem Ordered.distinct {snapshots : List Snapshot} (h : Ordered snapshots) :
    (snapshots.map Snapshot.version).Nodup :=
  List.pairwise_map.2 (h.ascending.imp fun hlt => ne_of_lt hlt)

theorem Ordered.eq_of_version_eq {snapshots : List Snapshot} (h : Ordered snapshots)
    {s t : Snapshot} (hs : s ∈ snapshots) (ht : t ∈ snapshots) (hv : s.version = t.version) :
    s = t :=
  List.inj_on_of_nodup_map h.distinct hs ht hv

def versionsOf (snapshots : List Snapshot) : VersionSet :=
  VersionSet.ofList (snapshots.map Snapshot.version)

theorem mem_versionsOf {snapshots : List Snapshot} {v : Version} :
    v ∈ versionsOf snapshots ↔ ∃ s ∈ snapshots, s.version = v := by
  rw [versionsOf, VersionSet.mem_ofList, List.mem_map]

/-- Every history of ordered snapshots has one declaration per version. -/
theorem Ordered.regular {snapshots : List Snapshot} (h : Ordered snapshots) {hist : History}
    (hmem : hist ∈ histories snapshots) : hist.Regular := by
  have hentries := @mem_entries_of_mem_histories _ _ hmem
  rw [histories_eq, List.mem_map] at hmem
  obtain ⟨n, hn, rfl⟩ := hmem
  refine ⟨?_, ?_, fun e he => ?_⟩
  · rw [declaredNames, List.mem_eraseDups, List.mem_map] at hn
    obtain ⟨e, he, hname⟩ := hn
    exact List.ne_nil_of_mem (List.mem_filter.2 ⟨he, by simpa using hname⟩)
  · rw [List.pairwise_filter, scan, List.pairwise_flatMap]
    constructor
    · intro s hs
      have hnames := List.pairwise_map.1 (Schema.nodup_names_of_defects (h.valid s hs))
      refine List.pairwise_map.2 (hnames.imp fun hne hd hd' => absurd ?_ hne)
      simp only [decide_eq_true_eq] at hd hd'
      exact hd.trans hd'.symm
    · apply h.ascending.imp
      intro s t hlt e he e' he' _ _
      obtain ⟨d, -, rfl⟩ := List.mem_map.1 he
      obtain ⟨d', -, rfl⟩ := List.mem_map.1 he'
      exact hlt
  · obtain ⟨s, hs, -, hd, -⟩ := hentries.1 he
    exact Schema.nodup_fields_of_defects (h.valid s hs) hd

structure Part where
  baseAlias? : Option BaseAlias
  declaration : MergedDeclaration

namespace Part

def items (p : Part) : List MergedItem :=
  (p.baseAlias?.map MergedItem.baseAlias).toList ++ [MergedItem.declaration p.declaration]

def body (p : Part) : GuardBody MergedItem :=
  if p.declaration.existence = .always then .ofItems p.items
  else .guard p.declaration.existence (.ofItems p.items) .nil

def baseAt (p : Part) (v : Version) : Base :=
  match p.declaration.base with
  | .fixed base => base
  | .aliased _ => (p.baseAlias?.bind (·.resolve v)).getD .root

def at? (p : Part) (v : Version) : Option Declaration :=
  (p.declaration.kindAt v).map fun kind =>
    ⟨p.declaration.name, kind, p.baseAt v, p.declaration.body.evaluate v⟩

/-- The part is what a merge of snapshots with these versions makes of the history. -/
structure Describes (all : VersionSet) (h : History) (p : Part) : Prop where
  name : p.declaration.name = h.name
  versions : p.declaration.versions = h.observed
  existence : Condition.classify h.observed all = some p.declaration.existence
  fields : fieldTree h = .ok p.declaration.body
  kinds : kindCases h = .ok p.declaration.kinds
  base : baseOf h = .ok (p.declaration.base, p.baseAlias?)

theorem placed_body (p : Part) :
    p.body.placed = p.items.map fun i => (p.declaration.existence.path, i) := by
  rw [body]
  by_cases hc : p.declaration.existence = .always
  · rw [if_pos hc, GuardBody.placed_ofItems, Condition.path, if_pos hc]
  · rw [if_neg hc, GuardBody.placed, GuardBody.placed_ofItems, Condition.path, if_neg hc]
    simp [GuardBody.placed]

end Part

section Histories

variable {all : VersionSet} {h : History}

theorem historyBody_eq_ok_iff {body : GuardBody MergedItem} :
    historyBody all h = .ok body ↔ ∃ p : Part, p.Describes all h ∧ p.body = body := by
  constructor
  · intro hok
    unfold historyBody at hok
    split at hok
    · rename_i existence hexistence
      obtain ⟨_, hsame, hok⟩ := Except.exists_of_bind hok
      obtain rfl := Except.ok.inj hsame
      obtain ⟨fields, hfields, hok⟩ := Except.exists_of_bind hok
      obtain ⟨kinds, hkinds, hok⟩ := Except.exists_of_bind hok
      obtain ⟨⟨base, baseAlias?⟩, hbase, hok⟩ := Except.exists_of_bind hok
      exact ⟨⟨baseAlias?, ⟨h.name, kinds, base, h.observed, existence, fields⟩⟩,
        ⟨rfl, rfl, hexistence, hfields, hkinds, hbase⟩, Except.ok.inj hok⟩
    · cases hok
  · rintro ⟨⟨baseAlias?, ⟨name, kinds, base, versions, existence, fields⟩⟩, hp, rfl⟩
    obtain ⟨rfl, rfl, hexistence, hfields, hkinds, hbase⟩ := hp
    rw [historyBody, hexistence, hfields, hkinds, hbase]
    rfl

theorem historyBody_error {e : MergeError} (herror : historyBody all h = .error e) :
    (¬ h.observed.IsRun all ∧ e = .nonContiguous h.name .declaration h.observed all) ∨
      fieldTree h = .error e ∨ kindCases h = .error e ∨ baseOf h = .error e := by
  unfold historyBody at herror
  split at herror
  · refine Or.inr ?_
    rcases Except.error_of_bind herror with herror | ⟨existence, -, herror⟩
    · cases herror
    rcases Except.error_of_bind herror with herror | ⟨fields, -, herror⟩
    · exact Or.inl herror
    rcases Except.error_of_bind herror with herror | ⟨kinds, -, herror⟩
    · exact Or.inr (Or.inl herror)
    rcases Except.error_of_bind herror with herror | ⟨base, -, herror⟩
    · exact Or.inr (Or.inr herror)
    · cases herror
  · rename_i hc
    cases herror
    refine Or.inl ⟨fun hrun => ?_, rfl⟩
    have := Condition.isSome_classify_iff.2 hrun
    simp [hc] at this

end Histories

/-- The parts from which a merge of sorted snapshots is assembled. -/
structure Assembled (snapshots : List Snapshot) (m : MergedSchema) (parts : List Part) : Prop where
  ordered : Ordered snapshots
  versions : m.versions = versionsOf snapshots
  describes : List.Forall₂ (fun h p => p.Describes m.versions h) (histories snapshots) parts
  body : m.body = (GuardTree.unconditional
    ((parts.map Part.body).foldr GuardBody.append .nil)).flatten

/-- Sorted snapshots that are distinct and valid are merged history by history. -/
theorem ofSorted_eq {latest : Snapshot} {snapshots : List Snapshot} (h : Ordered snapshots) :
    ofSorted latest snapshots =
      (histories snapshots).mapM (historyBody (versionsOf snapshots)) >>= fun bodies =>
        .ok ⟨latest.schema.name, versionsOf snapshots,
          (GuardTree.unconditional (bodies.foldr GuardBody.append .nil)).flatten⟩ := by
  have hdup := (duplicate?_eq_none_iff (h.ascending.imp fun h => h.le)).2 h.ascending
  have hinvalid := invalid?_eq_none_iff.2 h.valid
  rw [ofSorted, hdup, hinvalid]
  rfl

theorem ordered_of_ofSorted {latest : Snapshot} {snapshots : List Snapshot} {m : MergedSchema}
    (hsorted : snapshots.Pairwise fun s t => s.version ≤ t.version)
    (hok : ofSorted latest snapshots = .ok m) : Ordered snapshots := by
  rw [ofSorted] at hok
  cases hdup : duplicate? snapshots with
  | some v =>
    rw [hdup] at hok
    cases hok
  | none =>
    cases hinvalid : invalid? snapshots with
    | some e =>
      rw [hdup, hinvalid] at hok
      cases hok
    | none => exact ⟨(duplicate?_eq_none_iff hsorted).1 hdup, invalid?_eq_none_iff.1 hinvalid⟩

theorem exists_parts {all : VersionSet} {hs : List History} {bodies : List (GuardBody MergedItem)}
    (h : List.Forall₂ (fun h body => historyBody all h = .ok body) hs bodies) :
    ∃ parts : List Part, List.Forall₂ (fun h p => p.Describes all h) hs parts ∧
      parts.map Part.body = bodies := by
  induction h with
  | nil => exact ⟨[], .nil, rfl⟩
  | cons hbody _ ih =>
    obtain ⟨p, hp, rfl⟩ := historyBody_eq_ok_iff.1 hbody
    obtain ⟨parts, hparts, rfl⟩ := ih
    exact ⟨p :: parts, .cons hp hparts, rfl⟩

theorem exists_assembled {snapshots : List Snapshot} {m : MergedSchema}
    (hok : merge snapshots = .ok m) : ∃ parts, Assembled (sorted snapshots) m parts := by
  rw [merge] at hok
  split at hok
  · cases hok
  · have hordered := ordered_of_ofSorted (pairwise_sorted snapshots) hok
    rw [ofSorted_eq hordered] at hok
    obtain ⟨bodies, hbodies, hok⟩ := Except.exists_of_bind hok
    obtain rfl := Except.ok.inj hok
    obtain ⟨parts, hparts, rfl⟩ := exists_parts (Except.mapM_eq_ok_iff.1 hbodies)
    exact ⟨parts, hordered, rfl, hparts, rfl⟩

/-- A lineage that is in order is merged as it stands. -/
theorem merge_of_ordered {snapshots : List Snapshot} {latest : Snapshot} (h : Ordered snapshots)
    (hlast : snapshots.getLast? = some latest) :
    merge snapshots = ofSorted latest snapshots := by
  have hsorted : sorted snapshots = snapshots :=
    List.mergeSort_of_pairwise (h.ascending.imp fun hlt => by simpa using hlt.le)
  rw [merge, hsorted, hlast]

/-- A lineage in order has the merged schema that it is computed to have. -/
theorem exists_merge_of_ofSorted {γ : Type} {f : MergedSchema → γ} {result : γ}
    {snapshots : List Snapshot} {latest : Snapshot} (h : Ordered snapshots)
    (hlast : snapshots.getLast? = some latest)
    (hresult : (ofSorted latest snapshots).toOption.map f = some result) :
    ∃ m, merge snapshots = .ok m ∧ f m = result := by
  rw [merge_of_ordered h hlast]
  cases hmerge : ofSorted latest snapshots with
  | error e => simp [hmerge, Except.toOption] at hresult
  | ok m =>
    rw [hmerge] at hresult
    exact ⟨m, rfl, Option.some.inj hresult⟩

end Merge

/-- A circle as one of two figures, beside a point. -/
def circleFigure : Snapshot :=
  ⟨⟨[1]⟩, ⟨"Drawing", [
    ⟨"figure", .sum ⟨[⟨"circle", some [⟨"int", "radius", .required⟩]⟩, ⟨"square", none⟩], []⟩⟩,
    ⟨"point", .product ⟨[⟨"int", "x", .required⟩], []⟩⟩]⟩⟩

/-- A circle in its own right. The point has a field more, the square is gone. -/
def circleAlone : Snapshot :=
  ⟨⟨[2]⟩, ⟨"Drawing", [
    ⟨"point", .product ⟨[⟨"int", "x", .required⟩, ⟨"int", "y", .optional⟩], []⟩⟩,
    ⟨"circle", .product ⟨[⟨"int", "radius", .required⟩], []⟩⟩]⟩⟩

/-- Two versions in which a field and a declaration come and go and a base changes. -/
def circleLineage : List Snapshot :=
  [circleFigure, circleAlone]

theorem ordered_circleLineage : Merge.Ordered circleLineage :=
  ⟨by decide +kernel, by decide +kernel⟩

theorem exists_merge_circleLineage : ∃ m, merge circleLineage = .ok m := by
  have hresult : (Merge.ofSorted circleAlone circleLineage).toOption.map MergedSchema.name =
      some "Drawing" := by
    decide +kernel
  obtain ⟨m, hm, -⟩ := Merge.exists_merge_of_ofSorted ordered_circleLineage rfl hresult
  exact ⟨m, hm⟩

end SchemaLineage

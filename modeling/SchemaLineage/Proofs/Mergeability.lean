import SchemaLineage.Proofs.MergeParts
import Mathlib.Data.Set.Basic

/-!
Which lineages can be merged. A lineage is judged by what its snapshots show: at which versions a
name is declared, and at which of those with a given field, kind or base. Each of these sets must
skip no version, and the fields of a name must have an order that all versions share. A merge fails
exactly if some name breaks a rule, and its error carries the evidence.
-/
namespace SchemaLineage

/-- At that version a snapshot declares the name in that way. -/
def DeclaredAs (snapshots : List Snapshot) (n : String) (v : Version) (d : Declaration) : Prop :=
  ∃ s ∈ snapshots, s.version = v ∧ d ∈ s.schema.declarations ∧ d.name = n

def inputVersions (snapshots : List Snapshot) : Set Version :=
  {v | ∃ s ∈ snapshots, s.version = v}

def versionsWith (snapshots : List Snapshot) (n : String) (P : Declaration → Prop) : Set Version :=
  {v | ∃ d, DeclaredAs snapshots n v d ∧ P d}

def declaringVersions (snapshots : List Snapshot) (n : String) : Set Version :=
  versionsWith snapshots n fun _ => True

/-- Between two members of the part no member of the whole is missing. -/
def ContiguousIn (part whole : Set Version) : Prop :=
  ∀ u ∈ part, ∀ w ∈ part, ∀ v ∈ whole, u ≤ v → v ≤ w → v ∈ part

/-- An order of all the field shapes of a name in which each version's own order is found. -/
structure CommonFieldOrder (snapshots : List Snapshot) (n : String) (order : List Field) :
    Prop where
  nodup : order.Nodup
  mem_iff : ∀ f, f ∈ order ↔ ∃ v d, DeclaredAs snapshots n v d ∧ f ∈ d.fields
  sublist : ∀ v d, DeclaredAs snapshots n v d → d.fields.Sublist order

/-- What a merge demands of a name. -/
structure Mergeable (snapshots : List Snapshot) (n : String) : Prop where
  existence : ContiguousIn (declaringVersions snapshots n) (inputVersions snapshots)
  field : ∀ f : Field, ContiguousIn (versionsWith snapshots n (f ∈ ·.fields))
    (declaringVersions snapshots n)
  kind : ∀ k : DeclarationKind, ContiguousIn (versionsWith snapshots n (·.kind = k))
    (declaringVersions snapshots n)
  base : ∀ b : Base, ContiguousIn (versionsWith snapshots n (·.base = b))
    (declaringVersions snapshots n)
  order : ∃ order, CommonFieldOrder snapshots n order

def RangeItem.versions (snapshots : List Snapshot) (n : String) : RangeItem → Set Version
  | declaration => declaringVersions snapshots n
  | field f => versionsWith snapshots n (f ∈ ·.fields)
  | kind k => versionsWith snapshots n (·.kind = k)

/-- The versions among which those of the item must be a run. -/
def RangeItem.reference (snapshots : List Snapshot) (n : String) : RangeItem → Set Version
  | declaration => inputVersions snapshots
  | _ => declaringVersions snapshots n

namespace VersionSet

/-- A part of the other set that skips a member of it between its own lowest and highest. -/
structure Skips (part whole : VersionSet) : Prop where
  ne_nil : part.toList ≠ []
  subset : ∀ v ∈ part, v ∈ whole
  gap : ∃ low high, part.min? = some low ∧ part.max? = some high ∧
    ∃ v ∈ whole, v ∉ part ∧ low < v ∧ v < high

variable {part whole : VersionSet}

theorem skips_of_not_isRun (hne : part.toList ≠ []) (hsub : ∀ v ∈ part, v ∈ whole)
    (hrun : ¬ part.IsRun whole) : part.Skips whole := by
  refine ⟨hne, hsub, ?_⟩
  obtain ⟨low, high, hlow, hhigh⟩ := exists_bounds hne
  refine ⟨low, high, hlow, hhigh, ?_⟩
  by_contra hnone
  refine hrun ⟨hne, hsub, fun u hu w hw v hv huv hvw => ?_⟩
  by_contra hnot
  have hlowv : low < v := lt_of_le_of_ne ((min?_le hlow hu).trans huv) fun heq =>
    hnot (heq ▸ mem_of_min? hlow)
  have hvhigh : v < high := lt_of_le_of_ne (hvw.trans (le_max? hhigh hw)) fun heq =>
    hnot (heq ▸ mem_of_max? hhigh)
  exact hnone ⟨v, hv, hnot, hlowv, hvhigh⟩

/-- What skips a member is no run, whatever the sets stand for. -/
theorem Skips.not_contiguousIn (h : part.Skips whole) {P Q : Set Version}
    (hP : ∀ v, v ∈ part ↔ v ∈ P) (hQ : ∀ v, v ∈ whole ↔ v ∈ Q) : ¬ ContiguousIn P Q := by
  intro hcont
  obtain ⟨low, high, hlow, hhigh, v, hv, hnot, hlowv, hvhigh⟩ := h.gap
  have hmem := hcont low ((hP low).1 (mem_of_min? hlow)) high ((hP high).1 (mem_of_max? hhigh))
    v ((hQ v).1 hv) hlowv.le hvhigh.le
  exact hnot ((hP v).2 hmem)

theorem IsRun.contiguousIn (h : part.IsRun whole) {P Q : Set Version}
    (hP : ∀ v, v ∈ part ↔ v ∈ P) (hQ : ∀ v, v ∈ whole ↔ v ∈ Q) : ContiguousIn P Q := by
  intro u hu w hw v hv huv hvw
  exact (hP v).1 (h.convex u ((hP u).2 hu) w ((hP w).2 hw) v ((hQ v).2 hv) huv hvw)

end VersionSet

/-- The error carries the evidence that the snapshots cannot be merged. -/
def MergeError.Genuine (snapshots : List Snapshot) : MergeError → Prop
  | nonContiguous n item versions observed =>
    (∀ v, v ∈ versions ↔ v ∈ item.versions snapshots n) ∧
      (∀ v, v ∈ observed ↔ v ∈ item.reference snapshots n) ∧ versions.Skips observed
  | ambiguousBase n base versions =>
    (∀ v, v ∈ versions ↔ v ∈ versionsWith snapshots n (·.base = base)) ∧
      ∃ u ∈ versions, ∃ w ∈ versions, ∃ v ∈ declaringVersions snapshots n,
        v ∉ versions ∧ u < v ∧ v < w
  | conflictingFieldOrder n _ =>
    (declaringVersions snapshots n).Nonempty ∧ ¬ ∃ order, CommonFieldOrder snapshots n order
  | _ => False

/-- Evidence of that kind shows a declared name that breaks a rule. -/
theorem MergeError.Genuine.exists_not_mergeable {snapshots : List Snapshot} {e : MergeError}
    (h : e.Genuine snapshots) :
    ∃ n, (declaringVersions snapshots n).Nonempty ∧ ¬ Mergeable snapshots n := by
  cases e with
  | noSnapshots => exact h.elim
  | duplicateVersion v => exact h.elim
  | invalidSnapshot v defects => exact h.elim
  | nonContiguous n item versions observed =>
    obtain ⟨hversions, hobserved, hskips⟩ := h
    have hnot := hskips.not_contiguousIn hversions hobserved
    obtain ⟨v, hv⟩ := List.exists_mem_of_ne_nil _ hskips.ne_nil
    have hshown := (hversions v).1 hv
    cases item with
    | declaration => exact ⟨n, ⟨v, hshown⟩, fun hn => hnot hn.existence⟩
    | field f =>
      obtain ⟨d, hd, -⟩ := hshown
      exact ⟨n, ⟨v, d, hd, trivial⟩, fun hn => hnot (hn.field f)⟩
    | kind k =>
      obtain ⟨d, hd, -⟩ := hshown
      exact ⟨n, ⟨v, d, hd, trivial⟩, fun hn => hnot (hn.kind k)⟩
  | ambiguousBase n base versions =>
    obtain ⟨hversions, u, hu, w, hw, v, hv, hnot, huv, hvw⟩ := h
    refine ⟨n, ⟨v, hv⟩, fun hn => hnot ((hversions v).2 ?_)⟩
    exact hn.base base u ((hversions u).1 hu) w ((hversions w).1 hw) v hv huv.le hvw.le
  | conflictingFieldOrder n versions => exact ⟨n, h.1, fun hn => h.2 hn.order⟩

namespace Merge

variable {snapshots : List Snapshot} {h : History} {v : Version} {d : Declaration}

theorem ordered_sorted (hdistinct : (snapshots.map Snapshot.version).Nodup)
    (hvalid : ∀ s ∈ snapshots, s.schema.defects = []) : Ordered (sorted snapshots) := by
  refine ⟨?_, fun s hs => hvalid s (mem_sorted.1 hs)⟩
  have hne := List.pairwise_map.1 ((map_version_sorted_perm snapshots).nodup_iff.2 hdistinct)
  exact (pairwise_sorted snapshots).imp₂ (fun _ _ hle hne => lt_of_le_of_ne hle hne) hne

theorem mem_versionsOf_sorted :
    v ∈ versionsOf (sorted snapshots) ↔ v ∈ inputVersions snapshots := by
  simp only [mem_versionsOf, mem_sorted]
  rfl

section Histories

variable (hh : h ∈ histories (sorted snapshots))
include hh

theorem declaredAs_iff : DeclaredAs snapshots h.name v d ↔ (v, d) ∈ h.entries := by
  simp only [mem_entries_of_mem_histories hh, mem_sorted]
  rfl

theorem mem_observed_iff : v ∈ h.observed ↔ v ∈ declaringVersions snapshots h.name := by
  rw [History.mem_observed]
  exact exists_congr fun d => (declaredAs_iff hh).symm.trans (and_iff_left trivial).symm

theorem mem_versions_iff {α : Type} [DecidableEq α] (g : Declaration → α) {s : Span α}
    (hs : s ∈ h.spansBy g) :
    v ∈ s.versions ↔ v ∈ versionsWith snapshots h.name (g · = s.value) := by
  rw [History.mem_versions_of_mem_spansBy hs]
  exact exists_congr fun d => and_congr_left' (declaredAs_iff hh).symm

theorem mem_versions_shape_iff {s : Span Field} (hs : s ∈ (FieldShapes.ofHistory h).entries) :
    v ∈ s.versions ↔ v ∈ versionsWith snapshots h.name (s.value ∈ ·.fields) := by
  rw [FieldShapes.mem_versions hs]
  exact exists_congr fun d => and_congr_left' (declaredAs_iff hh).symm

theorem commonOrder_iff {order : List Field} :
    h.CommonOrder order ↔ CommonFieldOrder snapshots h.name order := by
  constructor
  · rintro ⟨hnodup, hmem, hsub⟩
    refine ⟨hnodup, fun f => (hmem f).trans ?_, fun v d hd => hsub _ ((declaredAs_iff hh).1 hd)⟩
    simp only [declaredAs_iff hh, Prod.exists]
  · rintro ⟨hnodup, hmem, hsub⟩
    refine ⟨hnodup, fun f => (hmem f).trans ?_, fun e he => hsub _ _ ((declaredAs_iff hh).2 he)⟩
    simp only [declaredAs_iff hh, Prod.exists]

/-- Cases for all values of a kind show that each value is used in a run of versions. -/
theorem contiguousIn_of_cases {α : Type} {ss : List (Span α)} {cases : List (Case α)}
    (hcases : List.Forall₂ (IsCase h.observed) ss cases) {P : α → Declaration → Prop}
    (hversions : ∀ s ∈ ss, ∀ v, v ∈ s.versions ↔ v ∈ versionsWith snapshots h.name (P s.value))
    (hex : ∀ e ∈ h.entries, ∀ a, P a e.2 → ∃ s ∈ ss, s.value = a) (a : α) :
    ContiguousIn (versionsWith snapshots h.name (P a)) (declaringVersions snapshots h.name) := by
  intro u hu
  obtain ⟨d, hd, ha⟩ := hu
  obtain ⟨s, hs, rfl⟩ := hex _ ((declaredAs_iff hh).1 hd) a ha
  obtain ⟨c, -, hc⟩ := exists_of_mem_of_forall₂ hcases hs
  have hrun := Condition.isRun_of_classify hc.condition
  exact hrun.contiguousIn (hversions s hs) (fun _ => mem_observed_iff hh) u ⟨d, hd, ha⟩

/-- The versions with any one base are a run, if the base of a history could be told. -/
theorem contiguousIn_of_baseOf {base : BaseRef} {baseAlias? : Option BaseAlias}
    (hok : baseOf h = .ok (base, baseAlias?)) (b : Base) :
    ContiguousIn (versionsWith snapshots h.name (·.base = b))
      (declaringVersions snapshots h.name) := by
  have hex : ∀ e ∈ h.entries, ∀ b, e.2.base = b → ∃ s ∈ h.bases, s.value = b := by
    rintro e he b rfl
    exact History.exists_span_of_mem_entries Declaration.base he
  rcases baseOf_ok hok with ⟨only, hbases, -⟩ | ⟨cases, -, hcases, -⟩
  · -- With a single base, each version that declares the name has it.
    rintro u ⟨d, hd, hb⟩ w - v ⟨d', hd', -⟩ - -
    obtain ⟨s, hs, rfl⟩ := hex _ ((declaredAs_iff hh).1 hd) b hb
    obtain ⟨s', hs', hb'⟩ := hex _ ((declaredAs_iff hh).1 hd') _ rfl
    rw [hbases, List.mem_singleton] at hs hs'
    exact ⟨d', hd', hb'.symm.trans (by rw [hs', hs])⟩
  · exact contiguousIn_of_cases hh hcases (P := fun b d => d.base = b)
      (fun s hs v => mem_versions_iff hh Declaration.base hs) hex b

/-- Where a part could be made, the name meets all demands. -/
theorem mergeable_of_describes {p : Part}
    (hp : p.Describes (versionsOf (sorted snapshots)) h) : Mergeable snapshots h.name := by
  obtain ⟨ordered, cases, hordered, hcases, -⟩ := fieldTree_ok hp.fields
  obtain ⟨hperm, hcommon⟩ := orderedShapes_ok hordered
  refine ⟨?_, ?_, ?_, contiguousIn_of_baseOf hh hp.base, _, (commonOrder_iff hh).1 hcommon⟩
  · exact (Condition.isRun_of_classify hp.existence).contiguousIn
      (fun _ => mem_observed_iff hh) fun _ => mem_versionsOf_sorted
  · refine contiguousIn_of_cases hh hcases (P := fun f d => f ∈ d.fields)
      (fun s hs v => mem_versions_shape_iff hh (hperm.mem_iff.1 hs)) fun e he f hf => ?_
    exact List.mem_map.1 ((hcommon.mem_iff f).2 ⟨e, he, hf⟩)
  · refine contiguousIn_of_cases hh (kindCases_ok hp.kinds) (P := fun k d => d.kind = k)
      (fun s hs v => mem_versions_iff hh Declaration.kind hs) ?_
    rintro e he k rfl
    exact History.exists_span_of_mem_entries Declaration.kind he

/-- The versions with something are observed, so if they are no run they skip one. -/
theorem skips_observed {part : VersionSet} {P : Declaration → Prop}
    (hversions : ∀ v, v ∈ part ↔ v ∈ versionsWith snapshots h.name P)
    (hne : part.toList ≠ []) (hrun : ¬ part.IsRun h.observed) : part.Skips h.observed := by
  refine VersionSet.skips_of_not_isRun hne (fun v hv => ?_) hrun
  obtain ⟨d, hd, -⟩ := (hversions v).1 hv
  exact (mem_observed_iff hh).2 ⟨d, hd, trivial⟩

/-- Where no part could be made, the error shows why. -/
theorem genuine_of_historyBody {e : MergeError} (hreg : h.Regular)
    (herror : historyBody (versionsOf (sorted snapshots)) h = .error e) :
    e.Genuine snapshots := by
  have hobserved : h.observed.toList ≠ [] := by
    obtain ⟨e, he⟩ := List.exists_mem_of_ne_nil _ hreg.ne_nil
    exact List.ne_nil_of_mem (History.mem_observed.2 ⟨e.2, he⟩)
  rcases historyBody_error herror with ⟨hrun, rfl⟩ | herror | herror | herror
  · refine ⟨fun _ => mem_observed_iff hh, fun _ => mem_versionsOf_sorted, ?_⟩
    refine VersionSet.skips_of_not_isRun hobserved (fun v hv => ?_) hrun
    obtain ⟨d, ⟨s, hs, hv, -⟩, -⟩ := (mem_observed_iff hh).1 hv
    exact mem_versionsOf_sorted.2 ⟨s, hs, hv⟩
  · rcases fieldTree_error herror with herror | ⟨ordered, hordered, s, hs, hrun, rfl⟩
    · obtain ⟨⟨versions, rfl⟩, hnone⟩ := orderedShapes_error herror
      refine ⟨?_, fun ⟨order, horder⟩ => hnone ⟨order, (commonOrder_iff hh).2 horder⟩⟩
      obtain ⟨v, hv⟩ := List.exists_mem_of_ne_nil _ hobserved
      exact ⟨v, (mem_observed_iff hh).1 hv⟩
    · have hs := (orderedShapes_ok hordered).1.mem_iff.1 hs
      have hversions := fun v => mem_versions_shape_iff (v := v) hh hs
      exact ⟨hversions, fun _ => mem_observed_iff hh,
        skips_observed hh hversions (ne_nil_of_mem_spans hs) hrun⟩
  · obtain ⟨s, hs, hrun, rfl⟩ := kindCases_error herror
    have hversions := fun v => mem_versions_iff (v := v) hh Declaration.kind hs
    exact ⟨hversions, fun _ => mem_observed_iff hh,
      skips_observed hh hversions (ne_nil_of_mem_spans hs) hrun⟩
  · obtain ⟨s, hs, hrun, rfl⟩ := baseOf_error herror
    have hversions := fun v => mem_versions_iff (v := v) hh Declaration.base hs
    refine ⟨hversions, ?_⟩
    have hskips := skips_observed hh hversions (ne_nil_of_mem_spans hs) hrun
    obtain ⟨low, high, hlow, hhigh, v, hv, hnot, hlowv, hvhigh⟩ := hskips.gap
    exact ⟨low, VersionSet.mem_of_min? hlow, high, VersionSet.mem_of_max? hhigh, v,
      (mem_observed_iff hh).1 hv, hnot, hlowv, hvhigh⟩

end Histories

/-- A lineage that is distinct and valid is merged from its sorted snapshots. -/
theorem merge_eq (hne : snapshots ≠ []) (hord : Ordered (sorted snapshots)) :
    ∃ name, merge snapshots =
      (histories (sorted snapshots)).mapM (historyBody (versionsOf (sorted snapshots))) >>=
        fun bodies => .ok ⟨name, versionsOf (sorted snapshots),
          (GuardTree.unconditional (bodies.foldr GuardBody.append .nil)).flatten⟩ := by
  have hsome : (sorted snapshots).getLast? ≠ none := by
    rw [ne_eq, List.getLast?_eq_none_iff]
    obtain ⟨s, hs⟩ := List.exists_mem_of_ne_nil _ hne
    exact List.ne_nil_of_mem (mem_sorted.2 hs)
  obtain ⟨latest, hlatest⟩ := Option.ne_none_iff_exists'.1 hsome
  refine ⟨latest.schema.name, ?_⟩
  simp only [merge, hlatest]
  exact ofSorted_eq hord

/-- A merge that fails tells the error of some history. -/
theorem genuine_of_merge (hne : snapshots ≠ []) (hord : Ordered (sorted snapshots))
    {e : MergeError} (herror : merge snapshots = .error e) : e.Genuine snapshots := by
  obtain ⟨name, hmerge⟩ := merge_eq hne hord
  rw [hmerge] at herror
  rcases Except.error_of_bind herror with herror | ⟨bodies, -, herror⟩
  · obtain ⟨h, hh, herror⟩ := Except.exists_error_of_mapM herror
    exact genuine_of_historyBody hh (hord.regular hh) herror
  · cases herror

end Merge

/-- A non-empty lineage of valid snapshots with different versions is merged exactly if every
declared name meets the demands, and else the error carries the evidence. -/
theorem merge_succeeds_iff_mergeable {snapshots : List Snapshot} (hne : snapshots ≠ [])
    (hdistinct : (snapshots.map Snapshot.version).Nodup)
    (hvalid : ∀ s ∈ snapshots, s.schema.defects = []) :
    ((∃ m, merge snapshots = .ok m) ↔
        ∀ n, (declaringVersions snapshots n).Nonempty → Mergeable snapshots n) ∧
      ∀ e, merge snapshots = .error e → e.Genuine snapshots := by
  have hord := Merge.ordered_sorted hdistinct hvalid
  refine ⟨⟨?_, fun hall => ?_⟩, fun e herror => Merge.genuine_of_merge hne hord herror⟩
  · rintro ⟨m, hm⟩ n ⟨v, d, ⟨s, hs, -, hd, rfl⟩, -⟩
    obtain ⟨parts, hparts⟩ := Merge.exists_assembled hm
    obtain ⟨h, hh, hname, -⟩ := exists_history (Merge.mem_sorted.2 hs) hd
    obtain ⟨p, -, hp⟩ := exists_of_mem_of_forall₂ hparts.describes hh
    rw [hparts.versions] at hp
    exact hname ▸ Merge.mergeable_of_describes hh hp
  · cases hmerge : merge snapshots with
    | ok m => exact ⟨m, rfl⟩
    | error e =>
      have hgenuine := Merge.genuine_of_merge hne hord hmerge
      obtain ⟨n, hdeclared, hnot⟩ := hgenuine.exists_not_mergeable
      exact absurd (hall n hdeclared) hnot

theorem mergeable_circle : circleLineage ≠ [] ∧ (circleLineage.map Snapshot.version).Nodup ∧
    (∀ s ∈ circleLineage, s.schema.defects = []) ∧ Mergeable circleLineage "circle" := by
  have hne : circleLineage ≠ [] := by decide
  have hdistinct : (circleLineage.map Snapshot.version).Nodup := by decide
  have hvalid : ∀ s ∈ circleLineage, s.schema.defects = [] := by decide +kernel
  refine ⟨hne, hdistinct, hvalid, ?_⟩
  refine (merge_succeeds_iff_mergeable hne hdistinct hvalid).1.1 exists_merge_circleLineage _ ?_
  exact ⟨⟨[2]⟩, ⟨"circle", .product, .root, [⟨"int", "radius", .required⟩]⟩,
    ⟨circleAlone, by decide, rfl, by decide, rfl⟩, trivial⟩

end SchemaLineage

import SchemaLineage.Proofs.FieldOrdering
import SchemaLineage.Proofs.FlatNamespace
import SchemaLineage.Proofs.NearestVersions
import SchemaLineage.Proofs.Outcomes
import SchemaLineage.Proofs.Placement

/-!
The cases of a history. Whatever changes over the versions of a history becomes a list of cases, one
per value, each under the condition that singles out the versions of its value. The steps that make
the cases are opened here once; where they fail, some value has versions that are no run.
-/
namespace SchemaLineage

def Condition.path (c : Condition) : List Condition :=
  if c = .always then [] else [c]

theorem Condition.all_holds_path (c : Condition) (v : Version) :
    c.path.all (·.holds v) = c.holds v := by
  by_cases hc : c = .always <;> simp [path, hc, holds]

theorem Condition.essential_path (c : Condition) :
    GuardBody.essential .always c.path = c.path := by
  by_cases hc : c = .always <;> simp [path, hc, GuardBody.essential]

namespace Merge

/-- A case singles out the versions of a span among the observed ones. -/
structure IsCase {α : Type} (observed : VersionSet) (s : Span α) (c : Case α) : Prop where
  condition : Condition.classify s.versions observed = some c.condition
  value : c.value = s.value

section Cases

variable {α : Type} {observed : VersionSet} {error : Span α → MergeError} {ss : List (Span α)}
  {cases : List (Case α)} {v : Version}

theorem caseOfSpan_eq_ok_iff {s : Span α} {c : Case α} :
    caseOfSpan observed error s = .ok c ↔ IsCase observed s c := by
  rw [caseOfSpan]
  constructor
  · intro h
    split at h
    · rename_i condition hc
      obtain rfl := Except.ok.inj h
      exact ⟨hc, rfl⟩
    · cases h
  · rintro ⟨hc, hvalue⟩
    rw [hc, ← hvalue]

theorem caseOfSpan_eq_error {s : Span α} {e : MergeError}
    (h : caseOfSpan observed error s = .error e) :
    ¬ s.versions.IsRun observed ∧ e = error s := by
  rw [caseOfSpan] at h
  split at h
  · cases h
  · rename_i hc
    refine ⟨fun hrun => ?_, (Except.error.inj h).symm⟩
    have := Condition.isSome_classify_iff.2 hrun
    simp [hc] at this

theorem mapM_caseOfSpan_eq_ok_iff :
    ss.mapM (caseOfSpan observed error) = .ok cases ↔
      List.Forall₂ (IsCase observed) ss cases := by
  rw [Except.mapM_eq_ok_iff]
  simp only [caseOfSpan_eq_ok_iff]

theorem map_value_cases (hcases : List.Forall₂ (IsCase observed) ss cases) :
    cases.map Case.value = ss.map Span.value := by
  induction hcases with
  | nil => rfl
  | cons hcase _ ih => rw [List.map_cons, List.map_cons, ih, hcase.value]

/-- If a condition holds for the spans with a property, the cases that hold are those of these
spans. -/
theorem map_value_filter_of_holds_iff {P : Span α → Prop} [DecidablePred P]
    (hcases : List.Forall₂ (IsCase observed) ss cases)
    (hholds : ∀ s ∈ ss, ∀ c, IsCase observed s c → (c.condition.holds v = true ↔ P s)) :
    (cases.filter (·.condition.holds v)).map Case.value =
      (ss.filter (P ·)).map Span.value := by
  induction hcases with
  | nil => rfl
  | @cons s c ss cases hcase _ ih =>
    rw [List.forall_mem_cons] at hholds
    have hc := hholds.1 c hcase
    have hrest := ih hholds.2
    by_cases hs : P s
    · simp [hc.2 hs, hs, hcase.value, hrest]
    · have hnot : c.condition.holds v = false := by simpa using mt hc.1 hs
      simp [hnot, hs, hrest]

/-- The cases that hold at an observed version are those of the spans that contain it. -/
theorem map_value_filter_holds (hcases : List.Forall₂ (IsCase observed) ss cases)
    (hv : v ∈ observed) :
    (cases.filter (·.condition.holds v)).map Case.value =
      (ss.filter (v ∈ ·.versions)).map Span.value :=
  map_value_filter_of_holds_iff hcases fun _ _ _ hcase =>
    Condition.holds_iff_of_classify hcase.condition hv

theorem selectCase?_eq_head? (cases : List (Case α)) (v : Version) :
    selectCase? cases v = ((cases.filter (·.condition.holds v)).map Case.value).head? := by
  rw [List.head?_map, List.head?_filter]
  rfl

theorem placed_bodyOfCases (cases : List (Case α)) :
    (bodyOfCases cases).placed = cases.map fun c => (c.condition.path, c.value) := by
  induction cases with
  | nil => rfl
  | cons c cases ih =>
    rw [bodyOfCases, List.foldr_cons, guarded]
    by_cases hc : c.condition = .always
    · rw [if_pos hc, GuardBody.placed, List.map_cons, ← ih, Condition.path, if_pos hc]
      rfl
    · rw [if_neg hc, GuardBody.placed, List.map_cons, ← ih, Condition.path, if_neg hc]
      rfl

/-- Flattening leaves each value of the cases under its own condition, or under none. -/
theorem placed_flatten_bodyOfCases (cases : List (Case α)) :
    (GuardTree.unconditional (bodyOfCases cases)).flatten.body.placed =
      cases.map fun c => (c.condition.path, c.value) := by
  change ((bodyOfCases cases).flatten .always).placed = _
  rw [GuardBody.placed_flatten, placed_bodyOfCases, List.map_map]
  exact List.map_congr_left fun c _ => by simp [Condition.essential_path]

/-- A flat tree of cases shows the values whose conditions hold. -/
theorem evaluate_flatten_bodyOfCases (cases : List (Case α)) (v : Version) :
    (GuardTree.unconditional (bodyOfCases cases)).flatten.evaluate v =
      (cases.filter (·.condition.holds v)).map Case.value := by
  change (GuardTree.unconditional (bodyOfCases cases)).flatten.body.visible v = _
  rw [GuardBody.visible_eq_placed, placed_flatten_bodyOfCases, List.filter_map, List.map_map]
  simp only [Function.comp_def, Condition.all_holds_path]

theorem items_flatten_bodyOfCases (cases : List (Case α)) :
    (GuardTree.unconditional (bodyOfCases cases)).flatten.items = cases.map Case.value := by
  rw [GuardTree.items, GuardBody.items_eq_placed, placed_flatten_bodyOfCases, List.map_map]
  rfl

end Cases

section Histories

variable {h : History} {e : MergeError}

theorem fieldTree_ok {t : GuardTree Field} (hok : fieldTree h = .ok t) :
    ∃ ordered cases, orderedShapes h = .ok ordered ∧
      List.Forall₂ (IsCase h.observed) ordered cases ∧
      t = (GuardTree.unconditional (bodyOfCases cases)).flatten := by
  obtain ⟨ordered, hordered, hok⟩ := Except.exists_of_bind hok
  obtain ⟨cases, hcases, hok⟩ := Except.exists_of_bind hok
  exact ⟨ordered, cases, hordered, mapM_caseOfSpan_eq_ok_iff.1 hcases, (Except.ok.inj hok).symm⟩

theorem fieldTree_error (herror : fieldTree h = .error e) :
    orderedShapes h = .error e ∨
      ∃ ordered, orderedShapes h = .ok ordered ∧ ∃ s ∈ ordered,
        ¬ s.versions.IsRun h.observed ∧
          e = .nonContiguous h.name (.field s.value) s.versions h.observed := by
  rcases Except.error_of_bind herror with herror | ⟨ordered, hordered, herror⟩
  · exact Or.inl herror
  · rcases Except.error_of_bind herror with herror | ⟨cases, -, herror⟩
    · obtain ⟨s, hs, he⟩ := Except.exists_error_of_mapM herror
      exact Or.inr ⟨ordered, hordered, s, hs, caseOfSpan_eq_error he⟩
    · cases herror

/-- The base of a history is fixed if there is one, and else chosen by the cases of an alias. -/
theorem baseOf_ok {base : BaseRef} {baseAlias? : Option BaseAlias}
    (hok : baseOf h = .ok (base, baseAlias?)) :
    (∃ only, h.bases = [only] ∧ base = .fixed only.value ∧ baseAlias? = none) ∨
      ∃ cases, h.bases.length ≠ 1 ∧ List.Forall₂ (IsCase h.observed) h.bases cases ∧
        base = .aliased (aliasName h.name) ∧ baseAlias? = some ⟨aliasName h.name, cases⟩ := by
  rw [baseOf] at hok
  split at hok
  · rename_i only hbases
    cases hok
    exact Or.inl ⟨only, hbases, rfl, rfl⟩
  · rename_i hmany
    obtain ⟨cases, hcases, hok⟩ := Except.exists_of_bind hok
    cases hok
    refine Or.inr ⟨cases, fun hlen => ?_, mapM_caseOfSpan_eq_ok_iff.1 hcases, rfl, rfl⟩
    obtain ⟨only, honly⟩ := List.length_eq_one_iff.1 hlen
    exact hmany only honly

theorem baseOf_error (herror : baseOf h = .error e) :
    ∃ s ∈ h.bases, ¬ s.versions.IsRun h.observed ∧
      e = .ambiguousBase h.name s.value s.versions := by
  rw [baseOf] at herror
  split at herror
  · cases herror
  · rcases Except.error_of_bind herror with herror | ⟨cases, -, herror⟩
    · obtain ⟨s, hs, he⟩ := Except.exists_error_of_mapM herror
      exact ⟨s, hs, caseOfSpan_eq_error he⟩
    · cases herror

theorem kindCases_ok {kinds : List (Case DeclarationKind)} (hok : kindCases h = .ok kinds) :
    List.Forall₂ (IsCase h.observed) h.kinds kinds :=
  mapM_caseOfSpan_eq_ok_iff.1 hok

theorem kindCases_error (herror : kindCases h = .error e) :
    ∃ s ∈ h.kinds, ¬ s.versions.IsRun h.observed ∧
      e = .nonContiguous h.name (.kind s.value) s.versions h.observed := by
  obtain ⟨s, hs, he⟩ := Except.exists_error_of_mapM herror
  exact ⟨s, hs, caseOfSpan_eq_error he⟩

end Histories

end Merge

end SchemaLineage

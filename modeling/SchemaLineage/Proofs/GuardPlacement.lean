import SchemaLineage.Proofs.MergedItems

/-!
Where a merge puts its guards. Each declared name has its declaration. That stands in the open if
every version declares it, and else under the one condition that singles its versions out; the same
goes for each field shape among the versions of its declaration. So every guard holds at some
version of those it is judged against and fails at another, and no field repeats the condition of
its own declaration.
-/
namespace SchemaLineage

namespace Condition

/-- The condition tells versions of the set apart: it holds at one of them and fails at another. -/
def Separates (c : Condition) (whole : VersionSet) : Prop :=
  (∃ u ∈ whole, c.holds u = true) ∧ ∃ w ∈ whole, c.holds w = false

/-- The path of an item that shows at the versions of the part: no condition if they are all there
are, and else the one condition that singles them out. -/
def StandsFor (path : List Condition) (part whole : VersionSet) : Prop :=
  (part = whole → path = []) ∧
    (part ≠ whole → ∃ c, classify part whole = some c ∧ path = [c])

variable {part whole : VersionSet} {c : Condition}

theorem standsFor_path (h : classify part whole = some c) : StandsFor c.path part whole := by
  have halways := classify_eq_always_iff h
  constructor
  · intro heq
    rw [path, if_pos (halways.2 heq)]
  · intro hne
    refine ⟨c, h, ?_⟩
    rw [path, if_neg (mt halways.1 hne)]

theorem separates_of_mem_path (h : classify part whole = some c) {c' : Condition}
    (hc : c' ∈ c.path) : c' = c ∧ c'.Separates whole := by
  have hne : c ≠ .always := by
    rintro rfl
    simp [path] at hc
  rw [path, if_neg hne, List.mem_singleton] at hc
  subst hc
  refine ⟨rfl, ?_⟩
  have hrun := isRun_of_classify h
  constructor
  · obtain ⟨u, hu⟩ := List.exists_mem_of_ne_nil _ hrun.ne_nil
    exact ⟨u, hrun.subset u hu, (holds_iff_of_classify h (hrun.subset u hu)).2 hu⟩
  · by_contra hnone
    apply hne
    rw [classify_eq_always_iff h]
    refine VersionSet.ext fun w => ⟨hrun.subset w, fun hw => ?_⟩
    rw [← holds_iff_of_classify h hw]
    by_contra hfails
    exact hnone ⟨w, hw, by simpa using hfails⟩

end Condition

/-- The field shapes of a declaration stand where the versions that show them demand it. -/
structure MergedDeclaration.ExactGuards (snapshots : List Snapshot) (d : MergedDeclaration) :
    Prop where
  versions : ∀ v, v ∈ d.versions ↔ v ∈ declaringVersions snapshots d.name
  condition : d.body.condition = .always
  fields_nodup : d.body.items.Nodup
  mem_fields : ∀ f, f ∈ d.body.items ↔ (versionsWith snapshots d.name (f ∈ ·.fields)).Nonempty
  field : ∀ path f, (path, f) ∈ d.body.body.placed → ∃ shown : VersionSet,
    (∀ v, v ∈ shown ↔ v ∈ versionsWith snapshots d.name (f ∈ ·.fields)) ∧
      Condition.StandsFor path shown d.versions
  separates : ∀ c ∈ d.body.body.conditions, c.Separates d.versions
  ne_existence : ∀ c ∈ d.body.body.conditions, c ≠ d.existence

/-- The declarations of a merge are those of the declared names, and stand where the versions that
declare them demand it. -/
structure MergedSchema.ExactGuards (snapshots : List Snapshot) (m : MergedSchema) : Prop where
  versions : ∀ v, v ∈ m.versions ↔ v ∈ inputVersions snapshots
  condition : m.body.condition = .always
  names_nodup : (m.declarations.map (·.name)).Nodup
  mem_names : ∀ n, (∃ path d, (path, MergedItem.declaration d) ∈ m.body.body.placed ∧ d.name = n) ↔
    (declaringVersions snapshots n).Nonempty
  existence : ∀ d ∈ m.declarations, Condition.classify d.versions m.versions = some d.existence
  place : ∀ path d, (path, MergedItem.declaration d) ∈ m.body.body.placed →
    path = if d.versions = m.versions then [] else [d.existence]
  declaration : ∀ d ∈ m.declarations, d.ExactGuards snapshots
  separates : ∀ c ∈ m.body.body.conditions, c.Separates m.versions

namespace Merge

variable {snapshots : List Snapshot} {h : History} {p : Part}

/-- Each guard of a tree of cases is the condition of a case, so it separates the versions. -/
theorem separates_of_mem_conditions {α : Type} {observed : VersionSet} {ss : List (Span α)}
    {cases : List (Case α)} (hcases : List.Forall₂ (IsCase observed) ss cases) {c : Condition}
    (hc : c ∈ (GuardTree.unconditional (bodyOfCases cases)).flatten.body.conditions) :
    c.Separates observed := by
  have hoccupied := GuardBody.occupied_flatten (bodyOfCases cases) .always
  obtain ⟨q, hq, hcq⟩ := GuardBody.exists_placed_of_mem_conditions hoccupied hc
  have hplaced := placed_flatten_bodyOfCases cases
  change ((bodyOfCases cases).flatten .always).placed = _ at hplaced
  rw [hplaced, List.mem_map] at hq
  obtain ⟨case, hcase, rfl⟩ := hq
  obtain ⟨s, -, hs⟩ := exists_of_mem_of_forall₂ hcases.flip hcase
  exact (Condition.separates_of_mem_path hs.condition hcq).2

/-- The fields of a part stand where their versions demand it. -/
theorem exactGuards_of_describes (hh : h ∈ histories (sorted snapshots))
    (hp : p.Describes (versionsOf (sorted snapshots)) h) :
    p.declaration.ExactGuards snapshots := by
  obtain ⟨ordered, cases, hordered, hcases, hbody⟩ := fieldTree_ok hp.fields
  obtain ⟨hperm, hcommon⟩ := orderedShapes_ok hordered
  have hcommon' := (commonOrder_iff hh).1 hcommon
  have hplaced := placed_flatten_bodyOfCases cases
  rw [← hbody] at hplaced
  have hitems : p.declaration.body.items = ordered.map Span.value := by
    rw [hbody, items_flatten_bodyOfCases]
    exact map_value_cases hcases
  have hseparates : ∀ c ∈ p.declaration.body.body.conditions,
      c.Separates p.declaration.versions := by
    intro c hc
    rw [hbody] at hc
    rw [hp.versions]
    exact separates_of_mem_conditions hcases hc
  refine ⟨?_, ?_, ?_, ?_, ?_, hseparates, ?_⟩
  · intro v
    rw [hp.versions, hp.name]
    exact mem_observed_iff hh
  · rw [hbody]
    rfl
  · rw [hitems]
    exact hcommon.nodup
  · intro f
    rw [hitems, hcommon'.mem_iff f, hp.name]
    rfl
  · intro path f hf
    rw [hplaced, List.mem_map] at hf
    obtain ⟨case, hcase, heq⟩ := hf
    obtain ⟨rfl, rfl⟩ := Prod.mk.inj heq
    obtain ⟨s, hs, hisCase⟩ := exists_of_mem_of_forall₂ hcases.flip hcase
    refine ⟨s.versions, fun v => ?_, ?_⟩
    · rw [hp.name, hisCase.value]
      exact mem_versions_shape_iff hh (hperm.mem_iff.1 hs)
    · rw [hp.versions]
      exact Condition.standsFor_path hisCase.condition
  · -- The condition of the existence holds wherever the fields are judged.
    rintro c hc rfl
    obtain ⟨-, w, hw, hfails⟩ := hseparates _ hc
    rw [hp.versions] at hw
    have hrun := Condition.isRun_of_classify hp.existence
    have hholds := (hp.holds_existence_iff (hrun.subset w hw)).2 hw
    rw [hfails] at hholds
    cases hholds

namespace Assembled

variable {m : MergedSchema} {parts : List Part}

/-- The items of a merge are those of its parts, each under the existence of its part. -/
theorem mem_placed_iff (hm : Assembled snapshots m parts) {path : List Condition}
    {i : MergedItem} : (path, i) ∈ m.body.body.placed ↔
      ∃ p ∈ parts, i ∈ p.items ∧ p.declaration.existence.path = path := by
  simp only [hm.placed, List.mem_flatMap, List.mem_map, Prod.mk.injEq]
  refine exists_congr fun p => and_congr_right fun _ => ⟨?_, ?_⟩
  · rintro ⟨i', hi', hpath, rfl⟩
    exact ⟨hi', hpath⟩
  · rintro ⟨hi, hpath⟩
    exact ⟨i, hi, hpath, rfl⟩

/-- The declarations that are placed are those of the parts. -/
theorem exists_placed_iff (hm : Assembled snapshots m parts) {n : String} :
    (∃ path d, (path, MergedItem.declaration d) ∈ m.body.body.placed ∧ d.name = n) ↔
      n ∈ parts.map (·.declaration.name) := by
  rw [List.mem_map]
  constructor
  · rintro ⟨path, d, hd, rfl⟩
    obtain ⟨p, hp, hmem, -⟩ := hm.mem_placed_iff.1 hd
    exact ⟨p, hp, congrArg MergedDeclaration.name (Part.mem_items_declaration.1 hmem).symm⟩
  · rintro ⟨p, hp, rfl⟩
    exact ⟨_, _, hm.mem_placed_iff.2 ⟨p, hp, Part.mem_items_declaration.2 rfl, rfl⟩, rfl⟩

theorem separates (hm : Assembled snapshots m parts) {c : Condition}
    (hc : c ∈ m.body.body.conditions) : c.Separates m.versions := by
  have hoccupied : m.body.body.Occupied := by
    rw [hm.body]
    exact GuardBody.occupied_flatten _ _
  obtain ⟨q, hq, hcq⟩ := GuardBody.exists_placed_of_mem_conditions hoccupied hc
  obtain ⟨p, hp, -, hpath⟩ := hm.mem_placed_iff.1 hq
  obtain ⟨h, -, hdesc⟩ := hm.exists_history_of_mem hp
  rw [← hpath] at hcq
  exact (Condition.separates_of_mem_path hdesc.existence hcq).2

end Assembled

end Merge

/-- Every declared name has its declaration in a merge, and every declaration and every field shape
stands in the open or under the one condition that its versions demand; no guard is vacuous or
repeats the existence of its declaration. -/
theorem exactGuards_of_merge {snapshots : List Snapshot} {m : MergedSchema}
    (hok : merge snapshots = .ok m) : m.ExactGuards snapshots := by
  obtain ⟨parts, hm⟩ := Merge.exists_assembled hok
  have hdeclarations := hm.declarations_eq
  refine ⟨?_, hm.condition, ?_, fun n => hm.exists_placed_iff.trans hm.mem_names_iff, ?_, ?_, ?_,
    fun c hc => hm.separates hc⟩
  · intro v
    rw [hm.versions]
    exact Merge.mem_versionsOf_sorted
  · rw [hdeclarations, List.map_map]
    exact hm.nodup_names
  · intro d hd
    rw [hdeclarations, List.mem_map] at hd
    obtain ⟨p, hp, rfl⟩ := hd
    obtain ⟨h, -, hdesc⟩ := hm.exists_history_of_mem hp
    rw [hdesc.versions]
    exact hdesc.existence
  · intro path d hd
    obtain ⟨p, hp, hmem, rfl⟩ := hm.mem_placed_iff.1 hd
    obtain rfl := Merge.Part.mem_items_declaration.1 hmem
    obtain ⟨h, -, hdesc⟩ := hm.exists_history_of_mem hp
    rw [Condition.path, hdesc.versions]
    exact if_congr (Condition.classify_eq_always_iff hdesc.existence) rfl rfl
  · intro d hd
    rw [hdeclarations, List.mem_map] at hd
    obtain ⟨p, hp, rfl⟩ := hd
    obtain ⟨h, hh, hdesc⟩ := hm.exists_history_of_mem hp
    rw [hm.versions] at hdesc
    exact Merge.exactGuards_of_describes hh hdesc

/-- The square and the sum that it belongs to go at version 2, and a point has its second field from
there on. -/
theorem exactGuards_circleLineage :
    ∃ m, merge circleLineage = .ok m ∧ m.ExactGuards circleLineage ∧
      m.body.body.placed.map (fun q => (q.1, q.2.name)) =
        [([.atMost ⟨[1]⟩], "figure"), ([], "_circleBase"), ([], "circle"),
          ([.atMost ⟨[1]⟩], "square"), ([], "point")] ∧
      (m.find? "point").map (·.body.body.placed.map fun q => (q.1, q.2.name)) =
        some [([], "x"), ([.atLeast ⟨[2]⟩], "y")] := by
  have hresult : (Merge.ofSorted circleAlone circleLineage).toOption.map (fun m =>
      (m.body.body.placed.map (fun q => (q.1, q.2.name)),
        (m.find? "point").map (·.body.body.placed.map fun q => (q.1, q.2.name)))) =
      some ([([.atMost ⟨[1]⟩], "figure"), ([], "_circleBase"), ([], "circle"),
        ([.atMost ⟨[1]⟩], "square"), ([], "point")],
        some [([], "x"), ([.atLeast ⟨[2]⟩], "y")]) := by
    decide +kernel
  obtain ⟨m, hm, hplaced⟩ := Merge.exists_merge_of_ofSorted ordered_circleLineage rfl hresult
  exact ⟨m, hm, exactGuards_of_merge hm, congrArg Prod.fst hplaced, congrArg Prod.snd hplaced⟩

end SchemaLineage

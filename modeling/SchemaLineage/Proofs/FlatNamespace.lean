import SchemaLineage.Schema.Declaration
import SchemaLineage.Schema.Defect
import Mathlib.Data.List.Nodup

/-!
What a check without defects says about the flat namespace. Each step of the check either reports a
defect or takes the names of a part, and what it then holds are the names that the flat namespace
declares up to there. So a schema has no defects exactly if it declares no name twice, no
declaration names two fields alike, and every name can be seen.
-/
namespace SchemaLineage

/-- A declaration that can stand in a flat namespace, as far as it is seen on its own. -/
structure Declaration.WellFormed (d : Declaration) : Prop where
  name_visible : Text.isBlankText d.name = false
  fields_visible : ∀ f ∈ d.fields,
    Text.isBlankText f.kind = false ∧ Text.isBlankText f.name = false
  nodup_fields : (d.fields.map Field.name).Nodup

def Namespace.Declared (names : Namespace) (name : String) : Prop :=
  name ∈ names.types ∨ name ∈ names.constructors

theorem Namespace.not_declared_empty (name : String) : ¬ empty.Declared name := by
  simp [Declared, empty]

theorem ne_empty_of_visible {s : String} (h : Text.isBlankText s = false) : s ≠ "" := by
  rintro rfl
  simp [Text.isBlankText] at h

theorem Field.defects_eq_nil_iff {declaration : String} {f : Field} :
    f.defects declaration = [] ↔
      Text.isBlankText f.kind = false ∧ Text.isBlankText f.name = false := by
  cases hk : Text.isBlankText f.kind <;> cases hn : Text.isBlankText f.name <;>
    simp [defects, hk, hn]

theorem fieldDefects_eq_nil_iff {declaration : String} {seen : List String} {fs : List Field} :
    fieldDefects declaration seen fs = [] ↔
      (∀ f ∈ fs, Text.isBlankText f.kind = false ∧ Text.isBlankText f.name = false) ∧
        (fs.map Field.name).Nodup ∧ ∀ f ∈ fs, f.name ∉ seen := by
  induction fs generalizing seen with
  | nil => simp [fieldDefects]
  | cons f rest ih =>
    rw [fieldDefects, List.append_eq_nil_iff, Field.defects_eq_nil_iff, List.forall_mem_cons,
      List.map_cons, List.nodup_cons, List.forall_mem_cons]
    by_cases hvisible : Text.isBlankText f.kind = false ∧ Text.isBlankText f.name = false
    · rw [if_neg (ne_empty_of_visible hvisible.2)]
      by_cases hseen : f.name ∈ seen
      · simp [hseen]
      · rw [if_neg hseen, ih]
        simp only [hvisible, hseen, true_and, not_false_eq_true, List.mem_cons, not_or,
          List.mem_map, not_exists, not_and]
        constructor
        · rintro ⟨hrest, hnodup, hnew⟩
          exact ⟨hrest, ⟨fun g hg => (hnew g hg).1, hnodup⟩, fun g hg => (hnew g hg).2⟩
        · rintro ⟨hrest, ⟨hne, hnodup⟩, hnew⟩
          exact ⟨hrest, hnodup, fun g hg => ⟨hne g hg, hnew g hg⟩⟩
    · simp [hvisible]

namespace Namespace

variable {names : Namespace} {name n : String}

theorem declareType_eq_nil_iff : (names.declareType name).1 = [] ↔ ¬ names.Declared name := by
  rw [declareType, Declared]
  by_cases ht : name ∈ names.types
  · simp [ht]
  · by_cases hc : name ∈ names.constructors <;> simp [ht, hc]

theorem declared_declareType (h : ¬ names.Declared name) :
    (names.declareType name).2.Declared n ↔ n = name ∨ names.Declared n := by
  rw [Declared, not_or] at h
  rw [declareType, if_neg h.1, if_neg h.2]
  simp [Declared, or_assoc]

theorem declareConstructor_eq_nil_iff :
    (names.declareConstructor name).1 = [] ↔ ¬ names.Declared name := by
  rw [declareConstructor, Declared]
  split <;> simp_all

theorem declared_declareConstructor (h : ¬ names.Declared name) :
    (names.declareConstructor name).2.Declared n ↔ n = name ∨ names.Declared n := by
  rw [Declared] at h
  rw [declareConstructor, if_neg h]
  simp [Declared, or_left_comm]

end Namespace

section

variable {sum n : String} {names : Namespace}

theorem Constructor.defects_eq_nil_iff {c : Constructor} :
    (c.defects sum names).1 = [] ↔
      (c.declaration sum).WellFormed ∧ ¬ names.Declared c.name := by
  cases hblank : Text.isBlankText c.name with
  | true =>
    simp only [defects, hblank, if_true]
    constructor
    · simp
    · rintro ⟨hwf, -⟩
      exact absurd (hwf.name_visible.symm.trans hblank) (by decide)
  | false =>
    simp only [defects, hblank, Bool.false_eq_true, if_false, List.append_eq_nil_iff,
      Namespace.declareConstructor_eq_nil_iff, fieldDefects_eq_nil_iff]
    constructor
    · rintro ⟨hnew, hvisible, hnodup, -⟩
      exact ⟨⟨hblank, hvisible, hnodup⟩, hnew⟩
    · rintro ⟨hwf, hnew⟩
      exact ⟨hnew, hwf.fields_visible, hwf.nodup_fields, by simp⟩

theorem Constructor.declared_defects {c : Constructor} (h : (c.defects sum names).1 = []) :
    (c.defects sum names).2.Declared n ↔ n = c.name ∨ names.Declared n := by
  obtain ⟨hwf, hnew⟩ := Constructor.defects_eq_nil_iff.1 h
  have hblank : Text.isBlankText c.name = false := hwf.name_visible
  simp only [defects, hblank, Bool.false_eq_true, if_false]
  exact Namespace.declared_declareConstructor hnew

/-- Constructors pass if each is well formed and no two of them, nor a name before them, agree. -/
theorem constructorDefects_eq_nil_iff {seen : List String} {cs : List Constructor} :
    (constructorDefects sum seen names cs).1 = [] ↔
      (∀ c ∈ cs, (c.declaration sum).WellFormed) ∧ (cs.map Constructor.name).Nodup ∧
        ∀ c ∈ cs, c.name ∉ seen ∧ ¬ names.Declared c.name := by
  induction cs generalizing seen names with
  | nil => simp [constructorDefects]
  | cons c rest ih =>
    rw [constructorDefects, List.forall_mem_cons, List.map_cons, List.nodup_cons,
      List.forall_mem_cons]
    by_cases hown : (c.declaration sum).WellFormed ∧ ¬ names.Declared c.name
    · have hne : c.name ≠ "" := ne_empty_of_visible hown.1.name_visible
      by_cases hseen : c.name ∈ seen
      · simp [hne, hseen]
      · have hnil := Constructor.defects_eq_nil_iff.2 hown
        simp only [hseen, and_false, if_false, List.append_eq_nil_iff, hnil, true_and, ih,
          Constructor.declared_defects hnil, hown, not_false_eq_true, List.mem_cons, not_or,
          List.mem_map, not_exists, not_and]
        constructor
        · rintro ⟨hwf, hnodup, hnew⟩
          exact ⟨hwf, ⟨fun c' hc' => (hnew c' hc').1.1, hnodup⟩,
            fun c' hc' => ⟨(hnew c' hc').1.2, (hnew c' hc').2.2⟩⟩
        · rintro ⟨hwf, ⟨hne', hnodup⟩, hnew⟩
          exact ⟨hwf, hnodup, fun c' hc' =>
            ⟨⟨hne' c' hc', (hnew c' hc').1⟩, hne' c' hc', (hnew c' hc').2⟩⟩
    · have hnil : (c.defects sum names).1 ≠ [] := mt Constructor.defects_eq_nil_iff.1 hown
      have hright : ¬ (((c.declaration sum).WellFormed ∧
          ∀ c ∈ rest, (c.declaration sum).WellFormed) ∧
          (c.name ∉ rest.map Constructor.name ∧ (rest.map Constructor.name).Nodup) ∧
          (c.name ∉ seen ∧ ¬ names.Declared c.name) ∧
          ∀ c ∈ rest, c.name ∉ seen ∧ ¬ names.Declared c.name) :=
        fun h => hown ⟨h.1.1, h.2.2.1.2⟩
      refine iff_of_false ?_ hright
      split
      · simp
      · simp [hnil]

theorem declared_constructorDefects {seen : List String} {cs : List Constructor}
    (h : (constructorDefects sum seen names cs).1 = []) :
    (constructorDefects sum seen names cs).2.Declared n ↔
      n ∈ cs.map Constructor.name ∨ names.Declared n := by
  induction cs generalizing seen names with
  | nil => simp [constructorDefects]
  | cons c rest ih =>
    rw [constructorDefects] at h ⊢
    split at h
    · simp at h
    · rename_i hseen
      obtain ⟨hown, hrest⟩ := List.append_eq_nil_iff.1 h
      rw [if_neg hseen, List.map_cons, List.mem_cons]
      simp only [ih hrest, Constructor.declared_defects hown]
      rw [or_left_comm, or_assoc]

/-- A type passes if each of its declarations is well formed and declares a new name. -/
theorem TypeDef.defects_eq_nil_iff {t : TypeDef} :
    (t.defects names).1 = [] ↔
      (∀ d ∈ t.declarations, d.WellFormed) ∧ (t.declarations.map Declaration.name).Nodup ∧
        ∀ d ∈ t.declarations, ¬ names.Declared d.name := by
  cases hblank : Text.isBlankText t.name with
  | true =>
    apply iff_of_false (by simp [defects, hblank])
    intro h
    have hfirst : ∃ d ∈ t.declarations, d.name = t.name := by
      unfold TypeDef.declarations
      cases t.body <;> simp
    obtain ⟨d, hd, hname⟩ := hfirst
    exact absurd ((h.1 d hd).name_visible.symm.trans (hname ▸ hblank)) (by decide)
  | false =>
    simp only [defects, hblank, Bool.false_eq_true, if_false, List.append_eq_nil_iff,
      Namespace.declareType_eq_nil_iff]
    by_cases hnew : names.Declared t.name
    · refine iff_of_false (fun h => h.1 hnew) fun h => ?_
      unfold TypeDef.declarations at h
      cases hbody : t.body <;> simp [hbody, hnew] at h
    · have hdeclared := @Namespace.declared_declareType names t.name
      cases hbody : t.body with
      | sum s =>
        simp only [TypeBody.defects, TypeDef.declarations, hbody, List.append_eq_nil_iff,
          constructorDefects_eq_nil_iff, fieldDefects_eq_nil_iff, hdeclared hnew, hnew,
          List.forall_mem_cons, List.map_cons, List.nodup_cons, not_false_eq_true, true_and,
          List.not_mem_nil, not_or, List.map_map, List.mem_map, not_exists, not_and]
        constructor
        · rintro ⟨⟨hwf, hnodup, hnames⟩, hvisible, hfields, -⟩
          refine ⟨⟨⟨hblank, hvisible, hfields⟩, ?_⟩, ⟨fun c hc => (hnames c hc).1, hnodup⟩, ?_⟩
          · rintro d ⟨c, hc, rfl⟩
            exact hwf c hc
          · rintro d ⟨c, hc, rfl⟩
            exact (hnames c hc).2
        · rintro ⟨⟨hsum, hwf⟩, ⟨hne, hnodup⟩, hnames⟩
          exact ⟨⟨fun c hc => hwf _ ⟨c, hc, rfl⟩, hnodup,
            fun c hc => ⟨hne c hc, hnames _ ⟨c, hc, rfl⟩⟩⟩,
            hsum.fields_visible, hsum.nodup_fields, fun _ _ => trivial⟩
      | product p =>
        simp only [TypeBody.defects, TypeDef.declarations, hbody, fieldDefects_eq_nil_iff, hnew,
          List.forall_mem_singleton, List.map_singleton, List.nodup_singleton, not_false_eq_true,
          true_and, and_true, List.not_mem_nil, implies_true]
        constructor
        · rintro ⟨hvisible, hfields⟩
          exact ⟨hblank, hvisible, hfields⟩
        · intro hwf
          exact ⟨hwf.fields_visible, hwf.nodup_fields⟩

theorem TypeDef.declared_defects {t : TypeDef} (h : (t.defects names).1 = []) :
    (t.defects names).2.Declared n ↔
      n ∈ t.declarations.map Declaration.name ∨ names.Declared n := by
  cases hblank : Text.isBlankText t.name with
  | true => simp [defects, hblank] at h
  | false =>
    simp only [defects, hblank, Bool.false_eq_true, if_false, List.append_eq_nil_iff,
      Namespace.declareType_eq_nil_iff] at h ⊢
    obtain ⟨hnew, hbody⟩ := h
    cases hb : t.body with
    | sum s =>
      rw [hb, TypeBody.defects] at hbody
      simp only [List.append_eq_nil_iff] at hbody
      simp only [TypeBody.defects, declared_constructorDefects hbody.1,
        Namespace.declared_declareType hnew, TypeDef.declarations, hb, List.map_cons,
        List.mem_cons, List.map_map]
      have hnames : s.constructors.map (Declaration.name ∘ fun c => c.declaration t.name) =
          s.constructors.map Constructor.name := rfl
      rw [hnames, or_left_comm, or_assoc]
    | product p =>
      simp only [TypeBody.defects, Namespace.declared_declareType hnew, TypeDef.declarations, hb,
        List.map_singleton, List.mem_singleton]

end

/-- Types pass if all their declarations are well formed and all their names new and distinct. -/
theorem typeDefects_eq_nil_iff {names : Namespace} {ts : List TypeDef} :
    typeDefects names ts = [] ↔
      (∀ d ∈ ts.flatMap TypeDef.declarations, d.WellFormed) ∧
        ((ts.flatMap TypeDef.declarations).map Declaration.name).Nodup ∧
        ∀ d ∈ ts.flatMap TypeDef.declarations, ¬ names.Declared d.name := by
  induction ts generalizing names with
  | nil => simp [typeDefects]
  | cons t rest ih =>
    rw [typeDefects, List.append_eq_nil_iff, List.flatMap_cons, List.forall_mem_append,
      List.map_append, List.nodup_append, List.forall_mem_append]
    by_cases hown : (t.defects names).1 = []
    · have hnames := TypeDef.defects_eq_nil_iff.1 hown
      simp only [hown, true_and, ih, TypeDef.declared_defects hown, hnames, not_or]
      constructor
      · rintro ⟨hwf, hnodup, hnew⟩
        refine ⟨⟨hnames.1, hwf⟩, ⟨hnodup, ?_⟩, ⟨fun d hd => hnames.2.2 d hd,
          fun d hd => (hnew d hd).2⟩⟩
        intro n hn m hm heq
        obtain ⟨d, hd, rfl⟩ := List.mem_map.1 hm
        exact (hnew d hd).1 (heq ▸ hn)
      · rintro ⟨⟨-, hwf⟩, ⟨hnodup, hdisjoint⟩, -, hnew⟩
        exact ⟨hwf, hnodup, fun d hd => ⟨fun hmem =>
          hdisjoint _ hmem _ (List.mem_map_of_mem hd) rfl, hnew d hd⟩⟩
    · refine iff_of_false (fun h => hown h.1) fun h => hown ?_
      exact TypeDef.defects_eq_nil_iff.2 ⟨h.1.1, h.2.1.1, h.2.2.1⟩

namespace Schema

variable {s : Schema}

theorem typeDefects_eq_nil_of_defects (h : s.defects = []) : typeDefects .empty s.types = [] :=
  (List.append_eq_nil_iff.1 h).2

/-- A schema without defects declares each name once. -/
theorem nodup_names_of_defects (h : s.defects = []) :
    (s.declarations.map Declaration.name).Nodup :=
  (typeDefects_eq_nil_iff.1 (typeDefects_eq_nil_of_defects h)).2.1

theorem wellFormed_of_defects (h : s.defects = []) {d : Declaration} (hd : d ∈ s.declarations) :
    d.WellFormed :=
  (typeDefects_eq_nil_iff.1 (typeDefects_eq_nil_of_defects h)).1 d hd

/-- In a schema without defects no declaration has a field twice. -/
theorem nodup_fields_of_defects (h : s.defects = []) {d : Declaration}
    (hd : d ∈ s.declarations) : d.fields.Nodup :=
  List.Nodup.of_map _ (wellFormed_of_defects h hd).nodup_fields

/-- The check of the name of a schema passes names that can be seen. -/
theorem nameDefects_eq_nil_iff :
    (if Text.isBlankText s.name then [Defect.emptyModuleName] else []) = [] ↔
      Text.isBlankText s.name = false := by
  cases Text.isBlankText s.name <;> simp

/-- A schema has no defects exactly if there is more than blanks in its name and in all names and
kinds of its flat namespace, no two declarations have one name, and no two fields of one declaration
have one name. -/
theorem no_defects_iff_wellFormed (s : Schema) :
    s.defects = [] ↔
      Text.trim s.name.toList ≠ [] ∧
        (∀ d ∈ s.declarations, Text.trim d.name.toList ≠ []) ∧
        (s.declarations.map Declaration.name).Nodup ∧
        (∀ d ∈ s.declarations, ∀ f ∈ d.fields,
          Text.trim f.kind.toList ≠ [] ∧ Text.trim f.name.toList ≠ []) ∧
        ∀ d ∈ s.declarations, (d.fields.map Field.name).Nodup := by
  rw [defects, List.append_eq_nil_iff, nameDefects_eq_nil_iff, typeDefects_eq_nil_iff]
  simp only [← Text.isBlankText_eq_false_iff]
  constructor
  · rintro ⟨hname, hwf, hnodup, -⟩
    exact ⟨hname, fun d hd => (hwf d hd).name_visible, hnodup,
      fun d hd => (hwf d hd).fields_visible, fun d hd => (hwf d hd).nodup_fields⟩
  · rintro ⟨hname, hvisible, hnodup, hfields, hnodupFields⟩
    refine ⟨hname, fun d hd => ?_, hnodup, fun d _ => Namespace.not_declared_empty d.name⟩
    exact ⟨hvisible d hd, hfields d hd, hnodupFields d hd⟩

end Schema

end SchemaLineage

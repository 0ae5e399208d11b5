import SchemaLineage.Output.Dataclasses
import SchemaLineage.Schema.Declaration
import SchemaLineage.Schema.Defect

/-!
The fields of data classes. A data class is refused if a field without a default stands behind one
with a default. Whether a field has one is told by its qualifier, and the fields stand in the order
of the schema, so the classes of a schema are all accepted exactly if nothing has a default or no
product or constructor has a required field behind one that is not.
-/
namespace SchemaLineage

def HasDefault (line : String) : Prop :=
  '=' ∈ line.toList

instance (line : String) : Decidable (HasDefault line) :=
  inferInstanceAs (Decidable (_ ∈ _))

/-- If the class is a data class, no field without a default stands behind one with a default. -/
def ClassBlock.Accepted (block : ClassBlock) : Prop :=
  block.decorated = true → block.body.Pairwise fun line later => HasDefault line → HasDefault later

instance (block : ClassBlock) : Decidable block.Accepted :=
  inferInstanceAs (Decidable (_ → _))

def RequiredFirst (fields : List Field) : Prop :=
  fields.Pairwise fun f later => f.qualifier ≠ .required → later.qualifier ≠ .required

instance (fields : List Field) : Decidable (RequiredFirst fields) :=
  inferInstanceAs (Decidable (List.Pairwise _ _))

/-- Neither the name nor the type of the field has an equals sign. -/
def Field.Plain (f : Field) : Prop :=
  '=' ∉ f.name.toList ∧ '=' ∉ f.kind.toList

instance (f : Field) : Decidable f.Plain :=
  inferInstanceAs (Decidable (_ ∧ _))

theorem Field.Plain.equals_not_mem {f : Field} (hf : f.Plain) : '=' ∉ f.annotation.toList := by
  rw [Field.annotation]
  split <;> simp [hf.2]

namespace Dataclasses

variable {settings : Settings}

theorem hasDefault_fieldLine {f : Field} (hf : f.Plain) :
    HasDefault (fieldLine settings f) ↔
      settings.withDefaults = true ∧ f.qualifier ≠ .required := by
  have hannotation := hf.equals_not_mem
  have hdefault : '=' ∈ (defaultText settings f.qualifier).toList ↔
      settings.withDefaults = true ∧ f.qualifier ≠ .required := by
    cases hdefaults : settings.withDefaults <;> cases hqualifier : f.qualifier <;>
      simp [defaultText, hdefaults]
  rw [← hdefault]
  simp [HasDefault, fieldLine, hf.1, hannotation]

/-- The lines of fields are accepted exactly if the required ones come first where others have
defaults. -/
theorem accepted_fields_iff {fields : List Field} (hfields : ∀ f ∈ fields, f.Plain)
    (name base : String) :
    ClassBlock.Accepted ⟨true, name, base, fields.map (fieldLine settings)⟩ ↔
      (settings.withDefaults = true → RequiredFirst fields) := by
  have hlines : ∀ f ∈ fields, (HasDefault (fieldLine settings f) ↔
      settings.withDefaults = true ∧ f.qualifier ≠ .required) :=
    fun f hf => hasDefault_fieldLine (hfields f hf)
  have haccepted : ClassBlock.Accepted ⟨true, name, base, fields.map (fieldLine settings)⟩ ↔
      fields.Pairwise fun f later => HasDefault (fieldLine settings f) →
        HasDefault (fieldLine settings later) := by
    simp [ClassBlock.Accepted, List.pairwise_map]
  rw [haccepted]
  by_cases hdefaults : settings.withDefaults = true
  · rw [forall_prop_of_true hdefaults, RequiredFirst]
    refine List.Pairwise.iff_of_mem fun {f later} hf hlater => ?_
    simp only [hlines f hf, hlines later hlater, hdefaults, true_and]
  · refine iff_of_true (List.pairwise_of_forall_mem_list fun f hf later _ hdefault => ?_) ?_
    · exact absurd ((hlines f hf).1 hdefault).1 hdefaults
    · exact fun h => absurd h hdefaults

/-- The data classes of a type are those of its products and constructors. -/
theorem accepted_blocks_iff {t : TypeDef} (hplain : ∀ d ∈ t.declarations, ∀ f ∈ d.fields, f.Plain) :
    (∀ b ∈ blocks settings t, b.Accepted) ↔
      ∀ d ∈ t.declarations, d.kind ≠ .sum →
        settings.withDefaults = true → RequiredFirst d.fields := by
  obtain ⟨name, body⟩ := t
  cases body with
  | sum sum =>
    have hdeclarations : TypeDef.declarations ⟨name, .sum sum⟩ =
        ⟨name, .sum, .root, sum.attributes⟩ :: sum.constructors.map (·.declaration name) := rfl
    rw [hdeclarations, List.forall_mem_cons, List.forall_mem_map] at hplain
    rw [hdeclarations, List.forall_mem_cons, List.forall_mem_map]
    by_cases hsimple : sum.isSimple = true
    · -- An enumeration is no data class, and its constructors have no fields.
      have hblocks : blocks settings ⟨name, .sum sum⟩ =
          [⟨false, name, "_Enum", sum.constructors.map fun c => c.name ++ " = _auto()"⟩] :=
        if_pos hsimple
      have hfields : ∀ c ∈ sum.constructors, c.fields = [] := fun c hc =>
        List.isEmpty_iff.1 (List.all_eq_true.1 hsimple c hc)
      rw [hblocks, List.forall_mem_singleton]
      refine iff_of_true (fun h => absurd h (by simp)) ⟨fun h => absurd rfl h, ?_⟩
      intro c hc _ _
      rw [Constructor.declaration, hfields c hc]
      exact List.Pairwise.nil
    · have hblocks : blocks settings ⟨name, .sum sum⟩ =
          ⟨false, name, settings.baseClass, sum.attributes.map (fieldLine settings)⟩ ::
            sum.constructors.map (constructorBlock settings name) :=
        if_neg hsimple
      rw [hblocks, List.forall_mem_cons, List.forall_mem_map]
      refine and_congr (iff_of_true (fun h => absurd h (by simp)) fun h => absurd rfl h) ?_
      refine forall₂_congr fun c hc => ?_
      rw [forall_prop_of_true (by simp [Constructor.declaration])]
      exact accepted_fields_iff (hplain.2 c hc) c.name name
  | product product =>
    have hdeclarations : TypeDef.declarations ⟨name, .product product⟩ =
        [⟨name, .product, .root, product.fields ++ product.attributes⟩] := rfl
    rw [hdeclarations, List.forall_mem_singleton] at hplain ⊢
    rw [blocks, List.forall_mem_singleton, forall_prop_of_true (by simp)]
    exact accepted_fields_iff hplain name settings.baseClass

end Dataclasses

/-- The data classes of a schema are all accepted exactly if there are no defaults, or in every
product and constructor the required fields come first. -/
theorem dataclasses_accepted_iff {settings : Settings} {s : Schema}
    (hplain : ∀ d ∈ s.declarations, ∀ f ∈ d.fields, f.Plain) :
    (∀ b ∈ s.types.flatMap (Dataclasses.blocks settings), b.Accepted) ↔
      ∀ d ∈ s.declarations, d.kind ≠ .sum →
        settings.withDefaults = true → RequiredFirst d.fields := by
  rw [Schema.declarations, List.forall_mem_flatMap] at hplain
  rw [Schema.declarations, List.forall_mem_flatMap, List.forall_mem_flatMap]
  exact forall₂_congr fun t ht => Dataclasses.accepted_blocks_iff (hplain t ht)

def defaultedSettings : Settings where
  withDefaults := true

/-- A product whose required attributes stand behind an optional field. -/
def argumentSchema : Schema where
  name := "Python"
  types := [⟨"arg", .product
    ⟨[⟨"identifier", "arg", .required⟩, ⟨"expr", "annotation", .optional⟩],
      [⟨"int", "lineno", .required⟩, ⟨"int", "col_offset", .required⟩]⟩⟩]

/-- A schema without defects may have a data class that is refused. -/
theorem argumentSchema_refused :
    argumentSchema.defects = [] ∧
      ¬ ∀ b ∈ argumentSchema.types.flatMap (Dataclasses.blocks defaultedSettings),
        b.Accepted := by
  decide +kernel

/-- Where the required fields come first, they may be followed by optional ones and sequences. -/
def callSchema : Schema where
  name := "Python"
  types := [⟨"expr", .sum
    ⟨[⟨"Call", some [⟨"expr", "func", .required⟩, ⟨"expr", "args", .sequence⟩]⟩,
      ⟨"Pass", none⟩], [⟨"int", "end_lineno", .optional⟩, ⟨"int", "lineno", .required⟩]⟩⟩]

theorem dataclasses_callSchema :
    (∀ d ∈ callSchema.declarations, ∀ f ∈ d.fields, f.Plain) ∧
      ∀ b ∈ callSchema.types.flatMap (Dataclasses.blocks defaultedSettings),
        b.Accepted := by
  have hplain : ∀ d ∈ callSchema.declarations, ∀ f ∈ d.fields, f.Plain := by decide +kernel
  have hfirst : ∀ d ∈ callSchema.declarations, d.kind ≠ .sum → RequiredFirst d.fields := by
    decide +kernel
  exact ⟨hplain, (dataclasses_accepted_iff hplain).2 fun d hd hkind _ => hfirst d hd hkind⟩

end SchemaLineage

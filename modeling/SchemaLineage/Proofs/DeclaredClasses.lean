import Mathlib.Data.List.Basic
import SchemaLineage.Output.Dataclasses
import SchemaLineage.Schema.Declaration
import SchemaLineage.Schema.Visitor
import SchemaLineage.Text.Lines

/-!
Classes and declarations. The flat namespace and the module of data classes are each gathered by a
walk over the nodes of a schema, which hands the name of a type down to what lies below it. In the
flat namespace the constructors of a sum stand right behind it, so the classes can be read off the
declarations alone. Main statement: the module is its preamble and, in the order of the flat
namespace, one class for each declaration but the constructors of sums that became enumerations.
-/
namespace SchemaLineage

/-! ## Walks -/

/-- Gathers the declarations; the context of a node is the name of the type around it. -/
def declarationCollector : Visitor Id String (List Declaration) :=
  fun node below context =>
    match node with
    | .module s => (Visitor.atChildren (.module s) below .type context).flatten
    | .type t => below (.ofBody t.body) List.mem_cons_self t.name
    | .sum s =>
      ⟨context, .sum, .root, s.attributes⟩ ::
        (Visitor.atChildren (.sum s) below .constructor context).flatten
    | .product p => [⟨context, .product, .root, p.fields ++ p.attributes⟩]
    | .constructor c => [⟨c.name, .constructor, .named context, c.fields⟩]
    | .field f => Visitor.fallback (.field f) below context

/-- Writes a field as its line, and all other nodes as the texts of their classes. -/
def classWriter (settings : Settings) : Visitor Id String (List String) :=
  fun node below context =>
    match node with
    | .module s => (Visitor.atChildren (.module s) below .type context).flatten
    | .type t => below (.ofBody t.body) List.mem_cons_self t.name
    | .sum s =>
      if s.isSimple then
        [ClassBlock.text settings
          ⟨false, context, "_Enum", s.constructors.map fun c => c.name ++ " = _auto()"⟩]
      else
        ClassBlock.text settings ⟨false, context, settings.baseClass,
            (Visitor.atChildren (.sum s) below .field context).flatten⟩ ::
          (Visitor.atChildren (.sum s) below .constructor context).flatten
    | .product p =>
      [ClassBlock.text settings ⟨true, context, settings.baseClass,
        (Visitor.atChildren (.product p) below .field context).flatten⟩]
    | .constructor c =>
      [ClassBlock.text settings ⟨true, c.name, context,
        (Visitor.atChildren (.constructor c) below .field context).flatten⟩]
    | .field f => [Dataclasses.fieldLine settings f]

namespace Visitor

variable {γ ω : Type}

theorem visitAll_eq_map (visitor : Visitor Id γ ω) (nodes : List Node) (context : γ) :
    visitor.visitAll nodes context = nodes.map fun node => visitor.visit node context :=
  List.idRun_mapM

/-- What is gathered at the parts of one kind among the children of a node. -/
theorem flatten_atChildren {ι : Type} (visitor : Visitor Id γ (List ω)) {node : Node}
    {kind : NodeKind} {parts : List ι} {part : ι → Node}
    (h : node.children.filter (·.kind = kind) = parts.map part) (context : γ) :
    List.flatten (atChildren (m := Id) node (fun child _ => visitor.visit child) kind context) =
      parts.flatMap fun x => visitor.visit (part x) context := by
  have hvisits : atChildren (m := Id) node (fun child _ => visitor.visit child) kind context =
      parts.map fun x => visitor.visit (part x) context := by
    rw [atChildren_visit, h, visitAll_eq_map, List.map_map]
    rfl
  exact congrArg List.flatten hvisits

end Visitor

namespace Node

section Parts

variable {ι : Type} (part : ι → Node) (wanted : NodeKind) (parts : List ι)

theorem filter_kind_of_eq (h : ∀ x, (part x).kind = wanted) :
    (parts.map part).filter (·.kind = wanted) = parts.map part := by
  simp [List.filter_map, Function.comp_def, h]

theorem filter_kind_of_ne (h : ∀ x, (part x).kind ≠ wanted) :
    (parts.map part).filter (·.kind = wanted) = [] := by
  simp [List.filter_map, Function.comp_def, h]

end Parts

theorem types_of_module (s : Schema) :
    (children (.module s)).filter (·.kind = .type) = s.types.map type :=
  filter_kind_of_eq type .type s.types fun _ => rfl

theorem constructors_of_sum (s : SumType) :
    (children (.sum s)).filter (·.kind = .constructor) = s.constructors.map constructor := by
  rw [children, List.filter_append, filter_kind_of_eq constructor .constructor _ fun _ => rfl,
    filter_kind_of_ne field .constructor _ (fun _ h => by cases h), List.append_nil]

theorem fields_of_sum (s : SumType) :
    (children (.sum s)).filter (·.kind = .field) = s.attributes.map field := by
  rw [children, List.filter_append, filter_kind_of_ne constructor .field _ (fun _ h => by cases h),
    filter_kind_of_eq field .field _ fun _ => rfl, List.nil_append]

theorem fields_of_product (p : ProductType) :
    (children (.product p)).filter (·.kind = .field) = (p.fields ++ p.attributes).map field := by
  rw [children, ← List.map_append, filter_kind_of_eq field .field _ fun _ => rfl]

theorem fields_of_constructor (c : Constructor) :
    (children (.constructor c)).filter (·.kind = .field) = c.fields.map field :=
  filter_kind_of_eq field .field c.fields fun _ => rfl

end Node

section Collector

variable (context : String)

theorem collected_constructor (c : Constructor) :
    declarationCollector.visit (.constructor c) context = [c.declaration context] := by
  rw [Visitor.visit_eq]
  rfl

theorem collected_type (t : TypeDef) :
    declarationCollector.visit (.type t) context = t.declarations := by
  rw [Visitor.visit_eq]
  change declarationCollector.visit (.ofBody t.body) t.name = t.declarations
  rw [Visitor.visit_eq, TypeDef.declarations]
  cases t.body with
  | sum s =>
    refine congrArg (_ :: ·)
      ((Visitor.flatten_atChildren _ (Node.constructors_of_sum s) t.name).trans ?_)
    simp only [collected_constructor, List.map_eq_flatMap]
  | product p => rfl

/-- The walk over a schema gathers its flat namespace. -/
theorem collected_module (s : Schema) :
    declarationCollector.visit (.module s) context = s.declarations := by
  rw [Visitor.visit_eq]
  refine (Visitor.flatten_atChildren _ (Node.types_of_module s) context).trans ?_
  simp only [collected_type, Schema.declarations]

end Collector

section Writer

variable (settings : Settings) (context : String)

theorem written_fields {node : Node} {fields : List Field}
    (h : node.children.filter (·.kind = .field) = fields.map Node.field) :
    List.flatten (Visitor.atChildren (m := Id) node
      (fun child _ => (classWriter settings).visit child) .field context) =
        fields.map (Dataclasses.fieldLine settings) := by
  have hfield : ∀ f : Field, (classWriter settings).visit (.field f) context =
      [Dataclasses.fieldLine settings f] := by
    intro f
    rw [Visitor.visit_eq]
    rfl
  rw [Visitor.flatten_atChildren _ h]
  simp only [hfield, List.map_eq_flatMap]

theorem written_constructor (c : Constructor) :
    (classWriter settings).visit (.constructor c) context =
      [(Dataclasses.constructorBlock settings context c).text settings] := by
  rw [Visitor.visit_eq]
  exact congrArg (fun lines => [ClassBlock.text settings ⟨true, c.name, context, lines⟩])
    (written_fields settings context (Node.fields_of_constructor c))

theorem written_type (t : TypeDef) :
    (classWriter settings).visit (.type t) context =
      (Dataclasses.blocks settings t).map (ClassBlock.text settings) := by
  rw [Visitor.visit_eq]
  change (classWriter settings).visit (.ofBody t.body) t.name = _
  rw [Visitor.visit_eq, Dataclasses.blocks]
  cases t.body with
  | sum s =>
    have hfields := written_fields settings t.name (Node.fields_of_sum s)
    have hconstructors := Visitor.flatten_atChildren (classWriter settings)
      (Node.constructors_of_sum s) t.name
    simp only [written_constructor, ← List.map_eq_flatMap] at hconstructors
    change (if s.isSimple then [_] else _ :: _) = List.map _ (if s.isSimple then [_] else _ :: _)
    by_cases hsimple : s.isSimple = true
    · rw [if_pos hsimple, if_pos hsimple]
      rfl
    · rw [if_neg hsimple, if_neg hsimple, List.map_cons, List.map_map]
      exact congrArg₂ (fun lines classes =>
        ClassBlock.text settings ⟨false, t.name, settings.baseClass, lines⟩ :: classes)
        hfields hconstructors
  | product p =>
    have hfields := written_fields settings t.name (Node.fields_of_product p)
    exact congrArg
      (fun lines => [ClassBlock.text settings ⟨true, t.name, settings.baseClass, lines⟩]) hfields

theorem written_module (s : Schema) :
    (classWriter settings).visit (.module s) context =
      (s.types.flatMap (Dataclasses.blocks settings)).map (ClassBlock.text settings) := by
  rw [Visitor.visit_eq]
  refine (Visitor.flatten_atChildren _ (Node.types_of_module s) context).trans ?_
  simp only [written_type, List.map_flatMap]

end Writer

/-! ## Classes of a flat namespace -/

def ClassBlock.lines (settings : Settings) (block : ClassBlock) : List String :=
  (if block.decorated then ["@_dataclass"] else []) ++
    ("class " ++ block.name ++ "(" ++ block.base ++ "):") ::
      (if block.body = [] then ["..."] else block.body).map (settings.indentation 1 ++ ·)

theorem ClassBlock.text_eq_unlines (settings : Settings) (block : ClassBlock) :
    block.text settings = Text.unlines (block.lines settings) := by
  have hbody : (if block.body.isEmpty = true then ["..."] else block.body) =
      if block.body = [] then ["..."] else block.body := by
    simp only [List.isEmpty_iff]
  have hdecorator : (if block.decorated = true then "@_dataclass\n" else "") =
      Text.unlines (if block.decorated = true then ["@_dataclass"] else []) := by
    split <;> rfl
  rw [text, lines, hbody, hdecorator, Text.unlines_append, Text.unlines_cons]
  simp [Text.unlines, String.append_assoc, Function.comp_def]

namespace Dataclasses

variable (settings : Settings)

def baseName : Base → String
  | .root => settings.baseClass
  | .named name => name

/-- The classes of a flat namespace. A sum is followed by its constructors; if none of them has
fields, it becomes an enumeration and they have no classes of their own. -/
def classes : List Declaration → List ClassBlock
  | [] => []
  | d :: rest =>
    let constructors := rest.takeWhile (·.kind = .constructor)
    if d.kind = .sum ∧ ∀ c ∈ constructors, c.fields = [] then
      ⟨false, d.name, "_Enum", constructors.map (·.name ++ " = _auto()")⟩ ::
        classes (rest.dropWhile (·.kind = .constructor))
    else
      ⟨d.kind ≠ .sum, d.name, baseName settings d.base, d.fields.map (fieldLine settings)⟩ ::
        classes rest
termination_by declarations => declarations.length
decreasing_by
  · have := (List.dropWhile_sublist (l := rest) (·.kind = .constructor)).length_le
    simp only [List.length_cons]
    omega
  · simp

variable {settings}

/-- Apart from sums, and from sums that stay classes, every declaration has a class of its own. -/
theorem classes_cons_of_not {d : Declaration} {rest : List Declaration}
    (h : ¬ (d.kind = .sum ∧ ∀ c ∈ rest.takeWhile (·.kind = .constructor), c.fields = [])) :
    classes settings (d :: rest) =
      ⟨d.kind ≠ .sum, d.name, baseName settings d.base, d.fields.map (fieldLine settings)⟩ ::
        classes settings rest := by
  rw [classes, if_neg h]

theorem classes_constructors (sum : String) (constructors : List Constructor)
    (rest : List Declaration) :
    classes settings (constructors.map (·.declaration sum) ++ rest) =
      constructors.map (constructorBlock settings sum) ++ classes settings rest := by
  induction constructors with
  | nil => rfl
  | cons c constructors ih =>
    have hkind : (c.declaration sum).kind ≠ .sum := by simp [Constructor.declaration]
    rw [List.map_cons, List.cons_append, classes_cons_of_not fun h => hkind h.1, ih]
    rfl

/-- The constructors behind a sum are its own, if what follows them is none. -/
theorem takeWhile_constructors (sum : String) (constructors : List Constructor)
    {rest : List Declaration} (hrest : ∀ d, rest.head? = some d → d.kind ≠ .constructor) :
    (constructors.map (·.declaration sum) ++ rest).takeWhile (·.kind = .constructor) =
      constructors.map (·.declaration sum) ∧
    (constructors.map (·.declaration sum) ++ rest).dropWhile (·.kind = .constructor) = rest := by
  have hconstructors : ∀ d ∈ constructors.map (·.declaration sum),
      decide (d.kind = .constructor) = true := by
    intro d hd
    obtain ⟨c, -, rfl⟩ := List.mem_map.1 hd
    rfl
  rw [List.takeWhile_append_of_pos hconstructors, List.dropWhile_append_of_pos hconstructors]
  cases rest with
  | nil => exact ⟨List.append_nil _, rfl⟩
  | cons d rest =>
    have hd : d.kind ≠ .constructor := hrest d rfl
    simp [hd]

/-- The classes of a type are read off its declarations. -/
theorem classes_append (t : TypeDef) {rest : List Declaration}
    (hrest : ∀ d, rest.head? = some d → d.kind ≠ .constructor) :
    classes settings (t.declarations ++ rest) = blocks settings t ++ classes settings rest := by
  rw [TypeDef.declarations, blocks]
  cases t.body with
  | sum s =>
    obtain ⟨htake, hdrop⟩ := takeWhile_constructors t.name s.constructors hrest
    have hsimple : (∀ c ∈ s.constructors.map (·.declaration t.name), c.fields = []) ↔
        s.isSimple = true := by
      simp [SumType.isSimple, Constructor.declaration]
    change classes settings (_ :: (s.constructors.map (·.declaration t.name) ++ rest)) =
      (if s.isSimple then [_] else _ :: _) ++ _
    rw [classes, htake, hdrop]
    by_cases h : s.isSimple = true
    · rw [if_pos ⟨rfl, hsimple.2 h⟩, if_pos h, List.map_map]
      rfl
    · rw [if_neg fun hboth => h (hsimple.1 hboth.2), if_neg h, classes_constructors]
      rfl
  | product p => exact classes_cons_of_not nofun

/-- Every type starts with a declaration of its own. -/
theorem head_declarations (types : List TypeDef) :
    ∀ d, (types.flatMap TypeDef.declarations).head? = some d → d.kind ≠ .constructor := by
  intro d hd
  cases types with
  | nil => cases hd
  | cons t types =>
    rw [List.flatMap_cons, TypeDef.declarations] at hd
    cases hbody : t.body with
    | sum s =>
      rw [hbody] at hd
      cases hd
      nofun
    | product p =>
      rw [hbody] at hd
      cases hd
      nofun

theorem classes_declarations (types : List TypeDef) :
    classes settings (types.flatMap TypeDef.declarations) = types.flatMap (blocks settings) := by
  induction types with
  | nil => rw [List.flatMap_nil, classes, List.flatMap_nil]
  | cons t types ih =>
    rw [List.flatMap_cons, List.flatMap_cons, classes_append t (head_declarations types), ih]

end Dataclasses

/-- The module of data classes and the flat namespace are gathered by two walks that agree: behind
the preamble stand the classes of the declarations, in their order. -/
theorem dataclasses_follow_declarations (settings : Settings) (s : Schema) :
    declarationCollector.visit (.module s) "" = s.declarations ∧
      (classWriter settings).visit (.module s) "" =
        (Dataclasses.classes settings s.declarations).map
          (fun block => Text.unlines (block.lines settings)) ∧
      Dataclasses.text settings s = Dataclasses.preamble settings ++
        String.join ((Dataclasses.classes settings s.declarations).map
          fun block => "\n\n" ++ Text.unlines (block.lines settings)) := by
  have hclasses : Dataclasses.classes settings s.declarations =
      s.types.flatMap (Dataclasses.blocks settings) := Dataclasses.classes_declarations s.types
  refine ⟨collected_module "" s, ?_, ?_⟩
  · rw [written_module, hclasses]
    exact List.map_congr_left fun block _ => block.text_eq_unlines settings
  · rw [Dataclasses.text, hclasses]
    simp only [ClassBlock.text_eq_unlines]

end SchemaLineage

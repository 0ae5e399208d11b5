import Mathlib.Logic.Function.Iterate
import SchemaLineage.Proofs.CommandOutput
import SchemaLineage.Proofs.NodeOrder

/-!
The order of visits. A visitor hands each node to the handler of its kind, a handler that is not
written falls back, and the fallback visits the children; so what is done at every node may be
written in any of the three places. Main statement: a visitor that records each node and falls back
records the listing of the schema, and one that does not go below nodes of some kinds the part of it
above which there is no such node; the outline, and what is printed of it, is read off the same
listing.
-/
namespace SchemaLineage

/-! ## Recorders -/

namespace Visitor

/-- Notes each node, and goes on below it under another context unless its kind is closed. -/
def noting {γ ε : Type} (closed : List NodeKind) (note : γ → Node → ε) (inside : γ → γ) :
    Visitor (StateM (List ε)) γ Unit :=
  fun node below context => do
    modify (· ++ [note context node])
    if node.kind ∈ closed then return ()
    Visitor.fallback node below (inside context)

variable {γ ε : Type}

def recorder (closed : List NodeKind) : Visitor (StateM (List Node)) γ Unit :=
  noting closed (fun _ node => node) id

theorem outliner_eq (closed : List NodeKind) :
    outliner closed = noting closed (fun depth node => ⟨depth, node⟩) (· + 1) :=
  rfl

/-- A loop whose steps each add something leaves what they add in their order. -/
theorem run_forIn' {α : Type} {out : α → List ε} (xs : List α)
    {step : (x : α) → x ∈ xs → StateM (List ε) Unit}
    (h : ∀ x hx seen, (step x hx).run seen = ((), seen ++ out x)) (seen : List ε) :
    (forIn' xs PUnit.unit fun x hx _ => do
        let _ ← step x hx
        return .yield PUnit.unit : StateM (List ε) PUnit).run seen =
      (PUnit.unit, seen ++ xs.flatMap out) := by
  induction xs generalizing seen with
  | nil =>
    rw [List.flatMap_nil, List.append_nil]
    rfl
  | cons x xs ih =>
    have hrest := ih (fun y hy => h y (List.mem_cons_of_mem x hy)) (seen ++ out x)
    rw [List.forIn'_cons, bind_assoc, StateT.run_bind, h, List.flatMap_cons, ← List.append_assoc]
    exact hrest

theorem run_fallback {node : Node} {context : γ} {out : Node → List ε}
    {below : (child : Node) → child ∈ node.children → γ → StateM (List ε) Unit}
    (h : ∀ child hchild seen, (below child hchild context).run seen = ((), seen ++ out child))
    (seen : List ε) :
    (fallback node below context).run seen = ((), seen ++ node.children.flatMap out) := by
  rw [fallback, StateT.run_bind, run_forIn' node.children h seen]
  rfl

/-- What is noted is what is reached, each node under the context of its depth. -/
theorem run_noting (closed : List NodeKind) (note : γ → Node → ε) (inside : γ → γ) (node : Node)
    (context : γ) (seen : List ε) :
    ((noting closed note inside).visit node context).run seen = ((),
      seen ++ (node.reached closed).map fun o => note (inside^[o.above.length] context) o.node) := by
  -- Both are general: the children are visited further inside, after what is noted at the node.
  induction node using Node.children_induction generalizing context seen with
  | step node ih =>
    rw [visit_eq, noting]
    by_cases hclosed : node.kind ∈ closed
    · simp only [if_pos hclosed]
      rw [Node.reached_of_closed hclosed]
      rfl
    · have hbelow := run_fallback (fun child hchild seen => ih child hchild (inside context) seen)
        (seen ++ [note context node])
      have hchildren : (node.reached closed).map
            (fun o => note (inside^[o.above.length] context) o.node) =
          note context node :: node.children.flatMap fun child => (child.reached closed).map
            fun o => note (inside^[o.above.length] (inside context)) o.node := by
        rw [Node.reached_of_open hclosed, List.map_cons]
        exact congrArg (_ :: ·) (Node.map_flatMap_within fun _ _ => rfl)
      simp only [if_neg hclosed]
      rw [hchildren, List.append_cons]
      exact hbelow

abbrev At (m : Type → Type) (γ ω : Type) (node : Node) : Type :=
  (below : (child : Node) → child ∈ node.children → γ → m ω) → γ → m ω

/-- The methods of a visitor, each of which may be written anew. A node is handed to the handler of
its kind, a handler falls back, and the fallback visits the children. -/
structure Methods (m : Type → Type) (γ ω : Type) [Monad m] [Inhabited ω] where
  generic : Visitor m γ ω := fallback
  module (schema : Schema) : At m γ ω (.module schema) := generic (.module schema)
  type (type : TypeDef) : At m γ ω (.type type) := generic (.type type)
  sum (type : SumType) : At m γ ω (.sum type) := generic (.sum type)
  product (type : ProductType) : At m γ ω (.product type) := generic (.product type)
  constructor (constructor : Constructor) : At m γ ω (.constructor constructor) :=
    generic (.constructor constructor)
  field (field : Field) : At m γ ω (.field field) := generic (.field field)
  dispatch : Visitor m γ ω := fun
    | .module s => module s
    | .type t => type t
    | .sum s => sum s
    | .product p => product p
    | .constructor c => constructor c
    | .field f => field f

namespace Methods

variable {m : Type → Type} {ω : Type} [Monad m] [Inhabited ω] (step : Visitor m γ ω)

def ofHandlers : Methods m γ ω where
  module s := step (.module s)
  type t := step (.type t)
  sum s := step (.sum s)
  product p := step (.product p)
  constructor c := step (.constructor c)
  field f := step (.field f)

/-- The three ways to take the same step at every node: in place of the dispatch, in every handler,
or in place of the fallback. -/
def taking : List (Methods m γ ω) :=
  [{ dispatch := step }, ofHandlers step, { generic := step }]

theorem dispatch_of_mem_taking {methods : Methods m γ ω} (h : methods ∈ taking step) :
    methods.dispatch = step := by
  simp only [taking, List.mem_cons, List.not_mem_nil, or_false] at h
  rcases h with rfl | rfl | rfl
  · rfl
  · funext node
    cases node <;> rfl
  · funext node
    cases node <;> rfl

end Methods

/-- A visitor that records in one of these ways records what is reached. -/
theorem run_taking (closed : List NodeKind) {methods : Methods (StateM (List Node)) γ Unit}
    (h : methods ∈ Methods.taking (recorder closed)) {node : Node} {context : γ} :
    (methods.dispatch.visit node context).run [] =
      ((), (node.reached closed).map Occurrence.node) := by
  rw [Methods.dispatch_of_mem_taking _ h, recorder, run_noting, List.nil_append]

end Visitor

/-! ## The outline -/

theorem outlineAbove_eq (closed : List NodeKind) (s : Schema) :
    s.outlineAbove closed =
      ((Node.module s).reached closed).map fun o => ⟨o.above.length, o.node⟩ := by
  have hdepth : ∀ n : Nat, (· + 1)^[n] 0 = n := fun n => by
    induction n with
    | zero => rfl
    | succ n ih => rw [Function.iterate_succ_apply', ih]
  rw [Schema.outlineAbove, Visitor.outliner_eq, Visitor.run_noting, List.nil_append]
  simp only [hdepth]

theorem outline_eq (s : Schema) :
    s.outline = (Node.module s).occurrences.map fun o => ⟨o.above.length, o.node⟩ := by
  rw [Schema.outline, outlineAbove_eq, Node.reached_nil]

namespace Command

open Steps

/-- The outline of a schema that was read is all that is printed. -/
theorem runOn_outline {σ : Type} [FileSystem σ] {files : σ} {input source : String}
    {kind? : Option String} {wanted? : Option NodeKind} {s : Schema}
    (hwanted : kind?.mapM NodeKind.ofText = .ok wanted?)
    (hsource : HasText (FileSystem.read files) input source)
    (hschema : schemaOf input source = .ok s) :
    (outline input kind?).runOn files =
      (⟨0, Text.unlines (outlineLines wanted? s.outline), ""⟩, files) := by
  obtain ⟨find, hfind, hsteps⟩ := delivers_outline (σ := σ) input kind?
  obtain ⟨found, hrun, hfound⟩ := hfind ⟨files, "", ""⟩
  have htext := (hfound _).1 (.outline hwanted hsource hschema)
  subst htext
  have hput : (steps (outline input kind?) : Steps (StateM (Session σ)) Unit).run.run
      ⟨files, "", ""⟩ = _ :=
    (congrArg (fun x => x.run.run ⟨files, "", ""⟩) hsteps).trans (run_bind_of_ok hrun)
  rw [run_putOut_none] at hput
  rw [runOn_of_ok hput, String.empty_append]

theorem outlineLines_none (listing : List Occurrence) :
    outlineLines none (listing.map fun o => ⟨o.above.length, o.node⟩) = listing.map fun o =>
      String.join (List.replicate o.above.length "  ") ++ o.node.kind.name ++ " " ++
        o.node.label := by
  rw [outlineLines, List.map_map]
  rfl

theorem outlineLines_some (kind : NodeKind) (listing : List Occurrence) :
    outlineLines (some kind) (listing.map fun o => ⟨o.above.length, o.node⟩) =
      ((listing.map Occurrence.node).filter (·.kind = kind)).map Node.label := by
  rw [outlineLines, List.filter_map, List.filter_map, List.map_map, List.map_map]
  rfl

end Command

/-- The nodes of a schema have one listing in preorder, that of its types with all their parts. A
visitor that records each node, wherever it does so, and then falls back records that listing; if it
does not go below some kinds of nodes, it records what no node of these kinds stands above. The
outline gives each listed node the number of nodes above it; it is printed line by line, or as the
labels of one kind. -/
theorem visits_follow_preorder (s : Schema) :
    ∃ listing, PreorderListing (.module s) listing ∧ listing.map Occurrence.node = s.nodes ∧
      (∀ (γ : Type) (context : γ) (methods : Visitor.Methods (StateM (List Node)) γ Unit),
        (methods ∈ Visitor.Methods.taking (Visitor.recorder []) →
          (methods.dispatch.visit (.module s) context).run [] = ((), s.nodes)) ∧
        ∀ closed, methods ∈ Visitor.Methods.taking (Visitor.recorder closed) →
          (methods.dispatch.visit (.module s) context).run [] = ((),
            (listing.filter fun o => ∀ a ∈ o.above, a.kind ∉ closed).map Occurrence.node)) ∧
      (∀ methods ∈ Visitor.Methods.taking (Visitor.outliner []),
        (methods.dispatch.visit (.module s) 0).run [] = ((), s.outline)) ∧
      (s.outline = listing.map fun o => ⟨o.above.length, o.node⟩) ∧
      ∀ (σ : Type) [FileSystem σ] (files : σ) (arguments : List String) (i : Invocation)
        (input source : String) (kind? : Option String) (wanted? : Option NodeKind),
        Invocation.ofArguments? arguments = some i → i.command = .outline input kind? →
          kind?.mapM NodeKind.ofText = .ok wanted? →
          HasText (FileSystem.read files) input source →
          Command.schemaOf input source = .ok s →
          Invocation.runOn files arguments = (⟨0, Text.unlines (match wanted? with
            | none => listing.map fun o => String.join (List.replicate o.above.length "  ") ++
                o.node.kind.name ++ " " ++ o.node.label
            | some kind => (s.nodes.filter (·.kind = kind)).map Node.label), ""⟩, files) := by
  refine ⟨(Node.module s).occurrences, preorderListing_occurrences _, Node.listed_module s, ?_,
    fun methods hmethods => ?_, outline_eq s, ?_⟩
  · intro γ context methods
    refine ⟨fun hmethods => ?_, fun closed hmethods => Visitor.run_taking closed hmethods⟩
    rw [Visitor.run_taking [] hmethods, Node.reached_nil, Node.listed_module]
  · rw [Visitor.Methods.dispatch_of_mem_taking _ hmethods]
    rfl
  · intro σ _ files arguments i input source kind? wanted? hi hcommand hwanted hsource hschema
    rw [Invocation.runOn, hi]
    change i.command.runOn files = _
    rw [hcommand, Command.runOn_outline hwanted hsource hschema, outline_eq]
    cases wanted? with
    | none => rw [Command.outlineLines_none]
    | some kind => rw [Command.outlineLines_some, Node.listed_module]

def hueText : String :=
  "module Light \x7b signal = Red(int hue) | Green attributes (int at) \x7d"

def hueSchema : Schema where
  name := "Light"
  types := [⟨"signal", .sum ⟨[⟨"Red", some [⟨"int", "hue", .required⟩]⟩, ⟨"Green", none⟩],
    [⟨"int", "at", .required⟩]⟩⟩]

def hueDirectory : Directory :=
  .ofEntries [("light.asdl", .file hueText.toUTF8)]

/-- The field of a constructor is recorded before the next constructor, and the labels of one kind
are printed alone. -/
theorem visits_hueSchema :
    (∀ methods ∈ Visitor.Methods.taking (Visitor.recorder []),
      ((methods.dispatch.visit (.module hueSchema) ()).run []).2.map Node.label =
        ["Light", "signal", "", "Red", "int hue", "Green", "int at"]) ∧
      Invocation.runOn hueDirectory ["outline", "light.asdl", "--kind=Constructor"] =
        (⟨0, "Red\nGreen\n", ""⟩, hueDirectory) := by
  obtain ⟨listing, -, -, hrecorded, -, -, hprinted⟩ := visits_follow_preorder hueSchema
  refine ⟨fun methods hmethods => ?_, ?_⟩
  · rw [(hrecorded Unit () methods).1 hmethods]
    rfl
  · have htext : HasText hueDirectory.read "light.asdl" hueText := ⟨_, rfl, by decide +kernel⟩
    exact hprinted Directory hueDirectory ["outline", "light.asdl", "--kind=Constructor"]
      ⟨false, .outline "light.asdl" (some "Constructor")⟩ "light.asdl" hueText
      (some "Constructor") (some .constructor) (by decide +kernel) rfl rfl htext
      (by decide +kernel)

end SchemaLineage

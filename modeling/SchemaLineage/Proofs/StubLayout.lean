import SchemaLineage.Proofs.Grammar
import SchemaLineage.Proofs.StubCode
import Mathlib.Data.List.Chain

/-!
The depths of the lines of a stub, whatever merged schema it is the stub of. The lines of every part
are laid at a depth: the first stands there, a header leads to a line one level deeper, any other
line to none that is deeper, and no header is the last. Parts laid at one depth are laid there one
behind the other, and a header lays what is laid below it, so the lines of the whole stub are laid.
-/
namespace SchemaLineage

namespace Stub

/-- The line may stand directly behind one at the depth: one level deeper if that one is a header,
and otherwise no deeper. -/
def Line.Enters (depth : Nat) (header : Bool) (line : Line) : Prop :=
  if header then line.depth = depth + 1 else line.depth ≤ depth

def Line.Leads (line next : Line) : Prop :=
  next.Enters line.depth line.clause.isHeader

/-- The lines are whole blocks that stand at a depth, with clauses of some kind. -/
structure Laid (P : Clause → Prop) (depth : Nat) (ls : List Line) : Prop where
  leads : ls.IsChain Line.Leads
  first : ∀ line ∈ ls.head?, line.depth = depth
  last : ∀ line ∈ ls.getLast?, line.clause.isHeader = false ∧ depth ≤ line.depth
  blank : ∀ line ∈ ls, line.clause = .blank → line.depth = 0
  clauses : ∀ line ∈ ls, P line.clause

namespace Laid

variable {P : Clause → Prop} {depth : Nat} {ls ls' : List Line} {clause : Clause}

theorem nil : Laid P depth [] :=
  ⟨.nil, by simp, by simp, by simp, by simp⟩

/-- Behind the last line of blocks at a depth another line at that depth may stand. -/
theorem append (h : Laid P depth ls) (h' : Laid P depth ls') : Laid P depth (ls ++ ls') := by
  refine ⟨List.isChain_append.2 ⟨h.leads, h'.leads, ?_⟩, ?_, ?_, ?_, ?_⟩
  · intro line hline next hnext
    obtain ⟨hheader, hdeep⟩ := h.last line hline
    simpa [Line.Leads, Line.Enters, hheader, h'.first next hnext] using hdeep
  · intro line hline
    cases ls with
    | nil => exact h'.first line hline
    | cons _ _ => exact h.first line hline
  · intro line hline
    rw [List.getLast?_append] at hline
    cases hlast : ls'.getLast? with
    | none => exact h.last line (by simpa [hlast] using hline)
    | some last =>
      rw [hlast, Option.some_or] at hline
      exact h'.last line (hlast ▸ hline)
  · intro line hline
    rcases List.mem_append.1 hline with hline | hline
    · exact h.blank line hline
    · exact h'.blank line hline
  · intro line hline
    rcases List.mem_append.1 hline with hline | hline
    · exact h.clauses line hline
    · exact h'.clauses line hline

theorem single (hheader : clause.isHeader = false) (hblank : clause = .blank → depth = 0)
    (hclause : P clause) : Laid P depth [⟨depth, clause⟩] := by
  refine ⟨.singleton _, by simp, ?_, by simpa using hblank, by simpa using hclause⟩
  simp [hheader]

/-- A header stands one level above the blocks below it, of which there is at least one. -/
theorem header (hheader : clause.isHeader = true) (hclause : P clause) (hne : ls ≠ [])
    (h : Laid P (depth + 1) ls) : Laid P depth (⟨depth, clause⟩ :: ls) := by
  obtain ⟨next, rest, rfl⟩ := List.exists_cons_of_ne_nil hne
  have hnext : next.depth = depth + 1 := h.first next rfl
  refine ⟨List.isChain_cons_cons.2 ⟨?_, h.leads⟩, by simp, ?_, ?_, ?_⟩
  · simpa [Line.Leads, Line.Enters, hheader] using hnext
  · intro line hline
    rw [List.getLast?_cons_cons] at hline
    obtain ⟨hlast, hdeep⟩ := h.last line hline
    exact ⟨hlast, by omega⟩
  · intro line hline hblank
    rcases List.mem_cons.1 hline with rfl | hline
    · rw [show clause = .blank from hblank] at hheader
      cases hheader
    · exact h.blank line hline hblank
  · intro line hline
    rcases List.mem_cons.1 hline with rfl | hline
    · exact hclause
    · exact h.clauses line hline

theorem block (hheader : clause.isHeader = true) (hclause : P clause) (hellipsis : P .ellipsis)
    (h : Laid P (depth + 1) ls) : Laid P depth (block depth clause ls) := by
  rw [Stub.block]
  cases ls with
  | nil => exact header hheader hclause (by simp) (single rfl (by simp) hellipsis)
  | cons line ls => exact header hheader hclause (by simp) h

end Laid

section Parts

variable {P : Clause → Prop} {settings : Settings} {depth : Nat}

/-- The items and guards of a body are laid wherever the body is. -/
theorem laid_bodyLines {α : Type} {itemLines : Nat → α → List Line} {body : GuardBody α}
    (hellipsis : P .ellipsis) (htest : ∀ c, P (.test c))
    (hitems : ∀ q ∈ body.placed, ∀ depth, Laid P depth (itemLines depth q.2)) (depth : Nat) :
    Laid P depth (bodyLines itemLines depth body) := by
  induction body generalizing depth with
  | nil => exact .nil
  | item x rest ih =>
    have hx := hitems ([], x) List.mem_cons_self depth
    exact hx.append (ih (fun q hq => hitems q (List.mem_cons_of_mem _ hq)) depth)
  | guard c inner rest ihInner ihRest =>
    have hinner := ihInner fun q hq =>
      hitems (c :: q.1, q.2) (List.mem_append_left _ (List.mem_map.2 ⟨q, hq, rfl⟩))
    have hrest := ihRest (fun q hq => hitems q (List.mem_append_right _ hq)) depth
    rw [bodyLines]
    refine Laid.append ?_ hrest
    split
    · exact hinner depth
    · exact .block rfl (htest c) hellipsis (hinner (depth + 1))

theorem laid_caseLines {header : Clause} {name : String} {base : Base}
    (hheader : header.isHeader = true) (hclause : P header)
    (hbase : P (.assignment name (baseText settings base))) :
    Laid P depth (caseLines settings depth header name base) :=
  .header hheader hclause (by simp) (.single rfl (by simp) hbase)

theorem laid_laterCases {name : String} {cases : List (Case Base)} (hotherwise : P .otherwise)
    (htest : ∀ c, P (.laterTest c))
    (hbase : ∀ c ∈ cases, P (.assignment name (baseText settings c.value))) :
    Laid P depth (laterCases settings depth name cases) := by
  fun_induction laterCases settings depth name cases with
  | case1 => exact .nil
  | case2 last => exact laid_caseLines rfl hotherwise (hbase last List.mem_cons_self)
  | case3 c rest _ ih =>
    exact (laid_caseLines rfl (htest c.condition) (hbase c List.mem_cons_self)).append
      (ih fun c' hc' => hbase c' (List.mem_cons_of_mem _ hc'))

theorem laid_aliasLines {a : BaseAlias} (hotherwise : P .otherwise) (htest : ∀ c, P (.test c))
    (hlater : ∀ c, P (.laterTest c))
    (hbase : ∀ c ∈ a.cases, P (.assignment a.name (baseText settings c.value))) :
    Laid P depth (aliasLines settings depth a) := by
  obtain ⟨name, cases⟩ := a
  cases cases with
  | nil => exact .nil
  | cons c rest =>
    exact (laid_caseLines rfl (htest c.condition) (hbase c List.mem_cons_self)).append
      (laid_laterCases hotherwise hlater fun c' hc' => hbase c' (List.mem_cons_of_mem _ hc'))

end Parts

end Stub

section Names

/-- The text is a name, be it a word that is reserved elsewhere. -/
def Stub.IsName (s : String) : Prop :=
  StubCode.isName [] s.toList = true

instance (s : String) : Decidable (Stub.IsName s) :=
  inferInstanceAs (Decidable (_ = _))

def Base.names : Base → List String
  | root => []
  | named n => [n]

def BaseRef.names : BaseRef → List String
  | fixed base => base.names
  | aliased n => [n]

def MergedItem.names : MergedItem → List String
  | baseAlias a => a.name :: a.cases.flatMap fun c => c.value.names
  | declaration d => d.name :: (d.base.names ++ d.body.items.flatMap Field.names)

end Names

namespace Stub

/-- Every text of the clause is a name, the base class, or the annotation of a field whose type is a
name. -/
def Clause.Shows (settings : Settings) : Clause → Prop
  | classHeader name base => IsName name ∧ (IsName base ∨ base = settings.baseClass)
  | assignment name value => IsName name ∧ (IsName value ∨ value = settings.baseClass)
  | member name type => IsName name ∧ ∃ f : Field, IsName f.kind ∧ type = f.annotation
  | _ => True

section Whole

variable {settings : Settings} {depth : Nat}

theorem isName_baseText {base : Base} (h : ∀ n ∈ base.names, IsName n) :
    IsName (baseText settings base) ∨ baseText settings base = settings.baseClass := by
  cases base with
  | root => exact Or.inr rfl
  | named n => exact Or.inl (h n List.mem_cons_self)

theorem isName_baseRefText {base : BaseRef} (h : ∀ n ∈ base.names, IsName n) :
    IsName (baseRefText settings base) ∨ baseRefText settings base = settings.baseClass := by
  cases base with
  | fixed base => exact isName_baseText h
  | aliased n => exact Or.inl (h n List.mem_cons_self)

theorem laid_itemLines {i : MergedItem} (h : ∀ n ∈ i.names, IsName n) (depth : Nat) :
    Laid (Clause.Shows settings) depth (itemLines settings depth i) := by
  cases i with
  | baseAlias a =>
    refine laid_aliasLines trivial (fun _ => trivial) (fun _ => trivial) fun c hc => ?_
    refine ⟨h a.name List.mem_cons_self, isName_baseText fun n hn => h n ?_⟩
    exact List.mem_cons_of_mem _ (List.mem_flatMap.2 ⟨c, hc, hn⟩)
  | declaration d =>
    have hbase : ∀ n ∈ d.base.names, IsName n := fun n hn =>
      h n (List.mem_cons_of_mem _ (List.mem_append_left _ hn))
    refine .block rfl ⟨h d.name List.mem_cons_self, isName_baseRefText hbase⟩ trivial ?_
    refine laid_bodyLines trivial (fun _ => trivial) (fun q hq depth => ?_) (depth + 1)
    have hfield : ∀ n ∈ q.2.names, IsName n := fun n hn =>
      h n (List.mem_cons_of_mem _ (List.mem_append_right _
        (List.mem_flatMap.2 ⟨q.2, StubCode.mem_placed_asGuard hq, hn⟩)))
    have hkind : IsName q.2.kind := hfield _ (by simp [Field.names])
    have hname : IsName q.2.name := hfield _ (by simp [Field.names])
    exact .single rfl (by simp) ⟨hname, q.2, hkind, rfl⟩

theorem laid_statements {body : GuardBody MergedItem}
    (h : ∀ q ∈ body.placed, ∀ n ∈ q.2.names, IsName n) :
    ∀ statement ∈ statements settings body, Laid (Clause.Shows settings) 0 statement := by
  induction body with
  | nil => simp [statements]
  | item x rest ih =>
    rw [statements, List.forall_mem_cons]
    exact ⟨laid_itemLines (h ([], x) List.mem_cons_self) 0,
      ih fun q hq => h q (List.mem_cons_of_mem _ hq)⟩
  | guard c inner rest ihInner ihRest =>
    have hinner : ∀ q ∈ inner.placed, ∀ n ∈ q.2.names, IsName n := fun q hq =>
      h (c :: q.1, q.2) (List.mem_append_left _ (List.mem_map.2 ⟨q, hq, rfl⟩))
    rw [statements, List.forall_mem_append]
    refine ⟨?_, ihRest fun q hq => h q (List.mem_append_right _ hq)⟩
    split
    · exact ihInner hinner
    · rw [List.forall_mem_singleton]
      exact .block rfl trivial trivial
        (laid_bodyLines trivial (fun _ => trivial) (fun q hq => laid_itemLines (hinner q hq)) 1)

/-- A blank line between statements is laid with them. -/
theorem laid_addStatement {ls statement : List Line}
    (hls : Laid (Clause.Shows settings) 0 ls)
    (hstatement : Laid (Clause.Shows settings) 0 statement) :
    Laid (Clause.Shows settings) 0 (addStatement settings ls statement) := by
  refine Laid.append ?_ hstatement
  split
  · exact hls.append (.single rfl (fun _ => rfl) trivial)
  · exact hls

theorem laid_lines {m : MergedSchema} (h : ∀ i ∈ m.body.items, ∀ n ∈ i.names, IsName n) :
    Laid (Clause.Shows settings) 0 (lines settings m) := by
  have hstatements : ∀ statement ∈ statements settings m.body.asGuard,
      Laid (Clause.Shows settings) 0 statement :=
    laid_statements fun q hq => h q.2 (StubCode.mem_placed_asGuard hq)
  rw [lines]
  exact List.foldlRecOn _ _ .nil fun ls hls statement hmem =>
    laid_addStatement hls (hstatements statement hmem)

end Whole

end Stub

end SchemaLineage

import SchemaLineage.Proofs.Placement
import SchemaLineage.Proofs.StubLines

/-!
The code that a stub prints. Every item and every guard of a merge has its code, and the lines of
the stub are the lines of that code. Executing the code of a body does what its visible items do,
one after the other; a chain of tests does what its only case that holds does, for the last case is
reached exactly if none before it holds.
-/
namespace SchemaLineage.StubCode

open Stub

variable {reserved : List String} {settings : Settings} {unit depth : Nat}

/-- The lines are those of the code, in which headers, arms and names are in order. -/
structure Prints (reserved : List String) (unit depth : Nat) (ls : List Line) (code : Code) :
    Prop where
  lines : formLines unit ls = code.lines unit (depth * unit)
  nil_iff : ls = [] ↔ code = .nil
  named : ∀ line ∈ ls, WellNamed reserved line.clause
  wellFormed : code.WellFormed
  startsLater : code.startsLater = false

theorem formLines_append (ls ls' : List Line) :
    formLines unit (ls ++ ls') = formLines unit ls ++ formLines unit ls' :=
  List.filterMap_append

theorem formLines_cons {clause : Clause} {form : Form} (h : formOf? clause = some form)
    (ls : List Line) :
    formLines unit (⟨depth, clause⟩ :: ls) = (depth * unit, form) :: formLines unit ls := by
  rw [formLines, List.filterMap_cons, h]
  rfl

namespace Prints

theorem nil : Prints reserved unit depth [] .nil :=
  ⟨rfl, Iff.rfl.trans (by simp), by simp, trivial, rfl⟩

theorem append {ls ls' : List Line} {code code' : Code} (h : Prints reserved unit depth ls code)
    (h' : Prints reserved unit depth ls' code') :
    Prints reserved unit depth (ls ++ ls') (code.append code') := by
  refine ⟨?_, ?_, ?_, h.wellFormed.append h'.wellFormed h'.startsLater, ?_⟩
  · rw [formLines_append, Code.lines_append, h.lines, h'.lines]
  · rw [List.append_eq_nil_iff, Code.append_eq_nil_iff, h.nil_iff, h'.nil_iff]
  · intro line hline
    rcases List.mem_append.1 hline with hline | hline
    · exact h.named line hline
    · exact h'.named line hline
  · rw [Code.startsLater_append h'.startsLater, h.startsLater]

/-- A line that needs no block. -/
theorem single {clause : Clause} {form : Form} (hform : formOf? clause = some form)
    (hheader : form.isHeader = false) (hlater : form.isLater = false)
    (hnamed : WellNamed reserved clause) :
    Prints reserved unit depth [⟨depth, clause⟩] (.statement form .nil .nil) := by
  refine ⟨?_, by simp, by simpa using hnamed, ⟨hheader, rfl, by simp [Code.startsLater],
    trivial, trivial⟩, hlater⟩
  rw [formLines_cons hform]
  rfl

end Prints

def fill : Code → Code
  | .nil => .statement .ellipsis .nil .nil
  | .statement form inner rest => .statement form inner rest

theorem executed_fill (code : Code) (t : List Nat) :
    (fill code).executed t false = code.executed t false := by
  cases code <;> rfl

/-- A header prints with its block, which is filled if there is nothing in it. -/
theorem Prints.block {header : Clause} {form : Form} {ls : List Line} {code : Code}
    (hform : formOf? header = some form) (hheader : form.isHeader = true)
    (hlater : form.isLater = false) (hnamed : WellNamed reserved header)
    (h : Prints reserved unit (depth + 1) ls code) :
    Prints reserved unit depth (Stub.block depth header ls)
      (.statement form (fill code) .nil) := by
  have hfill : Prints reserved unit (depth + 1)
      (if ls.isEmpty then [⟨depth + 1, .ellipsis⟩] else ls) (fill code) := by
    cases code with
    | nil =>
      rw [h.nil_iff.2 rfl]
      exact Prints.single rfl rfl rfl ⟨trivial, trivial⟩
    | statement form inner rest =>
      have hne : ¬ ls.isEmpty = true := by
        rw [List.isEmpty_iff, h.nil_iff]
        simp
      rw [if_neg hne]
      exact h
  have hnotNil : (fill code).isNil = false := by
    cases code <;> rfl
  have hwidth : (depth + 1) * unit = depth * unit + unit := Nat.succ_mul depth unit
  refine ⟨?_, by simp [Stub.block], ?_, ?_, hlater⟩
  · rw [Stub.block, formLines_cons hform, hfill.lines, hwidth, Code.lines, Code.lines,
      List.append_nil]
  · intro line hline
    rcases List.mem_cons.1 hline with rfl | hline
    · exact hnamed
    · exact hfill.named line hline
  · refine ⟨by rw [hheader, hnotNil]; rfl, hfill.startsLater, by simp [Code.startsLater],
      hfill.wellFormed, trivial⟩

section Bodies

variable {α : Type}

def bodyCode (itemCode : α → Code) : GuardBody α → Code
  | .nil => .nil
  | .item x rest => (itemCode x).append (bodyCode itemCode rest)
  | .guard c inner rest =>
    (if c = .always then bodyCode itemCode inner
      else .statement (.ifHeader (testOf c)) (fill (bodyCode itemCode inner)) .nil).append
      (bodyCode itemCode rest)

theorem prints_bodyLines {itemLines : Nat → α → List Line} {itemCode : α → Code}
    {body : GuardBody α}
    (hitems : ∀ q ∈ body.placed, ∀ depth,
      Prints reserved unit depth (itemLines depth q.2) (itemCode q.2)) (depth : Nat) :
    Prints reserved unit depth (bodyLines itemLines depth body) (bodyCode itemCode body) := by
  induction body generalizing depth with
  | nil => exact Prints.nil
  | item x rest ih =>
    have hx := hitems ([], x) List.mem_cons_self depth
    exact hx.append (ih (fun q hq => hitems q (List.mem_cons_of_mem _ hq)) depth)
  | guard c inner rest ihInner ihRest =>
    have hinner := ihInner fun q hq =>
      hitems (c :: q.1, q.2) (List.mem_append_left _ (List.mem_map.2 ⟨q, hq, rfl⟩))
    have hrest := ihRest (fun q hq => hitems q (List.mem_append_right _ hq)) depth
    rw [bodyLines, bodyCode]
    refine Prints.append ?_ hrest
    split
    · exact hinner depth
    · exact Prints.block rfl rfl rfl ⟨trivial, trivial⟩ (hinner (depth + 1))

/-- The code of a body does what the items do that are visible. -/
theorem executed_bodyCode {itemCode : α → Code} {body : GuardBody α}
    (hitems : ∀ q ∈ body.placed, (itemCode q.2).startsLater = false) (v : Version) :
    (bodyCode itemCode body).startsLater = false ∧
      (bodyCode itemCode body).executed (tupleOf v) false =
        (body.visible v).flatMap fun x => (itemCode x).executed (tupleOf v) false := by
  induction body with
  | nil => exact ⟨rfl, rfl⟩
  | item x rest ih =>
    obtain ⟨hstart, hrest⟩ := ih fun q hq => hitems q (List.mem_cons_of_mem _ hq)
    have hx := hitems ([], x) List.mem_cons_self
    rw [bodyCode, Code.startsLater_append hstart, Code.executed_append hstart, hrest]
    exact ⟨hx, rfl⟩
  | guard c inner rest ihInner ihRest =>
    obtain ⟨hstartInner, hinner⟩ := ihInner fun q hq =>
      hitems (c :: q.1, q.2) (List.mem_append_left _ (List.mem_map.2 ⟨q, hq, rfl⟩))
    obtain ⟨hstart, hrest⟩ := ihRest fun q hq => hitems q (List.mem_append_right _ hq)
    rw [bodyCode, Code.startsLater_append hstart, Code.executed_append hstart, hrest,
      GuardBody.visible, List.flatMap_append]
    by_cases hc : c = .always
    · subst hc
      rw [if_pos rfl, hinner]
      exact ⟨hstartInner, rfl⟩
    · rw [if_neg hc]
      refine ⟨rfl, ?_⟩
      congr 1
      simp only [Code.executed, holds_testOf, executed_fill, hinner, List.append_nil]
      split <;> rfl

end Bodies

section Aliases

def caseCode (settings : Settings) (form : Form) (name : String) (base : Base) (rest : Code) :
    Code :=
  .statement form
    (.statement (.assignment name.toList (baseText settings base).toList) .nil .nil) rest

def laterCode (settings : Settings) (name : String) : List (Case Base) → Code
  | [] => .nil
  | [last] => caseCode settings .elseHeader name last.value .nil
  | c :: rest =>
    caseCode settings (.elifHeader (testOf c.condition)) name c.value
      (laterCode settings name rest)

def aliasCode (settings : Settings) (a : BaseAlias) : Code :=
  match a.cases with
  | [] => .nil
  | c :: rest =>
    caseCode settings (.ifHeader (testOf c.condition)) a.name c.value
      (laterCode settings a.name rest)

def NamedCases (reserved : List String) (settings : Settings) (name : String)
    (cases : List (Case Base)) : Prop :=
  ∀ c ∈ cases, WellNamed reserved (.assignment name (baseText settings c.value))

variable {name : String}

/-- An arm prints before the lines of other arms. -/
theorem formLines_caseLines {header : Clause} {form : Form} (hform : formOf? header = some form)
    (base : Base) {ls : List Line} {code : Code}
    (hlines : formLines unit ls = code.lines unit (depth * unit)) :
    formLines unit (caseLines settings depth header name base ++ ls) =
      (caseCode settings form name base code).lines unit (depth * unit) := by
  have hwidth : (depth + 1) * unit = depth * unit + unit := Nat.succ_mul depth unit
  rw [caseLines, List.cons_append, List.cons_append, List.nil_append, formLines_cons hform,
    formLines_cons rfl, hlines, hwidth]
  rfl

theorem wellFormed_caseCode {form : Form} (hheader : form.isHeader = true) (base : Base)
    {code : Code} (hcode : code.WellFormed)
    (hlater : code.startsLater = true → form.opensLater = true) :
    (caseCode settings form name base code).WellFormed := by
  refine ⟨by rw [hheader]; rfl, rfl, hlater, ⟨rfl, rfl, ?_, trivial, trivial⟩, hcode⟩
  intro h
  cases h

theorem named_caseLines (header : Clause) (hheader : WellNamed reserved header) {base : Base}
    (hbase : WellNamed reserved (.assignment name (baseText settings base))) :
    ∀ line ∈ caseLines settings depth header name base, WellNamed reserved line.clause := by
  intro line hline
  simp only [caseLines, List.mem_cons, List.not_mem_nil, or_false] at hline
  rcases hline with rfl | rfl
  · exact hheader
  · exact hbase

/-- The later arms print as their code. -/
theorem prints_laterCases {cases : List (Case Base)}
    (hnamed : NamedCases reserved settings name cases) :
    formLines unit (laterCases settings depth name cases) =
        (laterCode settings name cases).lines unit (depth * unit) ∧
      (∀ line ∈ laterCases settings depth name cases, WellNamed reserved line.clause) ∧
        (laterCode settings name cases).WellFormed := by
  fun_induction laterCode settings name cases with
  | case1 => exact ⟨rfl, by simp [laterCases], trivial⟩
  | case2 last =>
    have hlast := hnamed last List.mem_cons_self
    refine ⟨?_, named_caseLines .otherwise ⟨trivial, trivial⟩ hlast,
      wellFormed_caseCode rfl _ trivial ?_⟩
    · have hlines : formLines unit (caseLines settings depth .otherwise name last.value ++ []) =
          (caseCode settings .elseHeader name last.value .nil).lines unit (depth * unit) :=
        formLines_caseLines rfl last.value rfl
      rwa [List.append_nil] at hlines
    · intro h
      cases h
  | case3 c rest hrest ih =>
    obtain ⟨hlines, hnamedRest, hwf⟩ := ih fun c' hc' => hnamed c' (List.mem_cons_of_mem _ hc')
    have hc := hnamed c List.mem_cons_self
    have hcases : laterCases settings depth name (c :: rest) =
        caseLines settings depth (.laterTest c.condition) name c.value ++
          laterCases settings depth name rest := by
      rw [laterCases]
      exact hrest
    rw [hcases]
    refine ⟨formLines_caseLines rfl c.value hlines, fun line hline => ?_,
      wellFormed_caseCode rfl _ hwf fun _ => rfl⟩
    rcases List.mem_append.1 hline with hline | hline
    · exact named_caseLines (.laterTest c.condition) ⟨trivial, trivial⟩ hc line hline
    · exact hnamedRest line hline

theorem prints_aliasLines {a : BaseAlias} (hnamed : NamedCases reserved settings a.name a.cases) :
    Prints reserved unit depth (aliasLines settings depth a) (aliasCode settings a) := by
  obtain ⟨name, cases⟩ := a
  cases cases with
  | nil => exact Prints.nil
  | cons c rest =>
    obtain ⟨hlines, hnamedRest, hwf⟩ := @prints_laterCases reserved settings unit depth name rest
      fun c' hc' => hnamed c' (List.mem_cons_of_mem _ hc')
    have hc := hnamed c List.mem_cons_self
    refine ⟨formLines_caseLines rfl c.value hlines, by simp [aliasLines, caseLines, aliasCode,
      caseCode], fun line hline => ?_, wellFormed_caseCode rfl _ hwf fun _ => rfl, rfl⟩
    rcases List.mem_append.1 hline with hline | hline
    · exact named_caseLines (.test c.condition) ⟨trivial, trivial⟩ hc line hline
    · exact hnamedRest line hline

/-- Once an arm was taken, the others do nothing. -/
theorem executed_laterCode_of_done (settings : Settings) (name : String)
    (cases : List (Case Base)) (t : List Nat) :
    (laterCode settings name cases).executed t false = [] := by
  fun_induction laterCode settings name cases with
  | case1 => rfl
  | case2 last => rfl
  | case3 c rest hrest ih => simp [caseCode, Code.executed, ih]

/-- Of later arms the one is taken whose case is the only one that holds. -/
theorem executed_laterCode (settings : Settings) (name : String) {cases : List (Case Base)}
    {v : Version} {c : Case Base} (honly : cases.filter (·.condition.holds v) = [c]) :
    (laterCode settings name cases).executed (tupleOf v) true =
      [.assignment name.toList (baseText settings c.value).toList] := by
  fun_induction laterCode settings name cases with
  | case1 => cases honly
  | case2 last =>
    have hlast : last = c := by
      have hmem : c ∈ [last].filter (·.condition.holds v) := honly ▸ List.mem_singleton_self c
      exact (List.mem_singleton.1 (List.mem_filter.1 hmem).1).symm
    rw [hlast]
    rfl
  | case3 c' rest hrest ih =>
    rw [List.filter_cons] at honly
    by_cases hholds : c'.condition.holds v = true
    · rw [if_pos hholds] at honly
      obtain ⟨rfl, -⟩ := List.cons.inj honly
      simp [caseCode, Code.executed, holds_testOf, hholds, executed_laterCode_of_done]
    · rw [if_neg hholds] at honly
      simp [caseCode, Code.executed, holds_testOf, hholds, ih honly]

/-- An alias assigns the base of its only case that holds. -/
theorem executed_aliasCode (settings : Settings) {a : BaseAlias} {v : Version} {c : Case Base}
    (honly : a.cases.filter (·.condition.holds v) = [c]) :
    (aliasCode settings a).executed (tupleOf v) false =
      [.assignment a.name.toList (baseText settings c.value).toList] := by
  obtain ⟨name, cases⟩ := a
  cases cases with
  | nil => cases honly
  | cons c' rest =>
    rw [List.filter_cons] at honly
    by_cases hholds : c'.condition.holds v = true
    · rw [if_pos hholds] at honly
      obtain ⟨rfl, -⟩ := List.cons.inj honly
      simp [aliasCode, caseCode, Code.executed, holds_testOf, hholds, executed_laterCode_of_done]
    · rw [if_neg hholds] at honly
      have hrest := executed_laterCode settings name honly
      simp [aliasCode, caseCode, Code.executed, holds_testOf, hholds, hrest]

end Aliases

section Items

def fieldCode (f : Field) : Code :=
  .statement (.member f.name.toList f.annotation.toList) .nil .nil

def classCode (settings : Settings) (d : MergedDeclaration) : Code :=
  .statement (.classHeader d.name.toList (baseRefText settings d.base).toList)
    (fill (bodyCode fieldCode d.body.asGuard)) .nil

def itemCode (settings : Settings) : MergedItem → Code
  | .baseAlias a => aliasCode settings a
  | .declaration d => classCode settings d

def NamedItem (reserved : List String) (settings : Settings) : MergedItem → Prop
  | .baseAlias a => NamedCases reserved settings a.name a.cases
  | .declaration d =>
    WellNamed reserved (.classHeader d.name (baseRefText settings d.base)) ∧
      ∀ f ∈ d.body.items, WellNamed reserved (.member f.name f.annotation)

theorem mem_placed_asGuard {α : Type} {tree : GuardTree α} {q : List Condition × α}
    (hq : q ∈ tree.asGuard.placed) : q.2 ∈ tree.items := by
  rw [GuardTree.asGuard, GuardBody.placed, GuardBody.placed, List.append_nil, List.mem_map] at hq
  obtain ⟨q', hq', rfl⟩ := hq
  rw [GuardTree.items, GuardBody.items_eq_placed]
  exact List.mem_map.2 ⟨q', hq', rfl⟩

theorem visible_asGuard {α : Type} (tree : GuardTree α) (v : Version) :
    tree.asGuard.visible v = tree.evaluate v := by
  rw [GuardTree.asGuard, GuardBody.visible, GuardBody.visible, List.append_nil,
    GuardTree.evaluate]

theorem startsLater_itemCode (settings : Settings) (i : MergedItem) :
    (itemCode settings i).startsLater = false := by
  cases i with
  | baseAlias a =>
    obtain ⟨name, cases⟩ := a
    cases cases <;> rfl
  | declaration d => rfl

theorem prints_itemLines {i : MergedItem} (hnamed : NamedItem reserved settings i)
    (depth : Nat) :
    Prints reserved unit depth (itemLines settings depth i) (itemCode settings i) := by
  cases i with
  | baseAlias a => exact prints_aliasLines hnamed
  | declaration d =>
    refine Prints.block rfl rfl rfl hnamed.1 (prints_bodyLines (fun q hq depth => ?_) (depth + 1))
    exact Prints.single rfl rfl rfl (hnamed.2 q.2 (mem_placed_asGuard hq))

/-- A class statement has the fields that the declaration shows. -/
theorem executed_classCode (settings : Settings) (d : MergedDeclaration) (v : Version) :
    (classCode settings d).executed (tupleOf v) false =
      [.classStatement d.name.toList (baseRefText settings d.base).toList
        ((d.body.evaluate v).map fun f =>
          .member f.name.toList f.annotation.toList)] := by
  have hbody : (bodyCode fieldCode d.body.asGuard).executed (tupleOf v) false =
      (d.body.asGuard.visible v).flatMap fun f => (fieldCode f).executed (tupleOf v) false :=
    (executed_bodyCode (fun _ _ => rfl) v).2
  rw [classCode, Code.executed, executed_fill, hbody, visible_asGuard, List.map_eq_flatMap]
  rfl

end Items

section Programs

theorem flatten_statements (settings : Settings) (body : GuardBody MergedItem) :
    (statements settings body).flatten = bodyLines (itemLines settings) 0 body := by
  induction body with
  | nil => rfl
  | item x rest ih => rw [statements, List.flatten_cons, ih, bodyLines]
  | guard c inner rest ihInner ihRest =>
    rw [statements, List.flatten_append, ihRest, bodyLines]
    congr 1
    split
    · exact ihInner
    · rw [List.flatten_singleton]

/-- The blank lines between statements say nothing. -/
theorem formLines_foldl_addStatement (settings : Settings) (stmts : List (List Line))
    (ls : List Line) :
    formLines unit (stmts.foldl (addStatement settings) ls) =
      formLines unit ls ++ formLines unit stmts.flatten := by
  induction stmts generalizing ls with
  | nil => simp [formLines]
  | cons stmt stmts ih =>
    have hstep : formLines unit (addStatement settings ls stmt) =
        formLines unit ls ++ formLines unit stmt := by
      rw [addStatement]
      split
      · rw [formLines_append, formLines_append]
        exact congrArg (· ++ formLines unit stmt) (List.append_nil _)
      · exact formLines_append ls stmt
    rw [List.foldl_cons, ih, hstep, List.flatten_cons, formLines_append, List.append_assoc]

theorem named_foldl_addStatement (settings : Settings) {stmts : List (List Line)}
    {ls : List Line} (hls : ∀ line ∈ ls, WellNamed reserved line.clause)
    (hstmts : ∀ line ∈ stmts.flatten, WellNamed reserved line.clause) :
    ∀ line ∈ stmts.foldl (addStatement settings) ls, WellNamed reserved line.clause := by
  induction stmts generalizing ls with
  | nil => exact hls
  | cons stmt stmts ih =>
    rw [List.flatten_cons] at hstmts
    refine ih (fun line hline => ?_) fun line hline =>
      hstmts line (List.mem_append_right _ hline)
    rw [addStatement, List.mem_append] at hline
    rcases hline with hline | hline
    · split at hline
      · rcases List.mem_append.1 hline with hline | hline
        · exact hls line hline
        · obtain rfl := List.mem_singleton.1 hline
          exact ⟨trivial, trivial⟩
      · exact hls line hline
    · exact hstmts line (List.mem_append_left _ hline)

/-- The two line breaks after the preamble are blank lines. -/
theorem text_eq_unlines (settings : Settings) (m : MergedSchema) :
    Stub.text settings m = Stub.preamble settings ++
      Text.unlines ((⟨0, .blank⟩ :: ⟨0, .blank⟩ :: Stub.lines settings m).map
        (·.text settings)) := by
  have hblank : (⟨0, .blank⟩ : Line).text settings = "" := by
    simp [Line.text, Settings.indentation, Clause.text]
  have htwo : "\n\n" = "\n" ++ "\n" := rfl
  simp only [Stub.text, List.map_cons, hblank, Text.unlines, String.join_cons,
    String.empty_append, htwo, String.append_assoc]

/-- What comes after the preamble reads back as the code of the merge. -/
theorem read?_stub {m : MergedSchema} (hunit : 0 < unit)
    (hindent : settings.indent.toList = List.replicate unit ' ')
    (hsubject : OneLine settings.versionVariable)
    (hnamed : ∀ i ∈ m.body.items, NamedItem reserved settings i) :
    ∃ rest, Stub.text settings m = Stub.preamble settings ++ rest ∧
      Code.read? reserved settings.versionVariable.toList rest.toList =
        some (bodyCode (itemCode settings) m.body.asGuard) := by
  have hprints : Prints reserved unit 0 (bodyLines (itemLines settings) 0 m.body.asGuard)
      (bodyCode (itemCode settings) m.body.asGuard) :=
    prints_bodyLines (fun q hq => prints_itemLines (hnamed q.2 (mem_placed_asGuard hq))) 0
  rw [← flatten_statements] at hprints
  let ls : List Line := ⟨0, .blank⟩ :: ⟨0, .blank⟩ :: Stub.lines settings m
  have hnamedLines : ∀ line ∈ ls, WellNamed reserved line.clause := by
    intro line hline
    rcases List.mem_cons.1 hline with rfl | hline
    · exact ⟨trivial, trivial⟩
    · rcases List.mem_cons.1 hline with rfl | hline
      · exact ⟨trivial, trivial⟩
      · exact named_foldl_addStatement settings (by simp) hprints.named line hline
  have hlines : formLines unit ls =
      (bodyCode (itemCode settings) m.body.asGuard).lines unit 0 := by
    change formLines unit (Stub.lines settings m) = _
    rw [Stub.lines, formLines_foldl_addStatement, hprints.lines, Nat.zero_mul]
    rfl
  refine ⟨_, text_eq_unlines settings m, ?_⟩
  refine Code.read?_eq hprints.wellFormed hprints.startsLater hunit ?_
  rw [readLines?_unlines hindent hsubject hnamedLines, hlines]

end Programs

end SchemaLineage.StubCode

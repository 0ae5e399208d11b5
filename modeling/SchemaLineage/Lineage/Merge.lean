import SchemaLineage.Guard.Flatten
import SchemaLineage.Lineage.FieldOrder
import SchemaLineage.Lineage.Merged
import SchemaLineage.Schema.Defect

/-!
Merging the snapshots of a lineage. Everything that changes over the versions is guarded by the
condition that singles its versions out; a merge fails, rather than approximate, when the versions
of something are no contiguous run or when two versions order the same fields differently.
-/
namespace SchemaLineage

inductive RangeItem where
  | declaration
  | field (field : Field)
  | kind (kind : DeclarationKind)
  deriving DecidableEq

def RangeItem.text : RangeItem → String
  | declaration => "declaration"
  | field f => "field `" ++ f.text ++ "`"
  | kind k => "kind " ++ k.name

inductive MergeError where
  | noSnapshots
  | duplicateVersion (version : Version)
  | invalidSnapshot (version : Version) (defects : List Defect)
  | nonContiguous (name : String) (item : RangeItem) (versions observed : VersionSet)
  | ambiguousBase (name : String) (base : Base) (versions : VersionSet)
  | conflictingFieldOrder (name : String) (versions : VersionSet)
  deriving DecidableEq

def MergeError.message : MergeError → String
  | noSnapshots => "no schema snapshots to merge"
  | duplicateVersion v => "more than one snapshot tagged with version " ++ v.dotted
  | invalidSnapshot v defects =>
    "snapshot " ++ v.dotted ++ " is invalid: " ++ "; ".intercalate (defects.map Defect.message)
  | nonContiguous name item versions observed =>
    name ++ ": " ++ item.text ++ " is present in versions " ++ versions.text ++
      ", which is not a contiguous run of " ++ observed.text
  | ambiguousBase name base versions =>
    name ++ ": base " ++ base.text ++ " is used in versions " ++ versions.text ++
      ", which is not a contiguous run"
  | conflictingFieldOrder name versions =>
    name ++ ": field order cannot be reconciled across versions " ++ versions.text

namespace Merge

def guarded {α : Type} (c : Case α) (rest : GuardBody α) : GuardBody α :=
  if c.condition = .always then .item c.value rest
  else .guard c.condition (.item c.value .nil) rest

def bodyOfCases {α : Type} (cases : List (Case α)) : GuardBody α :=
  cases.foldr guarded .nil

def caseOfSpan {α : Type} (observed : VersionSet) (error : Span α → MergeError) (s : Span α) :
    Except MergeError (Case α) :=
  match Condition.classify s.versions observed with
  | some condition => .ok ⟨condition, s.value⟩
  | none => .error (error s)

def orderedShapes (h : History) : Except MergeError (List (Span Field)) :=
  let shapes := FieldShapes.ofHistory h
  match FieldOrder.order h shapes with
  | .ok order => .ok (order.filterMap shapes.get?)
  | .error stuck =>
    .error (.conflictingFieldOrder h.name
      ((stuck.filterMap shapes.get?).foldl (fun vs s => vs.union s.versions) .empty))

/-- The fields of a history under their guards, relative to the versions of the history. -/
def fieldTree (h : History) : Except MergeError (GuardTree Field) := do
  let shapes ← orderedShapes h
  let cases ← shapes.mapM (caseOfSpan h.observed fun s =>
    .nonContiguous h.name (.field s.value) s.versions h.observed)
  return (GuardTree.unconditional (bodyOfCases cases)).flatten

def kindCases (h : History) : Except MergeError (List (Case DeclarationKind)) :=
  h.kinds.mapM (caseOfSpan h.observed fun s =>
    .nonContiguous h.name (.kind s.value) s.versions h.observed)

def aliasName (name : String) : String :=
  "_" ++ name ++ "Base"

/-- The base of a history, with the alias that chooses it if it changes. -/
def baseOf (h : History) : Except MergeError (BaseRef × Option BaseAlias) :=
  match h.bases with
  | [only] => .ok (.fixed only.value, none)
  | bases => do
    let cases ← bases.mapM (caseOfSpan h.observed fun s => .ambiguousBase h.name s.value s.versions)
    return (.aliased (aliasName h.name), some ⟨aliasName h.name, cases⟩)

/-- The items of a history among all observed versions: its declaration, after its alias if there
is one, both under the guard of its existence if there are versions without it. -/
def historyBody (all : VersionSet) (h : History) : Except MergeError (GuardBody MergedItem) := do
  let existence ← match Condition.classify h.observed all with
    | some condition => Except.ok condition
    | none => Except.error (.nonContiguous h.name .declaration h.observed all)
  let fields ← fieldTree h
  let kinds ← kindCases h
  let (base, baseAlias?) ← baseOf h
  let declaration := MergedItem.declaration ⟨h.name, kinds, base, h.observed, existence, fields⟩
  let items := (baseAlias?.map MergedItem.baseAlias).toList ++ [declaration]
  return if existence = .always then .ofItems items else .guard existence (.ofItems items) .nil

def sorted (snapshots : List Snapshot) : List Snapshot :=
  snapshots.mergeSort fun s t => s.version ≤ t.version

def duplicate? (snapshots : List Snapshot) : Option Version :=
  (FieldOrder.neighbours (snapshots.map (·.version))).findSome? fun pair =>
    if pair.1 = pair.2 then some pair.2 else none

def invalid? (snapshots : List Snapshot) : Option MergeError :=
  snapshots.findSome? fun s =>
    if s.schema.defects.isEmpty then none else some (.invalidSnapshot s.version s.schema.defects)

/-- The merged schema of sorted snapshots, of which `latest` is the last one. -/
def ofSorted (latest : Snapshot) (snapshots : List Snapshot) : Except MergeError MergedSchema := do
  if let some v := duplicate? snapshots then throw (.duplicateVersion v)
  if let some e := invalid? snapshots then throw e
  let versions := VersionSet.ofList (snapshots.map (·.version))
  let bodies ← (histories snapshots).mapM (historyBody versions)
  let body := bodies.foldr GuardBody.append .nil
  return ⟨latest.schema.name, versions, (GuardTree.unconditional body).flatten⟩

end Merge

/-- The merged schema of a lineage, whose snapshots may come in any order. -/
def merge (snapshots : List Snapshot) : Except MergeError MergedSchema :=
  let snapshots := Merge.sorted snapshots
  match snapshots.getLast? with
  | none => .error .noSnapshots
  | some latest => Merge.ofSorted latest snapshots

end SchemaLineage

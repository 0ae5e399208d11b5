import SchemaLineage.Lineage.Merged
import SchemaLineage.Output.Annotation
import SchemaLineage.Output.Settings
import SchemaLineage.Text.Lines

/-!
A typing stub for all versions of a merged schema. Guards become `if` statements on the version, an
alias becomes a chain of them, a declaration a class. A stub is a list of clauses with their depths
of indentation; every header is followed by at least one deeper line.
-/
namespace SchemaLineage.Stub

inductive Clause where
  | blank
  | ellipsis
  | test (condition : Condition)
  | laterTest (condition : Condition)
  | otherwise
  | classHeader (name base : String)
  | assignment (name value : String)
  | member (name type : String)
  deriving DecidableEq

namespace Clause

def isHeader : Clause → Bool
  | test _ => true
  | laterTest _ => true
  | otherwise => true
  | classHeader _ _ => true
  | _ => false

end Clause

def conditionText (settings : Settings) : Condition → String
  | .always => "True"
  | .atLeast low => settings.versionVariable ++ " >= " ++ low.tuple
  | .atMost high => settings.versionVariable ++ " <= " ++ high.tuple
  | .between low high =>
    low.tuple ++ " <= " ++ settings.versionVariable ++ " <= " ++ high.tuple

def Clause.text (settings : Settings) : Clause → String
  | blank => ""
  | ellipsis => "..."
  | test c => "if " ++ conditionText settings c ++ ":"
  | laterTest c => "elif " ++ conditionText settings c ++ ":"
  | otherwise => "else:"
  | classHeader name base => "class " ++ name ++ "(" ++ base ++ "):"
  | assignment name value => name ++ " = " ++ value
  | member name type => name ++ ": " ++ type

/-- A clause at its depth; a blank line has depth zero. -/
structure Line where
  depth : Nat
  clause : Clause
  deriving DecidableEq

def Line.text (settings : Settings) (line : Line) : String :=
  settings.indentation line.depth ++ line.clause.text settings

def baseText (settings : Settings) : Base → String
  | .root => settings.baseClass
  | .named name => name

/-- A header with the deeper lines below it; if there are none, an ellipsis. -/
def block (depth : Nat) (header : Clause) (body : List Line) : List Line :=
  ⟨depth, header⟩ :: if body.isEmpty then [⟨depth + 1, .ellipsis⟩] else body

def bodyLines {α : Type} (itemLines : Nat → α → List Line) (depth : Nat) :
    GuardBody α → List Line
  | .nil => []
  | .item x rest => itemLines depth x ++ bodyLines itemLines depth rest
  | .guard c inner rest =>
    (if c = .always then bodyLines itemLines depth inner
      else block depth (.test c) (bodyLines itemLines (depth + 1) inner)) ++
      bodyLines itemLines depth rest

def fieldLines (depth : Nat) (f : Field) : List Line :=
  [⟨depth, .member f.name f.annotation⟩]

def caseLines (settings : Settings) (depth : Nat) (header : Clause) (name : String) (base : Base) :
    List Line :=
  [⟨depth, header⟩, ⟨depth + 1, .assignment name (baseText settings base)⟩]

/-- The cases of an alias after the first one; the last of them needs no test. -/
def laterCases (settings : Settings) (depth : Nat) (name : String) : List (Case Base) → List Line
  | [] => []
  | [last] => caseLines settings depth .otherwise name last.value
  | c :: rest =>
    caseLines settings depth (.laterTest c.condition) name c.value ++
      laterCases settings depth name rest

def aliasLines (settings : Settings) (depth : Nat) (a : BaseAlias) : List Line :=
  match a.cases with
  | [] => []
  | c :: rest =>
    caseLines settings depth (.test c.condition) a.name c.value ++
      laterCases settings depth a.name rest

def baseRefText (settings : Settings) : BaseRef → String
  | .fixed base => baseText settings base
  | .aliased name => name

def classLines (settings : Settings) (depth : Nat) (d : MergedDeclaration) : List Line :=
  block depth (.classHeader d.name (baseRefText settings d.base))
    (bodyLines fieldLines (depth + 1) d.body.asGuard)

def itemLines (settings : Settings) (depth : Nat) : MergedItem → List Line
  | .baseAlias a => aliasLines settings depth a
  | .declaration d => classLines settings depth d

def statements (settings : Settings) : GuardBody MergedItem → List (List Line)
  | .nil => []
  | .item x rest => itemLines settings 0 x :: statements settings rest
  | .guard c inner rest =>
    (if c = .always then statements settings inner
      else [block 0 (.test c) (bodyLines (itemLines settings) 1 inner)]) ++
      statements settings rest

/-- Whether a blank line is due after the lines so far: not at the start, after another blank line
or after a line that ends in a colon. -/
def needsGap (settings : Settings) (lines : List Line) : Bool :=
  match lines.getLast? with
  | none => false
  | some last =>
    last.clause ≠ .blank && (last.clause.text settings).toList.getLast? ≠ some ':'

def addStatement (settings : Settings) (lines statement : List Line) : List Line :=
  (if needsGap settings lines then lines ++ [⟨0, .blank⟩] else lines) ++ statement

def lines (settings : Settings) (m : MergedSchema) : List Line :=
  (statements settings m.body.asGuard).foldl (addStatement settings) []

def preamble (settings : Settings) : String :=
  let indent := settings.indentation 1
  "from __future__ import annotations\n\nimport sys\nimport typing\n\n\n" ++
    "class " ++ settings.baseClass ++ ":\n" ++
    indent ++ "_attributes: typing.ClassVar[typing.Tuple[str, ...]]\n" ++
    indent ++ "_fields: typing.ClassVar[typing.Tuple[str, ...]]\n" ++
    indent ++ "def __init__(self, *args: typing.Any, **kwargs: typing.Any) -> None: ...\n" ++
    indent ++ "def __getattribute__(self, name: str) -> typing.Any: ...\n" ++
    indent ++ "def __setattr__(self, name: str, value: typing.Any) -> None: ...\n" ++
    indent ++ "def __delattr__(self, name: str) -> None: ...\n\n\n" ++
    "identifier = str\nstring = typing.AnyStr\n" ++ constantAlias

def text (settings : Settings) (m : MergedSchema) : String :=
  preamble settings ++ "\n\n" ++ Text.unlines ((lines settings m).map (·.text settings))

end SchemaLineage.Stub

import SchemaLineage.Output.Annotation
import SchemaLineage.Output.Settings

/-!
A module of data classes for one schema. A simple sum becomes an enumeration; any other sum becomes
a plain class, from which the data classes of its constructors derive; a product becomes a data
class.
-/
namespace SchemaLineage

/-- A class statement: a body without lines is written as an ellipsis. -/
structure ClassBlock where
  decorated : Bool
  name : String
  base : String
  body : List String
  deriving DecidableEq

def ClassBlock.text (settings : Settings) (block : ClassBlock) : String :=
  let lines := if block.body.isEmpty then ["..."] else block.body
  (if block.decorated then "@_dataclass\n" else "") ++
    "class " ++ block.name ++ "(" ++ block.base ++ "):\n" ++
    String.join (lines.map fun line => settings.indentation 1 ++ line ++ "\n")

namespace Dataclasses

def defaultText (settings : Settings) (q : Qualifier) : String :=
  if settings.withDefaults then
    match q with
    | .required => ""
    | .optional => " = _field(default=None)"
    | .sequence => " = _field(default_factory=list)"
  else ""

def fieldLine (settings : Settings) (f : Field) : String :=
  f.name ++ ": " ++ f.annotation ++ defaultText settings f.qualifier

def constructorBlock (settings : Settings) (sum : String) (c : Constructor) : ClassBlock :=
  ⟨true, c.name, sum, c.fields.map (fieldLine settings)⟩

def blocks (settings : Settings) (t : TypeDef) : List ClassBlock :=
  match t.body with
  | .sum s =>
    if s.isSimple then
      [⟨false, t.name, "_Enum", s.constructors.map fun c => c.name ++ " = _auto()"⟩]
    else
      ⟨false, t.name, settings.baseClass, s.attributes.map (fieldLine settings)⟩ ::
        s.constructors.map (constructorBlock settings t.name)
  | .product p =>
    [⟨true, t.name, settings.baseClass, (p.fields ++ p.attributes).map (fieldLine settings)⟩]

def preamble (settings : Settings) : String :=
  "from __future__ import annotations\n\nimport typing\n" ++
    "from dataclasses import dataclass as _dataclass, field as _field\n" ++
    "from enum import Enum as _Enum, auto as _auto\n\n" ++
    "identifier = str\nstring = typing.Union[str, bytes]\n" ++ constantAlias ++
    "\n\nclass " ++ settings.baseClass ++ ":\n" ++ settings.indentation 1 ++ "...\n"

def text (settings : Settings) (s : Schema) : String :=
  preamble settings ++
    String.join ((s.types.flatMap (blocks settings)).map fun b => "\n\n" ++ b.text settings)

end Dataclasses

end SchemaLineage

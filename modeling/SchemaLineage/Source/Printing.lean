import SchemaLineage.Schema.Basic

/-!
The text of a schema, one type a line. Reading it gives the schema back if its names are names of
the language and every sum has a constructor.
-/
namespace SchemaLineage

def fieldListText (fs : List Field) : String :=
  "(" ++ ", ".intercalate (fs.map Field.text) ++ ")"

def attributesText : List Field → String
  | [] => ""
  | fs => " attributes " ++ fieldListText fs

def Constructor.text (c : Constructor) : String :=
  match c.fields? with
  | some fs => c.name ++ fieldListText fs
  | none => c.name

def TypeBody.text : TypeBody → String
  | sum s => " | ".intercalate (s.constructors.map Constructor.text) ++ attributesText s.attributes
  | product p => fieldListText p.fields ++ attributesText p.attributes

def TypeDef.text (t : TypeDef) : String :=
  t.name ++ " = " ++ t.body.text

def Schema.text (s : Schema) : String :=
  "module " ++ s.name ++ " \x7b\n" ++
    String.join (s.types.map fun t => "    " ++ t.text ++ "\n") ++ "\x7d\n"

end SchemaLineage

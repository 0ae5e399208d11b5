import SchemaLineage.Schema.Basic

/-!
The GraphQL schema language for one schema. A simple sum becomes an enumeration, any other sum a
union of the object types of its constructors, a product an object type; attributes are left out.
-/
namespace SchemaLineage.GraphQL

def scalar (kind : String) : String :=
  if kind = "int" then "Int"
  else if kind = "string" ∨ kind = "identifier" then "String"
  else kind

def fieldText (f : Field) : String :=
  let kind := scalar f.kind
  f.name ++ ": " ++
    match f.qualifier with
    | .required => kind ++ "!"
    | .optional => kind
    | .sequence => "[" ++ kind ++ "]"

def block (keyword name : String) (entries : List String) : String :=
  keyword ++ " " ++ name ++ " \x7b\n" ++
    String.join (entries.map fun entry => "  " ++ entry ++ "\n") ++ "\x7d\n"

def objectType (name : String) (fields : List Field) : String :=
  block "type" name (fields.map fieldText)

def typeText (t : TypeDef) : String :=
  match t.body with
  | .sum s =>
    let names := s.constructors.map (·.name)
    if s.isSimple then block "enum" t.name names
    else
      "union " ++ t.name ++ " = " ++ " | ".intercalate names ++ "\n" ++
        String.join (s.constructors.map fun c => objectType c.name c.fields)
  | .product p => objectType t.name p.fields

def text (s : Schema) : String :=
  String.join (s.types.map typeText)

end SchemaLineage.GraphQL

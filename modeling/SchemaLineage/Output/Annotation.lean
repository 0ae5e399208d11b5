import SchemaLineage.Schema.Basic

/-!
Type annotations of fields, and the aliases of builtin types that all written modules share.
-/
namespace SchemaLineage

def Field.annotation (f : Field) : String :=
  match f.qualifier with
  | .required => f.kind
  | .optional => "typing.Optional[" ++ f.kind ++ "]"
  | .sequence => "typing.List[" ++ f.kind ++ "]"

def constantAlias : String :=
  "constant = typing.Union[\n    str,\n    bytes,\n    # strings\n    int,\n    float,\n" ++
    "    complex,\n    # numbers\n    bool,\n    # other\n    tuple,\n    frozenset,\n" ++
    "    # sequences\n    None,\n    type(Ellipsis)\n    # singletons\n]\n"

end SchemaLineage

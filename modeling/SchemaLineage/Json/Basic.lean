/-!
JSON values. A number keeps the spelling it was written in. Of several members of one key the last
one counts.
-/
namespace SchemaLineage

inductive Json where
  | null
  | bool (value : Bool)
  | number (spelling : String)
  | string (value : String)
  | array (elements : List Json)
  | object (members : List (String × Json))
  deriving Inhabited

namespace Json

def lookup (key : String) (members : List (String × Json)) : Option Json :=
  (members.reverse.find? (·.1 = key)).map (·.2)

def get? (key : String) : Json → Option Json
  | object members => lookup key members
  | _ => none

def single? : Json → Option (String × Json)
  | object members =>
    match members.getLast? with
    | some member => if members.all (·.1 = member.1) then some member else none
    | none => none
  | _ => none

def string? : Json → Option String
  | string s => some s
  | _ => none

def bool? : Json → Option Bool
  | bool b => some b
  | _ => none

def array? : Json → Option (List Json)
  | array xs => some xs
  | _ => none

/-- The values of a record with the given keys, as far as they are present. A record is written as
an object, in which other keys do not matter, or as the array of its first values. -/
def record? (keys : List String) : Json → Option (List (Option Json))
  | object members => some (keys.map fun key => lookup key members)
  | array xs =>
    if xs.length ≤ keys.length then
      some (xs.map some ++ List.replicate (keys.length - xs.length) none)
    else none
  | _ => none

def arrayOf? {α : Type} (read : Json → Option α) (j : Json) : Option (List α) :=
  j.array?.bind fun xs => xs.mapM read

def orDefault {α : Type} (default : α) (read : Json → Option α) : Option Json → Option α
  | none => some default
  | some j => read j

end Json

end SchemaLineage

import SchemaLineage.Yaml.Node.Reading
import SchemaLineage.Yaml.Tokens

/-!
Reading the one document of a YAML text. Directives may stand before it, and need the marker that
starts it; after it, only markers that end it may stand.
-/
namespace SchemaLineage.Yaml

def defaultHandles : List (List Char × FullTag) :=
  [(['!'], ['!'.toNat]), (['!', '!'], "tag:yaml.org,2002:".toList.map (·.toNat))]

def splitDirectives : List Token → List Directive × List Token
  | .directive d :: ts =>
    let (ds, ts) := splitDirectives ts
    (d :: ds, ts)
  | ts => ([], ts)

/-- What handles stand for after some directives, each of which says something of its own. -/
def handles? (ds : List Directive) : Option (List (List Char × FullTag)) :=
  let handles := ds.filterMap fun
    | .handle name octets => some (name, octets)
    | .version => none
  if (ds.filter (· matches .version)).length ≤ 1 ∧ (handles.map (·.1)).Nodup then
    some (handles ++ defaultHandles)
  else none

def endsDocument (t : Token) : Bool :=
  t matches .directive _ | .documentStart | .documentEnd

structure Content where
  root : Node
  names : Names

/-- The document that a node is if no other one follows. -/
def alone? {bound : Nat} (s : Step Node bound) : Option Content :=
  if s.rest.all (· matches .documentEnd) then some ⟨s.content, s.names⟩ else none

def contentOfTokens? (ts : List Token) : Option Content := do
  let (directives, ts) := splitDirectives ts
  let names : Names := { handles := ← handles? directives }
  match ts with
  | .documentStart :: ts => (slot? .lines endsDocument names ts).bind alone?
  | ts =>
    if !directives.isEmpty then none
    else if ts.isEmpty then some ⟨.empty, names⟩
    else (node? .lines names ts).bind alone?

/-- The document that a text spells; a text without content spells an empty one. -/
def content? (s : String) : Option Content :=
  (tokens? s.toList).bind contentOfTokens?

end SchemaLineage.Yaml

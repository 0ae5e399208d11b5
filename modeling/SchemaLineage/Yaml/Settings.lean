import SchemaLineage.Document.Settings
import SchemaLineage.Yaml.Printing
import SchemaLineage.Yaml.Reading

/-!
Settings in YAML. A text setting takes any scalar as it is spelled, a switch takes a truth value; a
setting may be given once, and keys that name no setting do not matter.
-/
namespace SchemaLineage.Settings

def flagTag : Yaml.FullTag :=
  "tag:yaml.org,2002:bool".toList.map (·.toNat)

def textOf? (names : Yaml.Names) (n : Yaml.Node) : Option String :=
  (names.scalar? n).map (·.text)

/-- The truth value of a plain scalar, or of a literal one with the tag of truth values. -/
def flagOf? (names : Yaml.Names) (n : Yaml.Node) : Option Bool := do
  let s ← names.scalar? n
  if s.style = .plain ∨ (s.style = .literal ∧ s.tag = some flagTag) then Yaml.bool? s.text else none

def withEntry (names : Yaml.Names) (s : Settings) (key : String) (value : Yaml.Node) :
    Option Settings :=
  if key = "base_class" then
    (textOf? names value).map fun text => { s with baseClass := text }
  else if key = "with_defaults" then
    (flagOf? names value).map fun flag => { s with withDefaults := flag }
  else if key = "version_variable" then
    (textOf? names value).map fun text => { s with versionVariable := text }
  else if key = "header" then (flagOf? names value).map fun flag => { s with header := flag }
  else if key = "indent" then (textOf? names value).map fun text => { s with indent := text }
  else some s

def ofEntries? (names : Yaml.Names) (entries : List (Yaml.Node × Yaml.Node)) :
    Option Settings := do
  let given ← entries.mapM fun (key, _) => textOf? names key
  if keys.any fun key => (given.filter (· = key)).length > 1 then none
  (given.zip entries).foldlM (fun s (key, entry) => s.withEntry names key entry.2) {}

/-- The settings that a document gives. An empty one gives none. -/
def ofContent? (c : Yaml.Content) : Option Settings :=
  match c.root with
  | .mapping entries => ofEntries? c.names entries
  | .scalar s => if s.style = .plain ∧ s.text.isEmpty then some {} else none
  | _ => none

def ofYaml (text : String) : Except YamlError Settings :=
  match (Yaml.content? text).bind ofContent? with
  | some s => .ok s
  | none => .error .malformed

def yamlText (s : Settings) : Except YamlError String :=
  s.document.yamlText

end SchemaLineage.Settings

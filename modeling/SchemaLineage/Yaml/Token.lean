import SchemaLineage.Yaml.Tag

/-!
The tokens of YAML texts. Besides the signs that are written, there are tokens for what depth alone
shows: where it grows, a collection opens, and where it shrinks, one closes.
-/
namespace SchemaLineage.Yaml

inductive ScalarStyle where
  | plain
  | quoted
  | literal
  | folded
  deriving DecidableEq

/-- A scalar; without anything written, it is an empty plain one. -/
structure Scalar where
  style : ScalarStyle := .plain
  text : String := ""
  tag : Option FullTag := none
  deriving DecidableEq

inductive Token where
  | directive (content : Directive)
  | documentStart
  | documentEnd
  /-- The start of a list outside of brackets. -/
  | openList
  /-- The start of a mapping outside of brackets. -/
  | openMapping
  /-- The end of a list or a mapping outside of brackets. -/
  | dedent
  | openBracket
  | closeBracket
  | openBrace
  | closeBrace
  | dash
  | comma
  /-- The start of a key, which has no sign of its own if it is short. -/
  | key
  | value
  | anchor (name : String)
  | reference (name : String)
  | tag (content : Tag)
  | scalar (content : Scalar)

end SchemaLineage.Yaml

import SchemaLineage.Yaml.Spot

/-!
Plain YAML scalars, which have no quotes. Words go on over blanks and line ends until a sign or a
comment ends the scalar, or a line that is not deep enough.
-/
namespace SchemaLineage.Yaml

def isFlowSign (c : Char) : Bool :=
  c == ',' || c == '[' || c == ']' || c == '\x7b' || c == '\x7d'

/-- Whether a plain scalar can start here: not with an indicator, unless that is a hyphen or,
outside of brackets, a question mark or a colon right before a word. -/
def startsPlain (inBrackets : Bool) : List Spot → Bool
  | [] => false
  | p :: s =>
    if p.char = '-' then !endsWord s
    else if p.char = '?' ∨ p.char = ':' then !inBrackets && !endsWord s
    else !isGapOrBreak p.char && !isFlowSign p.char && !"#&*!|>'\"%@`".toList.contains p.char

structure Plain where
  text : List Char
  /-- How many characters it takes, with the blanks and line ends after it. -/
  size : Nat
  /-- Whether a line ends after it. -/
  endsLine : Bool

def Plain.cons (text : List Char) (rest : Plain) : Plain :=
  { rest with text := text ++ rest.text, size := rest.size + 1 }

/-- Reads on in a plain scalar that must be at least as deep as `depth`; `gap` holds the blanks and
line ends since the last word, last one first. A tab is no indentation. -/
def plainFrom (inBrackets : Bool) (depth : Nat) (gap : List Char) : List Spot → Option Plain
  | [] => some ⟨[], 0, gap.any isBreak⟩
  | p :: s =>
    if isGapOrBreak p.char then
      if p.char = '\t' ∧ gap.any isBreak ∧ p.column < depth then none
      else (plainFrom inBrackets depth (p.char :: gap) s).map (.cons [])
    else if isAnyMarker (p :: s) || (!gap.isEmpty && p.char = '#') ||
        (gap.any isBreak && !inBrackets && p.column < depth) then
      some ⟨[], 0, gap.any isBreak⟩
    else if inBrackets && p.char = ':' && s.head?.any (fun q => isFlowSign q.char || q.char = '?')
    then none
    else if (p.char = ':' && endsWord s) || (inBrackets && isFlowSign p.char) then
      some ⟨[], 0, gap.any isBreak⟩
    else (plainFrom inBrackets depth [] s).map (.cons (folded gap.reverse ++ [p.char]))

end SchemaLineage.Yaml

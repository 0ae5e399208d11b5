import SchemaLineage.Yaml.Layout
import SchemaLineage.Yaml.Literal
import SchemaLineage.Yaml.Plain
import SchemaLineage.Yaml.Quoted

/-!
Cutting YAML texts into tokens. Between tokens stand blanks, line ends and comments. Tabs are no
indentation, so where a key may start outside of brackets, none may stand.
-/
namespace SchemaLineage.Yaml

namespace Layout

def directive? (l : Layout) (s : List Spot) : Option (Layout × Nat) := do
  let line := chars (lineRest s)
  let content ← Yaml.directive? line
  let l ← l.boundary? (.directive content)
  return (l, line.length + 1)

def name? (s : List Spot) : Option (String × Nat) :=
  let name := chars (s.takeWhile fun p => isWordPart p.char)
  let rest := s.drop name.length
  if name.isEmpty then none
  else if endsWord rest || rest.head?.any (fun p => "?:,]\x7d%@`".toList.contains p.char) then
    some (String.ofList name, name.length)
  else none

def named? (l : Layout) (p : Spot) (s : List Spot) (token : String → Token) :
    Option (Layout × Nat) := do
  let (name, size) ← name? s
  let l ← l.word? p (token name) false
  return (l, size)

def tag? (l : Layout) (p : Spot) (s : List Spot) : Option (Layout × Nat) := do
  let word := chars ((p :: s).takeWhile fun p => !isGapOrBreak p.char)
  let (tag, rest) ← splitTag word
  if rest.isEmpty || (l.inBrackets && rest.head? = some ',') then
    let l ← l.word? p (.tag tag) false
    return (l, word.length - rest.length - 1)
  else none

def quoted? (l : Layout) (p : Spot) (s : List Spot) : Option (Layout × Nat) := do
  let (text, size) ← quotedFrom p.char {} s
  let l ← l.word? p (.scalar { style := .quoted, text := String.ofList text }) false
  return (l, size)

def literal? (l : Layout) (style : ScalarStyle) (s : List Spot) : Option (Layout × Nat) := do
  let (text, size) ← Yaml.literal? (style = .folded) l.depths.head? s
  let l ← l.sign? (.scalar { style, text := String.ofList text }) true
  return (l, size)

def plain? (l : Layout) (p : Spot) (s : List Spot) : Option (Layout × Nat) := do
  let plain ← plainFrom l.inBrackets ((l.depths.head?.map (· + 1)).getD 0) [] (p :: s)
  let l ← l.word? p (.scalar { text := String.ofList plain.text }) plain.endsLine
  return (l, plain.size - 1)

/-- Reads the token that starts at a place: the layout after it, and how many characters it takes
besides the first one. -/
def next? (l : Layout) (p : Spot) (s : List Spot) : Option (Layout × Nat) := do
  let l ← l.keepStarts? p
  let l := l.dedent (some p.column)
  let single (l : Option Layout) : Option (Layout × Nat) := l.map fun l => (l, 0)
  if p.column = 0 ∧ p.char = '%' then l.directive? s
  else if isMarker '-' (p :: s) then (l.boundary? .documentStart).map fun l => (l, 2)
  else if isMarker '.' (p :: s) then (l.boundary? .documentEnd).map fun l => (l, 2)
  else if p.char = '[' then single (l.openFlow? p .openBracket)
  else if p.char = '\x7b' then single (l.openFlow? p .openBrace)
  else if p.char = ']' then single (l.closeFlow? .closeBracket)
  else if p.char = '\x7d' then single (l.closeFlow? .closeBrace)
  else if p.char = ',' then single (l.sign? .comma true)
  else if p.char = '-' && endsWord s then
    if l.inBrackets then none else single (l.part? p .dash .openList)
  else if p.char = '?' && (l.inBrackets || endsWord s) then single (l.part? p .key .openMapping)
  else if p.char = ':' && (l.inBrackets || endsWord s) then single (l.value? p)
  else if p.char = '*' then l.named? p s .reference
  else if p.char = '&' then l.named? p s .anchor
  else if p.char = '!' then l.tag? p s
  else if p.char = '|' && !l.inBrackets then l.literal? .literal s
  else if p.char = '>' && !l.inBrackets then l.literal? .folded s
  else if p.char = '\'' ∨ p.char = '"' then l.quoted? p s
  else if startsPlain l.inBrackets (p :: s) then l.plain? p s
  else none

/-- Whether a character between tokens has no meaning: a blank, or a byte order mark at the start of
a line. -/
def skips (l : Layout) (p : Spot) : Bool :=
  p.char = ' ' || (p.char = '\t' && (l.inBrackets || !l.allowsKey)) ||
    (p.char = '\ufeff' && p.column = 0)

def tokens? (l : Layout) : List Spot → Option (List Token)
  | [] => l.finish?
  | p :: s =>
    if isBreak p.char then l.nextLine.tokens? s
    else if l.skips p then l.tokens? s
    else if p.char = '#' then l.tokens? (s.drop (lineRest s).length)
    else
      match l.next? p s with
      | none => none
      | some (l, n) => l.tokens? (s.drop n)
termination_by s => s.length
decreasing_by
  all_goals simp only [List.length_drop, List.length_cons]
  all_goals omega

end Layout

def isAllowed (c : Char) : Bool :=
  isPrintable c || c == '\t' || c == '\n' || c == '\r' || c == '\u0085' || c == '\ufeff'

def tokens? (cs : List Char) : Option (List Token) :=
  if cs.all isAllowed then Layout.tokens? {} (spots cs) else none

end SchemaLineage.Yaml

import SchemaLineage.Source.Token
import SchemaLineage.Text.Blank

/-!
Cutting a text into tokens. Between tokens stand blanks and comments, which run from two hyphens to
the end of the line. Nothing of the text is lost: each cut splits it into what was skipped or
spelled and what is left.
-/
namespace SchemaLineage.Lexing

/-- Splits off the blanks and comments at the start of a text; `inComment` tells whether the text
starts within a comment. -/
def splitTrivia (inComment : Bool) : List Char → List Char × List Char
  | [] => ([], [])
  | c :: cs =>
    if inComment then
      let (skipped, rest) := splitTrivia (c != '\n') cs
      (c :: skipped, rest)
    else if Text.isBlank c then
      let (skipped, rest) := splitTrivia false cs
      (c :: skipped, rest)
    else if c = '-' ∧ cs.head? = some '-' then
      let (skipped, rest) := splitTrivia true cs
      (c :: skipped, rest)
    else ([], c :: cs)

theorem splitTrivia_append (inComment : Bool) (cs : List Char) :
    (splitTrivia inComment cs).1 ++ (splitTrivia inComment cs).2 = cs := by
  induction cs generalizing inComment with
  | nil => rfl
  | cons c cs ih =>
    simp only [splitTrivia]
    split
    · simp [ih]
    · split
      · simp [ih]
      · split <;> simp [ih]

/-- A quoted literal after its opening quote: its value, its spelling up to the closing quote, and
what is left. A backslash takes the next character as it is; only an escaped newline may stand in a
literal. -/
structure Literal where
  value : List Char
  spelling : List Char
  rest : List Char

def splitLiteral (quote : Char) : List Char → Option Literal
  | [] => none
  | c :: cs =>
    if c = quote then some ⟨[], [c], cs⟩
    else if c = '\\' then
      match cs with
      | [] => none
      | e :: cs => (splitLiteral quote cs).map fun l => ⟨e :: l.value, c :: e :: l.spelling, l.rest⟩
    else if c = '\n' then none
    else (splitLiteral quote cs).map fun l => ⟨c :: l.value, c :: l.spelling, l.rest⟩

theorem splitLiteral_append {quote : Char} {cs : List Char} {l : Literal}
    (h : splitLiteral quote cs = some l) : l.spelling ++ l.rest = cs := by
  fun_induction splitLiteral quote cs generalizing l with
  | case1 => cases h
  | case2 => cases h; rfl
  | case3 => cases h
  | case4 e cs _ ih =>
    obtain ⟨l', hl', rfl⟩ := Option.map_eq_some_iff.1 h
    simp [ih hl']
  | case5 => cases h
  | case6 c cs _ _ _ ih =>
    obtain ⟨l', hl', rfl⟩ := Option.map_eq_some_iff.1 h
    simp [ih hl']

def isNameStart (c : Char) : Bool :=
  c.isAlpha || c == '_'

def isNamePart (c : Char) : Bool :=
  c.isAlphanum || c == '_'

def isQuote (c : Char) : Bool :=
  c == '"' || c == '\''

structure Lexeme where
  token : Token
  spelling : List Char
  rest : List Char

/-- The token that the text `c :: cs` starts with; a name is taken as long as it goes. -/
def splitLexeme (c : Char) (cs : List Char) : Except SyntaxFault Lexeme :=
  match Token.ofSign? c with
  | some token => .ok ⟨token, [c], cs⟩
  | none =>
    if isQuote c then
      match splitLiteral c cs with
      | some l => .ok ⟨.string (String.ofList l.value), c :: l.spelling, l.rest⟩
      | none => .error .unterminatedString
    else if isNameStart c then
      let spelling := c :: cs.takeWhile isNamePart
      .ok ⟨.name (String.ofList spelling), spelling, cs.dropWhile isNamePart⟩
    else .error (.unexpectedCharacter c)

theorem splitLexeme_append {c : Char} {cs : List Char} {l : Lexeme}
    (h : splitLexeme c cs = .ok l) : l.spelling ++ l.rest = c :: cs ∧ l.spelling ≠ [] := by
  unfold splitLexeme at h
  split at h
  · cases h; simp
  · split at h
    · split at h
      · rename_i literal hl
        cases h
        simp [splitLiteral_append hl]
      · cases h
    · split at h
      · cases h; simp
      · cases h

/-- A spelled token leaves less text. -/
theorem length_rest_lt {c : Char} {cs : List Char} {l : Lexeme} (h : splitLexeme c cs = .ok l) :
    l.rest.length < cs.length + 1 := by
  obtain ⟨happ, hne⟩ := splitLexeme_append h
  have hlen := congrArg List.length happ
  have hpos := List.length_pos_iff.2 hne
  simp only [List.length_append, List.length_cons] at hlen
  omega

structure Fault where
  position : Position
  fault : SyntaxFault
  deriving DecidableEq

def tokensFrom (p : Position) (cs : List Char) : Except Fault TokenStream :=
  let here := p.after (splitTrivia false cs).1
  match _hcut : (splitTrivia false cs).2 with
  | [] => .ok ⟨[], here⟩
  | c :: tail =>
    match _hlex : splitLexeme c tail with
    | .error fault => .error ⟨here, fault⟩
    | .ok lexeme => do
      let stream ← tokensFrom (here.after lexeme.spelling) lexeme.rest
      return ⟨⟨lexeme.token, here⟩ :: stream.tokens, stream.finish⟩
termination_by cs.length
decreasing_by
  have hlt := length_rest_lt _hlex
  have hlen := congrArg List.length (splitTrivia_append false cs)
  simp only [List.length_append, _hcut, List.length_cons] at hlen
  omega

def tokens (cs : List Char) : Except Fault TokenStream :=
  tokensFrom .start cs

end SchemaLineage.Lexing

import SchemaLineage.Text.Quoted

/-!
The tokens of schema texts, each with the position of its first character. A token stream ends at
the position where its text ends.
-/
namespace SchemaLineage

/-- A place in a text: its line, and its column in characters, both counted from one. -/
structure Position where
  line : Nat
  column : Nat
  deriving DecidableEq, Inhabited

namespace Position

def start : Position := ⟨1, 1⟩

def next (p : Position) (c : Char) : Position :=
  if c = '\n' then ⟨p.line + 1, 1⟩ else ⟨p.line, p.column + 1⟩

def after (p : Position) (cs : List Char) : Position :=
  cs.foldl next p

end Position

inductive Token where
  | name (text : String)
  | string (value : String)
  | equals
  | pipe
  | comma
  | question
  | star
  | leftParen
  | rightParen
  | leftBrace
  | rightBrace
  deriving DecidableEq

namespace Token

def ofSign? (c : Char) : Option Token :=
  if c = '=' then some equals
  else if c = '|' then some pipe
  else if c = ',' then some comma
  else if c = '?' then some question
  else if c = '*' then some star
  else if c = '(' then some leftParen
  else if c = ')' then some rightParen
  else if c = '\x7b' then some leftBrace
  else if c = '\x7d' then some rightBrace
  else none

def text : Token → String
  | name s => "name `" ++ s ++ "`"
  | string s => "string " ++ Text.quoted s
  | equals => "`=`"
  | pipe => "`|`"
  | comma => "`,`"
  | question => "`?`"
  | star => "`*`"
  | leftParen => "`(`"
  | rightParen => "`)`"
  | leftBrace => "`\x7b`"
  | rightBrace => "`\x7d`"

end Token

structure LocatedToken where
  token : Token
  position : Position
  deriving DecidableEq

structure TokenStream where
  tokens : List LocatedToken
  finish : Position
  deriving DecidableEq

inductive Expectation where
  | token (token : Token)
  | keyword (word : String)
  | moduleName
  | versionString
  | typeName
  | constructorName
  | fieldType
  | fieldName
  | commaOrParen
  | endOfInput
  deriving DecidableEq

def Expectation.text : Expectation → String
  | token t => t.text
  | keyword word => "`" ++ word ++ "`"
  | moduleName => "module name"
  | versionString => "version string"
  | typeName => "type name"
  | constructorName => "constructor name"
  | fieldType => "field type"
  | fieldName => "field name"
  | commaOrParen => "`,` or `)`"
  | endOfInput => "end of input"

inductive SyntaxFault where
  | unterminatedString
  | unexpectedCharacter (c : Char)
  | mismatch (expected : Expectation) (found : Option Token)
  deriving DecidableEq

def SyntaxFault.message : SyntaxFault → String
  | unterminatedString => "unterminated string literal"
  | unexpectedCharacter c => "unexpected character " ++ Text.quotedChar c
  | mismatch expected found =>
    "expected " ++ expected.text ++ ", found " ++ (found.map Token.text).getD "end of input"

structure SyntaxError where
  filename : String
  position : Position
  fault : SyntaxFault
  deriving DecidableEq

def SyntaxError.message (e : SyntaxError) : String :=
  e.filename ++ ":" ++ toString e.position.line ++ ":" ++ toString e.position.column ++ ": " ++
    e.fault.message

end SchemaLineage

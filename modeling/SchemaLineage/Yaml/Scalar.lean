import SchemaLineage.Yaml.Spot
import SchemaLineage.Yaml.Word

/-!
Written YAML scalars. A string is written plainly if it then reads as that string again, and else
between single quotes. A string with newlines is written as lines below a sign. What has no other
form, such as a control character, is escaped between double quotes.
-/
namespace SchemaLineage.Yaml

def isPrintable (c : Char) : Bool :=
  let n := c.toNat
  (0x20 ≤ n && n ≤ 0x7e) || (0xa0 ≤ n && n ≤ 0xd7ff) ||
    (0xe000 ≤ n && n ≤ 0xfffd && n ≠ 0xfeff) || 0x10000 ≤ n

def isSpace (c : Char) : Bool :=
  c == ' '

def isSpaceOrEnd (c : Option Char) : Bool :=
  c.all isSpace

/-- Whether a sign within a plain scalar would be taken for structure; `before` is the character
before the rest of the scalar. -/
def hasIndicator (before : Option Char) : List Char → Bool
  | [] => false
  | c :: cs =>
    (c = ':' && isSpaceOrEnd cs.head?) || (c = '#' && isSpaceOrEnd before) ||
      hasIndicator (some c) cs

def startsWithIndicator : List Char → Bool
  | [] => false
  | c :: cs =>
    "#,[]&*!|>'\"%@`".toList.contains c || c = '\x7b' || c = '\x7d' ||
      ((c = '-' || c = '?' || c = ':') && isSpaceOrEnd cs.head?) ||
      "---".toList.isPrefixOf (c :: cs) || "...".toList.isPrefixOf (c :: cs)

def isPlain (s : String) : Bool :=
  let cs := s.toList
  !isAmbiguous s && !cs.head?.any isSpace && !cs.getLast?.any isSpace && !cs.any isBreak &&
    !startsWithIndicator cs && !hasIndicator none cs

def hasPair (before after : Char → Bool) (cs : List Char) : Bool :=
  (cs.zip cs.tail).any fun (c, d) => before c && after d

inductive Form where
  | plain
  | singleQuoted
  | doubleQuoted
  | literal
  deriving DecidableEq

/-- The form of a string. Spaces beside line ends get lost in some of them. -/
def form (s : String) : Form :=
  let cs := s.toList
  if cs.any (fun c => c ≠ '\n' && !isPrintable c) || hasPair isSpace isBreak cs then .doubleQuoted
  else if cs.contains '\n' then if cs.getLast?.any isSpace then .doubleQuoted else .literal
  else if isPlain s then .plain
  else if hasPair isBreak isSpace cs then .doubleQuoted
  else .singleQuoted

def codeDigits (width n : Nat) : List Char :=
  (Text.Hexadecimal.fixed width n).map Char.toUpper

def shortEscapes : List (Char × Char) :=
  [('\x00', '0'), ('\x07', 'a'), ('\x08', 'b'), ('\t', 't'), ('\n', 'n'), ('\x0b', 'v'),
    ('\x0c', 'f'), ('\r', 'r'), ('\x1b', 'e'), ('"', '"'), ('\\', '\\'), ('\u0085', 'N'),
    ('\u00a0', '_'), ('\u2028', 'L'), ('\u2029', 'P')]

def doubleQuoted (c : Char) : List Char :=
  if c = '"' ∨ c = '\\' ∨ ¬ isPrintable c ∨ isBreak c then
    match shortEscapes.lookup c with
    | some letter => ['\\', letter]
    | none =>
      if c.toNat < 0x100 then '\\' :: 'x' :: codeDigits 2 c.toNat
      else if c.toNat < 0x10000 then '\\' :: 'u' :: codeDigits 4 c.toNat
      else '\\' :: 'U' :: codeDigits 8 c.toNat
  else [c]

def spaces (depth : Nat) : List Char :=
  List.replicate depth ' '

/-- The inside of single quotes, in which a quote is written twice. After a line end, the next line
starts at a depth. -/
def singleQuoted (depth : Nat) (startsLine : Bool) : List Char → List Char
  | [] => if startsLine then spaces depth else []
  | c :: cs =>
    if isBreak c then c :: singleQuoted depth true cs
    else
      (if startsLine then spaces depth else []) ++ (if c = '\'' then ['\'', '\''] else [c]) ++
        singleQuoted depth false cs

def indentedLines (depth : Nat) (startsLine : Bool) : List Char → List Char
  | [] => []
  | c :: cs =>
    if isBreak c then c :: indentedLines depth true cs
    else (if startsLine then spaces depth else []) ++ c :: indentedLines depth false cs

/-- What stands on the line of the sign before a text: its depth, if it does not show from its first
line, and which line ends at its end belong to it. -/
def literalHints (cs : List Char) : List Char :=
  let depth := if cs.head?.any fun c => isSpace c || isBreak c then ['2'] else []
  match cs.reverse with
  | last :: before => if !isBreak last then depth ++ ['-']
    else if before.head?.all isBreak then depth ++ ['+'] else depth
  | [] => depth ++ ['-']

/-- The scalar that reads as the string. What it holds on lines of its own stands at a depth. -/
def scalar (depth : Nat) (s : String) : List Char :=
  let cs := s.toList
  match form s with
  | .plain => cs
  | .singleQuoted => ['\''] ++ singleQuoted depth false cs ++ ['\'']
  | .doubleQuoted => ['"'] ++ cs.flatMap doubleQuoted ++ ['"']
  | .literal => ['|'] ++ literalHints cs ++ ['\n'] ++ indentedLines depth true cs

/-- The scalar with the end of its last line, which the lines below a sign may hold already. -/
def scalarLine (depth : Nat) (s : String) : List Char :=
  let cs := scalar depth s
  if cs.getLast?.any isBreak then cs else cs ++ ['\n']

end SchemaLineage.Yaml

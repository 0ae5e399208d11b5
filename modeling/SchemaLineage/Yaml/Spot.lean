/-!
The characters of YAML texts with their places. Places decide how a text is read: depths are
columns, and a key stands on one line.
-/
namespace SchemaLineage.Yaml

def isGap (c : Char) : Bool :=
  c == ' ' || c == '\t'

/-- The newline and the separators of lines and of paragraphs. -/
def isBreak (c : Char) : Bool :=
  c == '\n' || c == '\u2028' || c == '\u2029'

def isGapOrBreak (c : Char) : Bool :=
  isGap c || isBreak c

/-- The text with newlines for the other characters that end a line. -/
def withNewlines : List Char → List Char
  | [] => []
  | '\r' :: '\n' :: cs => '\n' :: withNewlines cs
  | c :: cs => (if c = '\r' ∨ c = '\u0085' then '\n' else c) :: withNewlines cs

structure Spot where
  char : Char
  line : Nat
  column : Nat
  deriving DecidableEq

def spotsFrom (line column : Nat) : List Char → List Spot
  | [] => []
  | c :: cs =>
    ⟨c, line, column⟩ ::
      if isBreak c then spotsFrom (line + 1) 0 cs else spotsFrom line (column + 1) cs

def spots (cs : List Char) : List Spot :=
  spotsFrom 0 0 (withNewlines cs)

def chars (s : List Spot) : List Char :=
  s.map (·.char)

def lineRest (s : List Spot) : List Spot :=
  s.takeWhile fun p => !isBreak p.char

def endsWord (s : List Spot) : Bool :=
  s.head?.all fun p => isGapOrBreak p.char

def isMarker (sign : Char) (s : List Spot) : Bool :=
  s.head?.any (·.column = 0) && chars (s.take 3) = [sign, sign, sign] && endsWord (s.drop 3)

def isAnyMarker (s : List Spot) : Bool :=
  isMarker '-' s || isMarker '.' s

def isIdle (cs : List Char) : Bool :=
  match cs.dropWhile isGap with
  | [] => true
  | c :: _ => c == '#'

/-- What the blanks and line ends between two words of a scalar stand for. Blanks beside a line end
do not count; a newline is a space if it stands alone, and is left out before further line ends. -/
def folded (gap : List Char) : List Char :=
  match gap.filter isBreak with
  | [] => gap
  | ['\n'] => [' ']
  | '\n' :: more => more
  | breaks => breaks

end SchemaLineage.Yaml

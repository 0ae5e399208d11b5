import SchemaLineage.Text.Blank
import SchemaLineage.Text.Quoted
import SchemaLineage.Version.Basic

/-!
Reading a version from text: dotted (3.8), with commas (3, 8) or as a tuple (3,). Blanks may stand
around the text, inside the parentheses and around each component, and one separator may follow
the last component.
-/
namespace SchemaLineage

inductive VersionError where
  | empty
  | invalidComponent (piece : String)
  deriving DecidableEq

def VersionError.message : VersionError → String
  | .empty => "version cannot be empty"
  | .invalidComponent piece => "invalid version component: " ++ Text.quoted piece

namespace Version

def unparenthesized (cs : List Char) : List Char :=
  match cs with
  | '(' :: rest => if rest.getLast? = some ')' then rest.dropLast else cs
  | _ => cs

def isSeparator (c : Char) : Bool :=
  c == '.' || c == ','

/-- The trimmed pieces between separators, without an empty last one. -/
def pieces (cs : List Char) : List (List Char) :=
  let all := (cs.splitOnP isSeparator).map Text.trim
  if all.getLast? = some [] then all.dropLast else all

/-- Digits after an optional plus sign; the number must fit in 32 bits. -/
def readPart (piece : List Char) : Except VersionError UInt32 :=
  let digits := match piece with
    | '+' :: rest => rest
    | _ => piece
  match Text.Decimal.read? digits with
  | none => .error (.invalidComponent (String.ofList piece))
  | some n =>
    if h : n < UInt32.size then .ok (UInt32.ofNatLT n h)
    else .error (.invalidComponent (String.ofList piece))

def ofChars (cs : List Char) : Except VersionError Version :=
  let inner := unparenthesized (Text.trim cs)
  if inner.all Text.isBlank then .error .empty
  else Version.mk <$> (pieces inner).mapM readPart

def ofText (s : String) : Except VersionError Version :=
  ofChars s.toList

end Version

end SchemaLineage

import SchemaLineage.Text.Hexadecimal
import SchemaLineage.Yaml.Spot

/-!
YAML tags and the directives that say what their handles stand for.
-/
namespace SchemaLineage.Yaml

def isWordPart (c : Char) : Bool :=
  c.isAlphanum || c == '_' || c == '-'

/-- The characters of tags; a percent sign starts an escape. Brackets and commas need angle brackets
around the tag. -/
def isTagPart (inAngles : Bool) (c : Char) : Bool :=
  isWordPart c || ";/?:@&=+$.%!~*'()".toList.contains c ||
    (inAngles && (c == ',' || c == '[' || c == ']'))

def octetsAfter? (first : Nat) : Option Nat :=
  if first < 0x80 then some 0
  else if first < 0xc0 then none
  else if first < 0xe0 then some 1
  else if first < 0xf0 then some 2
  else if first < 0xf8 then some 3
  else none

/-- How many octets are still to come after an octet, of `pending` that were to come. -/
def octetsLeft? (pending octet : Nat) : Option Nat :=
  if pending = 0 then octetsAfter? octet
  else if 0x80 ≤ octet ∧ octet < 0xc0 then some (pending - 1)
  else none

/-- The octets that a text starts with as a tag, and what is left; `pending` octets of a character
must follow in escapes. -/
def splitOctets (inAngles : Bool) (pending : Nat) : List Char → Option (List Nat × List Char)
  | [] => if pending = 0 then some ([], []) else none
  | '%' :: a :: b :: cs => do
    let octet ← Text.Hexadecimal.read? [a, b]
    let pending ← octetsLeft? pending octet
    let (octets, rest) ← splitOctets inAngles pending cs
    return (octet :: octets, rest)
  | c :: cs =>
    if pending ≠ 0 ∨ c = '%' then none
    else if isTagPart inAngles c then
      (splitOctets inAngles 0 cs).map fun (octets, rest) => (c.toNat :: octets, rest)
    else some ([], c :: cs)

/-- The octets of a text that is in part read. An octet of zero ends them. -/
def splitTagText (inAngles : Bool) (start cs : List Char) : Option (List Nat × List Char) := do
  let (octets, rest) ← splitOctets inAngles 0 cs
  if start.isEmpty ∧ rest.length = cs.length then none
  return ((start.drop 1).map (·.toNat) ++ octets.takeWhile (· ≠ 0), rest)

abbrev FullTag :=
  List Nat

/-- A tag: a handle, which directives give a meaning, and what follows it. Without a handle it is
complete. -/
structure Tag where
  handle : List Char
  octets : List Nat
  deriving DecidableEq

/-- A handle at the start of a text, and what is left. It may still lack its last sign. -/
def splitHandle : List Char → Option (List Char × List Char)
  | '!' :: cs =>
    let name := '!' :: cs.takeWhile isWordPart
    match cs.dropWhile isWordPart with
    | '!' :: rest => some (name ++ ['!'], rest)
    | rest => some (name, rest)
  | _ => none

def isHandle (cs : List Char) : Bool :=
  cs.length > 1 && cs.getLast? = some '!'

def splitTag (word : List Char) : Option (Tag × List Char) :=
  match word with
  | '!' :: '<' :: cs => do
    let (octets, rest) ← splitTagText true [] cs
    match rest with
    | '>' :: rest => return (⟨[], octets⟩, rest)
    | _ => none
  | _ => do
    let (handle, cs) ← splitHandle word
    if isHandle handle then
      let (octets, rest) ← splitTagText false [] cs
      return (⟨handle, octets⟩, rest)
    else
      let (octets, rest) ← splitTagText false handle cs
      return (if octets.isEmpty then ⟨[], ['!'.toNat]⟩ else ⟨['!'], octets⟩, rest)

inductive Directive where
  /-- The version of YAML is one that can be read. -/
  | version
  /-- What a handle stands for. -/
  | handle (name : List Char) (octets : List Nat)

/-- A number of at most nine digits at the start of a text, and what is left. -/
def splitVersionPart (cs : List Char) : Option (Nat × List Char) := do
  let digits := cs.takeWhile Char.isDigit
  if digits.isEmpty ∨ digits.length > 9 then none
  return (digits.foldl (fun n c => n * 10 + (c.toNat - '0'.toNat)) 0, cs.dropWhile Char.isDigit)

def versionDirective? (cs : List Char) : Option Directive := do
  let (major, rest) ← splitVersionPart (cs.dropWhile isGap)
  match rest with
  | '.' :: rest =>
    let (minor, rest) ← splitVersionPart rest
    if major = 1 ∧ (minor = 1 ∨ minor = 2) ∧ isIdle rest then return .version else none
  | _ => none

def handleDirective? (cs : List Char) : Option Directive := do
  let (handle, rest) ← splitHandle (cs.dropWhile isGap)
  if !(handle = ['!'] || isHandle handle) || !rest.head?.any isGap then none
  let (octets, rest) ← splitTagText true [] (rest.dropWhile isGap)
  if rest.head?.all isGap ∧ isIdle rest then return .handle handle octets else none

def directive? (line : List Char) : Option Directive :=
  let name := line.takeWhile isWordPart
  let rest := line.dropWhile isWordPart
  if !rest.head?.all isGap then none
  else if name = "YAML".toList then versionDirective? rest
  else if name = "TAG".toList then handleDirective? rest
  else none

end SchemaLineage.Yaml

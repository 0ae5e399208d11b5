import SchemaLineage.Json.Basic
import SchemaLineage.Text.Hexadecimal

/-!
Reading JSON text. The text is cut into tokens, with blanks dropped; then the values are put
together from the tokens, with the arrays and objects that are still open kept on a stack.
-/
namespace SchemaLineage.Json

inductive Token where
  | openArray
  | closeArray
  | openObject
  | closeObject
  | comma
  | colon
  | text (value : String)
  | atom (value : Json)

def unescape? (c : Char) : Option Char :=
  if c = '"' ∨ c = '\\' ∨ c = '/' then some c
  else if c = 'b' then some '\x08'
  else if c = 'f' then some '\x0c'
  else if c = 'n' then some '\n'
  else if c = 'r' then some '\r'
  else if c = 't' then some '\t'
  else none

/-- The characters that the inside of a string stands for. Codes of two halves come in pairs. -/
def decode? : List Char → Option (List Char)
  | [] => some []
  | '\\' :: 'u' :: a :: b :: c :: d :: rest =>
    match Text.Hexadecimal.read? [a, b, c, d] with
    | none => none
    | some high =>
      if 0xD800 ≤ high ∧ high < 0xDC00 then
        match rest with
        | '\\' :: 'u' :: e :: f :: g :: h :: rest =>
          match Text.Hexadecimal.read? [e, f, g, h] with
          | none => none
          | some low =>
            if 0xDC00 ≤ low ∧ low < 0xE000 then
              (decode? rest).map
                (Char.ofNat (0x10000 + (high - 0xD800) * 0x400 + (low - 0xDC00)) :: ·)
            else none
        | _ => none
      else if 0xDC00 ≤ high ∧ high < 0xE000 then none
      else (decode? rest).map (Char.ofNat high :: ·)
  | '\\' :: c :: rest =>
    match unescape? c with
    | none => none
    | some c => (decode? rest).map (c :: ·)
  | c :: rest =>
    if c = '\\' ∨ c.toNat < 0x20 then none else (decode? rest).map (c :: ·)

/-- A string after its opening quote: its inside as it is spelled, and what is left after the
closing quote. A quote after a backslash does not close the string. -/
def splitString : List Char → Option (List Char × List Char)
  | [] => none
  | c :: cs =>
    if c = '"' then some ([], cs)
    else if c = '\\' then
      match cs with
      | [] => none
      | d :: cs => (splitString cs).map fun (inside, rest) => (c :: d :: inside, rest)
    else (splitString cs).map fun (inside, rest) => (c :: inside, rest)

def isAtomPart (c : Char) : Bool :=
  c.isAlphanum || c == '-' || c == '+' || c == '.'

def isDigits (cs : List Char) : Bool :=
  !cs.isEmpty && cs.all Char.isDigit

def isWhole (cs : List Char) : Bool :=
  isDigits cs && (cs.length = 1 || cs.head? ≠ some '0')

def isDecimal (cs : List Char) : Bool :=
  let (mantissa, exponent) := cs.span fun c => c ≠ 'e' && c ≠ 'E'
  let (whole, fraction) := mantissa.span (· ≠ '.')
  isWhole whole &&
    (match fraction with
      | [] => true
      | _ :: digits => isDigits digits) &&
    match exponent with
    | [] => true
    | _ :: '+' :: digits => isDigits digits
    | _ :: '-' :: digits => isDigits digits
    | _ :: digits => isDigits digits

def isNumber : List Char → Bool
  | '-' :: cs => isDecimal cs
  | cs => isDecimal cs

def atom? (cs : List Char) : Option Json :=
  if cs = "null".toList then some null
  else if cs = "true".toList then some (bool true)
  else if cs = "false".toList then some (bool false)
  else if isNumber cs then some (number (String.ofList cs))
  else none

def sign? (c : Char) : Option Token :=
  if c = '[' then some .openArray
  else if c = ']' then some .closeArray
  else if c = '\x7b' then some .openObject
  else if c = '\x7d' then some .closeObject
  else if c = ',' then some .comma
  else if c = ':' then some .colon
  else none

def isBlank (c : Char) : Bool :=
  c == ' ' || c == '\t' || c == '\n' || c == '\r'

def splitToken (c : Char) (cs : List Char) : Option (Token × List Char) :=
  match sign? c with
  | some token => some (token, cs)
  | none =>
    if c = '"' then do
      let (inside, rest) ← splitString cs
      let value ← decode? inside
      return (.text (String.ofList value), rest)
    else
      (atom? (c :: cs.takeWhile isAtomPart)).map fun value =>
        (.atom value, cs.dropWhile isAtomPart)

theorem length_splitString {cs inside rest : List Char}
    (h : splitString cs = some (inside, rest)) : rest.length < cs.length := by
  fun_induction splitString cs generalizing inside rest with
  | case1 => cases h
  | case2 => cases h; simp
  | case3 => cases h
  | case4 d cs _ ih =>
    obtain ⟨⟨inside', rest'⟩, hs, heq⟩ := Option.map_eq_some_iff.1 h
    cases heq
    have := ih hs
    simp only [List.length_cons]
    omega
  | case5 c cs _ _ ih =>
    obtain ⟨⟨inside', rest'⟩, hs, heq⟩ := Option.map_eq_some_iff.1 h
    cases heq
    have := ih hs
    simp only [List.length_cons]
    omega

theorem length_splitToken {c : Char} {cs rest : List Char} {token : Token}
    (h : splitToken c cs = some (token, rest)) : rest.length ≤ cs.length := by
  unfold splitToken at h
  split at h
  · cases h; exact Nat.le_refl _
  · split at h
    · obtain ⟨⟨inside, rest'⟩, hs, h⟩ := Option.bind_eq_some_iff.1 h
      obtain ⟨value, -, heq⟩ := Option.bind_eq_some_iff.1 h
      cases heq
      exact Nat.le_of_lt (length_splitString hs)
    · obtain ⟨value, -, heq⟩ := Option.map_eq_some_iff.1 h
      cases heq
      exact (List.dropWhile_suffix _).length_le

def tokens : List Char → Option (List Token)
  | [] => some []
  | c :: cs =>
    if isBlank c then tokens cs
    else
      match _htoken : splitToken c cs with
      | none => none
      | some (token, rest) => (tokens rest).map (token :: ·)
termination_by cs => cs.length
decreasing_by
  · simp
  · have := length_splitToken _htoken
    simp only [List.length_cons]
    omega

inductive Frame where
  | array (elements : List Json)
  | object (members : List (String × Json)) (key : String)

/-- What the next token has to continue: a value is due, or one has just ended. -/
inductive State where
  | due
  | ended (value : Json)

/-- Puts the values together; the tokens must make up exactly one value. -/
def assemble : State → List Frame → List Token → Option Json
  | .ended value, [], [] => some value
  | .ended value, .array xs :: stack, .comma :: ts =>
    assemble .due (.array (xs ++ [value]) :: stack) ts
  | .ended value, .array xs :: stack, .closeArray :: ts =>
    assemble (.ended (array (xs ++ [value]))) stack ts
  | .ended value, .object ms key :: stack, .comma :: .text key' :: .colon :: ts =>
    assemble .due (.object (ms ++ [(key, value)]) key' :: stack) ts
  | .ended value, .object ms key :: stack, .closeObject :: ts =>
    assemble (.ended (object (ms ++ [(key, value)]))) stack ts
  | .due, stack, .openArray :: .closeArray :: ts => assemble (.ended (array [])) stack ts
  | .due, stack, .openArray :: ts => assemble .due (.array [] :: stack) ts
  | .due, stack, .openObject :: .closeObject :: ts => assemble (.ended (object [])) stack ts
  | .due, stack, .openObject :: .text key :: .colon :: ts =>
    assemble .due (.object [] key :: stack) ts
  | .due, stack, .text value :: ts => assemble (.ended (string value)) stack ts
  | .due, stack, .atom value :: ts => assemble (.ended value) stack ts
  | _, _, _ => none

def ofText? (s : String) : Option Json :=
  (tokens s.toList).bind (assemble .due [])

end SchemaLineage.Json

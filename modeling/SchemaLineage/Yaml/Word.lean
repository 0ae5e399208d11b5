import SchemaLineage.Text.Hexadecimal

/-!
What plain YAML scalars stand for besides text: the null value, truth values and numbers.
-/
namespace SchemaLineage.Yaml

def isNull (s : String) : Bool :=
  s ∈ ["", "null", "Null", "NULL", "~"]

def bool? (s : String) : Option Bool :=
  if s ∈ ["true", "True", "TRUE"] then some true
  else if s ∈ ["false", "False", "FALSE"] then some false
  else none

def isDigits (cs : List Char) : Bool :=
  !cs.isEmpty && cs.all Char.isDigit

def unsigned : List Char → List Char
  | '+' :: cs => cs
  | '-' :: cs => cs
  | cs => cs

def numeral? (base : Nat) (cs : List Char) : Option Nat :=
  if cs.isEmpty then none
  else cs.foldlM (fun n c => do
    let digit ← Text.Hexadecimal.value? c
    if digit < base then some (n * base + digit) else none) 0

/-- The number that digits spell in a base that a mark such as `0x` announces. -/
def based? : List Char → Option Nat
  | '0' :: 'x' :: cs => numeral? 16 cs
  | '0' :: 'o' :: cs => numeral? 8 cs
  | '0' :: 'b' :: cs => numeral? 2 cs
  | _ => none

def isBased (cs : List Char) : Bool :=
  (based? (unsigned cs)).any fun n =>
    if cs.head? = some '-' then n ≤ Nat.pow 2 127 else n < Nat.pow 2 128

def decimalValue (cs : List Char) : Nat :=
  cs.foldl (fun n c => n * 10 + (c.toNat - '0'.toNat)) 0

/-- The least number that is too large for a float of 64 bits: it is halfway from the largest one to
the next power of two. -/
def floatBound : Nat :=
  Nat.pow 2 1024 - Nat.pow 2 970

/-- Whether a number with a power of ten is less than the bound of floats. Numbers that are clearly
on one side are told by how many digits they have. -/
def isFinite (n : Nat) (exponent : Int) : Bool :=
  let size := (Nat.toDigits 10 n).length + exponent
  if n = 0 ∨ size ≤ 308 then true
  else if size > 309 then false
  else n * Nat.pow 10 exponent.toNat < floatBound * Nat.pow 10 (-exponent).toNat

def exponent? : List Char → Option Int
  | [] => some 0
  | _ :: cs =>
    let digits := unsigned cs
    if !isDigits digits then none
    else if cs.head? = some '-' then some (-(decimalValue digits : Int))
    else some (decimalValue digits)

/-- Whether a scalar without a sign is a decimal number: digits with a point among or beside them,
and an exponent. -/
def isDecimal (cs : List Char) : Bool :=
  let (mantissa, rest) := cs.span fun c => c ≠ 'e' && c ≠ 'E'
  let (whole, fraction) := mantissa.span (· ≠ '.')
  let fraction := fraction.tail
  isDigits (whole ++ fraction) &&
    match exponent? rest with
    | some exponent => isFinite (decimalValue (whole ++ fraction)) (exponent - fraction.length)
    | none => false

/-- Whether a plain scalar reads as a number. A row of digits after a zero is none, but is taken for
one by others. -/
def isNumber (s : String) : Bool :=
  let cs := unsigned s.toList
  isBased s.toList || isDecimal cs || (cs.head? = some '0' && isDigits cs) ||
    String.ofList cs ∈ [".inf", ".Inf", ".INF"] || s ∈ [".nan", ".NaN", ".NAN"]

def isAmbiguous (s : String) : Bool :=
  isNull s || (bool? s).isSome || isNumber s

end SchemaLineage.Yaml

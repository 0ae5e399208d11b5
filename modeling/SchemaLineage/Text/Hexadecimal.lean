/-!
Hexadecimal numerals with lower-case digits.
-/
namespace SchemaLineage.Text.Hexadecimal

def write (n : Nat) : List Char :=
  Nat.toDigits 16 n

/-- The last `width` digits of a number. -/
def fixed : (width : Nat) → Nat → List Char
  | 0, _ => []
  | width + 1, n => Nat.digitChar (n / 16 ^ width % 16) :: fixed width n

def value? (c : Char) : Option Nat :=
  if c.isDigit then some (c.toNat - '0'.toNat)
  else if 'a' ≤ c ∧ c ≤ 'f' then some (c.toNat - 'a'.toNat + 10)
  else if 'A' ≤ c ∧ c ≤ 'F' then some (c.toNat - 'A'.toNat + 10)
  else none

def read? (cs : List Char) : Option Nat :=
  cs.foldlM (fun n c => (value? c).map fun digit => n * 16 + digit) 0

end SchemaLineage.Text.Hexadecimal

/-!
Decimal numerals. Reading takes one or more ASCII digits, leading zeros included, and gives back
what writing was given.
-/
namespace SchemaLineage.Text.Decimal

def write (n : Nat) : List Char :=
  Nat.toDigits 10 n

def read? (cs : List Char) : Option Nat :=
  if cs ≠ [] ∧ cs.all Char.isDigit = true then some (Nat.ofDigitChars 10 cs 0) else none

theorem write_ne_nil (n : Nat) : write n ≠ [] :=
  Nat.toDigits_ne_nil

theorem isDigit_of_mem_write {n : Nat} {c : Char} (h : c ∈ write n) : c.isDigit = true :=
  Nat.isDigit_of_mem_toDigits (by decide) (by decide) h

theorem read?_write (n : Nat) : read? (write n) = some n := by
  have hall : (write n).all Char.isDigit = true :=
    List.all_eq_true.2 fun _ h => isDigit_of_mem_write h
  rw [read?, if_pos ⟨write_ne_nil n, hall⟩, write,
    Nat.ofDigitChars_toDigits (by decide) (by decide)]

end SchemaLineage.Text.Decimal

import Mathlib.Algebra.Group.Nat.Defs
import SchemaLineage.Text.Hexadecimal

/-!
Hexadecimal digits of a fixed number. They spell the remainder of a number by the power of the base,
so a number below that power is read back from them.
-/
namespace SchemaLineage.Text.Hexadecimal

theorem fixed_succ (width n : Nat) :
    fixed (width + 1) n = Nat.digitChar (n / 16 ^ width % 16) :: fixed width n :=
  rfl

theorem length_fixed (width n : Nat) : (fixed width n).length = width := by
  induction width with
  | zero => rfl
  | succ width ih => rw [fixed_succ, List.length_cons, ih]

theorem value?_digitChar : ∀ digit < 16, value? (Nat.digitChar digit) = some digit := by
  decide

/-- The last digits of a number spell its remainder, behind what was read before them. -/
theorem foldlM_fixed (width n before : Nat) :
    (fixed width n).foldlM (fun m c => (value? c).map fun digit => m * 16 + digit) before =
      some (before * 16 ^ width + n % 16 ^ width) := by
  induction width generalizing before with
  | zero =>
    rw [Nat.pow_zero, Nat.mul_one, Nat.mod_one, Nat.add_zero]
    rfl
  | succ width ih =>
    have hdigit := value?_digitChar (n / 16 ^ width % 16) (Nat.mod_lt _ (by decide))
    have hsum : (before * 16 + n / 16 ^ width % 16) * 16 ^ width + n % 16 ^ width =
        before * 16 ^ (width + 1) + n % 16 ^ (width + 1) := by
      rw [Nat.pow_succ, Nat.mod_mul, Nat.add_mul, Nat.mul_assoc, Nat.mul_comm 16,
        Nat.mul_comm (16 ^ width) (_ % 16)]
      omega
    rw [fixed_succ, List.foldlM_cons, hdigit, ← hsum]
    exact ih _

theorem read?_fixed (width n : Nat) : read? (fixed width n) = some (n % 16 ^ width) := by
  rw [read?, foldlM_fixed, Nat.zero_mul, Nat.zero_add]

theorem read?_fixed_of_lt {width n : Nat} (h : n < 16 ^ width) :
    read? (fixed width n) = some n := by
  rw [read?_fixed, Nat.mod_eq_of_lt h]

end SchemaLineage.Text.Hexadecimal

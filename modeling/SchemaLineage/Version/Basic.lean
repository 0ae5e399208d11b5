import SchemaLineage.Text.Decimal

/-!
Versions: tuples of 32-bit numbers under the lexicographic order, so that 3.8 < 3.8.1 < 3.9 < 3.10.
The order is strict and total.
-/
namespace SchemaLineage

structure Version where
  parts : List UInt32
  deriving DecidableEq, Inhabited

namespace Version

instance : LT Version := ⟨fun v w => v.parts < w.parts⟩

instance : LE Version := ⟨fun v w => ¬ w < v⟩

instance (v w : Version) : Decidable (v < w) :=
  inferInstanceAs (Decidable (v.parts < w.parts))

instance (v w : Version) : Decidable (v ≤ w) :=
  inferInstanceAs (Decidable (¬ w < v))

theorem lt_irrefl (v : Version) : ¬ v < v :=
  List.lt_irrefl v.parts

theorem lt_trans {u v w : Version} (huv : u < v) (hvw : v < w) : u < w :=
  List.lt_trans huv hvw

theorem lt_asymm {v w : Version} (h : v < w) : ¬ w < v :=
  fun h' => lt_irrefl v (lt_trans h h')

theorem eq_of_not_lt {v w : Version} (hvw : ¬ v < w) (hwv : ¬ w < v) : v = w := by
  cases v
  cases w
  exact congrArg Version.mk (List.le_antisymm hwv hvw)

theorem le_refl (v : Version) : v ≤ v :=
  lt_irrefl v

theorem le_of_lt {v w : Version} (h : v < w) : v ≤ w :=
  lt_asymm h

def partText (part : UInt32) : String :=
  String.ofList (Text.Decimal.write part.toNat)

def dotted (v : Version) : String :=
  ".".intercalate (v.parts.map partText)

/-- The components as a tuple literal; a single one is followed by a comma. -/
def tuple (v : Version) : String :=
  match v.parts with
  | [part] => "(" ++ partText part ++ ",)"
  | parts => "(" ++ ", ".intercalate (parts.map partText) ++ ")"

end Version

end SchemaLineage

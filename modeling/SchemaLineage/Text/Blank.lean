/-!
Blank characters and text without the blanks at its ends. Blanks are the characters of the
White_Space property; every reader of the library skips these and no others.
-/
namespace SchemaLineage.Text

/-- The characters of the White_Space property. -/
def isBlank (c : Char) : Bool :=
  let n := c.toNat
  (0x09 ≤ n && n ≤ 0x0D) || n == 0x20 || n == 0x85 || n == 0xA0 || n == 0x1680 ||
    (0x2000 ≤ n && n ≤ 0x200A) || n == 0x2028 || n == 0x2029 || n == 0x202F ||
    n == 0x205F || n == 0x3000

def trimStart (cs : List Char) : List Char :=
  cs.dropWhile isBlank

def trimEnd : List Char → List Char
  | [] => []
  | c :: cs =>
    match trimEnd cs with
    | [] => if isBlank c then [] else [c]
    | kept => c :: kept

def trim (cs : List Char) : List Char :=
  trimEnd (trimStart cs)

def isBlankText (s : String) : Bool :=
  s.toList.all isBlank

theorem trimEnd_eq_nil_iff (cs : List Char) : trimEnd cs = [] ↔ ∀ c ∈ cs, isBlank c = true := by
  induction cs with
  | nil => simp [trimEnd]
  | cons c cs ih =>
    simp only [trimEnd, List.forall_mem_cons]
    split
    · rename_i h
      by_cases hc : isBlank c = true <;> simp [hc, ← ih, h]
    · rename_i kept h
      have : trimEnd cs ≠ [] := fun h' => h h'
      simp [← ih, this]

/-- A text is blank exactly if nothing is left of it between the blanks at its ends. -/
theorem isBlankText_iff_trim (s : String) : isBlankText s = true ↔ trim s.toList = [] := by
  rw [isBlankText, trim, trimStart, trimEnd_eq_nil_iff, List.all_eq_true]
  constructor
  · intro h c hc
    exact h c ((List.dropWhile_sublist isBlank).subset hc)
  · intro h c hc
    rw [← List.takeWhile_append_dropWhile (p := isBlank) (l := s.toList), List.mem_append] at hc
    rcases hc with hc | hc
    · exact List.all_eq_true.1 List.all_takeWhile c hc
    · exact h c hc

theorem isBlankText_eq_false_iff (s : String) : isBlankText s = false ↔ trim s.toList ≠ [] := by
  rw [← Bool.not_eq_true, isBlankText_iff_trim]

end SchemaLineage.Text

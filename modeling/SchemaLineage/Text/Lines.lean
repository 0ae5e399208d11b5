/-!
Text as a list of lines. A line ends at a newline; a carriage return directly before that newline
belongs to the end of the line. What follows the last newline is a line of its own unless it is
empty, and keeps its carriage return.
-/
namespace SchemaLineage.Text

def dropCarriageReturn : List Char → List Char
  | [] => []
  | [c] => if c = '\r' then [] else [c]
  | c :: cs => c :: dropCarriageReturn cs

/-- The lines of a text; `line` holds the characters of the line so far, last one first. -/
def linesFrom (line : List Char) : List Char → List (List Char)
  | [] => if line.isEmpty then [] else [line.reverse]
  | c :: cs =>
    if c = '\n' then dropCarriageReturn line.reverse :: linesFrom [] cs
    else linesFrom (c :: line) cs

def lines (cs : List Char) : List (List Char) :=
  linesFrom [] cs

theorem dropCarriageReturn_eq_self {cs : List Char} (h : '\r' ∉ cs) :
    dropCarriageReturn cs = cs := by
  fun_induction dropCarriageReturn cs with
  | case1 => rfl
  | case2 => simp at h
  | case3 c hc => rfl
  | case4 c cs hcs ih =>
    rw [List.mem_cons, not_or] at h
    rw [ih h.2]

theorem linesFrom_append {line cs : List Char} (h : '\n' ∉ cs) (rest : List Char) :
    linesFrom line (cs ++ '\n' :: rest) =
      dropCarriageReturn (line.reverse ++ cs) :: linesFrom [] rest := by
  induction cs generalizing line with
  | nil => simp [linesFrom]
  | cons c cs ih =>
    rw [List.mem_cons, not_or] at h
    rw [List.cons_append, linesFrom, if_neg (Ne.symm h.1), ih h.2]
    simp

theorem lines_append {cs : List Char} (h : '\n' ∉ cs) (rest : List Char) :
    lines (cs ++ '\n' :: rest) = dropCarriageReturn cs :: lines rest :=
  linesFrom_append h rest

def unlines (ls : List String) : String :=
  String.join (ls.map (· ++ "\n"))

theorem unlines_nil : unlines [] = "" :=
  rfl

theorem unlines_cons (l : String) (ls : List String) :
    unlines (l :: ls) = l ++ "\n" ++ unlines ls := by
  rw [unlines, List.map_cons, String.join_cons, unlines]

theorem unlines_append (ls ks : List String) : unlines (ls ++ ks) = unlines ls ++ unlines ks := by
  rw [unlines, List.map_append, String.join_append, unlines, unlines]

def withFinalNewline (s : String) : String :=
  if s.toList.getLast? = some '\n' then s else s ++ "\n"

end SchemaLineage.Text

import SchemaLineage.Yaml.Spot

/-!
Literal and folded YAML scalars, which hold the lines below a sign. The lines stand at one depth,
which the first of them shows unless the sign gives it; the sign also tells which of the line ends
at the end belong to the text.
-/
namespace SchemaLineage.Yaml

/-- Which line ends at the end of a text belong to it: none, the first one, or all. -/
inductive Chomping where
  | strip
  | clip
  | keep
  deriving DecidableEq

def splitChomping : List Char → Chomping × List Char
  | '-' :: cs => (.strip, cs)
  | '+' :: cs => (.keep, cs)
  | cs => (.clip, cs)

def splitDigit : List Char → Option Nat × List Char
  | [] => (none, [])
  | c :: cs => if c.isDigit then (some (c.toNat - '0'.toNat), cs) else (none, c :: cs)

/-- What stands on the line of the sign: the chomping and by how much the lines are deeper, in
either order. -/
def literalHeader? (cs : List Char) : Option (Chomping × Option Nat) :=
  let (before, cs) := splitChomping cs
  let (increment, cs) := splitDigit cs
  let (after, cs) := if before = .clip ∧ increment.isSome then splitChomping cs else (before, cs)
  if increment = some 0 ∨ !isIdle cs then none else some (after, increment)

structure Margin where
  /-- The ends of empty lines. -/
  breaks : List Char
  /-- The depth of the deepest line. -/
  depth : Nat
  /-- How many characters it takes. -/
  size : Nat

/-- The empty lines and the spaces at the start of a text, up to a depth if it is known. A tab is no
indentation. -/
def margin? (depth : Option Nat) : List Spot → Option Margin
  | [] => some ⟨[], 0, 0⟩
  | p :: s =>
    if isBreak p.char then
      (margin? depth s).map fun m => ⟨p.char :: m.breaks, max p.column m.depth, m.size + 1⟩
    else if isGap p.char ∧ depth.all (p.column < ·) then
      if p.char = '\t' then none else (margin? depth s).map fun m => { m with size := m.size + 1 }
    else some ⟨[], p.column, 0⟩

structure LiteralLine where
  /-- The ends of the empty lines in front of it. -/
  breaks : List Char
  text : List Char
  ending : List Char

structure LiteralLines where
  lines : List LiteralLine
  breaks : List Char
  size : Nat

def literalLines? (depth : Nat) (breaks : List Char) (s : List Spot) : Option LiteralLines :=
  match s with
  | [] => some ⟨[], breaks, 0⟩
  | p :: s =>
    if p.column ≠ depth then some ⟨[], breaks, 0⟩
    else
      let text := chars (lineRest (p :: s))
      let ending := chars (((p :: s).drop text.length).take 1)
      match margin? (some depth) ((p :: s).drop (text.length + 1)) with
      | none => none
      | some margin =>
        let size := text.length + 1 + margin.size
        (literalLines? depth margin.breaks ((p :: s).drop size)).map fun more =>
          { more with
            lines := ⟨breaks, text, ending⟩ :: more.lines
            size := size + more.size }
termination_by s.length
decreasing_by
  simp only [List.length_drop, List.length_cons]
  omega

def startsWithGap (cs : List Char) : Bool :=
  cs.head?.any isGap

/-- What stands between two lines of text. Folding makes a newline between two lines that start with
a word a space, or leaves it out before empty lines. -/
def literalSeam (folds : Bool) (line next : LiteralLine) : List Char :=
  if folds && line.ending = ['\n'] && !startsWithGap line.text && !startsWithGap next.text then
    if next.breaks.isEmpty then [' '] else next.breaks
  else line.ending ++ next.breaks

def joinLiteral (folds : Bool) (chomping : Chomping) (after : List Char) (line : LiteralLine) :
    List LiteralLine → List Char
  | [] =>
    match chomping with
    | .strip => []
    | .clip => line.ending
    | .keep => line.ending ++ after
  | next :: rest =>
    literalSeam folds line next ++ next.text ++ joinLiteral folds chomping after next rest

def LiteralLines.text (folds : Bool) (chomping : Chomping) (l : LiteralLines) : List Char :=
  match l.lines with
  | [] => if chomping = .keep then l.breaks else []
  | line :: rest => line.breaks ++ line.text ++ joinLiteral folds chomping l.breaks line rest

/-- The text of a scalar after its sign and how many characters it takes; `depth` is that of the
innermost collection, if there is one. -/
def literal? (folds : Bool) (depth : Option Nat) (s : List Spot) : Option (List Char × Nat) := do
  let header := lineRest s
  let (chomping, increment) ← literalHeader? (chars header)
  let given := increment.map (depth.getD 0 + ·)
  let margin ← margin? given (s.drop (header.length + 1))
  let inside := given.getD (max margin.depth (max ((depth.map (· + 1)).getD 0) 1))
  let size := header.length + 1 + margin.size
  let lines ← literalLines? inside margin.breaks (s.drop size)
  return (lines.text folds chomping, size + lines.size)

end SchemaLineage.Yaml

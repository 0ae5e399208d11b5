import SchemaLineage.Proofs.StubExpressions

/-!
The lines of a stub as an interpreter reads them: indentation makes the blocks, of a chain of tests
the first arm that holds is executed, and a class executes its body. Reading is partial. A line that
is none of the statements of a stub is refused, and so is a header without a block, a block without
a header, a later arm without a chain and a return to an indentation that was not open.
-/
namespace SchemaLineage.StubCode

/-- The characters of names; beyond ASCII every character may be one. -/
def isNameChar (c : Char) : Bool :=
  c.isAlphanum || c = '_' || 128 ≤ c.toNat

/-- A name starts with no digit and is no reserved word. -/
def isName (reserved : List String) (word : List Char) : Bool :=
  word.head?.any (!·.isDigit) && word.all isNameChar && !reserved.contains (String.ofList word)

inductive Form where
  | ellipsis
  | ifHeader (test : Test)
  | elifHeader (test : Test)
  | elseHeader
  | classHeader (name base : List Char)
  | assignment (name value : List Char)
  | member (name type : List Char)

namespace Form

def isHeader : Form → Bool
  | ifHeader _ => true
  | elifHeader _ => true
  | elseHeader => true
  | classHeader _ _ => true
  | _ => false

def isLater : Form → Bool
  | elifHeader _ => true
  | elseHeader => true
  | _ => false

def opensLater : Form → Bool
  | ifHeader _ => true
  | elifHeader _ => true
  | _ => false

end Form

def withoutEnd? (ending cs : List Char) : Option (List Char) :=
  if ending.isSuffixOf cs then some (cs.take (cs.length - ending.length)) else none

def readClass? (reserved : List String) (cs : List Char) : Option Form :=
  let name := cs.takeWhile isNameChar
  match cs.dropWhile isNameChar with
  | '(' :: tail =>
    if isName reserved name then (withoutEnd? [')', ':'] tail).map (.classHeader name ·) else none
  | _ => none

/-- A line without its indentation. Assignments and annotations are to names; their right sides, and
the bases of classes, are kept as texts. -/
def readForm? (reserved : List String) (subject cs : List Char) : Option Form :=
  if cs = "...".toList then some .ellipsis
  else if cs = "else:".toList then some .elseHeader
  else
    let word := cs.takeWhile isNameChar
    match cs.dropWhile isNameChar with
    | ' ' :: more =>
      if word = "if".toList then
        ((withoutEnd? [':'] more).bind (readTest? subject)).map .ifHeader
      else if word = "elif".toList then
        ((withoutEnd? [':'] more).bind (readTest? subject)).map .elifHeader
      else if word = "class".toList then readClass? reserved more
      else
        match more with
        | '=' :: ' ' :: value => if isName reserved word then some (.assignment word value) else none
        | _ => none
    | ':' :: ' ' :: type => if isName reserved word then some (.member word type) else none
    | _ => none

def readLines? (reserved : List String) (subject cs : List Char) : Option (List (Nat × Form)) :=
  ((Text.lines cs).filter (·.any (· ≠ ' '))).mapM fun line =>
    (readForm? reserved subject (line.dropWhile (· = ' '))).map
      ((line.takeWhile (· = ' ')).length, ·)

/-- A block of code: a line with its own block, and the rest. -/
inductive Code where
  | nil
  | statement (form : Form) (inner rest : Code)

namespace Code

def isNil : Code → Bool
  | nil => true
  | statement _ _ _ => false

def startsLater : Code → Bool
  | nil => false
  | statement form _ _ => form.isLater

/-- A statement before others, if the headers and the arms of chains are in order. -/
def statement? (form : Form) (inner rest : Code) : Option Code :=
  if form.isHeader = !inner.isNil ∧ inner.startsLater = false ∧
      (rest.startsLater = true → form.opensLater = true) then
    some (statement form inner rest)
  else none

/-- The block of a line, if the next one is wider than the line, and the other blocks. -/
def takeOwn (width : Nat) : List (Nat × Code) → Code × List (Nat × Code)
  | (wider, inner) :: outer =>
    if width < wider then (inner, outer) else (nil, (wider, inner) :: outer)
  | [] => (nil, [])

/-- The rest of the block in which a line stands, if the next block has its width, and the blocks
around. A wider one would be a return to an indentation that was not open. -/
def takeRest? (width : Nat) : List (Nat × Code) → Option (Code × List (Nat × Code))
  | (other, rest) :: around =>
    if other = width then some (rest, around)
    else if other < width then some (nil, (other, rest) :: around)
    else none
  | [] => some (nil, [])

/-- Puts a line before the blocks of code that follow it, the next one first, each with the width
it stands at. -/
def push (width : Nat) (form : Form) (blocks : List (Nat × Code)) :
    Option (List (Nat × Code)) := do
  let (inner, outer) := takeOwn width blocks
  let (rest, around) ← takeRest? width outer
  let code ← statement? form inner rest
  return (width, code) :: around

def readBlocks? : List (Nat × Form) → Option (List (Nat × Code))
  | [] => some []
  | (width, form) :: lines => (readBlocks? lines).bind (push width form)

def read? (reserved : List String) (subject cs : List Char) : Option Code := do
  match ← readBlocks? (← readLines? reserved subject cs) with
  | [] => some nil
  | [(0, code)] => if code.startsLater then none else some code
  | _ => none

end Code

inductive Executed where
  | assignment (name value : List Char)
  | member (name type : List Char)
  | classStatement (name base : List Char) (body : List Executed)

/-- What a block does, in order, if the version expression has that value; `waiting` says whether
the chain before it still looks for an arm. An ellipsis does nothing. -/
def Code.executed (t : List Nat) (waiting : Bool) : Code → List Executed
  | .nil => []
  | .statement .ellipsis _ rest => rest.executed t false
  | .statement (.ifHeader test) inner rest =>
    if test.holds t then inner.executed t false ++ rest.executed t false
    else rest.executed t true
  | .statement (.elifHeader test) inner rest =>
    if waiting && test.holds t then inner.executed t false ++ rest.executed t false
    else rest.executed t waiting
  | .statement .elseHeader inner rest =>
    (if waiting then inner.executed t false else []) ++ rest.executed t false
  | .statement (.classHeader name base) inner rest =>
    .classStatement name base (inner.executed t false) :: rest.executed t false
  | .statement (.assignment name value) _ rest => .assignment name value :: rest.executed t false
  | .statement (.member name type) _ rest => .member name type :: rest.executed t false

namespace Code

def lines (unit width : Nat) : Code → List (Nat × Form)
  | nil => []
  | statement form inner rest =>
    (width, form) :: (inner.lines unit (width + unit) ++ rest.lines unit width)

/-- Headers have blocks, nothing else has, and later arms follow arms. -/
def WellFormed : Code → Prop
  | nil => True
  | statement form inner rest =>
    form.isHeader = !inner.isNil ∧ inner.startsLater = false ∧
      (rest.startsLater = true → form.opensLater = true) ∧ inner.WellFormed ∧ rest.WellFormed

def onto (width : Nat) (code : Code) (blocks : List (Nat × Code)) : List (Nat × Code) :=
  match code with
  | nil => blocks
  | _ => (width, code) :: blocks

variable {unit width : Nat} {blocks : List (Nat × Code)}

theorem head_onto_le (code : Code) (hbelow : ∀ b ∈ blocks.head?, b.1 < width) :
    ∀ b ∈ (code.onto width blocks).head?, b.1 ≤ width := by
  intro b hb
  cases code with
  | nil => exact (hbelow b hb).le
  | statement form inner rest =>
    obtain rfl : (width, statement form inner rest) = b := by simpa [onto] using hb
    exact le_refl width

theorem takeOwn_onto {inner : Code} (hunit : 0 < unit)
    (hle : ∀ b ∈ blocks.head?, b.1 ≤ width) :
    takeOwn width (inner.onto (width + unit) blocks) = (inner, blocks) := by
  cases inner with
  | nil =>
    cases blocks with
    | nil => rfl
    | cons b blocks =>
      have hb : ¬ width < b.1 := not_lt.2 (hle b rfl)
      exact if_neg hb
  | statement form inner rest =>
    have hdeeper : width < width + unit := by omega
    exact if_pos hdeeper

theorem takeRest?_onto {rest : Code} (hbelow : ∀ b ∈ blocks.head?, b.1 < width) :
    takeRest? width (rest.onto width blocks) = some (rest, blocks) := by
  cases rest with
  | nil =>
    cases blocks with
    | nil => rfl
    | cons b blocks =>
      have hb : b.1 < width := hbelow b rfl
      exact (if_neg hb.ne).trans (if_pos hb)
  | statement form inner rest => exact if_pos rfl

/-- The lines of a well-formed block, before lines that stand less deep, read back as the block. -/
theorem readBlocks?_lines {code : Code} (hwf : code.WellFormed) (hunit : 0 < unit)
    {more : List (Nat × Form)} (hmore : readBlocks? more = some blocks)
    (hbelow : ∀ b ∈ blocks.head?, b.1 < width) :
    readBlocks? (code.lines unit width ++ more) = some (code.onto width blocks) := by
  induction code generalizing width blocks more with
  | nil => exact hmore
  | statement form inner rest ihInner ihRest =>
    obtain ⟨hheader, hinner, hlater, hwfInner, hwfRest⟩ := hwf
    have hrest := ihRest hwfRest hmore hbelow
    have hle := head_onto_le rest hbelow
    have hblock : readBlocks?
        (inner.lines unit (width + unit) ++ (rest.lines unit width ++ more)) =
          some (inner.onto (width + unit) (rest.onto width blocks)) := by
      apply ihInner hwfInner hrest
      intro b hb
      have hb' := hle b hb
      omega
    have hstatement : statement? form inner rest = some (statement form inner rest) :=
      if_pos ⟨hheader, hinner, hlater⟩
    rw [lines, List.cons_append, List.append_assoc, readBlocks?, hblock, Option.bind_some, push,
      takeOwn_onto hunit hle]
    simp only [takeRest?_onto hbelow, Option.bind_eq_bind, Option.bind_some, hstatement]
    rfl

/-- The code of a text whose lines are those of a well-formed block. -/
theorem read?_eq {reserved : List String} {subject cs : List Char} {code : Code}
    (hwf : code.WellFormed) (hstart : code.startsLater = false) (hunit : 0 < unit)
    (hlines : readLines? reserved subject cs = some (code.lines unit 0)) :
    read? reserved subject cs = some code := by
  have hblocks : readBlocks? (code.lines unit 0 ++ []) = some (code.onto 0 []) :=
    readBlocks?_lines hwf hunit rfl (by simp)
  rw [List.append_nil] at hblocks
  simp only [read?, hlines, Option.bind_eq_bind, Option.bind_some, hblocks]
  cases code with
  | nil => rfl
  | statement form inner rest => simp [onto, hstart]

def append : Code → Code → Code
  | nil, code => code
  | statement form inner rest, code => statement form inner (append rest code)

theorem append_eq_nil_iff {code later : Code} :
    code.append later = nil ↔ code = nil ∧ later = nil := by
  cases code <;> simp [append]

theorem lines_append (code later : Code) :
    (code.append later).lines unit width = code.lines unit width ++ later.lines unit width := by
  induction code with
  | nil => rfl
  | statement form inner rest _ ih => simp [append, lines, ih]

theorem startsLater_append {code later : Code} (hlater : later.startsLater = false) :
    (code.append later).startsLater = code.startsLater := by
  cases code with
  | nil => exact hlater
  | statement form inner rest => rfl

theorem WellFormed.append {code later : Code} (hcode : code.WellFormed)
    (hlater : later.WellFormed) (hstart : later.startsLater = false) :
    (code.append later).WellFormed := by
  induction code with
  | nil => exact hlater
  | statement form inner rest _ ih =>
    obtain ⟨hheader, hinner, hrest, hwfInner, hwfRest⟩ := hcode
    refine ⟨hheader, hinner, fun h => hrest ?_, hwfInner, ih hwfRest⟩
    rwa [startsLater_append hstart] at h

/-- Code that starts with no later arm does the same whatever stands before it. -/
theorem executed_of_startsLater {code : Code} (h : code.startsLater = false) (t : List Nat)
    (waiting : Bool) : code.executed t waiting = code.executed t false := by
  cases code with
  | nil => rfl
  | statement form inner rest =>
    cases form with
    | elifHeader test => cases h
    | elseHeader => cases h
    | _ => rfl

theorem executed_append {code later : Code} (h : later.startsLater = false) (t : List Nat)
    (waiting : Bool) :
    (code.append later).executed t waiting =
      code.executed t waiting ++ later.executed t false := by
  induction code generalizing waiting with
  | nil => exact executed_of_startsLater h t waiting
  | statement form inner rest _ ih =>
    cases form with
    | ifHeader test =>
      simp only [append, executed, ih]
      split <;> simp
    | elifHeader test =>
      simp only [append, executed, ih]
      split <;> simp
    | _ => simp [append, executed, ih]

end Code

end SchemaLineage.StubCode

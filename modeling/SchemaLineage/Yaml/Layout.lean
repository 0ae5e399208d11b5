import SchemaLineage.Yaml.Spot
import SchemaLineage.Yaml.Token

/-!
What is known between two tokens of a YAML text: which collections the depth shows to be open, and
where a key may have started. A key is known only by the colon after it, so its token is put in
front of what was read since its start.
-/
namespace SchemaLineage.Yaml

/-- A place where a key may have started. -/
structure KeyStart where
  /-- How many tokens there are in front of it. -/
  position : Nat
  line : Nat
  column : Nat
  /-- Whether nothing but a key may start there. -/
  isNeeded : Bool

/-- Whether a key that started there can still end at a place: on its line, and after at most 1024
characters. -/
def KeyStart.reaches (start : KeyStart) (p : Spot) : Bool :=
  p.line ≤ start.line && p.column ≤ start.column + 1024

structure Layout where
  tokens : Array Token := #[]
  /-- The depths of the collections outside of brackets, innermost first. -/
  depths : List Nat := []
  /-- Where a key may have started, within the innermost brackets. -/
  start : Option KeyStart := none
  /-- The same around each pair of brackets, innermost first. -/
  around : List (Option KeyStart) := []
  /-- Whether a key may start here. -/
  allowsKey : Bool := true

namespace Layout

def inBrackets (l : Layout) : Bool :=
  !l.around.isEmpty

def push (l : Layout) (t : Token) : Layout :=
  { l with tokens := l.tokens.push t }

def nextLine (l : Layout) : Layout :=
  { l with allowsKey := l.allowsKey || !l.inBrackets }

/-- Forgets a start from which no key can reach a place. A key that is needed must. -/
def keepStart? (p : Spot) (start : Option KeyStart) : Option (Option KeyStart) :=
  if start.all (·.reaches p) then some start
  else if start.any (·.isNeeded) then none
  else some none

def keepStarts? (l : Layout) (p : Spot) : Option Layout := do
  let start ← keepStart? p l.start
  let around ← l.around.mapM (keepStart? p)
  return { l with start, around }

/-- Forgets the start within the innermost brackets, unless a key is needed there. -/
def dropStart? (l : Layout) : Option Layout :=
  if l.start.any (·.isNeeded) then none else some { l with start := none }

/-- Notes that a key may start at a place. At the depth of the innermost collection, nothing else
may. -/
def withStart? (l : Layout) (p : Spot) : Option Layout :=
  if l.allowsKey then do
    let isNeeded := !l.inBrackets && l.depths.head? = some p.column
    let l ← l.dropStart?
    return { l with start := some ⟨l.tokens.size, p.line, p.column, isNeeded⟩ }
  else some l

/-- Opens a collection after the first `position` tokens if its depth is greater than that of the
innermost one. -/
def indent (l : Layout) (depth position : Nat) (opening : Token) : Layout :=
  if !l.inBrackets && l.depths.head?.all (· < depth) then
    { l with
      tokens := l.tokens.insertIdxIfInBounds position opening
      depths := depth :: l.depths }
  else l

def dedent (l : Layout) (depth : Option Nat) : Layout :=
  if l.inBrackets then l
  else
    let closes := fun d => depth.all (· < d)
    { l with
      tokens := l.tokens ++ (l.depths.takeWhile closes).toArray.map fun _ => Token.dedent
      depths := l.depths.dropWhile closes }

/-- The layout after a token that no key goes on with. -/
def sign? (l : Layout) (t : Token) (allowsKey : Bool) : Option Layout := do
  let l ← l.dropStart?
  return { l.push t with allowsKey }

/-- The layout after a token that a key may start with or be. -/
def word? (l : Layout) (p : Spot) (t : Token) (allowsKey : Bool) : Option Layout := do
  let l ← l.withStart? p
  return { l.push t with allowsKey }

/-- The layout after a sign that starts a part of a collection. Outside of brackets, it stands where
a key may start. -/
def part? (l : Layout) (p : Spot) (t opening : Token) : Option Layout :=
  if l.inBrackets || l.allowsKey then
    (l.indent p.column l.tokens.size opening).sign? t !l.inBrackets
  else none

def value? (l : Layout) (p : Spot) : Option Layout :=
  match l.start with
  | none => l.part? p .value .openMapping
  | some start =>
    let l := { l with tokens := l.tokens.insertIdxIfInBounds start.position .key }
    let l := l.indent start.column start.position .openMapping
    some { l.push .value with start := none, allowsKey := false }

def openFlow? (l : Layout) (p : Spot) (t : Token) : Option Layout := do
  let l ← l.word? p t true
  return { l with start := none, around := l.start :: l.around }

def closeFlow? (l : Layout) (t : Token) : Option Layout := do
  let l ← l.sign? t false
  match l.around with
  | [] => return l
  | start :: around => return { l with start, around }

def boundary? (l : Layout) (t : Token) : Option Layout :=
  (l.dedent none).sign? t false

def finish? (l : Layout) : Option (List Token) := do
  let l ← (l.dedent none).dropStart?
  return l.tokens.toList

end Layout

end SchemaLineage.Yaml

import SchemaLineage.Yaml.Node

/-!
Putting nodes together from tokens. A step takes at least one token, or may take none and leaves at
most what it was given.
-/
namespace SchemaLineage.Yaml

structure Properties where
  anchor : Option String := none
  tag : Option Tag := none

def splitProperties :
    (ts : List Token) → Properties × { rest : List Token // rest.length ≤ ts.length }
  | .anchor a :: .tag t :: ts => (⟨a, t⟩, ⟨ts, by simp only [List.length_cons]; omega⟩)
  | .tag t :: .anchor a :: ts => (⟨a, t⟩, ⟨ts, by simp only [List.length_cons]; omega⟩)
  | .anchor a :: ts => (⟨a, none⟩, ⟨ts, by simp only [List.length_cons]; omega⟩)
  | .tag t :: ts => (⟨none, t⟩, ⟨ts, by simp only [List.length_cons]; omega⟩)
  | ts => ({}, ⟨ts, Nat.le_refl _⟩)

inductive Surroundings where
  | lines
  /-- A mapping outside of brackets, where a list may be as deep as the mapping. -/
  | entry
  | brackets
  deriving DecidableEq

structure Step (α : Type) (bound : Nat) where
  content : α
  names : Names
  rest : List Token
  length_rest_lt : rest.length < bound

/-- Whether a key or a value outside of brackets is missing before a token. -/
def endsEntry (t : Token) : Bool :=
  t matches .key | .value | .dedent

def endsElement (t : Token) : Bool :=
  t matches .dash | .dedent

def endsEntryElement (t : Token) : Bool :=
  endsElement t || endsEntry t

def endsBraceValue (t : Token) : Bool :=
  t matches .comma | .closeBrace

def endsBraceKey (t : Token) : Bool :=
  endsBraceValue t || t matches .value

def endsPairValue (t : Token) : Bool :=
  t matches .comma | .closeBracket

def endsPairKey (t : Token) : Bool :=
  endsPairValue t || t matches .value

mutual

/-- Reads a node. One that has properties need not have more. -/
def node? (around : Surroundings) (names : Names) (ts : List Token) :
    Option (Step Node ts.length) :=
  match ts with
  | .reference name :: ts =>
    (names.anchors.lookup name).map fun n => ⟨.reference n, names, ts, by simp⟩
  | ts =>
    match splitProperties ts with
    | (properties, ⟨rest, hrest⟩) => do
      let tag ← properties.tag.mapM names.fullTag?
      let named := names.withAnchor properties.anchor
      let bare : Option (Step Node ts.length) :=
        if h : rest.length < ts.length then
          some ⟨.scalar { tag }, named (some { tag }), rest, h⟩
        else none
      match rest, hrest with
      | .scalar s :: rest, hrest =>
        return ⟨.scalar { s with tag }, named (some { s with tag }), rest, hrest⟩
      | .openBracket :: rest, hrest =>
        let ⟨xs, names, rest, h⟩ ← bracketElements? (named none) rest
        return ⟨.list xs, names, rest, Nat.lt_trans h hrest⟩
      | .openBrace :: rest, hrest =>
        let ⟨es, names, rest, h⟩ ← braceEntries? (named none) rest
        return ⟨.mapping es, names, rest, Nat.lt_trans h hrest⟩
      | .openList :: rest, hrest =>
        if around = .brackets then bare
        else
          let ⟨xs, names, rest, h⟩ ← elements? (named none) rest
          return ⟨.list xs, names, rest, Nat.lt_trans h hrest⟩
      | .openMapping :: rest, hrest =>
        if around = .brackets then bare
        else
          let ⟨es, names, rest, h⟩ ← entries? (named none) rest
          return ⟨.mapping es, names, rest, Nat.lt_trans h hrest⟩
      | .dash :: rest, hrest =>
        if around ≠ .entry then bare
        else
          let ⟨xs, names, rest, h⟩ ← dashElements? (named none) rest
          return ⟨.list xs, names, rest, Nat.lt_of_lt_of_le h hrest⟩
      | _, _ => bare
termination_by (ts.length, 0)

/-- Reads a node that may be missing before some tokens and at the end. -/
def slot? (around : Surroundings) (ends : Token → Bool) (names : Names) (ts : List Token) :
    Option (Step Node (ts.length + 1)) :=
  if ts.head?.all ends then some ⟨.empty, names, ts, Nat.lt_succ_self _⟩
  else do
    let ⟨x, names, rest, h⟩ ← node? around names ts
    return ⟨x, names, rest, Nat.lt_succ_of_lt h⟩
termination_by (ts.length, 1)

def valueSlot? (around : Surroundings) (ends : Token → Bool) (names : Names) (ts : List Token) :
    Option (Step Node (ts.length + 1)) :=
  match ts with
  | .value :: ts => do
    let ⟨x, names, rest, h⟩ ← slot? around ends names ts
    return ⟨x, names, rest, Nat.lt_succ_of_lt h⟩
  | ts => some ⟨.empty, names, ts, Nat.lt_succ_self _⟩
termination_by (ts.length, 2)

def elements? (names : Names) (ts : List Token) : Option (Step (List Node) ts.length) :=
  match ts with
  | .dash :: ts => do
    let ⟨x, names, rest, h⟩ ← slot? .lines endsElement names ts
    let ⟨xs, names, rest, h'⟩ ← elements? names rest
    return ⟨x :: xs, names, rest, Nat.lt_trans h' h⟩
  | .dedent :: ts => some ⟨[], names, ts, by simp⟩
  | _ => none
termination_by (ts.length, 0)

/-- Reads the elements of a list as deep as the mapping around it, after the first dash. -/
def dashElements? (names : Names) (ts : List Token) :
    Option (Step (List Node) (ts.length + 1)) := do
  let ⟨x, names, rest, h⟩ ← slot? .lines endsEntryElement names ts
  match rest, h with
  | .dash :: rest, h =>
    have hrest : rest.length < ts.length := Nat.lt_of_succ_lt_succ h
    let ⟨xs, names, rest, h'⟩ ← dashElements? names rest
    return ⟨x :: xs, names, rest, Nat.lt_of_lt_of_le h' (Nat.le_succ_of_le hrest)⟩
  | rest, h => return ⟨[x], names, rest, h⟩
termination_by (ts.length, 2)

def entries? (names : Names) (ts : List Token) : Option (Step (List (Node × Node)) ts.length) :=
  match ts with
  | .key :: ts => do
    let ⟨key, names, rest, h⟩ ← slot? .entry endsEntry names ts
    let ⟨value, names, rest, h'⟩ ← valueSlot? .entry endsEntry names rest
    let ⟨es, names, rest, h''⟩ ← entries? names rest
    return ⟨(key, value) :: es, names, rest, by simp only [List.length_cons]; omega⟩
  | .dedent :: ts => some ⟨[], names, ts, by simp⟩
  | _ => none
termination_by (ts.length, 0)

/-- Reads the elements of a list in brackets. A key among them makes a mapping of one entry. -/
def bracketElements? (names : Names) (ts : List Token) : Option (Step (List Node) ts.length) :=
  match ts with
  | .closeBracket :: ts => some ⟨[], names, ts, by simp⟩
  | ts => do
    let ⟨x, names, rest, h⟩ ← bracketElement? names ts
    match rest, h with
    | .comma :: rest, h =>
      have hrest : rest.length < ts.length := Nat.lt_of_succ_lt h
      let ⟨xs, names, rest, h'⟩ ← bracketElements? names rest
      return ⟨x :: xs, names, rest, Nat.lt_trans h' hrest⟩
    | .closeBracket :: rest, h => return ⟨[x], names, rest, Nat.lt_of_succ_lt h⟩
    | _, _ => none
termination_by (ts.length, 3)

def bracketElement? (names : Names) (ts : List Token) : Option (Step Node ts.length) :=
  match ts with
  | .key :: ts => do
    let ⟨key, names, rest, h⟩ ← pairKey? names ts
    let ⟨value, names, rest, h'⟩ ← valueSlot? .brackets endsPairValue names rest
    return ⟨.mapping [(key, value)], names, rest, by simp only [List.length_cons]; omega⟩
  | ts => node? .brackets names ts
termination_by (ts.length, 2)

/-- Reads the key of a mapping of one entry. Where it is missing, the sign in its place is passed
over. -/
def pairKey? (names : Names) (ts : List Token) : Option (Step Node ts.length) :=
  match ts with
  | [] => none
  | t :: ts =>
    if endsPairKey t then some ⟨.empty, names, ts, by simp⟩ else node? .brackets names (t :: ts)
termination_by (ts.length, 1)

def braceEntries? (names : Names) (ts : List Token) :
    Option (Step (List (Node × Node)) ts.length) :=
  match ts with
  | .closeBrace :: ts => some ⟨[], names, ts, by simp⟩
  | ts => do
    let ⟨e, names, rest, h⟩ ← braceEntry? names ts
    match rest, h with
    | .comma :: rest, h =>
      have hrest : rest.length < ts.length := Nat.lt_of_succ_lt h
      let ⟨es, names, rest, h'⟩ ← braceEntries? names rest
      return ⟨e :: es, names, rest, Nat.lt_trans h' hrest⟩
    | .closeBrace :: rest, h => return ⟨[e], names, rest, Nat.lt_of_succ_lt h⟩
    | _, _ => none
termination_by (ts.length, 3)

def braceEntry? (names : Names) (ts : List Token) : Option (Step (Node × Node) ts.length) :=
  match ts with
  | .key :: ts => do
    let ⟨key, names, rest, h⟩ ← slot? .brackets endsBraceKey names ts
    let ⟨value, names, rest, h'⟩ ← valueSlot? .brackets endsBraceValue names rest
    return ⟨(key, value), names, rest, by simp only [List.length_cons]; omega⟩
  | ts => do
    let ⟨key, names, rest, h⟩ ← node? .brackets names ts
    return ⟨(key, .empty), names, rest, h⟩
termination_by (ts.length, 2)

end

end SchemaLineage.Yaml

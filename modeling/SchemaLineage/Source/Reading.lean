import SchemaLineage.Except
import SchemaLineage.Schema.Basic
import SchemaLineage.Source.Lexing

/-!
Reading a schema from its tokens:

    module      = "module" NAME ["version" STRING] "{" definition* "}"
    definition  = NAME "=" (product | sum)
    product     = fields ["attributes" fields]
    sum         = constructor ("|" constructor)* ["attributes" fields]
    constructor = NAME [fields]
    fields      = "(" [field ("," field)*] ")"
    field       = NAME ["?" | "*"] NAME

The words in quotes are names that are special in those places only. A reader takes what it reads
off the front of the tokens; when it fails it says what it expected before which tokens.
-/
namespace SchemaLineage

namespace Reading

structure Mismatch where
  expected : Expectation
  rest : List LocatedToken

abbrev Taken (α : Type) := α × List LocatedToken

def expect (token : Token) : List LocatedToken → Except Mismatch (List LocatedToken)
  | [] => .error ⟨.token token, []⟩
  | t :: ts => if t.token = token then .ok ts else .error ⟨.token token, t :: ts⟩

def name (expected : Expectation) : List LocatedToken → Except Mismatch (Taken String)
  | ⟨.name s, _⟩ :: ts => .ok (s, ts)
  | ts => .error ⟨expected, ts⟩

def afterWord? (word : String) : List LocatedToken → Option (List LocatedToken)
  | [] => none
  | t :: ts => if t.token = .name word then some ts else none

def keyword (word : String) (ts : List LocatedToken) : Except Mismatch (List LocatedToken) :=
  match afterWord? word ts with
  | some ts => .ok ts
  | none => .error ⟨.keyword word, ts⟩

def qualifier : List LocatedToken → Qualifier × List LocatedToken
  | ⟨.question, _⟩ :: ts => (.optional, ts)
  | ⟨.star, _⟩ :: ts => (.sequence, ts)
  | ts => (.required, ts)

def field (ts : List LocatedToken) : Except Mismatch (Taken Field) := do
  let (kind, ts) ← name .fieldType ts
  let (qualifier, ts) := qualifier ts
  let (name, ts) ← name .fieldName ts
  return (⟨kind, name, qualifier⟩, ts)

theorem length_name {expected : Expectation} {ts rest : List LocatedToken} {s : String}
    (h : name expected ts = .ok (s, rest)) : rest.length < ts.length := by
  unfold name at h
  split at h
  · cases h; simp
  · cases h

theorem length_qualifier (ts : List LocatedToken) : (qualifier ts).2.length ≤ ts.length := by
  unfold qualifier
  split <;> simp

theorem length_field {ts rest : List LocatedToken} {f : Field} (h : field ts = .ok (f, rest)) :
    rest.length < ts.length := by
  obtain ⟨⟨kind, ts₁⟩, h₁, h⟩ := Except.exists_of_bind h
  obtain ⟨⟨name, ts₂⟩, h₂, h⟩ := Except.exists_of_bind h
  cases h
  have := length_name h₁
  have := length_qualifier ts₁
  have hlast : rest.length < (qualifier ts₁).2.length := length_name h₂
  omega

def fieldsThenClose (ts : List LocatedToken) : Except Mismatch (Taken (List Field)) :=
  match _hf : field ts with
  | .error e => .error e
  | .ok (f, ⟨.comma, _⟩ :: ts) => do
    let (fs, ts) ← fieldsThenClose ts
    return (f :: fs, ts)
  | .ok (f, ⟨.rightParen, _⟩ :: ts) => .ok ([f], ts)
  | .ok (_, ts) => .error ⟨.commaOrParen, ts⟩
termination_by ts.length
decreasing_by
  have := length_field _hf
  simp only [List.length_cons] at this
  omega

def fieldsAfterOpen : List LocatedToken → Except Mismatch (Taken (List Field))
  | ⟨.rightParen, _⟩ :: ts => .ok ([], ts)
  | ts => fieldsThenClose ts

def afterOpen? : List LocatedToken → Option (List LocatedToken)
  | ⟨.leftParen, _⟩ :: ts => some ts
  | _ => none

/-- The attributes of a type, which may be missing. The word is special only before a list. -/
def attributes (ts : List LocatedToken) : Except Mismatch (Taken (List Field)) :=
  match (afterWord? "attributes" ts).bind afterOpen? with
  | some ts => fieldsAfterOpen ts
  | none => .ok ([], ts)

def constructor (ts : List LocatedToken) : Except Mismatch (Taken Constructor) := do
  let (name, ts) ← name .constructorName ts
  match afterOpen? ts with
  | some ts =>
    let (fields, ts) ← fieldsAfterOpen ts
    return (⟨name, some fields⟩, ts)
  | none => return (⟨name, none⟩, ts)

theorem length_fieldsThenClose {ts rest : List LocatedToken} {fs : List Field}
    (h : fieldsThenClose ts = .ok (fs, rest)) : rest.length < ts.length := by
  fun_induction fieldsThenClose ts generalizing fs rest with
  | case1 => cases h
  | case2 ts f p tail hf ih =>
    obtain ⟨⟨fs, ts'⟩, htail, h⟩ := Except.exists_of_bind h
    cases h
    have := length_field hf
    have := ih htail
    simp only [List.length_cons] at *
    omega
  | case3 ts f p tail hf =>
    cases h
    have := length_field hf
    simp only [List.length_cons] at this
    omega
  | case4 => cases h

theorem length_fieldsAfterOpen {ts rest : List LocatedToken} {fs : List Field}
    (h : fieldsAfterOpen ts = .ok (fs, rest)) : rest.length < ts.length := by
  unfold fieldsAfterOpen at h
  split at h
  · cases h; simp
  · exact length_fieldsThenClose h

theorem length_afterOpen? {ts rest : List LocatedToken} (h : afterOpen? ts = some rest) :
    rest.length < ts.length := by
  unfold afterOpen? at h
  split at h
  · cases h; simp
  · cases h

theorem length_afterWord? {word : String} {ts rest : List LocatedToken}
    (h : afterWord? word ts = some rest) : rest.length < ts.length := by
  unfold afterWord? at h
  split at h
  · cases h
  · split at h
    · cases h; simp
    · cases h

theorem length_attributes {ts rest : List LocatedToken} {fs : List Field}
    (h : attributes ts = .ok (fs, rest)) : rest.length ≤ ts.length := by
  unfold attributes at h
  split at h
  · rename_i tail hopen
    obtain ⟨mid, hword, hparen⟩ := Option.bind_eq_some_iff.1 hopen
    have := length_afterWord? hword
    have := length_afterOpen? hparen
    have := length_fieldsAfterOpen h
    omega
  · cases h; exact Nat.le_refl _

theorem length_constructor {ts rest : List LocatedToken} {c : Constructor}
    (h : constructor ts = .ok (c, rest)) : rest.length < ts.length := by
  obtain ⟨⟨name, ts₁⟩, h₁, h⟩ := Except.exists_of_bind h
  have := length_name h₁
  simp only at h
  split at h
  · rename_i tail hopen
    obtain ⟨⟨fields, ts₂⟩, h₂, h⟩ := Except.exists_of_bind h
    have := length_afterOpen? hopen
    have := length_fieldsAfterOpen h₂
    cases h
    simp only at *
    omega
  · cases h
    assumption

def constructors (ts : List LocatedToken) : Except Mismatch (Taken (List Constructor)) :=
  match _hc : constructor ts with
  | .error e => .error e
  | .ok (c, ⟨.pipe, _⟩ :: ts) => do
    let (cs, ts) ← constructors ts
    return (c :: cs, ts)
  | .ok (c, ts) => .ok ([c], ts)
termination_by ts.length
decreasing_by
  have := length_constructor _hc
  simp only [List.length_cons] at this
  omega

theorem length_constructors {ts rest : List LocatedToken} {cs : List Constructor}
    (h : constructors ts = .ok (cs, rest)) : rest.length < ts.length := by
  fun_induction constructors ts generalizing cs rest with
  | case1 => cases h
  | case2 ts c p tail hc ih =>
    obtain ⟨⟨cs, ts'⟩, htail, h⟩ := Except.exists_of_bind h
    cases h
    have := length_constructor hc
    have := ih htail
    simp only [List.length_cons] at *
    omega
  | case3 ts c tail hne hc =>
    cases h
    exact length_constructor hc

def typeBody (ts : List LocatedToken) : Except Mismatch (Taken TypeBody) :=
  match afterOpen? ts with
  | some ts => do
    let (fields, ts) ← fieldsAfterOpen ts
    let (attributes, ts) ← attributes ts
    return (.product ⟨fields, attributes⟩, ts)
  | none => do
    let (constructors, ts) ← constructors ts
    let (attributes, ts) ← attributes ts
    return (.sum ⟨constructors, attributes⟩, ts)

def typeDef (ts : List LocatedToken) : Except Mismatch (Taken TypeDef) := do
  let (name, ts) ← name .typeName ts
  let ts ← expect .equals ts
  let (body, ts) ← typeBody ts
  return (⟨name, body⟩, ts)

theorem length_typeBody {ts rest : List LocatedToken} {b : TypeBody}
    (h : typeBody ts = .ok (b, rest)) : rest.length < ts.length := by
  unfold typeBody at h
  split at h
  · rename_i tail hopen
    obtain ⟨⟨fields, ts₁⟩, h₁, h⟩ := Except.exists_of_bind h
    obtain ⟨⟨attributes, ts₂⟩, h₂, h⟩ := Except.exists_of_bind h
    cases h
    have := length_afterOpen? hopen
    have := length_fieldsAfterOpen h₁
    have := length_attributes h₂
    omega
  · obtain ⟨⟨constructors, ts₁⟩, h₁, h⟩ := Except.exists_of_bind h
    obtain ⟨⟨attributes, ts₂⟩, h₂, h⟩ := Except.exists_of_bind h
    cases h
    have := length_constructors h₁
    have := length_attributes h₂
    omega

theorem length_expect {token : Token} {ts rest : List LocatedToken}
    (h : expect token ts = .ok rest) : rest.length < ts.length := by
  unfold expect at h
  split at h
  · cases h
  · split at h
    · cases h; simp
    · cases h

theorem length_typeDef {ts rest : List LocatedToken} {t : TypeDef}
    (h : typeDef ts = .ok (t, rest)) : rest.length < ts.length := by
  obtain ⟨⟨name, ts₁⟩, h₁, h⟩ := Except.exists_of_bind h
  obtain ⟨ts₂, h₂, h⟩ := Except.exists_of_bind h
  obtain ⟨⟨body, ts₃⟩, h₃, h⟩ := Except.exists_of_bind h
  cases h
  have := length_name h₁
  have := length_expect h₂
  have := length_typeBody h₃
  omega

def atEndOfTypes : List LocatedToken → Bool
  | [] => true
  | t :: _ => t.token = .rightBrace

def typeDefs (ts : List LocatedToken) : Except Mismatch (Taken (List TypeDef)) :=
  if atEndOfTypes ts then .ok ([], ts)
  else
    match _ht : typeDef ts with
    | .error e => .error e
    | .ok (t, rest) => do
      let (types, ts) ← typeDefs rest
      return (t :: types, ts)
termination_by ts.length
decreasing_by exact length_typeDef _ht

/-- The version string of a module, which may be missing and means nothing. -/
def versionString (ts : List LocatedToken) : Except Mismatch (List LocatedToken) :=
  match afterWord? "version" ts with
  | none => .ok ts
  | some (⟨.string _, _⟩ :: ts) => .ok ts
  | some ts => .error ⟨.versionString, ts⟩

def nothingMore : List LocatedToken → Except Mismatch Unit
  | [] => .ok ()
  | ts => .error ⟨.endOfInput, ts⟩

def module (ts : List LocatedToken) : Except Mismatch Schema := do
  let ts ← keyword "module" ts
  let (name, ts) ← name .moduleName ts
  let ts ← versionString ts
  let ts ← expect .leftBrace ts
  let (types, ts) ← typeDefs ts
  let ts ← expect .rightBrace ts
  nothingMore ts
  return ⟨name, types⟩

end Reading

/-- The schema that a token stream spells; a failure is placed at the first token that was not
expected, or at the end. -/
def TokenStream.schema (filename : String) (s : TokenStream) : Except SyntaxError Schema :=
  match Reading.module s.tokens with
  | .ok schema => .ok schema
  | .error ⟨expected, rest⟩ =>
    .error ⟨filename, (rest.head?.map (·.position)).getD s.finish,
      .mismatch expected (rest.head?.map (·.token))⟩

def Schema.ofText (filename source : String) : Except SyntaxError Schema :=
  match Lexing.tokens source.toList with
  | .error ⟨position, fault⟩ => .error ⟨filename, position, fault⟩
  | .ok stream => stream.schema filename

end SchemaLineage

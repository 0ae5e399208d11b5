import SchemaLineage.Source.Reading

/-!
The grammar of schema texts as rules that derive a tree from a row of tokens. A rule knows nothing
of what stands before or behind its tokens: that `module`, `version` and `attributes` are names like
any other is in the rules, which ask for those names in one place each and for any name elsewhere.
The names of a tree are names among the tokens it is derived from.
-/
namespace SchemaLineage

def Field.names (f : Field) : List String :=
  [f.kind, f.name]

def Constructor.names (c : Constructor) : List String :=
  c.name :: c.fields.flatMap Field.names

def TypeBody.names : TypeBody → List String
  | .sum s => s.constructors.flatMap Constructor.names ++ s.attributes.flatMap Field.names
  | .product p => p.fields.flatMap Field.names ++ p.attributes.flatMap Field.names

def TypeDef.names (t : TypeDef) : List String :=
  t.name :: t.body.names

def Schema.names (m : Schema) : List String :=
  m.name :: m.types.flatMap TypeDef.names

namespace Grammar

inductive Separated {α : Type} (separator : Token) (Item : List Token → α → Prop) :
    List Token → List α → Prop
  | one {ks : List Token} {a : α} (item : Item ks a) : Separated separator Item ks [a]
  | more {ks ls : List Token} {a : α} {as : List α} (item : Item ks a)
      (items : Separated separator Item ls as) :
      Separated separator Item (ks ++ separator :: ls) (a :: as)

inductive Repeated {α : Type} (Item : List Token → α → Prop) : List Token → List α → Prop
  | none : Repeated Item [] []
  | more {ks ls : List Token} {a : α} {as : List α} (item : Item ks a)
      (items : Repeated Item ls as) : Repeated Item (ks ++ ls) (a :: as)

inductive DerivesQualifier : List Token → Qualifier → Prop
  | required : DerivesQualifier [] .required
  | optional : DerivesQualifier [.question] .optional
  | sequence : DerivesQualifier [.star] .sequence

inductive DerivesField : List Token → Field → Prop
  | field (kind name : String) {ks : List Token} {q : Qualifier}
      (qualifier : DerivesQualifier ks q) :
      DerivesField (.name kind :: (ks ++ [.name name])) ⟨kind, name, q⟩

inductive DerivesFields : List Token → List Field → Prop
  | empty : DerivesFields [.leftParen, .rightParen] []
  | listed {ks : List Token} {fs : List Field} (fields : Separated .comma DerivesField ks fs) :
      DerivesFields (.leftParen :: (ks ++ [.rightParen])) fs

inductive DerivesAttributes : List Token → List Field → Prop
  | absent : DerivesAttributes [] []
  | present {ks : List Token} {fs : List Field} (fields : DerivesFields ks fs) :
      DerivesAttributes (.name "attributes" :: ks) fs

inductive DerivesConstructor : List Token → Constructor → Prop
  | bare (name : String) : DerivesConstructor [.name name] ⟨name, none⟩
  | listed (name : String) {ks : List Token} {fs : List Field} (fields : DerivesFields ks fs) :
      DerivesConstructor (.name name :: ks) ⟨name, some fs⟩

inductive DerivesBody : List Token → TypeBody → Prop
  | product {ks ls : List Token} {fs as : List Field} (fields : DerivesFields ks fs)
      (attributes : DerivesAttributes ls as) : DerivesBody (ks ++ ls) (.product ⟨fs, as⟩)
  | sum {ks ls : List Token} {cs : List Constructor} {as : List Field}
      (constructors : Separated .pipe DerivesConstructor ks cs)
      (attributes : DerivesAttributes ls as) : DerivesBody (ks ++ ls) (.sum ⟨cs, as⟩)

inductive DerivesType : List Token → TypeDef → Prop
  | definition (name : String) {ks : List Token} {b : TypeBody} (body : DerivesBody ks b) :
      DerivesType (.name name :: .equals :: ks) ⟨name, b⟩

inductive DerivesVersion : List Token → Prop
  | absent : DerivesVersion []
  | present (version : String) : DerivesVersion [.name "version", .string version]

inductive DerivesModule : List Token → Schema → Prop
  | module (name : String) {ks ls : List Token} {types : List TypeDef}
      (version : DerivesVersion ks) (definitions : Repeated DerivesType ls types) :
      DerivesModule
        (.name "module" :: .name name :: (ks ++ .leftBrace :: (ls ++ [.rightBrace])))
        ⟨name, types⟩

section Starts

variable {ks ls more : List Token}

def StartsWithName (ks : List Token) : Prop :=
  ∃ n ls, ks = .name n :: ls

theorem DerivesField.startsWithName {f : Field} (h : DerivesField ks f) : StartsWithName ks := by
  cases h with
  | field kind name _ => exact ⟨kind, _, rfl⟩

theorem DerivesConstructor.startsWithName {c : Constructor} (h : DerivesConstructor ks c) :
    StartsWithName ks := by
  cases h with
  | bare name => exact ⟨name, [], rfl⟩
  | listed name _ => exact ⟨name, _, rfl⟩

theorem Separated.startsWithName {α : Type} {separator : Token} {Item : List Token → α → Prop}
    {as : List α} (h : Separated separator Item ks as)
    (hitem : ∀ {ks a}, Item ks a → StartsWithName ks) : StartsWithName ks := by
  cases h with
  | one item => exact hitem item
  | more item _ =>
    obtain ⟨n, ls, rfl⟩ := hitem item
    exact ⟨n, _, rfl⟩

/-- What may follow a constructor: no list of fields. -/
def AfterConstructor (more : List Token) : Prop :=
  more.head? ≠ some .leftParen

/-- What may follow a type and its attributes: no list of fields either, no further constructor and
no attributes. -/
structure AfterType (more : List Token) : Prop where
  not_fields : more.head? ≠ some .leftParen
  not_constructor : more.head? ≠ some .pipe
  not_attributes : ∀ ls, more ≠ .name "attributes" :: .leftParen :: ls

/-- The attributes after the constructors cannot be read as a part of the last one. -/
theorem DerivesAttributes.afterConstructor {as : List Field} (h : DerivesAttributes ls as)
    (hmore : AfterType more) :
    AfterConstructor (ls ++ more) ∧ (ls ++ more).head? ≠ some .pipe := by
  cases h with
  | absent => exact ⟨hmore.not_fields, hmore.not_constructor⟩
  | present _ => simp [AfterConstructor]

/-- After a type stands the next one or a closing brace. A definition that starts with the word of
attributes has the sign of equality behind it, not a parenthesis. -/
theorem afterType_of_repeated {types : List TypeDef} (h : Repeated DerivesType ls types)
    (hmore : more.head? = some .rightBrace) : AfterType (ls ++ more) := by
  cases h with
  | none =>
    obtain ⟨tail, rfl⟩ := List.head?_eq_some_iff.1 hmore
    constructor <;> simp
  | more ht _ =>
    cases ht with
    | definition name _ => constructor <;> simp

end Starts

section Names

variable {ks : List Token} {n : String}

theorem Separated.ne_nil {α : Type} {separator : Token} {Item : List Token → α → Prop} {as : List α}
    (h : Separated separator Item ks as) : as ≠ [] := by
  cases h <;> exact List.cons_ne_nil _ _

theorem Separated.name_mem {α : Type} {separator : Token} {Item : List Token → α → Prop}
    {names : α → List String} {as : List α} (h : Separated separator Item ks as)
    (hitem : ∀ {ks a}, Item ks a → ∀ n ∈ names a, Token.name n ∈ ks) (hn : n ∈ as.flatMap names) :
    .name n ∈ ks := by
  induction h with
  | one item =>
    rw [List.flatMap_singleton] at hn
    exact hitem item n hn
  | more item _ ih =>
    rw [List.flatMap_cons, List.mem_append] at hn
    rcases hn with hn | hn
    · exact List.mem_append_left _ (hitem item n hn)
    · exact List.mem_append_right _ (List.mem_cons_of_mem separator (ih hn))

theorem Repeated.name_mem {α : Type} {Item : List Token → α → Prop} {names : α → List String}
    {as : List α} (h : Repeated Item ks as)
    (hitem : ∀ {ks a}, Item ks a → ∀ n ∈ names a, Token.name n ∈ ks) (hn : n ∈ as.flatMap names) :
    .name n ∈ ks := by
  induction h with
  | none => cases hn
  | more item _ ih =>
    rw [List.flatMap_cons, List.mem_append] at hn
    rcases hn with hn | hn
    · exact List.mem_append_left _ (hitem item n hn)
    · exact List.mem_append_right _ (ih hn)

theorem DerivesField.name_mem {f : Field} (h : DerivesField ks f) :
    ∀ n ∈ f.names, .name n ∈ ks := by
  cases h with
  | field kind name _ => simp [Field.names]

theorem DerivesFields.name_mem {fs : List Field} (h : DerivesFields ks fs)
    (hn : n ∈ fs.flatMap Field.names) : .name n ∈ ks := by
  cases h with
  | empty => cases hn
  | listed fields =>
    have hmem := fields.name_mem DerivesField.name_mem hn
    exact List.mem_cons_of_mem _ (List.mem_append_left _ hmem)

theorem DerivesAttributes.name_mem {as : List Field} (h : DerivesAttributes ks as)
    (hn : n ∈ as.flatMap Field.names) : .name n ∈ ks := by
  cases h with
  | absent => cases hn
  | present fields => exact List.mem_cons_of_mem _ (fields.name_mem hn)

theorem DerivesConstructor.name_mem {c : Constructor} (h : DerivesConstructor ks c) :
    ∀ n ∈ c.names, .name n ∈ ks := by
  intro n hn
  rcases List.mem_cons.1 hn with rfl | hn
  · cases h <;> exact List.mem_cons_self
  · cases h with
    | bare name => cases hn
    | listed name fields => exact List.mem_cons_of_mem _ (fields.name_mem hn)

theorem DerivesBody.name_mem {b : TypeBody} (h : DerivesBody ks b) (hn : n ∈ b.names) :
    .name n ∈ ks := by
  cases h with
  | product fields attributes =>
    rcases List.mem_append.1 hn with hn | hn
    · exact List.mem_append_left _ (fields.name_mem hn)
    · exact List.mem_append_right _ (attributes.name_mem hn)
  | sum constructors attributes =>
    rcases List.mem_append.1 hn with hn | hn
    · exact List.mem_append_left _ (constructors.name_mem DerivesConstructor.name_mem hn)
    · exact List.mem_append_right _ (attributes.name_mem hn)

theorem DerivesType.name_mem {t : TypeDef} (h : DerivesType ks t) :
    ∀ n ∈ t.names, .name n ∈ ks := by
  intro n hn
  cases h with
  | definition name body =>
    rcases List.mem_cons.1 hn with rfl | hn
    · exact List.mem_cons_self
    · exact List.mem_cons_of_mem _ (List.mem_cons_of_mem _ (body.name_mem hn))

/-- A derived schema holds no name but those among the tokens. -/
theorem DerivesModule.name_mem {m : Schema} (h : DerivesModule ks m) (hn : n ∈ m.names) :
    .name n ∈ ks := by
  cases h with
  | module name _ definitions =>
    rcases List.mem_cons.1 hn with rfl | hn
    · simp
    · have hmem := definitions.name_mem DerivesType.name_mem hn
      simp [hmem]

theorem DerivesType.constructors_ne_nil {t : TypeDef} {s : SumType} (h : DerivesType ks t)
    (hs : t.body = .sum s) : s.constructors ≠ [] := by
  cases h with
  | definition name body =>
    cases body with
    | product _ _ => cases hs
    | sum constructors _ =>
      cases hs
      exact constructors.ne_nil

theorem DerivesModule.constructors_ne_nil {m : Schema} (h : DerivesModule ks m) :
    ∀ t ∈ m.types, ∀ s, t.body = .sum s → s.constructors ≠ [] := by
  cases h with
  | module name _ definitions =>
    intro t ht s hs
    induction definitions with
    | none => cases ht
    | more item _ ih =>
      rcases List.mem_cons.1 ht with rfl | ht
      · exact item.constructors_ne_nil hs
      · exact ih ht

end Names

end Grammar

end SchemaLineage

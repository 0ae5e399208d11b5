import SchemaLineage.Proofs.GrammarFields

/-!
Reading follows the grammar: from the tokens a schema is read exactly if the grammar derives it. A
type may be followed by a closing brace or by the next definition, whose second token is the sign of
equality; so neither can be taken for the attributes of the type before it.
-/
namespace SchemaLineage

namespace Reading

open Grammar

section Types

variable {ts rest : List LocatedToken} {more : List Token}

theorem sound_attributes : Sound attributes DerivesAttributes := by
  intro ts rest fs h
  unfold attributes at h
  split at h
  · rename_i tail hopen
    obtain ⟨mid, hword, hparen⟩ := Option.bind_eq_some_iff.1 hopen
    obtain ⟨ks, hks, hderives⟩ := derives_of_fieldsAfterOpen hparen h
    refine ⟨_, ?_, .present hderives⟩
    rw [kinds_of_afterWord? hword, hks]
    rfl
  · cases h
    exact ⟨[], rfl, .absent⟩

theorem complete_attributes : Complete attributes DerivesAttributes AfterType := by
  intro ts ks more fs hfs hmore h
  unfold attributes
  cases hfs with
  | absent =>
    have hnone : (afterWord? "attributes" ts).bind afterOpen? = none := by
      rw [Option.bind_eq_none_iff]
      intro mid hword
      apply afterOpen?_eq_none
      intro hhead
      rw [List.head?_eq_some_iff] at hhead
      obtain ⟨ls, hls⟩ := hhead
      apply hmore.not_attributes ls
      rw [← hls, ← kinds_of_afterWord? hword]
      exact h.symm
    rw [hnone]
    exact ⟨ts, rfl, h⟩
  | present hfields =>
    obtain ⟨mid, hword, hmid⟩ := afterWord?_of_kinds h
    obtain ⟨tail, rest, hopen, hread, hrest⟩ := fieldsAfterOpen_of_derives hfields hmid
    rw [hword, Option.bind_some, hopen]
    exact ⟨rest, hread, hrest⟩

theorem sound_constructor : Sound constructor DerivesConstructor := by
  intro ts rest c h
  obtain ⟨⟨name, ts₁⟩, h₁, h⟩ := Except.exists_of_bind h
  simp only at h
  rw [kinds_of_name h₁]
  split at h
  · rename_i tail hopen
    obtain ⟨⟨fields, ts₂⟩, h₂, h⟩ := Except.exists_of_bind h
    cases h
    obtain ⟨ks, hks, hderives⟩ := derives_of_fieldsAfterOpen hopen h₂
    exact ⟨.name name :: ks, by rw [hks]; rfl, .listed name hderives⟩
  · cases h
    exact ⟨[.name name], rfl, .bare name⟩

theorem complete_constructor : Complete constructor DerivesConstructor AfterConstructor := by
  intro ts ks more c hc hmore h
  cases hc with
  | bare name =>
    obtain ⟨rest, h₁, hrest⟩ := name_of_kinds h .constructorName
    have hopen : afterOpen? rest = none := by
      apply afterOpen?_eq_none
      rw [hrest]
      exact hmore
    refine ⟨rest, ?_, hrest⟩
    rw [constructor, h₁]
    simp only [bind, Except.bind, hopen]
    rfl
  | listed name hfields =>
    obtain ⟨ts₁, h₁, hts₁⟩ := name_of_kinds h .constructorName
    obtain ⟨tail, rest, hopen, hread, hrest⟩ := fieldsAfterOpen_of_derives hfields hts₁
    refine ⟨rest, ?_, hrest⟩
    rw [constructor, h₁]
    simp only [bind, Except.bind, hopen, hread]
    rfl

theorem constructors_of_pipe {c : Constructor} {t : LocatedToken}
    (hc : constructor ts = .ok (c, t :: rest)) (ht : t.token = .pipe) :
    constructors ts = do
      let (cs, ts) ← constructors rest
      return (c :: cs, ts) := by
  obtain ⟨token, p⟩ := t
  cases ht
  rw [constructors]
  split <;> simp_all

theorem constructors_of_last {c : Constructor} (hc : constructor ts = .ok (c, rest))
    (hrest : (kinds rest).head? ≠ some .pipe) : constructors ts = .ok ([c], rest) := by
  rw [constructors]
  split
  · simp_all
  · rename_i c' p tail hc'
    rw [hc] at hc'
    cases hc'
    exact absurd rfl hrest
  · simp_all

theorem sound_constructors : Sound constructors (Separated .pipe DerivesConstructor) := by
  intro ts rest cs h
  fun_induction constructors ts generalizing cs rest with
  | case1 => cases h
  | case2 ts c p tail hc ih =>
    obtain ⟨⟨cs, ts'⟩, htail, h⟩ := Except.exists_of_bind h
    cases h
    obtain ⟨ks, hks, hderives⟩ := sound_constructor hc
    obtain ⟨ls, hls, hmore⟩ := ih htail
    refine ⟨ks ++ .pipe :: ls, ?_, .more hderives hmore⟩
    have hpipe : kinds (⟨.pipe, p⟩ :: tail) = .pipe :: kinds tail := rfl
    rw [hks, hpipe, hls]
    simp
  | case3 ts c tail hne hc =>
    cases h
    obtain ⟨ks, hks, hderives⟩ := sound_constructor hc
    exact ⟨ks, hks, .one hderives⟩

theorem complete_constructors : Complete constructors (Separated .pipe DerivesConstructor)
    fun more => AfterConstructor more ∧ more.head? ≠ some .pipe := by
  intro ts ks more cs hcs hmore h
  induction hcs generalizing ts with
  | one hc =>
    obtain ⟨rest, h₁, hrest⟩ := complete_constructor hc hmore.1 h
    exact ⟨rest, constructors_of_last h₁ (hrest ▸ hmore.2), hrest⟩
  | more hc _ ih =>
    rw [List.append_assoc, List.cons_append] at h
    obtain ⟨ts₁, h₁, hts₁⟩ := complete_constructor hc (by simp [AfterConstructor]) h
    obtain ⟨t, ts₂, rfl, ht, hts₂⟩ := kinds_eq_cons hts₁
    obtain ⟨rest, hcs, hrest⟩ := ih hts₂
    refine ⟨rest, ?_, hrest⟩
    rw [constructors_of_pipe h₁ ht, hcs]
    rfl

theorem sound_typeBody : Sound typeBody DerivesBody := by
  intro ts rest b h
  unfold typeBody at h
  split at h
  · rename_i tail hopen
    obtain ⟨⟨fields, ts₁⟩, h₁, h⟩ := Except.exists_of_bind h
    obtain ⟨⟨attributes, ts₂⟩, h₂, h⟩ := Except.exists_of_bind h
    cases h
    obtain ⟨ks, hks, hfields⟩ := derives_of_fieldsAfterOpen hopen h₁
    obtain ⟨ls, hls, hattributes⟩ := sound_attributes h₂
    exact ⟨ks ++ ls, by rw [hks, hls, List.append_assoc], .product hfields hattributes⟩
  · obtain ⟨⟨constructors, ts₁⟩, h₁, h⟩ := Except.exists_of_bind h
    obtain ⟨⟨attributes, ts₂⟩, h₂, h⟩ := Except.exists_of_bind h
    cases h
    obtain ⟨ks, hks, hconstructors⟩ := sound_constructors h₁
    obtain ⟨ls, hls, hattributes⟩ := sound_attributes h₂
    exact ⟨ks ++ ls, by rw [hks, hls, List.append_assoc], .sum hconstructors hattributes⟩

theorem complete_typeBody : Complete typeBody DerivesBody AfterType := by
  intro ts ks more b hb hmore h
  unfold typeBody
  cases hb with
  | product hfields hattributes =>
    rw [List.append_assoc] at h
    obtain ⟨tail, ts₁, hopen, h₁, hts₁⟩ := fieldsAfterOpen_of_derives hfields h
    obtain ⟨rest, h₂, hrest⟩ := complete_attributes hattributes hmore hts₁
    refine ⟨rest, ?_, hrest⟩
    simp only [hopen, h₁, h₂, bind, Except.bind]
    rfl
  | sum hconstructors hattributes =>
    rw [List.append_assoc] at h
    have hopen : afterOpen? ts = none := by
      apply afterOpen?_eq_none
      obtain ⟨n, ls, rfl⟩ := hconstructors.startsWithName DerivesConstructor.startsWithName
      rw [h]
      simp
    obtain ⟨ts₁, h₁, hts₁⟩ := complete_constructors hconstructors
      (hattributes.afterConstructor hmore) h
    obtain ⟨rest, h₂, hrest⟩ := complete_attributes hattributes hmore hts₁
    refine ⟨rest, ?_, hrest⟩
    simp only [hopen, h₁, h₂, bind, Except.bind]
    rfl

theorem sound_typeDef : Sound typeDef DerivesType := by
  intro ts rest t h
  obtain ⟨⟨name, ts₁⟩, h₁, h⟩ := Except.exists_of_bind h
  obtain ⟨ts₂, h₂, h⟩ := Except.exists_of_bind h
  obtain ⟨⟨body, ts₃⟩, h₃, h⟩ := Except.exists_of_bind h
  cases h
  obtain ⟨ks, hks, hbody⟩ := sound_typeBody h₃
  refine ⟨.name name :: .equals :: ks, ?_, .definition name hbody⟩
  rw [kinds_of_name h₁, kinds_of_expect h₂, hks]
  rfl

theorem complete_typeDef : Complete typeDef DerivesType AfterType := by
  intro ts ks more t ht hmore h
  cases ht with
  | definition name hbody =>
    obtain ⟨ts₁, h₁, hts₁⟩ := name_of_kinds h .typeName
    obtain ⟨ts₂, h₂, hts₂⟩ := expect_of_kinds hts₁
    obtain ⟨rest, h₃, hrest⟩ := complete_typeBody hbody hmore hts₂
    refine ⟨rest, ?_, hrest⟩
    simp only [typeDef, h₁, h₂, h₃, bind, Except.bind]
    rfl

theorem typeDefs_of_typeDef {t : TypeDef} (hend : atEndOfTypes ts = false)
    (ht : typeDef ts = .ok (t, rest)) :
    typeDefs ts = do
      let (types, ts) ← typeDefs rest
      return (t :: types, ts) := by
  rw [typeDefs, if_neg (by simp [hend])]
  split <;> simp_all

theorem sound_typeDefs : Sound typeDefs (Repeated DerivesType) := by
  intro ts rest types h
  fun_induction typeDefs ts generalizing types rest with
  | case1 ts hend =>
    cases h
    exact ⟨[], rfl, .none⟩
  | case2 => cases h
  | case3 ts hend t tail ht ih =>
    obtain ⟨⟨types, ts'⟩, htail, h⟩ := Except.exists_of_bind h
    cases h
    obtain ⟨ks, hks, hderives⟩ := sound_typeDef ht
    obtain ⟨ls, hls, hmore⟩ := ih htail
    exact ⟨ks ++ ls, by rw [hks, hls, List.append_assoc], .more hderives hmore⟩

theorem complete_typeDefs : Complete typeDefs (Repeated DerivesType)
    fun more => more.head? = some .rightBrace := by
  intro ts ks more types htypes hmore h
  induction htypes generalizing ts with
  | none =>
    have hend : atEndOfTypes ts = true := by
      obtain ⟨tail, rfl⟩ := List.head?_eq_some_iff.1 hmore
      obtain ⟨t, rest, rfl, ht, -⟩ := kinds_eq_cons h
      exact decide_eq_true ht
    refine ⟨ts, ?_, h⟩
    rw [typeDefs, if_pos hend]
  | more ht hmany ih =>
    rw [List.append_assoc] at h
    -- A definition starts with a name, so the types do not end before it.
    have hend : atEndOfTypes ts = false := by
      cases ht with
      | definition name _ =>
        obtain ⟨t, rest, rfl, ht, -⟩ := kinds_eq_cons h
        simp [atEndOfTypes, ht]
    obtain ⟨ts₁, h₁, hts₁⟩ := complete_typeDef ht (afterType_of_repeated hmany hmore) h
    obtain ⟨rest, htypes, hrest⟩ := ih hts₁
    refine ⟨rest, ?_, hrest⟩
    rw [typeDefs_of_typeDef hend h₁, htypes]
    rfl

theorem derivesVersion_of_versionString (h : versionString ts = .ok rest) :
    ∃ ks, kinds ts = ks ++ kinds rest ∧ DerivesVersion ks := by
  unfold versionString at h
  split at h
  · cases h
    exact ⟨[], rfl, .absent⟩
  · rename_i version p tail hword
    cases h
    exact ⟨_, kinds_of_afterWord? hword, .present version⟩
  · cases h

theorem versionString_of_derives {ks : List Token} (hks : DerivesVersion ks)
    (h : kinds ts = ks ++ .leftBrace :: more) :
    ∃ rest, versionString ts = .ok rest ∧ kinds rest = .leftBrace :: more := by
  unfold versionString
  cases hks with
  | absent =>
    obtain ⟨t, rest, rfl, ht, hrest⟩ := kinds_eq_cons h
    have hword : afterWord? "version" (t :: rest) = none := by simp [afterWord?, ht]
    rw [hword]
    exact ⟨_, rfl, h⟩
  | present version =>
    obtain ⟨ts₁, hword, hts₁⟩ := afterWord?_of_kinds h
    obtain ⟨⟨token, p⟩, rest, rfl, rfl, hrest⟩ := kinds_eq_cons hts₁
    rw [hword]
    exact ⟨rest, rfl, hrest⟩

end Types

section Modules

variable {ts : List LocatedToken} {m : Schema}

theorem derives_of_module (h : module ts = .ok m) : DerivesModule (kinds ts) m := by
  obtain ⟨ts₁, h₁, h⟩ := Except.exists_of_bind h
  obtain ⟨⟨name, ts₂⟩, h₂, h⟩ := Except.exists_of_bind h
  obtain ⟨ts₃, h₃, h⟩ := Except.exists_of_bind h
  obtain ⟨ts₄, h₄, h⟩ := Except.exists_of_bind h
  obtain ⟨⟨types, ts₅⟩, h₅, h⟩ := Except.exists_of_bind h
  obtain ⟨ts₆, h₆, h⟩ := Except.exists_of_bind h
  obtain ⟨_, h₇, h⟩ := Except.exists_of_bind h
  cases h
  obtain ⟨ks, hks, hversion⟩ := derivesVersion_of_versionString h₃
  obtain ⟨ls, hls, htypes⟩ := sound_typeDefs h₅
  obtain rfl := eq_nil_of_nothingMore h₇
  have hkinds : kinds ts =
      .name "module" :: .name name :: (ks ++ .leftBrace :: (ls ++ [.rightBrace])) := by
    rw [kinds_of_keyword h₁, kinds_of_name h₂, hks, kinds_of_expect h₄, hls, kinds_of_expect h₆]
    rfl
  rw [hkinds]
  exact .module name hversion htypes

theorem module_of_derives {ks : List Token} (hks : DerivesModule ks m) (h : kinds ts = ks) :
    module ts = .ok m := by
  cases hks with
  | module name hversion htypes =>
    obtain ⟨ts₁, h₁, hts₁⟩ := keyword_of_kinds h
    obtain ⟨ts₂, h₂, hts₂⟩ := name_of_kinds hts₁ .moduleName
    obtain ⟨ts₃, h₃, hts₃⟩ := versionString_of_derives hversion hts₂
    obtain ⟨ts₄, h₄, hts₄⟩ := expect_of_kinds hts₃
    obtain ⟨ts₅, h₅, hts₅⟩ := complete_typeDefs htypes rfl hts₄
    obtain ⟨ts₆, h₆, hts₆⟩ := expect_of_kinds hts₅
    obtain rfl := List.map_eq_nil_iff.1 hts₆
    simp only [module, h₁, h₂, h₃, h₄, h₅, h₆, nothingMore, bind, Except.bind]
    rfl

end Modules

end Reading

namespace TokenStream

theorem derives_of_schema {filename : String} {s : TokenStream} {m : Schema}
    (h : s.schema filename = .ok m) : Grammar.DerivesModule (Reading.kinds s.tokens) m := by
  unfold schema at h
  split at h
  · rename_i hread
    cases h
    exact Reading.derives_of_module hread
  · cases h

theorem schema_of_derives {s : TokenStream} {ks : List Token} {m : Schema}
    (hks : Grammar.DerivesModule ks m) (h : Reading.kinds s.tokens = ks) (filename : String) :
    s.schema filename = .ok m := by
  rw [schema, Reading.module_of_derives hks h]

end TokenStream

namespace Grammar

/-- No row of tokens has two trees: both would be what is read from it. -/
theorem eq_of_derivesModule {ks : List Token} {m m' : Schema} (h : DerivesModule ks m)
    (h' : DerivesModule ks m') : m = m' := by
  have hkinds : Reading.kinds (ks.map (LocatedToken.mk · .start)) = ks := by
    simp [Reading.kinds, Function.comp_def]
  have hread := Reading.module_of_derives h hkinds
  rw [Reading.module_of_derives h' hkinds] at hread
  exact (Except.ok.inj hread).symm

end Grammar

/-- A token stream is read as a schema exactly if the grammar derives the schema from its tokens,
and no row of tokens has derivations of two schemas. -/
theorem schema_read_iff_derived (filename : String) (s : TokenStream) :
    (∀ m, s.schema filename = .ok m ↔ Grammar.DerivesModule (s.tokens.map (·.token)) m) ∧
      ∀ ks m m', Grammar.DerivesModule ks m → Grammar.DerivesModule ks m' → m = m' := by
  constructor
  · intro m
    constructor
    · exact TokenStream.derives_of_schema
    · intro h
      exact TokenStream.schema_of_derives h rfl filename
  · intro ks m m' h h'
    exact Grammar.eq_of_derivesModule h h'

/-- A module with the name `version` and a version. Its first type has a constructor with the name
`attributes` before its attributes, and its second type has that name too. -/
def wordTokens : List Token :=
  [.name "module", .name "version", .name "version", .string "", .leftBrace,
    .name "attributes", .equals, .name "version", .leftParen, .rightParen, .pipe,
    .name "attributes",
    .name "attributes", .leftParen, .name "int", .question, .name "module", .rightParen,
    .name "attributes", .equals, .leftParen, .name "module", .star, .name "version", .rightParen,
    .rightBrace]

def wordSchema : Schema where
  name := "version"
  types :=
    [⟨"attributes",
        .sum ⟨[⟨"version", some []⟩, ⟨"attributes", none⟩], [⟨"int", "module", .optional⟩]⟩⟩,
      ⟨"attributes", .product ⟨[⟨"module", "version", .sequence⟩], []⟩⟩]

theorem derives_wordTokens : Grammar.DerivesModule wordTokens wordSchema := by
  have hsum : Grammar.DerivesType _ _ := .definition "attributes" (.sum
    (.more (.listed "version" .empty) (.one (.bare "attributes")))
    (.present (.listed (.one (.field "int" "module" .optional)))))
  have hproduct : Grammar.DerivesType _ _ := .definition "attributes"
    (.product (.listed (.one (.field "module" "version" .sequence))) .absent)
  exact .module "version" (.present "") (.more hsum (.more hproduct .none))

theorem schema_read_wordTokens :
    (TokenStream.mk (wordTokens.map (LocatedToken.mk · .start)) .start).schema "words.asdl" =
        .ok wordSchema ∧
      ∀ m, Grammar.DerivesModule wordTokens m → m = wordSchema :=
  have h := schema_read_iff_derived "words.asdl"
    ⟨wordTokens.map (LocatedToken.mk · .start), .start⟩
  ⟨(h.1 wordSchema).2 derives_wordTokens, fun m hm => h.2 _ m wordSchema hm derives_wordTokens⟩

end SchemaLineage

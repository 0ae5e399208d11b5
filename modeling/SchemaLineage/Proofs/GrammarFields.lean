import SchemaLineage.Proofs.Grammar

/-!
Readers and rules. A reader is sound if what it takes off the front of the tokens is derived by its
rule, and complete if it takes off what the rule derives whenever something may follow that it would
not go on with. The readers of single tokens, of fields and of lists of fields are both; a list of
fields ends with its parenthesis, whatever follows.
-/
namespace SchemaLineage

namespace Reading

open Grammar

def kinds (ts : List LocatedToken) : List Token :=
  ts.map (·.token)

/-- What the reader takes off the front is derived by the rule. -/
def Sound {α : Type} (read : List LocatedToken → Except Mismatch (Taken α))
    (Derives : List Token → α → Prop) : Prop :=
  ∀ ⦃ts rest a⦄, read ts = .ok (a, rest) → ∃ ks, kinds ts = ks ++ kinds rest ∧ Derives ks a

/-- What the rule derives is taken off the front, whatever of the kind may follow. -/
def Complete {α : Type} (read : List LocatedToken → Except Mismatch (Taken α))
    (Derives : List Token → α → Prop) (MayFollow : List Token → Prop) : Prop :=
  ∀ ⦃ts ks more a⦄, Derives ks a → MayFollow more → kinds ts = ks ++ more →
    ∃ rest, read ts = .ok (a, rest) ∧ kinds rest = more

section Tokens

variable {ts rest : List LocatedToken} {k : Token} {more : List Token}

theorem kinds_eq_cons (h : kinds ts = k :: more) :
    ∃ t rest, ts = t :: rest ∧ t.token = k ∧ kinds rest = more :=
  List.map_eq_cons_iff.1 h

theorem kinds_of_name {expected : Expectation} {s : String}
    (h : name expected ts = .ok (s, rest)) : kinds ts = .name s :: kinds rest := by
  unfold name at h
  split at h
  · cases h
    rfl
  · cases h

theorem name_of_kinds {s : String} (h : kinds ts = .name s :: more) (expected : Expectation) :
    ∃ rest, name expected ts = .ok (s, rest) ∧ kinds rest = more := by
  obtain ⟨⟨token, p⟩, rest, rfl, rfl, hrest⟩ := kinds_eq_cons h
  exact ⟨rest, rfl, hrest⟩

theorem kinds_of_expect (h : expect k ts = .ok rest) : kinds ts = k :: kinds rest := by
  unfold expect at h
  split at h
  · cases h
  · split at h
    · rename_i hk
      cases h
      exact congrArg (· :: _) hk
    · cases h

theorem expect_of_kinds (h : kinds ts = k :: more) :
    ∃ rest, expect k ts = .ok rest ∧ kinds rest = more := by
  obtain ⟨t, rest, rfl, hk, hrest⟩ := kinds_eq_cons h
  exact ⟨rest, if_pos hk, hrest⟩

theorem kinds_of_afterWord? {word : String} (h : afterWord? word ts = some rest) :
    kinds ts = .name word :: kinds rest := by
  unfold afterWord? at h
  split at h
  · cases h
  · split at h
    · rename_i hk
      cases h
      exact congrArg (· :: _) hk
    · cases h

theorem afterWord?_of_kinds {word : String} (h : kinds ts = .name word :: more) :
    ∃ rest, afterWord? word ts = some rest ∧ kinds rest = more := by
  obtain ⟨t, rest, rfl, hk, hrest⟩ := kinds_eq_cons h
  exact ⟨rest, if_pos hk, hrest⟩

theorem kinds_of_keyword {word : String} (h : keyword word ts = .ok rest) :
    kinds ts = .name word :: kinds rest := by
  unfold keyword at h
  split at h
  · rename_i hword
    cases h
    exact kinds_of_afterWord? hword
  · cases h

theorem keyword_of_kinds {word : String} (h : kinds ts = .name word :: more) :
    ∃ rest, keyword word ts = .ok rest ∧ kinds rest = more := by
  obtain ⟨rest, hword, hrest⟩ := afterWord?_of_kinds h
  refine ⟨rest, ?_, hrest⟩
  rw [keyword, hword]

theorem eq_nil_of_nothingMore (h : nothingMore ts = .ok ()) : ts = [] := by
  unfold nothingMore at h
  split at h
  · rfl
  · cases h

theorem kinds_of_afterOpen? (h : afterOpen? ts = some rest) :
    kinds ts = .leftParen :: kinds rest := by
  unfold afterOpen? at h
  split at h
  · cases h
    rfl
  · cases h

theorem afterOpen?_of_kinds (h : kinds ts = .leftParen :: more) :
    ∃ rest, afterOpen? ts = some rest ∧ kinds rest = more := by
  obtain ⟨⟨token, p⟩, rest, rfl, rfl, hrest⟩ := kinds_eq_cons h
  exact ⟨rest, rfl, hrest⟩

theorem afterOpen?_eq_none (h : (kinds ts).head? ≠ some .leftParen) : afterOpen? ts = none := by
  cases hopen : afterOpen? ts with
  | none => rfl
  | some rest =>
    rw [kinds_of_afterOpen? hopen] at h
    exact absurd rfl h

end Tokens

section Fields

variable {ts rest : List LocatedToken} {more : List Token}

theorem derivesQualifier (ts : List LocatedToken) :
    ∃ ks, kinds ts = ks ++ kinds (qualifier ts).2 ∧ DerivesQualifier ks (qualifier ts).1 := by
  unfold qualifier
  split
  · exact ⟨[.question], rfl, .optional⟩
  · exact ⟨[.star], rfl, .sequence⟩
  · exact ⟨[], rfl, .required⟩

theorem qualifier_of_kinds {ks : List Token} {q : Qualifier} {s : String}
    (hq : DerivesQualifier ks q) (h : kinds ts = ks ++ .name s :: more) :
    ∃ rest, qualifier ts = (q, rest) ∧ kinds rest = .name s :: more := by
  cases hq with
  | required =>
    obtain ⟨⟨token, p⟩, tail, rfl, rfl, -⟩ := kinds_eq_cons h
    exact ⟨_, rfl, h⟩
  | optional =>
    obtain ⟨⟨token, p⟩, rest, rfl, rfl, hrest⟩ := kinds_eq_cons h
    exact ⟨rest, rfl, hrest⟩
  | sequence =>
    obtain ⟨⟨token, p⟩, rest, rfl, rfl, hrest⟩ := kinds_eq_cons h
    exact ⟨rest, rfl, hrest⟩

theorem sound_field : Sound field DerivesField := by
  intro ts rest f h
  obtain ⟨⟨kind, ts₁⟩, h₁, h⟩ := Except.exists_of_bind h
  obtain ⟨⟨name, ts₂⟩, h₂, h⟩ := Except.exists_of_bind h
  cases h
  obtain ⟨ks, hks, hq⟩ := derivesQualifier ts₁
  refine ⟨.name kind :: (ks ++ [.name name]), ?_, .field kind name hq⟩
  have hname : kinds (qualifier ts₁).2 = .name name :: kinds rest := kinds_of_name h₂
  rw [kinds_of_name h₁, hks, hname]
  simp

theorem complete_field : Complete field DerivesField fun _ => True := by
  intro ts ks more f hf _ h
  cases hf with
  | field kind name hq =>
    rw [List.cons_append, List.append_assoc, List.singleton_append] at h
    obtain ⟨ts₁, h₁, hts₁⟩ := name_of_kinds h .fieldType
    obtain ⟨ts₂, h₂, hts₂⟩ := qualifier_of_kinds hq hts₁
    obtain ⟨ts₃, h₃, hts₃⟩ := name_of_kinds hts₂ .fieldName
    refine ⟨ts₃, ?_, hts₃⟩
    simp only [field, h₁, h₂, h₃, bind, Except.bind]
    rfl

theorem fieldsThenClose_of_comma {f : Field} {t : LocatedToken} (hf : field ts = .ok (f, t :: rest))
    (ht : t.token = .comma) :
    fieldsThenClose ts = do
      let (fs, ts) ← fieldsThenClose rest
      return (f :: fs, ts) := by
  obtain ⟨token, p⟩ := t
  cases ht
  rw [fieldsThenClose]
  split <;> simp_all

theorem fieldsThenClose_of_close {f : Field} {t : LocatedToken} (hf : field ts = .ok (f, t :: rest))
    (ht : t.token = .rightParen) : fieldsThenClose ts = .ok ([f], rest) := by
  obtain ⟨token, p⟩ := t
  cases ht
  rw [fieldsThenClose]
  split <;> simp_all

theorem derives_of_fieldsThenClose {fs : List Field} (h : fieldsThenClose ts = .ok (fs, rest)) :
    ∃ ks, kinds ts = ks ++ .rightParen :: kinds rest ∧ Separated .comma DerivesField ks fs := by
  fun_induction fieldsThenClose ts generalizing fs rest with
  | case1 => cases h
  | case2 ts f p tail hf ih =>
    obtain ⟨⟨fs, ts'⟩, htail, h⟩ := Except.exists_of_bind h
    cases h
    obtain ⟨ks, hks, hderives⟩ := sound_field hf
    obtain ⟨ls, hls, hmore⟩ := ih htail
    refine ⟨ks ++ .comma :: ls, ?_, .more hderives hmore⟩
    have hcomma : kinds (⟨.comma, p⟩ :: tail) = .comma :: kinds tail := rfl
    rw [hks, hcomma, hls]
    simp
  | case3 ts f p tail hf =>
    cases h
    obtain ⟨ks, hks, hderives⟩ := sound_field hf
    exact ⟨ks, hks, .one hderives⟩
  | case4 => cases h

theorem fieldsThenClose_of_derives {ks : List Token} {fs : List Field}
    (hfs : Separated .comma DerivesField ks fs) (h : kinds ts = ks ++ .rightParen :: more) :
    ∃ rest, fieldsThenClose ts = .ok (fs, rest) ∧ kinds rest = more := by
  induction hfs generalizing ts with
  | one hf =>
    obtain ⟨ts₁, h₁, hts₁⟩ := complete_field hf trivial h
    obtain ⟨t, rest, rfl, ht, hrest⟩ := kinds_eq_cons hts₁
    exact ⟨rest, fieldsThenClose_of_close h₁ ht, hrest⟩
  | more hf _ ih =>
    rw [List.append_assoc, List.cons_append] at h
    obtain ⟨ts₁, h₁, hts₁⟩ := complete_field hf trivial h
    obtain ⟨t, ts₂, rfl, ht, hts₂⟩ := kinds_eq_cons hts₁
    obtain ⟨rest, hfs, hrest⟩ := ih hts₂
    refine ⟨rest, ?_, hrest⟩
    rw [fieldsThenClose_of_comma h₁ ht, hfs]
    rfl

/-- A list of fields, whose opening parenthesis is read apart from the rest. -/
theorem derives_of_fieldsAfterOpen {tail : List LocatedToken} {fs : List Field}
    (hopen : afterOpen? ts = some tail) (h : fieldsAfterOpen tail = .ok (fs, rest)) :
    ∃ ks, kinds ts = ks ++ kinds rest ∧ DerivesFields ks fs := by
  rw [kinds_of_afterOpen? hopen]
  unfold fieldsAfterOpen at h
  split at h
  · cases h
    exact ⟨_, rfl, .empty⟩
  · obtain ⟨ks, hks, hderives⟩ := derives_of_fieldsThenClose h
    refine ⟨_, ?_, .listed hderives⟩
    rw [hks]
    simp

theorem fieldsAfterOpen_of_derives {ks : List Token} {fs : List Field} (hfs : DerivesFields ks fs)
    (h : kinds ts = ks ++ more) :
    ∃ tail rest, afterOpen? ts = some tail ∧ fieldsAfterOpen tail = .ok (fs, rest) ∧
      kinds rest = more := by
  cases hfs with
  | empty =>
    obtain ⟨tail, hopen, htail⟩ := afterOpen?_of_kinds h
    obtain ⟨⟨token, p⟩, rest, rfl, rfl, hrest⟩ := kinds_eq_cons htail
    exact ⟨_, rest, hopen, rfl, hrest⟩
  | listed hfields =>
    rw [List.cons_append, List.append_assoc, List.singleton_append] at h
    obtain ⟨tail, hopen, htail⟩ := afterOpen?_of_kinds h
    obtain ⟨rest, hrest, hmore⟩ := fieldsThenClose_of_derives hfields htail
    refine ⟨tail, rest, hopen, ?_, hmore⟩
    unfold fieldsAfterOpen
    split
    · obtain ⟨n, ls, rfl⟩ := hfields.startsWithName DerivesField.startsWithName
      cases htail
    · exact hrest

end Fields

end Reading

end SchemaLineage

import SchemaLineage.Proofs.Lookahead
import SchemaLineage.Proofs.Outcomes

/-!
Where a syntax error points. A reader that fails has read a front that its rule could still go on
from, and blames a token after which it would fail whatever followed. Main statement: the position
of a syntax error is that of the first token, or of the end, that no row with the same tokens before
it can have there.
-/
namespace SchemaLineage

namespace Grammar

/-- The tokens start a row that the rule derives. -/
def Completable {α : Type} (Derives : List Token → α → Prop) (ks : List Token) : Prop :=
  ∃ more a, Derives (ks ++ more) a

theorem Completable.of_derives {α : Type} {Derives : List Token → α → Prop} {ks : List Token}
    {a : α} (h : Derives ks a) : Completable Derives ks :=
  ⟨[], a, by rwa [List.append_nil]⟩

section Separated

variable {α : Type} {separator : Token} {Item : List Token → α → Prop} {ks ls : List Token}

theorem Completable.one (h : Completable Item ks) : Completable (Separated separator Item) ks := by
  obtain ⟨more, a, ha⟩ := h
  exact ⟨more, [a], .one ha⟩

theorem Completable.more {a : α} (ha : Item ks a) (h : Completable (Separated separator Item) ls) :
    Completable (Separated separator Item) (ks ++ separator :: ls) := by
  obtain ⟨more, as, has⟩ := h
  refine ⟨more, a :: as, ?_⟩
  rw [List.append_assoc, List.cons_append]
  exact .more ha has

end Separated

/-- The grammar accepts the row: the tokens of a module, and behind them the end. -/
def Accepts (row : List (Option Token)) : Prop :=
  ∃ ks m, DerivesModule ks m ∧ row = ks.map some ++ [none]

/-- The row starts one that the grammar accepts. -/
def Viable (row : List (Option Token)) : Prop :=
  ∃ more, Accepts (row ++ more)

section Rows

variable {ks ls : List Token} {mark : Option Token} {row more : List (Option Token)}

theorem Viable.of_append (h : Viable (row ++ more)) : Viable row := by
  obtain ⟨rest, hrest⟩ := h
  exact ⟨more ++ rest, by rwa [← List.append_assoc]⟩

theorem Completable.viable (h : Completable DerivesModule ks) : Viable (ks.map some) := by
  obtain ⟨more, m, hm⟩ := h
  exact ⟨more.map some ++ [none], ks ++ more, m, hm, by simp⟩

/-- The end stands behind all tokens of a row. -/
theorem eq_or_exists_of_row (h : ks.map some ++ mark :: more = ls.map some ++ [none]) :
    mark = none ∧ ls = ks ∨ ∃ k tail, mark = some k ∧ ls = ks ++ k :: tail := by
  induction ks generalizing ls with
  | nil =>
    cases ls with
    | nil => exact Or.inl ⟨(List.cons.inj h).1, rfl⟩
    | cons l ls => exact Or.inr ⟨l, ls, (List.cons.inj h).1, rfl⟩
  | cons k ks ih =>
    cases ls with
    | nil => cases (List.cons.inj h).1
    | cons l ls =>
      obtain ⟨hl, htail⟩ := List.cons.inj h
      obtain rfl := Option.some.inj hl
      rcases ih htail with ⟨hmark, rfl⟩ | ⟨k', tail, hmark, rfl⟩
      · exact Or.inl ⟨hmark, rfl⟩
      · exact Or.inr ⟨k', tail, hmark, rfl⟩

/-- A row stays viable up to the mark before which it is and behind which it is not. -/
theorem viable_take_iff (hviable : Viable row) (hnot : ¬ Viable (row ++ [mark])) (n : ℕ) :
    Viable ((row ++ mark :: more).take n) ↔ n ≤ row.length := by
  constructor
  · intro h
    by_contra hn
    obtain ⟨k, rfl⟩ : ∃ k, n = row.length + (k + 1) := ⟨n - row.length - 1, by omega⟩
    rw [List.take_length_add_append, List.take_succ_cons, ← List.singleton_append,
      ← List.append_assoc] at h
    exact hnot h.of_append
  · intro hn
    rw [List.take_append_of_le_length hn]
    rw [← List.take_append_drop n row] at hviable
    exact hviable.of_append

end Rows

end Grammar

namespace Reading

open Grammar

/-- The reader fails no later than the rule does: the tokens before the one that it blames start a
row that the rule derives. -/
def Timely {α β : Type} (read : List LocatedToken → Except Mismatch β)
    (Derives : List Token → α → Prop) : Prop :=
  ∀ ⦃ts e⦄, read ts = .error e → ∃ ks, kinds ts = ks ++ kinds e.rest ∧ Completable Derives ks

section Readers

variable {ts rest : List LocatedToken} {e : Mismatch}

theorem rest_of_name {expected : Expectation} (h : name expected ts = .error e) : e.rest = ts := by
  unfold name at h
  split at h
  · cases h
  · cases h
    rfl

theorem rest_of_expect {k : Token} (h : expect k ts = .error e) : e.rest = ts := by
  unfold expect at h
  split at h
  · cases h
    rfl
  · split at h
    · cases h
    · cases h
      rfl

theorem rest_of_keyword {word : String} (h : keyword word ts = .error e) : e.rest = ts := by
  unfold keyword at h
  split at h
  · cases h
  · cases h
    rfl

theorem rest_of_nothingMore (h : nothingMore ts = .error e) : e.rest = ts := by
  unfold nothingMore at h
  split at h
  · cases h
  · cases h
    rfl

theorem timely_field : Timely field DerivesField := by
  intro ts e h
  rcases Except.error_of_bind h with h₁ | ⟨⟨kind, ts₁⟩, h₁, h⟩
  · exact ⟨[], congrArg kinds (rest_of_name h₁).symm, _, _, .field "x" "x" .required⟩
  · rcases Except.error_of_bind h with h₂ | ⟨⟨name, ts₂⟩, h₂, h⟩
    · obtain ⟨ks, hks, hq⟩ := derivesQualifier ts₁
      have hrest : e.rest = (qualifier ts₁).2 := rest_of_name h₂
      refine ⟨.name kind :: ks, ?_, [.name "x"], _, .field kind "x" hq⟩
      rw [kinds_of_name h₁, hks, hrest]
      rfl
    · cases h

theorem timely_fieldsThenClose : Timely fieldsThenClose (Separated .comma DerivesField) := by
  intro ts e h
  fun_induction fieldsThenClose ts generalizing e with
  | case1 ts e' hf =>
    cases h
    obtain ⟨ks, hks, hfield⟩ := timely_field hf
    exact ⟨ks, hks, hfield.one⟩
  | case2 ts f p tail hf ih =>
    rcases Except.error_of_bind h with htail | ⟨⟨fs, ts'⟩, htail, h⟩
    · obtain ⟨ks, hks, hderives⟩ := sound_field hf
      obtain ⟨ls, hls, hmore⟩ := ih htail
      refine ⟨ks ++ .comma :: ls, ?_, hmore.more hderives⟩
      have hcomma : kinds (⟨.comma, p⟩ :: tail) = .comma :: kinds tail := rfl
      rw [hks, hcomma, hls]
      simp
    · cases h
  | case3 => cases h
  | case4 ts f tail hcomma hclose hf =>
    cases h
    obtain ⟨ks, hks, hderives⟩ := sound_field hf
    exact ⟨ks, hks, .of_derives (.one hderives)⟩

/-- A list of fields, whose opening parenthesis is read apart from the rest. -/
theorem completable_fieldsAfterOpen {tail : List LocatedToken} (hopen : afterOpen? ts = some tail)
    (h : fieldsAfterOpen tail = .error e) :
    ∃ ks, kinds ts = ks ++ kinds e.rest ∧ Completable DerivesFields ks := by
  rw [kinds_of_afterOpen? hopen]
  unfold fieldsAfterOpen at h
  split at h
  · cases h
  · obtain ⟨ks, hks, more, fs, hderives⟩ := timely_fieldsThenClose h
    refine ⟨.leftParen :: ks, by rw [hks]; rfl, more ++ [.rightParen], fs, ?_⟩
    rw [List.cons_append, ← List.append_assoc]
    exact .listed hderives

theorem timely_attributes : Timely attributes DerivesAttributes := by
  intro ts e h
  unfold attributes at h
  split at h
  · rename_i tail hopen
    obtain ⟨mid, hword, hparen⟩ := Option.bind_eq_some_iff.1 hopen
    obtain ⟨ks, hks, more, fs, hderives⟩ := completable_fieldsAfterOpen hparen h
    refine ⟨.name "attributes" :: ks, ?_, more, fs, .present hderives⟩
    rw [kinds_of_afterWord? hword, hks]
    rfl
  · cases h

theorem timely_constructor : Timely constructor DerivesConstructor := by
  intro ts e h
  rcases Except.error_of_bind h with h₁ | ⟨⟨name, ts₁⟩, h₁, h⟩
  · exact ⟨[], congrArg kinds (rest_of_name h₁).symm, _, _, .bare "x"⟩
  · simp only at h
    split at h
    · rename_i tail hopen
      rcases Except.error_of_bind h with h₂ | ⟨⟨fields, ts₂⟩, h₂, h⟩
      · obtain ⟨ks, hks, more, fs, hderives⟩ := completable_fieldsAfterOpen hopen h₂
        refine ⟨.name name :: ks, ?_, more, _, .listed name hderives⟩
        rw [kinds_of_name h₁, hks]
        rfl
      · cases h
    · cases h

theorem timely_constructors : Timely constructors (Separated .pipe DerivesConstructor) := by
  intro ts e h
  fun_induction constructors ts generalizing e with
  | case1 ts e' hc =>
    cases h
    obtain ⟨ks, hks, hconstructor⟩ := timely_constructor hc
    exact ⟨ks, hks, hconstructor.one⟩
  | case2 ts c p tail hc ih =>
    rcases Except.error_of_bind h with htail | ⟨⟨cs, ts'⟩, htail, h⟩
    · obtain ⟨ks, hks, hderives⟩ := sound_constructor hc
      obtain ⟨ls, hls, hmore⟩ := ih htail
      refine ⟨ks ++ .pipe :: ls, ?_, hmore.more hderives⟩
      have hpipe : kinds (⟨.pipe, p⟩ :: tail) = .pipe :: kinds tail := rfl
      rw [hks, hpipe, hls]
      simp
    · cases h
  | case3 => cases h

theorem timely_typeBody : Timely typeBody DerivesBody := by
  intro ts e h
  unfold typeBody at h
  split at h
  · rename_i tail hopen
    rcases Except.error_of_bind h with h₁ | ⟨⟨fields, ts₁⟩, h₁, h⟩
    · obtain ⟨ks, hks, more, fs, hfields⟩ := completable_fieldsAfterOpen hopen h₁
      have hbody := DerivesBody.product hfields .absent
      rw [List.append_nil] at hbody
      exact ⟨ks, hks, more, _, hbody⟩
    rcases Except.error_of_bind h with h₂ | ⟨⟨attributes, ts₂⟩, h₂, h⟩
    · obtain ⟨ks, hks, hfields⟩ := derives_of_fieldsAfterOpen hopen h₁
      obtain ⟨ls, hls, more, as, hattributes⟩ := timely_attributes h₂
      refine ⟨ks ++ ls, by rw [hks, hls, List.append_assoc], more, .product ⟨fields, as⟩, ?_⟩
      rw [List.append_assoc]
      exact .product hfields hattributes
    · cases h
  · rcases Except.error_of_bind h with h₁ | ⟨⟨constructors, ts₁⟩, h₁, h⟩
    · obtain ⟨ks, hks, more, cs, hconstructors⟩ := timely_constructors h₁
      have hbody := DerivesBody.sum hconstructors .absent
      rw [List.append_nil] at hbody
      exact ⟨ks, hks, more, _, hbody⟩
    rcases Except.error_of_bind h with h₂ | ⟨⟨attributes, ts₂⟩, h₂, h⟩
    · obtain ⟨ks, hks, hconstructors⟩ := sound_constructors h₁
      obtain ⟨ls, hls, more, as, hattributes⟩ := timely_attributes h₂
      refine ⟨ks ++ ls, by rw [hks, hls, List.append_assoc], more, .sum ⟨constructors, as⟩, ?_⟩
      rw [List.append_assoc]
      exact .sum hconstructors hattributes
    · cases h

theorem timely_typeDef : Timely typeDef DerivesType := by
  intro ts e h
  have hbare : DerivesBody [.leftParen, .rightParen] (.product ⟨[], []⟩) := .product .empty .absent
  rcases Except.error_of_bind h with h₁ | ⟨⟨name, ts₁⟩, h₁, h⟩
  · exact ⟨[], congrArg kinds (rest_of_name h₁).symm, _, _, .definition "x" hbare⟩
  rcases Except.error_of_bind h with h₂ | ⟨ts₂, h₂, h⟩
  · refine ⟨[.name name], ?_, _, _, .definition name hbare⟩
    rw [kinds_of_name h₁, rest_of_expect h₂]
    rfl
  rcases Except.error_of_bind h with h₃ | ⟨⟨body, ts₃⟩, h₃, h⟩
  · obtain ⟨ks, hks, more, b, hbody⟩ := timely_typeBody h₃
    refine ⟨.name name :: .equals :: ks, ?_, more, _, .definition name hbody⟩
    rw [kinds_of_name h₁, kinds_of_expect h₂, hks]
    rfl
  · cases h

theorem timely_typeDefs : Timely typeDefs (Repeated DerivesType) := by
  intro ts e h
  fun_induction typeDefs ts generalizing e with
  | case1 => cases h
  | case2 ts hend e' ht =>
    cases h
    obtain ⟨ks, hks, more, t, hderives⟩ := timely_typeDef ht
    have htypes := Repeated.more hderives .none
    rw [List.append_nil] at htypes
    exact ⟨ks, hks, more, [t], htypes⟩
  | case3 ts hend t tail ht ih =>
    rcases Except.error_of_bind h with htail | ⟨⟨types, ts'⟩, htail, h⟩
    · obtain ⟨ks, hks, hderives⟩ := sound_typeDef ht
      obtain ⟨ls, hls, more, types, hmore⟩ := ih htail
      refine ⟨ks ++ ls, by rw [hks, hls, List.append_assoc], more, t :: types, ?_⟩
      rw [List.append_assoc]
      exact .more hderives hmore
    · cases h

theorem kinds_of_versionString (h : versionString ts = .error e) :
    kinds ts = .name "version" :: kinds e.rest := by
  unfold versionString at h
  split at h
  · cases h
  · cases h
  · rename_i tail _ hword
    cases h
    exact kinds_of_afterWord? hword

theorem timely_module : Timely module DerivesModule := by
  intro ts e h
  -- At each step that can fail, what was read before it is completed by the shortest rest.
  rcases Except.error_of_bind h with h₁ | ⟨ts₁, h₁, h⟩
  · exact ⟨[], congrArg kinds (rest_of_keyword h₁).symm, _, _, .module "x" .absent .none⟩
  rcases Except.error_of_bind h with h₂ | ⟨⟨name, ts₂⟩, h₂, h⟩
  · refine ⟨[.name "module"], ?_, _, _, .module "x" .absent .none⟩
    rw [kinds_of_keyword h₁, rest_of_name h₂]
    rfl
  rcases Except.error_of_bind h with h₃ | ⟨ts₃, h₃, h⟩
  · refine ⟨[.name "module", .name name, .name "version"], ?_,
      [.string "", .leftBrace, .rightBrace], _, .module name (.present "") .none⟩
    rw [kinds_of_keyword h₁, kinds_of_name h₂, kinds_of_versionString h₃]
    rfl
  obtain ⟨ks, hks, hversion⟩ := derivesVersion_of_versionString h₃
  rcases Except.error_of_bind h with h₄ | ⟨ts₄, h₄, h⟩
  · refine ⟨.name "module" :: .name name :: ks, ?_, _, _, .module name hversion .none⟩
    rw [kinds_of_keyword h₁, kinds_of_name h₂, hks, rest_of_expect h₄]
    rfl
  rcases Except.error_of_bind h with h₅ | ⟨⟨types, ts₅⟩, h₅, h⟩
  · obtain ⟨ls, hls, more, types, htypes⟩ := timely_typeDefs h₅
    refine ⟨.name "module" :: .name name :: (ks ++ .leftBrace :: ls), ?_,
      more ++ [.rightBrace], ⟨name, types⟩, ?_⟩
    · rw [kinds_of_keyword h₁, kinds_of_name h₂, hks, kinds_of_expect h₄, hls]
      simp
    · simpa using DerivesModule.module name hversion htypes
  obtain ⟨ls, hls, htypes⟩ := sound_typeDefs h₅
  rcases Except.error_of_bind h with h₆ | ⟨ts₆, h₆, h⟩
  · refine ⟨.name "module" :: .name name :: (ks ++ .leftBrace :: ls), ?_,
      [.rightBrace], ⟨name, types⟩, ?_⟩
    · rw [kinds_of_keyword h₁, kinds_of_name h₂, hks, kinds_of_expect h₄, hls, rest_of_expect h₆]
      simp
    · simpa using DerivesModule.module name hversion htypes
  rcases Except.error_of_bind h with h₇ | ⟨_, h₇, h⟩
  · refine ⟨_, ?_, .of_derives (.module name hversion htypes)⟩
    rw [kinds_of_keyword h₁, kinds_of_name h₂, hks, kinds_of_expect h₄, hls, kinds_of_expect h₆,
      rest_of_nothingMore h₇]
    simp
  · cases h

/-- The tokens before a fault are viable, and with the token of the fault they are not. -/
theorem viable_of_module (h : module ts = .error e) :
    ∃ front, ts = front ++ e.rest ∧ Viable ((kinds front).map some) ∧
      ¬ Viable ((kinds front).map some ++ [e.rest.head?.map (·.token)]) := by
  obtain ⟨front, hsplit, hblames⟩ := module_blames h
  obtain ⟨ks, hks, hcompletable⟩ := timely_module h
  obtain rfl : kinds front = ks := by
    rw [hsplit, kinds, List.map_append] at hks
    exact List.append_cancel_right hks
  refine ⟨front, hsplit, hcompletable.viable, ?_⟩
  rintro ⟨more, ls, m, hderives, hrow⟩
  rw [List.append_assoc, List.singleton_append] at hrow
  -- The row would have to go on from the same token, and there the reader fails.
  have hfails : ∀ rest, e.rest.head? = rest.head? → ls ≠ kinds front ++ kinds rest := by
    rintro rest hhead rfl
    have hok := module_of_derives hderives (List.map_append : kinds (front ++ rest) = _)
    rw [hblames rest hhead] at hok
    cases hok
  rcases eq_or_exists_of_row hrow with ⟨hmark, hls⟩ | ⟨k, tail, hmark, hls⟩
  · apply hfails []
    · simpa using hmark
    · simpa [kinds] using hls
  · obtain ⟨t, ht, rfl⟩ := Option.map_eq_some_iff.1 hmark
    apply hfails (t :: tail.map (LocatedToken.mk · .start))
    · rw [ht]
      rfl
    · simpa [kinds, Function.comp_def] using hls

end Readers

end Reading

/-- What a reader meets: the tokens, and behind them the end, each at its position. -/
def TokenStream.marks (s : TokenStream) : List (Option Token × Position) :=
  s.tokens.map (fun t => (some t.token, t.position)) ++ [(none, s.finish)]

theorem TokenStream.marks_of_append {s : TokenStream} {front rest : List LocatedToken}
    (h : s.tokens = front ++ rest) :
    ∃ after, s.marks = front.map (fun t => (some t.token, t.position)) ++
      (rest.head?.map (·.token), (rest.head?.map (·.position)).getD s.finish) :: after := by
  rw [marks, h, List.map_append, List.append_assoc]
  cases rest with
  | nil => exact ⟨[], rfl⟩
  | cons t rest => exact ⟨_, rfl⟩

/-- A syntax error points at the first mark, a token or the end, that cannot stand there: the marks
up to any before it start a row that the grammar accepts, and those up to it or beyond do not. -/
theorem fault_at_first_impossible_mark {filename : String} {s : TokenStream} {e : SyntaxError}
    (h : s.schema filename = .error e) :
    ∃ i mark expected, s.marks[i]? = some mark ∧
      e = ⟨filename, mark.2, .mismatch expected mark.1⟩ ∧
      ∀ n, Grammar.Viable ((s.marks.take n).map Prod.fst) ↔ n ≤ i := by
  unfold TokenStream.schema at h
  split at h
  · cases h
  · rename_i expected rest hread
    cases h
    obtain ⟨front, hsplit, hviable, hnot⟩ := Reading.viable_of_module hread
    obtain ⟨after, hmarks⟩ := TokenStream.marks_of_append hsplit
    refine ⟨front.length, (rest.head?.map (·.token), (rest.head?.map (·.position)).getD s.finish),
      expected, ?_, rfl, fun n => ?_⟩
    · rw [hmarks, List.getElem?_append_right (by simp)]
      simp
    · have hkinds : (front.map fun t => (some t.token, t.position)).map Prod.fst =
          (Reading.kinds front).map some := by
        simp [Reading.kinds, Function.comp_def]
      rw [List.map_take, hmarks, List.map_append, List.map_cons, hkinds,
        Grammar.viable_take_iff hviable hnot]
      simp [Reading.kinds]

/-- A field without a name, `module M { x = (int) }`. -/
def namelessField : TokenStream :=
  ⟨[⟨.name "module", ⟨1, 1⟩⟩, ⟨.name "M", ⟨1, 8⟩⟩, ⟨.leftBrace, ⟨1, 10⟩⟩, ⟨.name "x", ⟨1, 12⟩⟩,
    ⟨.equals, ⟨1, 14⟩⟩, ⟨.leftParen, ⟨1, 16⟩⟩, ⟨.name "int", ⟨1, 17⟩⟩, ⟨.rightParen, ⟨1, 20⟩⟩,
    ⟨.rightBrace, ⟨1, 22⟩⟩], ⟨1, 23⟩⟩

/-- It is blamed on the parenthesis in place of the name. -/
theorem fault_namelessField :
    namelessField.schema "m.asdl" =
        .error ⟨"m.asdl", ⟨1, 20⟩, .mismatch .fieldName (some .rightParen)⟩ ∧
      ∃ i mark expected, namelessField.marks[i]? = some mark ∧
        (⟨"m.asdl", ⟨1, 20⟩, .mismatch .fieldName (some .rightParen)⟩ : SyntaxError) =
          ⟨"m.asdl", mark.2, .mismatch expected mark.1⟩ ∧
        ∀ n, Grammar.Viable ((namelessField.marks.take n).map Prod.fst) ↔ n ≤ i := by
  have h : namelessField.schema "m.asdl" =
      .error ⟨"m.asdl", ⟨1, 20⟩, .mismatch .fieldName (some .rightParen)⟩ := by
    decide +kernel
  exact ⟨h, fault_at_first_impossible_mark h⟩

end SchemaLineage

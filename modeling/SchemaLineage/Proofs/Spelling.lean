import SchemaLineage.Proofs.GrammarReading
import SchemaLineage.Proofs.Lexemes
import SchemaLineage.Source.Printing

/-!
What the text of a schema is cut into. A text spells a row of tokens if it is cut into them before
anything that does not go on with a name. The text of each part of a schema spells tokens from which
the grammar derives the part, provided that its names are names and its sums have constructors.
-/
namespace SchemaLineage

namespace Lexing

/-- Wherever the text starts, it is cut into tokens of these kinds. -/
def CutsTo (cs : List Char) (ks : List Token) : Prop :=
  ∀ p, ∃ stream, tokensFrom p cs = .ok stream ∧ Reading.kinds stream.tokens = ks

/-- The text is cut into the tokens before any text that ends a name. -/
def Spells (cs : List Char) (ks : List Token) : Prop :=
  ∀ ⦃rest ls⦄, EndsName rest → CutsTo rest ls → CutsTo (cs ++ rest) (ks ++ ls)

section Cuts

variable {c : Char} {cs : List Char} {k : Token} {ks : List Token}

theorem cutsTo_nil : CutsTo [] [] := by
  intro p
  refine ⟨⟨[], p⟩, ?_, rfl⟩
  rw [tokensFrom_eq]
  rfl

theorem CutsTo.blank (h : CutsTo cs ks) (hc : Text.isBlank c = true) : CutsTo (c :: cs) ks := by
  intro p
  rw [tokensFrom_of_gap [c] (splitTrivia_blank hc cs) p]
  exact h _

theorem CutsTo.comment (h : CutsTo cs ks) {body : List Char} (hbody : '\n' ∉ body) :
    CutsTo ('-' :: '-' :: (body ++ '\n' :: cs)) ks := by
  intro p
  have hin : ∀ d ∈ body, decide (d ≠ '\n') = true := by
    intro d hd
    rw [decide_eq_true_eq]
    rintro rfl
    exact hbody hd
  have hgap := splitTrivia_comment (body ++ '\n' :: cs)
  rw [List.takeWhile_append_of_pos hin, List.dropWhile_append_of_pos hin,
    List.takeWhile_cons_of_neg (by simp), List.dropWhile_cons_of_neg (by simp),
    List.append_nil] at hgap
  rw [tokensFrom_of_gap ('-' :: '-' :: body) hgap p]
  exact h.blank rfl _

theorem CutsTo.lexeme {l : Lexeme} (h : CutsTo l.rest ks) (hlex : splitLexeme c cs = .ok l)
    (hblank : Text.isBlank c = false) (hhyphen : c ≠ '-') : CutsTo (c :: cs) (l.token :: ks) := by
  intro p
  have hcut := splitTrivia_lexeme cs hblank fun h => hhyphen h.1
  obtain ⟨stream, hstream, hkinds⟩ := h (p.after l.spelling)
  refine ⟨⟨⟨l.token, p⟩ :: stream.tokens, stream.finish⟩, ?_, congrArg (l.token :: ·) hkinds⟩
  have hhere : p.after [] = p := rfl
  rw [tokensFrom_eq, hcut]
  simp only [hlex, hhere, hstream]
  rfl

theorem CutsTo.sign (h : CutsTo cs ks) (hc : Token.ofSign? c = some k) :
    CutsTo (c :: cs) (k :: ks) := by
  obtain ⟨hblank, -, hhyphen, -⟩ := sign_ne hc
  exact CutsTo.lexeme (l := ⟨k, [c], cs⟩) h (splitLexeme_sign hc cs) hblank hhyphen

theorem CutsTo.name (h : CutsTo cs ks) {s : String} (hs : isName s.toList = true)
    (hend : EndsName cs) : CutsTo (s.toList ++ cs) (.name s :: ks) := by
  cases hlist : s.toList with
  | nil =>
    rw [hlist] at hs
    cases hs
  | cons c tail =>
    rw [hlist] at hs
    have hlex := splitLexeme_name hs hend
    rw [← hlist, String.ofList_toList] at hlex
    rw [isName, Bool.and_eq_true] at hs
    obtain ⟨hblank, -, hhyphen, -⟩ := namePart_ne (isNamePart_of_isNameStart hs.1)
    exact CutsTo.lexeme (l := ⟨.name s, s.toList, cs⟩) h hlex hblank hhyphen

end Cuts

section Spells

variable {c : Char} {cs ds : List Char} {k : Token} {ks ls : List Token}

theorem EndsName.append (hcs : EndsName cs) (hds : EndsName ds) : EndsName (cs ++ ds) := by
  cases cs with
  | nil => exact hds
  | cons c cs => exact hcs

theorem spells_nil : Spells [] [] :=
  fun _ _ _ h => h

theorem spells_name {s : String} (hs : isName s.toList = true) : Spells s.toList [.name s] :=
  fun _ _ hend h => h.name hs hend

theorem Spells.blank (h : Spells cs ks) (hc : Text.isBlank c = true) : Spells (c :: cs) ks :=
  fun _ _ hend hrest => (h hend hrest).blank hc

theorem Spells.sign (h : Spells cs ks) (hc : Token.ofSign? c = some k) :
    Spells (c :: cs) (k :: ks) :=
  fun _ _ hend hrest => (h hend hrest).sign hc

/-- What a text spells comes before what the next one spells, if that cannot go on with a name. -/
theorem Spells.append (hcs : Spells cs ks) (hds : Spells ds ls) (hend : EndsName ds) :
    Spells (cs ++ ds) (ks ++ ls) := by
  intro rest more hrest h
  rw [List.append_assoc, List.append_assoc]
  exact hcs (hend.append hrest) (hds hrest h)

theorem Spells.cutsTo (h : Spells cs ks) : CutsTo cs ks := by
  have hend : EndsName [] := trivial
  have hcuts := h hend cutsTo_nil
  rwa [List.append_nil, List.append_nil] at hcuts

end Spells

end Lexing

section Parts

open Lexing Grammar

/-- Items that spell what derives them, written with separators, spell what derives the row. -/
theorem exists_spells_intercalate {α : Type} {separator : Token} {sep : List Char}
    {Item : List Token → α → Prop} {text : α → List Char}
    (hsep : ∀ {cs ks}, Spells cs ks → Spells (sep ++ cs) (separator :: ks))
    (hend : ∀ cs, EndsName (sep ++ cs)) {as : List α} (hne : as ≠ [])
    (hitem : ∀ a ∈ as, ∃ ks, Spells (text a) ks ∧ Item ks a) :
    ∃ ks, Spells (sep.intercalate (as.map text)) ks ∧ Separated separator Item ks as := by
  induction as with
  | nil => exact absurd rfl hne
  | cons a as ih =>
    obtain ⟨ks, hks, ha⟩ := hitem a List.mem_cons_self
    cases as with
    | nil =>
      refine ⟨ks, ?_, .one ha⟩
      simpa using hks
    | cons b as =>
      obtain ⟨ls, hls, has⟩ := ih (List.cons_ne_nil b as) fun a' ha' =>
        hitem a' (List.mem_cons_of_mem a ha')
      refine ⟨ks ++ separator :: ls, ?_, .more ha has⟩
      rw [List.map_cons, List.map_cons, List.intercalate_cons_cons, List.append_assoc]
      exact hks.append (hsep hls) (hend _)

/-- All names are names of the language, and every sum has a constructor. -/
structure Schema.Spellable (m : Schema) : Prop where
  isName : ∀ n ∈ m.names, Lexing.isName n.toList = true
  constructors_ne_nil : ∀ t ∈ m.types, ∀ s, t.body = .sum s → s.constructors ≠ []

theorem exists_spells_qualifier (q : Qualifier) {cs : List Char} {ks : List Token}
    (h : Spells (' ' :: cs) ks) :
    ∃ ls, Spells (q.marker.toList ++ ' ' :: cs) (ls ++ ks) ∧ DerivesQualifier ls q ∧
      EndsName (q.marker.toList ++ ' ' :: cs) := by
  cases q with
  | required => exact ⟨[], h, .required, rfl⟩
  | optional => exact ⟨[.question], h.sign rfl, .optional, rfl⟩
  | sequence => exact ⟨[.star], h.sign rfl, .sequence, rfl⟩

theorem exists_spells_field {f : Field} (hnames : ∀ n ∈ f.names, isName n.toList = true) :
    ∃ ks, Spells f.text.toList ks ∧ DerivesField ks f := by
  have hkind := spells_name (hnames f.kind (by simp [Field.names]))
  have hname := spells_name (hnames f.name (by simp [Field.names]))
  obtain ⟨ks, hks, hderives, hend⟩ := exists_spells_qualifier f.qualifier (hname.blank rfl)
  refine ⟨_, ?_, .field f.kind f.name hderives⟩
  have htext : f.text.toList =
      f.kind.toList ++ (f.qualifier.marker.toList ++ ' ' :: f.name.toList) := by
    simp [Field.text]
  rw [htext]
  exact hkind.append hks hend

theorem toList_fieldListText (fs : List Field) :
    (fieldListText fs).toList =
      '(' :: ([',', ' '].intercalate (fs.map fun f => f.text.toList) ++ [')']) := by
  simp [fieldListText, String.toList_intercalate, Function.comp_def]

theorem exists_spells_fieldList {fs : List Field}
    (hnames : ∀ n ∈ fs.flatMap Field.names, isName n.toList = true) :
    ∃ ks, Spells (fieldListText fs).toList ks ∧ DerivesFields ks fs := by
  have hclose : Spells [')'] [.rightParen] := spells_nil.sign rfl
  by_cases hfs : fs = []
  · subst hfs
    exact ⟨_, hclose.sign (c := '(') rfl, .empty⟩
  · have hfield : ∀ f ∈ fs, ∃ ks, Spells f.text.toList ks ∧ DerivesField ks f := fun f hf =>
      exists_spells_field fun n hn => hnames n (List.mem_flatMap.2 ⟨f, hf, hn⟩)
    have hcomma : ∀ {cs ks}, Spells cs ks → Spells ([',', ' '] ++ cs) (.comma :: ks) :=
      fun h => (h.blank (c := ' ') rfl).sign rfl
    obtain ⟨ks, hks, hderives⟩ := exists_spells_intercalate hcomma (fun _ => rfl) hfs hfield
    refine ⟨_, ?_, .listed hderives⟩
    rw [toList_fieldListText]
    exact (hks.append hclose rfl).sign rfl

theorem exists_spells_attributes {as : List Field}
    (hnames : ∀ n ∈ as.flatMap Field.names, isName n.toList = true) :
    ∃ ks, Spells (attributesText as).toList ks ∧ DerivesAttributes ks as ∧
      EndsName (attributesText as).toList := by
  cases as with
  | nil => exact ⟨[], spells_nil, .absent, trivial⟩
  | cons a as =>
    obtain ⟨ks, hks, hderives⟩ := exists_spells_fieldList hnames
    have htext : (attributesText (a :: as)).toList =
        ' ' :: ("attributes".toList ++ ' ' :: (fieldListText (a :: as)).toList) := by
      simp [attributesText]
    have hword : Spells "attributes".toList [.name "attributes"] := spells_name (by decide)
    refine ⟨_, ?_, .present hderives, ?_⟩
    · rw [htext]
      exact (hword.append (hks.blank (c := ' ') rfl) rfl).blank rfl
    · rw [htext]
      rfl

theorem exists_spells_constructor {c : Constructor}
    (hnames : ∀ n ∈ c.names, isName n.toList = true) :
    ∃ ks, Spells c.text.toList ks ∧ DerivesConstructor ks c := by
  obtain ⟨name, fields?⟩ := c
  have hname := spells_name (hnames name List.mem_cons_self)
  cases fields? with
  | none => exact ⟨_, hname, .bare name⟩
  | some fs =>
    obtain ⟨ks, hks, hderives⟩ :=
      exists_spells_fieldList fun n hn => hnames n (List.mem_cons_of_mem name hn)
    refine ⟨_, ?_, .listed name hderives⟩
    have htext : (Constructor.mk name (some fs)).text.toList =
        name.toList ++ (fieldListText fs).toList := by
      simp [Constructor.text]
    have hend : EndsName (fieldListText fs).toList := by
      rw [toList_fieldListText]
      rfl
    rw [htext]
    exact hname.append hks hend

theorem exists_spells_body {b : TypeBody} (hnames : ∀ n ∈ b.names, isName n.toList = true)
    (hne : ∀ s, b = .sum s → s.constructors ≠ []) :
    ∃ ks, Spells b.text.toList ks ∧ DerivesBody ks b := by
  cases b with
  | product p =>
    obtain ⟨ks, hks, hfields⟩ := exists_spells_fieldList fun n hn =>
      hnames n (List.mem_append_left _ hn)
    obtain ⟨ls, hls, hattributes, hend⟩ := exists_spells_attributes fun n hn =>
      hnames n (List.mem_append_right _ hn)
    refine ⟨ks ++ ls, ?_, .product hfields hattributes⟩
    rw [TypeBody.text, String.toList_append]
    exact hks.append hls hend
  | sum s =>
    obtain ⟨ls, hls, hattributes, hend⟩ := exists_spells_attributes fun n hn =>
      hnames n (List.mem_append_right _ hn)
    have hconstructor : ∀ c ∈ s.constructors, ∃ ks, Spells c.text.toList ks ∧
        DerivesConstructor ks c := fun c hc => exists_spells_constructor fun n hn =>
      hnames n (List.mem_append_left _ (List.mem_flatMap.2 ⟨c, hc, hn⟩))
    have hpipe : ∀ {cs ks}, Spells cs ks → Spells ([' ', '|', ' '] ++ cs) (.pipe :: ks) :=
      fun h => ((h.blank (c := ' ') rfl).sign (c := '|') rfl).blank rfl
    obtain ⟨ks, hks, hderives⟩ :=
      exists_spells_intercalate hpipe (fun _ => rfl) (hne s rfl) hconstructor
    refine ⟨ks ++ ls, ?_, .sum hderives hattributes⟩
    have htext : (TypeBody.sum s).text.toList =
        [' ', '|', ' '].intercalate (s.constructors.map fun c => c.text.toList) ++
          (attributesText s.attributes).toList := by
      simp [TypeBody.text, String.toList_intercalate, Function.comp_def]
    rw [htext]
    exact hks.append hls hend

theorem exists_spells_type {t : TypeDef} (hnames : ∀ n ∈ t.names, isName n.toList = true)
    (hne : ∀ s, t.body = .sum s → s.constructors ≠ []) :
    ∃ ks, Spells t.text.toList ks ∧ DerivesType ks t := by
  obtain ⟨name, body⟩ := t
  have hname := spells_name (hnames name List.mem_cons_self)
  obtain ⟨ks, hks, hderives⟩ :=
    exists_spells_body (fun n hn => hnames n (List.mem_cons_of_mem name hn)) hne
  refine ⟨_, ?_, .definition name hderives⟩
  have htext : (TypeDef.mk name body).text.toList =
      name.toList ++ ' ' :: '=' :: ' ' :: body.text.toList := by
    simp [TypeDef.text]
  have hequals := ((hks.blank (c := ' ') rfl).sign (c := '=') rfl).blank (c := ' ') rfl
  rw [htext]
  exact hname.append hequals rfl

/-- The types of a schema, each on an indented line of its own. -/
theorem exists_spells_types {ts : List TypeDef}
    (hnames : ∀ n ∈ ts.flatMap TypeDef.names, isName n.toList = true)
    (hne : ∀ t ∈ ts, ∀ s, t.body = .sum s → s.constructors ≠ []) :
    ∃ ks, Spells (ts.flatMap fun t => "    ".toList ++ (t.text.toList ++ ['\n'])) ks ∧
      Repeated DerivesType ks ts := by
  induction ts with
  | nil => exact ⟨[], spells_nil, .none⟩
  | cons t ts ih =>
    obtain ⟨ks, hks, ht⟩ := exists_spells_type
      (fun n hn => hnames n (List.mem_append_left _ hn)) (hne t List.mem_cons_self)
    obtain ⟨ls, hls, hts⟩ := ih (fun n hn => hnames n (List.mem_append_right _ hn))
      fun t' ht' => hne t' (List.mem_cons_of_mem t ht')
    refine ⟨ks ++ ls, ?_, .more ht hts⟩
    have hline := hks.append (hls.blank (c := '\n') rfl) rfl
    rw [List.flatMap_cons, List.append_assoc, List.append_assoc]
    exact (((hline.blank rfl).blank rfl).blank rfl).blank rfl

/-- The text of a schema is cut into tokens from which the grammar derives the schema. -/
theorem exists_cutsTo_text {m : Schema} (h : m.Spellable) :
    ∃ ks, CutsTo m.text.toList ks ∧ DerivesModule ks m := by
  have hname := spells_name (h.isName m.name List.mem_cons_self)
  obtain ⟨ks, hks, htypes⟩ := exists_spells_types
    (fun n hn => h.isName n (List.mem_cons_of_mem m.name hn)) h.constructors_ne_nil
  refine ⟨_, ?_, .module m.name .absent htypes⟩
  have htext : m.text.toList =
      "module".toList ++ ' ' :: (m.name.toList ++ ' ' :: '\x7b' :: '\n' ::
        ((m.types.flatMap fun t => "    ".toList ++ (t.text.toList ++ ['\n'])) ++
          ['\x7d', '\n'])) := by
    simp [Schema.text, String.toList_join, List.flatMap_map]
  have hclose : Spells ['\x7d', '\n'] [.rightBrace] := (spells_nil.blank rfl).sign rfl
  have hbody := (((hks.append hclose rfl).blank (c := '\n') rfl).sign (c := '\x7b') rfl).blank
    (c := ' ') rfl
  have hword : Spells "module".toList [.name "module"] := spells_name (by decide)
  rw [htext]
  exact (hword.append ((hname.append hbody rfl).blank (c := ' ') rfl) rfl).cutsTo

end Parts

end SchemaLineage

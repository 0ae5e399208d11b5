import SchemaLineage.Proofs.Spelling
import SchemaLineage.Proofs.VersionSpelling
import SchemaLineage.Source.Tag

/-!
The text of a schema read back. What is read from any text has names for its names and constructors
in its sums, and every such schema is read from its own text. A line with the tag before the text is
a comment to the lexer, so the schema stays the same, and the version is the one that the tag spells.
-/
namespace SchemaLineage

open Lexing Grammar

section Reading

variable {filename : String} {m : Schema}

theorem isName_of_mem_kinds {p : Position} {cs : List Char} {stream : TokenStream}
    (h : tokensFrom p cs = .ok stream) {n : String} (hn : .name n ∈ Reading.kinds stream.tokens) :
    isName n.toList = true := by
  obtain ⟨t, ht, hname⟩ := List.mem_map.1 hn
  exact isName_of_tokensFrom h ht hname

/-- What is read from a text can be written. -/
theorem Schema.spellable_of_ofText {source : String} (h : ofText filename source = .ok m) :
    m.Spellable := by
  unfold ofText at h
  split at h
  · cases h
  · rename_i stream htokens
    have hderives := TokenStream.derives_of_schema h
    constructor
    · intro n hn
      exact isName_of_mem_kinds htokens (hderives.name_mem hn)
    · exact hderives.constructors_ne_nil

theorem Schema.ofText_of_cutsTo {source : String} {ks : List Token}
    (hcuts : CutsTo source.toList ks) (hks : DerivesModule ks m) :
    ofText filename source = .ok m := by
  obtain ⟨stream, htokens, hkinds⟩ := hcuts .start
  rw [ofText, tokens, htokens]
  exact TokenStream.schema_of_derives hks hkinds filename

/-- The text of a schema reads back as the schema. -/
theorem Schema.ofText_text (h : m.Spellable) : ofText filename m.text = .ok m := by
  obtain ⟨ks, hcuts, hks⟩ := exists_cutsTo_text h
  exact ofText_of_cutsTo hcuts hks

end Reading

section Tags

variable {v : Version} {spelling : List Char}

/-- A comment on the first line comes first. -/
theorem Comment.all_of_firstLine {body : List Char} (hnewline : '\n' ∉ body)
    (hreturn : '\r' ∉ body) (rest : List Char) :
    Comment.all ('-' :: '-' :: (body ++ '\n' :: rest)) =
      ⟨1, body⟩ :: Comment.ofLines 2 (Text.lines rest) := by
  have hline : '\n' ∉ '-' :: '-' :: body := by simpa using hnewline
  have htext : '-' :: '-' :: (body ++ '\n' :: rest) = '-' :: '-' :: body ++ '\n' :: rest := rfl
  rw [Comment.all, htext, Text.lines_append hline,
    Text.dropCarriageReturn_eq_self (by simpa using hreturn)]
  rfl

theorem Version.IsSpelling.tag? (h : v.IsSpelling spelling) (line : Nat) :
    Comment.tag? ⟨line, " version=".toList ++ spelling⟩ = some spelling := by
  have hstart : Text.trimStart (" version=".toList ++ spelling) =
      "version=".toList ++ spelling := rfl
  have hprefix : "version=".toList.isPrefixOf? ("version=".toList ++ spelling) = some spelling :=
    List.isPrefixOf?_eq_some_iff_append_eq.2 rfl
  simp only [Comment.tag?, hstart, hprefix, Option.map_some, h.trimEnd]

theorem Version.IsSpelling.newline_not_mem_tag (h : v.IsSpelling spelling) :
    '\n' ∉ " version=".toList ++ spelling := by
  rw [List.mem_append, not_or]
  exact ⟨by decide, h.newline_not_mem⟩

/-- The tag on the first line names the version. -/
theorem Version.ofTag_of_isSpelling (h : v.IsSpelling spelling) {source : String}
    {rest : List Char}
    (hsource : source.toList = '-' :: '-' :: (" version=".toList ++ spelling ++ '\n' :: rest))
    (filename : String) : Version.ofTag filename source = .ok v := by
  have hreturn : '\r' ∉ " version=".toList ++ spelling := by
    rw [List.mem_append, not_or]
    exact ⟨by decide, h.carriageReturn_not_mem⟩
  rw [ofTag, hsource, Comment.all_of_firstLine h.newline_not_mem_tag hreturn,
    List.findSome?_cons, h.tag?]
  simp only [h.ofChars]

theorem Snapshot.ofText_of_isSpelling {m : Schema} (hm : m.Spellable)
    (h : v.IsSpelling spelling) {source : String}
    (hsource : source.toList =
      '-' :: '-' :: (" version=".toList ++ spelling ++ '\n' :: m.text.toList))
    (filename : String) : Snapshot.ofText filename source = .ok ⟨v, m⟩ := by
  obtain ⟨ks, hcuts, hks⟩ := exists_cutsTo_text hm
  have hschema : Schema.ofText filename source = .ok m := by
    apply Schema.ofText_of_cutsTo _ hks
    rw [hsource]
    exact hcuts.comment h.newline_not_mem_tag
  rw [ofText, Version.ofTag_of_isSpelling h hsource, hschema]
  rfl

end Tags

/-- Every schema that is read can be written, and what can be written reads back: the schema from
its text, and the snapshot from the text behind a tag with either spelling of the version. -/
theorem schema_text_round_trip (filename : String) :
    (∀ source m, Schema.ofText filename source = .ok m → m.Spellable) ∧
      ∀ m : Schema, m.Spellable →
        Schema.ofText filename m.text = .ok m ∧
          ∀ v : Version, v.parts ≠ [] → ∀ spelling ∈ [v.dotted, v.tuple],
            Snapshot.ofText filename ("-- version=" ++ spelling ++ "\n" ++ m.text) =
              .ok ⟨v, m⟩ := by
  refine ⟨fun source m h => Schema.spellable_of_ofText h, fun m hm => ⟨Schema.ofText_text hm, ?_⟩⟩
  intro v hne spelling hspelling
  have h : v.IsSpelling spelling.toList := by
    rw [List.mem_pair] at hspelling
    rcases hspelling with rfl | rfl
    · exact Version.isSpelling_dotted hne
    · exact Version.isSpelling_tuple hne
  apply Snapshot.ofText_of_isSpelling hm h
  simp

theorem spellable_wordSchema : wordSchema.Spellable where
  isName := by decide
  constructors_ne_nil := by simp [wordSchema]

theorem snapshot_text_wordSchema :
    wordSchema.Spellable ∧ Schema.ofText "words.asdl" wordSchema.text = .ok wordSchema ∧
      Snapshot.ofText "words.asdl" ("-- version=" ++ "(3,)" ++ "\n" ++ wordSchema.text) =
        .ok ⟨⟨[3]⟩, wordSchema⟩ ∧
      Snapshot.ofText "words.asdl" ("-- version=" ++ "3.10" ++ "\n" ++ wordSchema.text) =
        .ok ⟨⟨[3, 10]⟩, wordSchema⟩ :=
  have hread := (schema_text_round_trip "words.asdl").1 wordSchema.text wordSchema
  have h := (schema_text_round_trip "words.asdl").2 wordSchema spellable_wordSchema
  ⟨hread h.1, h.1, h.2 ⟨[3]⟩ (by decide) "(3,)" (by decide),
    h.2 ⟨[3, 10]⟩ (by decide) "3.10" (by decide)⟩

end SchemaLineage

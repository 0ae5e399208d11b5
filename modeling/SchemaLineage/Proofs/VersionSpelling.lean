import SchemaLineage.Proofs.Lexemes
import SchemaLineage.Proofs.StubExpressions
import SchemaLineage.Version.Reading

/-!
Spellings of a version. Components stand between points or commas; blanks may stand around each of
them, one more separator may follow the last, and the whole may stand in parentheses with blanks
around these. A version reads back from every spelling of its numerals, as these have neither blanks
nor separators in them; the dotted text and the tuple literal are two such spellings.
-/
namespace SchemaLineage

namespace Text

inductive Padded (cs : List Char) : List Char → Prop
  | intro (before after : List Char) : (∀ c ∈ before, isBlank c = true) →
    (∀ c ∈ after, isBlank c = true) → Padded cs (before ++ cs ++ after)

theorem Padded.refl (cs : List Char) : Padded cs cs := by
  have hpadded : Padded cs ([] ++ cs ++ []) :=
    .intro [] [] (List.forall_mem_nil _) (List.forall_mem_nil _)
  rwa [List.nil_append, List.append_nil] at hpadded

theorem Padded.cons {cs text : List Char} (h : Padded cs text) {c : Char}
    (hc : isBlank c = true) : Padded cs (c :: text) := by
  obtain ⟨before, after, hbefore, hafter⟩ := h
  exact .intro (c :: before) after (List.forall_mem_cons.2 ⟨hc, hbefore⟩) hafter

theorem Padded.mem {cs text : List Char} (h : Padded cs text) {c : Char} (hc : c ∈ text) :
    c ∈ cs ∨ isBlank c = true := by
  obtain ⟨before, after, hbefore, hafter⟩ := h
  rw [List.mem_append, List.mem_append] at hc
  rcases hc with (hc | hc) | hc
  · exact .inr (hbefore c hc)
  · exact .inl hc
  · exact .inr (hafter c hc)

theorem trimStart_cons {c : Char} (hc : isBlank c = false) (cs : List Char) :
    trimStart (c :: cs) = c :: cs :=
  List.dropWhile_cons_of_neg (by simp [hc])

theorem trimEnd_append_blanks (cs : List Char) {after : List Char}
    (hafter : ∀ c ∈ after, isBlank c = true) : trimEnd (cs ++ after) = trimEnd cs := by
  induction cs with
  | nil => exact (trimEnd_eq_nil_iff after).2 hafter
  | cons c cs ih => rw [List.cons_append, trimEnd, ih, trimEnd]

theorem trimEnd_append_cons (cs : List Char) {c : Char} (hc : isBlank c = false)
    (rest : List Char) : trimEnd (cs ++ c :: rest) = cs ++ c :: trimEnd rest := by
  induction cs with
  | nil => cases hrest : trimEnd rest <;> simp [trimEnd, hrest, hc]
  | cons d cs ih =>
    rw [List.cons_append, trimEnd, ih]
    cases cs <;> rfl

theorem trimEnd_eq_self {cs : List Char}
    (hlast : ∀ c, cs.getLast? = some c → isBlank c = false) : trimEnd cs = cs := by
  rcases List.eq_nil_or_concat' cs with rfl | ⟨init, c, rfl⟩
  · rfl
  · exact trimEnd_append_cons init (hlast c List.getLast?_concat) []

theorem trim_padded {cs text : List Char} (h : Padded cs text) (hne : cs ≠ [])
    (hhead : ∀ c, cs.head? = some c → isBlank c = false)
    (hlast : ∀ c, cs.getLast? = some c → isBlank c = false) : trim text = cs := by
  obtain ⟨before, after, hbefore, hafter⟩ := h
  have hstart : trimStart (before ++ cs ++ after) = cs ++ after := by
    obtain ⟨c, rest, rfl⟩ := List.exists_cons_of_ne_nil hne
    rw [trimStart, List.append_assoc, List.dropWhile_append_of_pos hbefore]
    exact trimStart_cons (hhead c rfl) _
  rw [trim, hstart, trimEnd_append_blanks cs hafter, trimEnd_eq_self hlast]

theorem trim_eq_nil_iff (cs : List Char) : trim cs = [] ↔ ∀ c ∈ cs, isBlank c = true := by
  rw [← List.all_eq_true, ← String.toList_ofList (l := cs)]
  exact (isBlankText_iff_trim (String.ofList cs)).symm

end Text

namespace Version

open Text (Padded isBlank trim)

/-! ## Rows of components -/

/-- Text that can stand between separators: it has no blank, separator or bracket in it. -/
def IsComponent (cs : List Char) : Prop :=
  cs ≠ [] ∧ ∀ c ∈ cs, isBlank c = false ∧ isSeparator c = false ∧ c ≠ '('

theorem digit_ne {c : Char} (h : c.isDigit = true) :
    isBlank c = false ∧ isSeparator c = false ∧ c ≠ '(' := by
  have hne : ∀ d : Char, d.isDigit = false → c ≠ d := by
    rintro d hd rfl
    rw [hd] at h
    cases h
  refine ⟨(Lexing.namePart_ne (by simp [Lexing.isNamePart, Char.isAlphanum, h])).1, ?_, hne _ rfl⟩
  rw [isSeparator, Bool.or_eq_false_iff]
  exact ⟨beq_false_of_ne (hne _ rfl), beq_false_of_ne (hne _ rfl)⟩

theorem isComponent_of_digits {cs : List Char} (hne : cs ≠ []) (h : ∀ c ∈ cs, c.isDigit = true) :
    IsComponent cs :=
  ⟨hne, fun c hc => digit_ne (h c hc)⟩

/-- Components between separators, each with blanks around it. Behind the last separator there may
be blanks alone. -/
inductive Row : List (List Char) → List Char → Prop
  | blank {text : List Char} : (∀ c ∈ text, isBlank c = true) → Row [] text
  | last {c text : List Char} : Padded c text → Row [c] text
  | cons {c text rest : List Char} {cs : List (List Char)} {separator : Char} : Padded c text →
    isSeparator separator = true → Row cs rest → Row (c :: cs) (text ++ separator :: rest)

/-- A row of components, or such a row in parentheses with blanks around them. -/
inductive Spelled (components : List (List Char)) : List Char → Prop
  | bare {text : List Char} : Row components text → Spelled components text
  | tuple {row text : List Char} : Row components row → Padded ('(' :: row ++ [')']) text →
    Spelled components text

def components (cs : List Char) : List (List Char) :=
  pieces (unparenthesized (trim cs))

section Rows

variable {cs : List (List Char)} {text : List Char}

theorem isSeparator_of_isBlank {c : Char} (h : isBlank c = true) : isSeparator c = false := by
  by_contra hsep
  rw [Bool.not_eq_false, isSeparator, Bool.or_eq_true, beq_iff_eq, beq_iff_eq] at hsep
  rcases hsep with rfl | rfl <;> cases h

theorem isBlank_of_isSeparator {c : Char} (h : isSeparator c = true) : isBlank c = false := by
  by_contra hblank
  rw [isSeparator_of_isBlank (by simpa using hblank)] at h
  cases h

theorem IsComponent.trim {c : List Char} (hc : IsComponent c) (h : Padded c text) :
    Text.trim text = c :=
  Text.trim_padded h hc.1 (fun d hd => (hc.2 d (List.mem_of_head? hd)).1)
    fun d hd => (hc.2 d (List.mem_of_getLast? hd)).1

theorem IsComponent.separator_not_mem {c : List Char} (hc : IsComponent c) (h : Padded c text) :
    ∀ d ∈ text, isSeparator d = false := by
  intro d hd
  rcases h.mem hd with hd | hd
  · exact (hc.2 d hd).2.1
  · exact isSeparator_of_isBlank hd

/-- The trimmed pieces of a row are its components, and an empty one behind a last separator. -/
theorem Row.splitOnP (h : Row cs text) (hcs : ∀ c ∈ cs, IsComponent c) :
    (text.splitOnP isSeparator).map Text.trim = cs ∨
      (text.splitOnP isSeparator).map Text.trim = cs ++ [[]] := by
  induction h with
  | blank hblank =>
    rw [List.splitOnP_eq_singleton fun c h => isSeparator_of_isBlank (hblank c h),
      List.map_singleton, (Text.trim_eq_nil_iff _).2 hblank]
    exact .inr rfl
  | last hpadded =>
    have hc := hcs _ List.mem_cons_self
    rw [List.splitOnP_eq_singleton (hc.separator_not_mem hpadded)]
    exact .inl (congrArg (fun c => [c]) (hc.trim hpadded))
  | cons hpadded hsep _ ih =>
    rw [List.forall_mem_cons] at hcs
    rw [List.splitOnP_append_cons_of_forall_mem (hcs.1.separator_not_mem hpadded) _ hsep,
      List.map_cons, hcs.1.trim hpadded]
    rcases ih hcs.2 with ih | ih
    · exact .inl (congrArg _ ih)
    · exact .inr (congrArg _ ih)

theorem Row.pieces (h : Row cs text) (hcs : ∀ c ∈ cs, IsComponent c) :
    Version.pieces text = cs := by
  rcases h.splitOnP hcs with hsplit | hsplit
  · have hlast : cs.getLast? ≠ some [] := fun h => (hcs [] (List.mem_of_getLast? h)).1 rfl
    rw [Version.pieces, hsplit, if_neg hlast]
  · rw [Version.pieces, hsplit, if_pos List.getLast?_concat, List.dropLast_concat]

theorem Row.mem (h : Row cs text) {d : Char} (hd : d ∈ text) :
    isBlank d = true ∨ isSeparator d = true ∨ ∃ c ∈ cs, d ∈ c := by
  induction h with
  | blank hblank => exact .inl (hblank d hd)
  | last hpadded =>
    rcases hpadded.mem hd with hd | hd
    · exact .inr (.inr ⟨_, List.mem_cons_self, hd⟩)
    · exact .inl hd
  | cons hpadded hsep _ ih =>
    rw [List.mem_append, List.mem_cons] at hd
    rcases hd with hd | rfl | hd
    · rcases hpadded.mem hd with hd | hd
      · exact .inr (.inr ⟨_, List.mem_cons_self, hd⟩)
      · exact .inl hd
    · exact .inr (.inl hsep)
    · rcases ih hd with hd | hd | ⟨c, hc, hd⟩
      · exact .inl hd
      · exact .inr (.inl hd)
      · exact .inr (.inr ⟨c, List.mem_cons_of_mem _ hc, hd⟩)

/-- Blanks before a padded component can be left out, whatever follows it. -/
theorem IsComponent.trimStart_append {c : List Char} (hc : IsComponent c) (h : Padded c text)
    (rest : List Char) :
    ∃ kept, Padded c kept ∧ Text.trimStart (text ++ rest) = kept ++ rest := by
  obtain ⟨before, after, hbefore, hafter⟩ := h
  refine ⟨[] ++ c ++ after, .intro [] after (List.forall_mem_nil _) hafter, ?_⟩
  have hstart : Text.trimStart (c ++ (after ++ rest)) = c ++ (after ++ rest) := by
    obtain ⟨d, ds, rfl⟩ := List.exists_cons_of_ne_nil hc.1
    exact Text.trimStart_cons (hc.2 d List.mem_cons_self).1 _
  rw [List.append_assoc, List.append_assoc, Text.trimStart, List.dropWhile_append_of_pos hbefore]
  rw [List.nil_append, List.append_assoc]
  exact hstart

theorem IsComponent.trimEnd {c : List Char} (hc : IsComponent c) (h : Padded c text) :
    Padded c (Text.trimEnd text) := by
  obtain ⟨before, after, hbefore, hafter⟩ := h
  have hlast : ∀ d, (before ++ c).getLast? = some d → isBlank d = false := by
    intro d hd
    rw [List.getLast?_append_of_ne_nil before hc.1] at hd
    exact (hc.2 d (List.mem_of_getLast? hd)).1
  have hpadded : Padded c (before ++ c ++ []) :=
    .intro before [] hbefore (List.forall_mem_nil _)
  rwa [Text.trimEnd_append_blanks _ hafter, Text.trimEnd_eq_self hlast,
    ← List.append_nil (before ++ c)]

theorem Row.trimStart (h : Row cs text) (hcs : ∀ c ∈ cs, IsComponent c) :
    Row cs (Text.trimStart text) := by
  cases h with
  | blank hblank =>
    rw [Text.trimStart, List.dropWhile_eq_nil_iff.2 hblank]
    exact .blank (List.forall_mem_nil _)
  | last hpadded =>
    obtain ⟨kept, hkept, heq⟩ := (hcs _ List.mem_cons_self).trimStart_append hpadded []
    rw [List.append_nil, List.append_nil] at heq
    exact heq ▸ .last hkept
  | cons hpadded hsep hrest =>
    obtain ⟨kept, hkept, heq⟩ := (hcs _ List.mem_cons_self).trimStart_append hpadded _
    exact heq ▸ .cons hkept hsep hrest

theorem Row.trimEnd (h : Row cs text) (hcs : ∀ c ∈ cs, IsComponent c) :
    Row cs (Text.trimEnd text) := by
  induction h with
  | blank hblank =>
    rw [(Text.trimEnd_eq_nil_iff _).2 hblank]
    exact .blank (List.forall_mem_nil _)
  | last hpadded => exact .last ((hcs _ List.mem_cons_self).trimEnd hpadded)
  | cons hpadded hsep _ ih =>
    rw [List.forall_mem_cons] at hcs
    rw [Text.trimEnd_append_cons _ (isBlank_of_isSeparator hsep)]
    exact .cons hpadded hsep (ih hcs.2)

/-- Blanks, a bracket and components stand for nothing else: the components of a spelling are those
that it was made of. -/
theorem Spelled.components (h : Spelled cs text) (hcs : ∀ c ∈ cs, IsComponent c) :
    Version.components text = cs := by
  cases h with
  | bare hrow =>
    have htrim := (hrow.trimStart hcs).trimEnd hcs
    have hbracket : ∀ rest, trim text ≠ '(' :: rest := by
      intro rest heq
      have hmem : '(' ∈ trim text := heq ▸ List.mem_cons_self
      rcases htrim.mem hmem with hblank | hsep | ⟨c, hc, hmem⟩
      · cases hblank
      · cases hsep
      · exact ((hcs c hc).2 '(' hmem).2.2 rfl
    rw [Version.components, unparenthesized.eq_2 _ hbracket]
    exact htrim.pieces hcs
  | tuple hrow hpadded =>
    have htrim := Text.trim_padded hpadded (List.cons_ne_nil _ _) (fun c hc => by cases hc; rfl)
      fun c hc => by
        rw [List.getLast?_concat] at hc
        cases hc
        rfl
    rw [Version.components, htrim, List.cons_append, unparenthesized,
      if_pos List.getLast?_concat, List.dropLast_concat]
    exact hrow.pieces hcs

end Rows

/-! ## Written versions -/

def numerals (v : Version) : List (List Char) :=
  v.parts.map fun part => Text.Decimal.write part.toNat

theorem isComponent_of_mem_numerals {v : Version} : ∀ c ∈ v.numerals, IsComponent c := by
  intro c hc
  obtain ⟨part, -, rfl⟩ := List.mem_map.1 hc
  exact isComponent_of_digits (Text.Decimal.write_ne_nil _)
    fun c hc => Text.Decimal.isDigit_of_mem_write hc

theorem row_intercalate {separator : Char} (hsep : isSeparator separator = true)
    {cs texts : List (List Char)} (h : List.Forall₂ Padded cs texts) :
    Row cs ([separator].intercalate texts) := by
  induction h with
  | nil => exact .blank (List.forall_mem_nil _)
  | cons hpadded hrest ih =>
    cases hrest with
    | nil => exact List.intercalate_singleton ▸ .last hpadded
    | cons hnext hrest =>
      rw [List.intercalate_cons_cons, List.append_assoc]
      exact .cons hpadded hsep ih

theorem forall₂_padded_numerals (v : Version) : List.Forall₂ Padded v.numerals v.numerals :=
  List.forall₂_same.2 fun c _ => .refl c

/-- The components joined by points or commas. -/
theorem spelled_joined (v : Version) {separator : String} {c : Char}
    (htext : separator.toList = [c]) (hsep : isSeparator c = true) :
    Spelled v.numerals (separator.intercalate (v.parts.map partText)).toList := by
  have hjoined : (separator.intercalate (v.parts.map partText)).toList =
      [c].intercalate v.numerals := by
    simp [numerals, partText, String.toList_intercalate, htext, Function.comp_def]
  exact hjoined ▸ .bare (row_intercalate hsep v.forall₂_padded_numerals)

theorem spelled_tuple (v : Version) : Spelled v.numerals v.tuple.toList := by
  rw [StubCode.toList_tuple]
  refine .tuple ?_ (.refl _)
  obtain ⟨parts⟩ := v
  match parts with
  | [] => exact .blank (List.forall_mem_nil _)
  | [part] => exact .cons (.refl _) rfl (.blank (List.forall_mem_nil _))
  | part :: part' :: parts =>
    rw [StubCode.numerals_cons_cons]
    refine row_intercalate rfl (.cons (.refl _) ?_)
    exact List.forall₂_map_left_iff.2 (List.forall₂_map_right_iff.2
      (List.forall₂_same.2 fun part _ => (Padded.refl _).cons rfl))

/-! ## Reading back -/

/-- A numeral has no sign before it and fits in 32 bits. -/
theorem readPart_write (part : UInt32) :
    readPart (Text.Decimal.write part.toNat) = .ok part := by
  unfold readPart
  split
  · rename_i hplus
    have hmem : '+' ∈ Text.Decimal.write part.toNat := hplus ▸ List.mem_cons_self
    exact absurd (Text.Decimal.isDigit_of_mem_write hmem) (by decide)
  · simp only [Text.Decimal.read?_write]
    exact dif_pos part.toNat_lt

theorem mapM_readPart (parts : List UInt32) :
    (parts.map fun part => Text.Decimal.write part.toNat).mapM readPart = .ok parts := by
  induction parts with
  | nil => rfl
  | cons part parts ih =>
    rw [List.map_cons, List.mapM_cons, readPart_write, ih]
    rfl

/-- Blanks alone have no pieces. -/
theorem pieces_eq_nil {cs : List Char} (h : ∀ c ∈ cs, isBlank c = true) : pieces cs = [] := by
  rw [pieces, List.splitOnP_eq_singleton fun c hc => isSeparator_of_isBlank (h c hc),
    List.map_singleton, (Text.trim_eq_nil_iff cs).2 h]
  rfl

theorem ofChars_eq {cs : List Char} (h : components cs ≠ []) :
    ofChars cs = Version.mk <$> (components cs).mapM readPart := by
  have hblank : ¬ (unparenthesized (trim cs)).all isBlank = true :=
    fun hall => h (pieces_eq_nil (List.all_eq_true.1 hall))
  rw [ofChars, if_neg hblank]
  rfl

/-- A version is read from every spelling of its numerals. -/
theorem ofChars_of_spelled {v : Version} (hne : v.parts ≠ []) {cs : List Char}
    (h : Spelled v.numerals cs) : ofChars cs = .ok v := by
  have hcomponents := h.components isComponent_of_mem_numerals
  have hnumerals : v.numerals ≠ [] := fun hnil => hne (List.map_eq_nil_iff.1 hnil)
  rw [ofChars_eq (hcomponents ▸ hnumerals), hcomponents, numerals, mapM_readPart]
  rfl

section Spellings

variable {v : Version}

theorem mem_dotted {c : Char} (h : c ∈ v.dotted.toList) : c.isDigit = true ∨ c = '.' := by
  rw [dotted, String.toList_intercalate] at h
  rcases StubCode.mem_intercalate h with h | ⟨l, hl, h⟩
  · exact Or.inr (List.mem_singleton.1 h)
  · obtain ⟨text, htext, rfl⟩ := List.mem_map.1 hl
    obtain ⟨part, -, rfl⟩ := List.mem_map.1 htext
    rw [partText, String.toList_ofList] at h
    exact Or.inl (Text.Decimal.isDigit_of_mem_write h)

theorem mem_tuple {c : Char} (h : c ∈ v.tuple.toList) :
    c.isDigit = true ∨ c = ',' ∨ c = ' ' ∨ c = '(' ∨ c = ')' := by
  rw [StubCode.toList_tuple, List.cons_append, List.mem_cons, List.mem_append,
    List.mem_singleton] at h
  rcases h with rfl | h | rfl
  · simp
  · rcases StubCode.mem_numerals h with h | rfl | rfl <;> simp [*]
  · simp

/-- A text of one line that reads as the version and has no blank at its end. -/
structure IsSpelling (v : Version) (cs : List Char) : Prop where
  ofChars : ofChars cs = .ok v
  trimEnd : Text.trimEnd cs = cs
  newline_not_mem : '\n' ∉ cs
  carriageReturn_not_mem : '\r' ∉ cs

theorem isSpelling_dotted (hne : v.parts ≠ []) : IsSpelling v v.dotted.toList := by
  have hblank : ∀ c ∈ v.dotted.toList, isBlank c = false := by
    intro c hc
    rcases mem_dotted hc with hdigit | rfl
    · exact (digit_ne hdigit).1
    · rfl
  refine ⟨ofChars_of_spelled hne (v.spelled_joined rfl rfl),
    Text.trimEnd_eq_self fun c h => hblank c (List.mem_of_getLast? h), ?_, ?_⟩
  · intro h
    cases hblank _ h
  · intro h
    cases hblank _ h

theorem isSpelling_tuple (hne : v.parts ≠ []) : IsSpelling v v.tuple.toList := by
  have hlast : ∀ c, v.tuple.toList.getLast? = some c → isBlank c = false := by
    intro c hc
    rw [StubCode.toList_tuple, List.getLast?_concat] at hc
    cases hc
    rfl
  refine ⟨ofChars_of_spelled hne v.spelled_tuple, Text.trimEnd_eq_self hlast, ?_, ?_⟩
  · intro h
    rcases mem_tuple h with h | h | h | h | h <;> cases h
  · intro h
    rcases mem_tuple h with h | h | h | h | h <;> cases h

end Spellings

end Version

end SchemaLineage

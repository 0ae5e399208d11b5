import SchemaLineage.Proofs.StubReading

/-!
The lines of a stub read back. If the names are names and the texts beside them have no line break,
each line reads as what its clause says, at a width that tells its depth. Blank lines are skipped.
-/
namespace SchemaLineage.StubCode

open Stub

def OneLine (s : String) : Prop :=
  '\n' ∉ s.toList ∧ '\r' ∉ s.toList

instance (s : String) : Decidable (OneLine s) :=
  inferInstanceAs (Decidable (_ ∧ _))

section Texts

variable {s t : String}

theorem OneLine.append (hs : OneLine s) (ht : OneLine t) : OneLine (s ++ t) := by
  simp only [OneLine, String.toList_append, List.mem_append, not_or]
  exact ⟨⟨hs.1, ht.1⟩, hs.2, ht.2⟩

theorem isNameChar_of_isName {reserved : List String} {word : List Char}
    (h : isName reserved word = true) : ∀ c ∈ word, isNameChar c = true := by
  simp only [isName, Bool.and_eq_true, List.all_eq_true] at h
  exact h.1.2

theorem ne_nil_of_isName {reserved : List String} {word : List Char}
    (h : isName reserved word = true) : word ≠ [] := by
  rintro rfl
  simp [isName] at h

theorem oneLine_of_isName {reserved : List String} (h : isName reserved s.toList = true) :
    OneLine s := by
  constructor <;> intro hmem <;>
    exact absurd (isNameChar_of_isName h _ hmem) (by decide)

theorem oneLine_tuple (v : Version) : OneLine v.tuple := by
  have hnot : ∀ c ∈ v.tuple.toList, c ≠ '\n' ∧ c ≠ '\r' := by
    intro c hc
    rw [toList_tuple, List.cons_append, List.mem_cons, List.mem_append, List.mem_singleton] at hc
    rcases hc with rfl | hc | rfl
    · decide
    · rcases mem_numerals hc with hc | rfl | rfl
      · constructor <;> rintro rfl <;> exact absurd hc (by decide)
      · decide
      · decide
    · decide
  exact ⟨fun h => (hnot _ h).1 rfl, fun h => (hnot _ h).2 rfl⟩

theorem oneLine_conditionText {settings : Settings} (h : OneLine settings.versionVariable)
    (c : Condition) : OneLine (conditionText settings c) := by
  have hge : OneLine " >= " := by decide
  have hle : OneLine " <= " := by decide
  cases c with
  | always => exact (by decide : OneLine "True")
  | atLeast low => exact (h.append hge).append (oneLine_tuple low)
  | atMost high => exact (h.append hle).append (oneLine_tuple high)
  | between low high =>
    exact ((((oneLine_tuple low).append hle).append h).append hle).append (oneLine_tuple high)

theorem oneLine_annotation {f : Field} (h : OneLine f.kind) : OneLine f.annotation := by
  rw [Field.annotation]
  split
  · exact h
  · exact ((by decide : OneLine "typing.Optional[").append h).append (by decide : OneLine "]")
  · exact ((by decide : OneLine "typing.List[").append h).append (by decide : OneLine "]")

end Texts

/-- The names that the clause introduces are names, and its other texts stay on its line. -/
def Named (reserved : List String) : Clause → Prop
  | .classHeader name base => isName reserved name.toList = true ∧ OneLine base
  | .assignment name value => isName reserved name.toList = true ∧ OneLine value
  | .member name type => isName reserved name.toList = true ∧ OneLine type
  | _ => True

/-- What is assigned to is an alias, which its first character tells from the keywords. -/
def AssignsAlias : Clause → Prop
  | .assignment name _ => name.toList.head? = some '_'
  | _ => True

structure WellNamed (reserved : List String) (clause : Clause) : Prop where
  named : Named reserved clause
  assignsAlias : AssignsAlias clause

/-- What a clause says as a line of code; a blank line says nothing. -/
def formOf? : Clause → Option Form
  | .blank => none
  | .ellipsis => some .ellipsis
  | .test c => some (.ifHeader (testOf c))
  | .laterTest c => some (.elifHeader (testOf c))
  | .otherwise => some .elseHeader
  | .classHeader name base => some (.classHeader name.toList base.toList)
  | .assignment name value => some (.assignment name.toList value.toList)
  | .member name type => some (.member name.toList type.toList)

section Clauses

variable {reserved : List String} {subject word : List Char}

theorem takeWhile_word (hword : ∀ c ∈ word, isNameChar c = true) {c : Char}
    (hc : isNameChar c = false) (rest : List Char) :
    (word ++ c :: rest).takeWhile isNameChar = word := by
  rw [List.takeWhile_append_of_pos hword, List.takeWhile_cons_of_neg (by simp [hc]),
    List.append_nil]

theorem dropWhile_word (hword : ∀ c ∈ word, isNameChar c = true) {c : Char}
    (hc : isNameChar c = false) (rest : List Char) :
    (word ++ c :: rest).dropWhile isNameChar = c :: rest := by
  rw [List.dropWhile_append_of_pos hword, List.dropWhile_cons_of_neg (by simp [hc])]

/-- A line that starts with a word and has a blank is none of the fixed lines. -/
theorem ne_fixed_of_word (hword : ∀ c ∈ word, isNameChar c = true) (hne : word ≠ [])
    (rest : List Char) (hblank : ' ' ∈ rest) :
    word ++ rest ≠ "...".toList ∧ word ++ rest ≠ "else:".toList := by
  obtain ⟨c, cs, rfl⟩ := List.exists_cons_of_ne_nil hne
  constructor
  · intro heq
    have hc : c = '.' := by simpa using congrArg List.head? heq
    exact absurd (hword c List.mem_cons_self) (hc ▸ by decide)
  · intro heq
    have hmem : ' ' ∈ "else:".toList := heq ▸ List.mem_append_right _ hblank
    exact absurd hmem (by decide)

theorem withoutEnd?_append (ending cs : List Char) :
    withoutEnd? ending (cs ++ ending) = some cs := by
  simp [withoutEnd?]

theorem readForm?_member (hword : isName reserved word = true) (type : List Char) :
    readForm? reserved subject (word ++ ':' :: ' ' :: type) = some (.member word type) := by
  have hchars := isNameChar_of_isName hword
  have hfixed := ne_fixed_of_word hchars (ne_nil_of_isName hword) (':' :: ' ' :: type) (by simp)
  rw [readForm?, if_neg hfixed.1, if_neg hfixed.2, takeWhile_word hchars (by decide),
    dropWhile_word hchars (by decide)]
  simp [hword]

/-- A line of a word, a blank and more is read by its word. -/
theorem readForm?_blank (hword : ∀ c ∈ word, isNameChar c = true) (hne : word ≠ [])
    (more : List Char) :
    readForm? reserved subject (word ++ ' ' :: more) =
      if word = "if".toList then
        ((withoutEnd? [':'] more).bind (readTest? subject)).map .ifHeader
      else if word = "elif".toList then
        ((withoutEnd? [':'] more).bind (readTest? subject)).map .elifHeader
      else if word = "class".toList then readClass? reserved more
      else
        match more with
        | '=' :: ' ' :: value => if isName reserved word then some (.assignment word value) else none
        | _ => none := by
  have hfixed := ne_fixed_of_word hword hne (' ' :: more) List.mem_cons_self
  rw [readForm?, if_neg hfixed.1, if_neg hfixed.2, takeWhile_word hword (by decide),
    dropWhile_word hword (by decide)]
  rfl

theorem readClass?_header {name : List Char} (hname : isName reserved name = true)
    (base : List Char) :
    readClass? reserved (name ++ '(' :: (base ++ [')', ':'])) =
      some (.classHeader name base) := by
  have hchars := isNameChar_of_isName hname
  rw [readClass?, takeWhile_word hchars (by decide), dropWhile_word hchars (by decide)]
  simp [hname, withoutEnd?_append]

/-- The text of a clause reads back as what the clause says. -/
theorem readForm?_text {settings : Settings} {clause : Clause} {form : Form}
    (hnamed : WellNamed reserved clause) (hform : formOf? clause = some form) :
    readForm? reserved settings.versionVariable.toList (clause.text settings).toList =
      some form := by
  have htest : ∀ c : Condition,
      (withoutEnd? [':'] ((conditionText settings c).toList ++ [':'])).bind
        (readTest? settings.versionVariable.toList) = some (testOf c) := by
    intro c
    rw [withoutEnd?_append]
    exact readTest?_conditionText settings c
  cases clause with
  | blank => cases hform
  | ellipsis =>
    cases hform
    exact if_pos rfl
  | otherwise =>
    cases hform
    have hne : (Clause.text settings .otherwise).toList ≠ "...".toList :=
      (by decide : "else:".toList ≠ "...".toList)
    exact (if_neg hne).trans (if_pos rfl)
  | test c =>
    cases hform
    have htext : (Clause.text settings (.test c)).toList =
        "if".toList ++ ' ' :: ((conditionText settings c).toList ++ [':']) := by
      simp [Clause.text]
    have hchars : ∀ c ∈ "if".toList, isNameChar c = true := List.all_eq_true.1 rfl
    rw [htext, readForm?_blank hchars (by decide), if_pos rfl, htest]
    rfl
  | laterTest c =>
    cases hform
    have htext : (Clause.text settings (.laterTest c)).toList =
        "elif".toList ++ ' ' :: ((conditionText settings c).toList ++ [':']) := by
      simp [Clause.text]
    have hchars : ∀ c ∈ "elif".toList, isNameChar c = true := List.all_eq_true.1 rfl
    rw [htext, readForm?_blank hchars (by decide), if_neg (by decide), if_pos rfl, htest]
    rfl
  | classHeader name base =>
    cases hform
    have htext : (Clause.text settings (.classHeader name base)).toList =
        "class".toList ++ ' ' :: (name.toList ++ '(' :: (base.toList ++ [')', ':'])) := by
      simp [Clause.text]
    have hchars : ∀ c ∈ "class".toList, isNameChar c = true := List.all_eq_true.1 rfl
    rw [htext, readForm?_blank hchars (by decide), if_neg (by decide),
      if_neg (by decide), if_pos rfl, readClass?_header hnamed.named.1]
  | assignment name value =>
    cases hform
    obtain ⟨⟨hname, -⟩, hhead⟩ := hnamed
    have hne : ∀ keyword : List Char, keyword.head? ≠ some '_' → name.toList ≠ keyword :=
      fun _ hkeyword heq => hkeyword (heq ▸ hhead)
    have htext : (Clause.text settings (.assignment name value)).toList =
        name.toList ++ ' ' :: '=' :: ' ' :: value.toList := by
      simp [Clause.text]
    rw [htext, readForm?_blank (isNameChar_of_isName hname) (ne_nil_of_isName hname),
      if_neg (hne _ (by decide)), if_neg (hne _ (by decide)), if_neg (hne _ (by decide))]
    exact if_pos hname
  | member name type =>
    cases hform
    have htext : (Clause.text settings (.member name type)).toList =
        name.toList ++ ':' :: ' ' :: type.toList := by
      simp [Clause.text]
    rw [htext, readForm?_member hnamed.named.1]

end Clauses

section Lines

/-- Texts of one line each, with line breaks after them, are the lines of the whole. -/
theorem lines_unlines {ls : List String} (h : ∀ l ∈ ls, OneLine l) :
    Text.lines (Text.unlines ls).toList = ls.map String.toList := by
  induction ls with
  | nil => rfl
  | cons l ls ih =>
    have hl := h l List.mem_cons_self
    have hrest := ih fun l' hl' => h l' (List.mem_cons_of_mem _ hl')
    have htext : (Text.unlines (l :: ls)).toList =
        l.toList ++ '\n' :: (Text.unlines ls).toList := by
      simp [Text.unlines]
    rw [htext, Text.lines_append hl.1, Text.dropCarriageReturn_eq_self hl.2, List.map_cons, ← hrest]

variable {reserved : List String} {settings : Settings} {unit : Nat}

/-- The text of a line is blanks and the text of its clause. -/
theorem toList_lineText (hindent : settings.indent.toList = List.replicate unit ' ')
    (line : Line) :
    (line.text settings).toList =
      List.replicate (line.depth * unit) ' ' ++ (line.clause.text settings).toList := by
  rw [Line.text, String.toList_append, Settings.indentation, String.toList_join,
    List.flatMap_replicate, hindent, List.flatten_replicate_replicate]

theorem oneLine_clauseText (hsubject : OneLine settings.versionVariable) {clause : Clause}
    (hnamed : Named reserved clause) : OneLine (clause.text settings) := by
  cases clause with
  | blank => exact (by decide : OneLine "")
  | ellipsis => exact (by decide : OneLine "...")
  | otherwise => exact (by decide : OneLine "else:")
  | test c =>
    exact ((by decide : OneLine "if ").append (oneLine_conditionText hsubject c)).append
      (by decide : OneLine ":")
  | laterTest c =>
    exact ((by decide : OneLine "elif ").append (oneLine_conditionText hsubject c)).append
      (by decide : OneLine ":")
  | classHeader name base =>
    exact ((((by decide : OneLine "class ").append (oneLine_of_isName hnamed.1)).append
      (by decide : OneLine "(")).append hnamed.2).append (by decide : OneLine "):")
  | assignment name value =>
    exact ((oneLine_of_isName hnamed.1).append (by decide : OneLine " = ")).append hnamed.2
  | member name type =>
    exact ((oneLine_of_isName hnamed.1).append (by decide : OneLine ": ")).append hnamed.2

/-- Nothing that can be read starts with a blank. -/
theorem exists_head_of_readForm? {subject cs : List Char} {form : Form}
    (h : readForm? reserved subject cs = some form) : ∃ c rest, cs = c :: rest ∧ c ≠ ' ' := by
  cases cs with
  | nil => simp [readForm?] at h
  | cons c cs =>
    refine ⟨c, cs, rfl, ?_⟩
    rintro rfl
    have hfixed : ' ' :: cs ≠ "...".toList ∧ ' ' :: cs ≠ "else:".toList := by simp
    have hword : (' ' :: cs).takeWhile isNameChar = [] := rfl
    have hrest : (' ' :: cs).dropWhile isNameChar = ' ' :: cs := rfl
    have hname : isName reserved [] = false := rfl
    have hkeyword : [] ≠ "if".toList ∧ [] ≠ "elif".toList ∧ [] ≠ "class".toList := by decide
    simp only [readForm?, if_neg hfixed.1, if_neg hfixed.2, hword, hrest, if_neg hkeyword.1,
      if_neg hkeyword.2.1, if_neg hkeyword.2.2, hname] at h
    split at h <;> cases h

def formLines (unit : Nat) (ls : List Line) : List (Nat × Form) :=
  ls.filterMap fun line => (formOf? line.clause).map (line.depth * unit, ·)

/-- A line that says something is read at the width of its depth. -/
theorem readForm?_line (hindent : settings.indent.toList = List.replicate unit ' ') {line : Line}
    (hnamed : WellNamed reserved line.clause) {form : Form}
    (hform : formOf? line.clause = some form) :
    (line.text settings).toList.any (· ≠ ' ') = true ∧
      ((line.text settings).toList.takeWhile (· = ' ')).length = line.depth * unit ∧
        readForm? reserved settings.versionVariable.toList
          ((line.text settings).toList.dropWhile (· = ' ')) = some form := by
  have hread : readForm? reserved settings.versionVariable.toList
      (line.clause.text settings).toList = some form := readForm?_text hnamed hform
  obtain ⟨c, cs, htext, hc⟩ := exists_head_of_readForm? hread
  have hblanks : ∀ d ∈ List.replicate (line.depth * unit) ' ', decide (d = ' ') = true := by
    intro d hd
    rw [List.eq_of_mem_replicate hd]
    rfl
  rw [htext] at hread
  rw [toList_lineText hindent, htext, List.takeWhile_append_of_pos hblanks,
    List.dropWhile_append_of_pos hblanks, List.takeWhile_cons_of_neg (by simpa using hc),
    List.dropWhile_cons_of_neg (by simpa using hc)]
  refine ⟨?_, ?_, hread⟩
  · simp [hc]
  · simp

theorem oneLine_lineText (hindent : settings.indent.toList = List.replicate unit ' ')
    (hsubject : OneLine settings.versionVariable) {line : Line}
    (hnamed : Named reserved line.clause) : OneLine (line.text settings) := by
  have hclause := oneLine_clauseText hsubject hnamed
  have hblank : ∀ c ∈ List.replicate (line.depth * unit) ' ', c = ' ' :=
    fun c hc => List.eq_of_mem_replicate hc
  rw [OneLine, toList_lineText hindent, List.mem_append, List.mem_append, not_or, not_or]
  refine ⟨⟨fun h => ?_, hclause.1⟩, fun h => ?_, hclause.2⟩
  · exact absurd (hblank _ h) (by decide)
  · exact absurd (hblank _ h) (by decide)

theorem readLines?_unlines (hindent : settings.indent.toList = List.replicate unit ' ')
    (hsubject : OneLine settings.versionVariable) {ls : List Line}
    (hnamed : ∀ line ∈ ls, WellNamed reserved line.clause) :
    readLines? reserved settings.versionVariable.toList
      (Text.unlines (ls.map (·.text settings))).toList = some (formLines unit ls) := by
  have hone : ∀ l ∈ ls.map (·.text settings), OneLine l := by
    intro l hl
    obtain ⟨line, hline, rfl⟩ := List.mem_map.1 hl
    exact oneLine_lineText hindent hsubject (hnamed line hline).named
  rw [readLines?, lines_unlines hone, List.map_map]
  clear hone
  induction ls with
  | nil => rfl
  | cons line ls ih =>
    have hrest := ih fun l hl => hnamed l (List.mem_cons_of_mem _ hl)
    cases hform : formOf? line.clause with
    | none =>
      -- Only a blank line says nothing, and it is all blanks.
      have hblank : line.clause = .blank := by
        cases hclause : line.clause <;> simp [hclause, formOf?] at hform
        rfl
      have hskip : ¬ (line.text settings).toList.any (· ≠ ' ') = true := by
        rw [toList_lineText hindent, hblank]
        simp [Clause.text]
      rw [List.map_cons, Function.comp_apply, List.filter_cons, if_neg hskip, hrest,
        formLines, formLines, List.filterMap_cons, hform]
      rfl
    | some form =>
      obtain ⟨hany, hwidth, hread⟩ :=
        readForm?_line hindent (hnamed line List.mem_cons_self) hform
      rw [List.map_cons, Function.comp_apply, List.filter_cons, if_pos hany, List.mapM_cons,
        hwidth, hread, hrest, formLines, formLines, List.filterMap_cons, hform]
      rfl

end Lines

end SchemaLineage.StubCode

import SchemaLineage.Proofs.Lexemes
import SchemaLineage.Source.Comment

/-!
The comments that the lexer skips. A text is cut into stretches, each a gap and the spelling of the
token behind it; the comments of the text are those of its gaps. A literal may hold an escaped line
break, so a line may start within a literal.
-/
namespace SchemaLineage

namespace Text

/-- The text up to the end of its line, or up to a carriage return directly before it. -/
def restOfLine : List Char → List Char
  | [] => []
  | c :: cs =>
    if c = '\n' ∨ c = '\r' ∧ cs.head? = some '\n' then [] else c :: restOfLine cs

def afterLine : List Char → List Char
  | [] => []
  | c :: cs => if c = '\n' then cs else afterLine cs

section Lines

variable {cs : List Char}

theorem restOfLine_eq_self (h : '\n' ∉ cs) : restOfLine cs = cs := by
  induction cs with
  | nil => rfl
  | cons c cs ih =>
    rw [List.mem_cons, not_or] at h
    have hend : ¬ (c = '\n' ∨ c = '\r' ∧ cs.head? = some '\n') := by
      rintro (rfl | ⟨-, hhead⟩)
      · exact h.1 rfl
      · exact h.2 (List.mem_of_head? hhead)
    rw [restOfLine, if_neg hend, ih h.2]

theorem restOfLine_append (h : '\n' ∉ cs) (rest : List Char) :
    restOfLine (cs ++ '\n' :: rest) = dropCarriageReturn cs := by
  fun_induction dropCarriageReturn cs with
  | case1 => rfl
  | case2 => rfl
  | case3 c hc =>
    rw [List.mem_singleton] at h
    simp [restOfLine, hc, Ne.symm h]
  | case4 c cs hcs ih =>
    rw [List.mem_cons, not_or] at h
    obtain ⟨d, cs, rfl⟩ := List.exists_cons_of_ne_nil hcs
    have hd : d ≠ '\n' := fun hd => h.2 (hd ▸ List.mem_cons_self)
    rw [List.cons_append, restOfLine, ih h.2]
    simp [Ne.symm h.1, hd]

theorem afterLine_append (h : '\n' ∉ cs) (rest : List Char) :
    afterLine (cs ++ '\n' :: rest) = rest := by
  induction cs with
  | nil => rfl
  | cons c cs ih =>
    rw [List.mem_cons, not_or] at h
    rw [List.cons_append, afterLine, if_neg (Ne.symm h.1), ih h.2]

theorem afterLine_eq_nil (h : '\n' ∉ cs) : afterLine cs = [] := by
  induction cs with
  | nil => rfl
  | cons c cs ih =>
    rw [List.mem_cons, not_or] at h
    rw [afterLine, if_neg (Ne.symm h.1), ih h.2]

theorem linesFrom_of_not_mem (h : '\n' ∉ cs) (line : List Char) :
    linesFrom line cs = if line.reverse ++ cs = [] then [] else [line.reverse ++ cs] := by
  induction cs generalizing line with
  | nil => simp [linesFrom]
  | cons c cs ih =>
    rw [List.mem_cons, not_or] at h
    rw [linesFrom, if_neg (Ne.symm h.1), ih h.2]
    simp

theorem lines_eq_cons (hne : cs ≠ []) : lines cs = restOfLine cs :: lines (afterLine cs) := by
  by_cases h : '\n' ∈ cs
  · obtain ⟨line, rest, rfl, hline⟩ := List.eq_append_cons_of_mem h
    rw [lines_append hline, restOfLine_append hline, afterLine_append hline]
  · have hline := linesFrom_of_not_mem h []
    rw [List.reverse_nil, List.nil_append, if_neg hne] at hline
    rw [lines, hline, restOfLine_eq_self h, afterLine_eq_nil h]
    rfl

end Lines

end Text

namespace Position

/-- The line moves by the line breaks that are passed. -/
theorem line_after (p : Position) (cs : List Char) :
    (p.after cs).line = p.line + cs.count '\n' := by
  induction cs generalizing p with
  | nil => rfl
  | cons c cs ih =>
    have hstep : p.after (c :: cs) = (p.next c).after cs := rfl
    rw [hstep, ih, next]
    by_cases hc : c = '\n'
    · subst hc
      rw [if_pos rfl, List.count_cons_self]
      show p.line + 1 + cs.count '\n' = p.line + (cs.count '\n' + 1)
      omega
    · rw [if_neg hc, List.count_cons_of_ne hc]

end Position

namespace Lexing

/-- The comments of a gap, whose first line is numbered; `inComment` as for `splitTrivia`. -/
def gapComments (line : Nat) (inComment : Bool) : List Char → List Comment
  | [] => []
  | c :: cs =>
    if c = '\n' then gapComments (line + 1) false cs
    else if inComment then gapComments line true cs
    else if c = '-' ∧ cs.head? = some '-' then
      ⟨line, Text.restOfLine cs.tail⟩ :: gapComments line true cs
    else gapComments line false cs

/-- A gap and the spelling of the token behind it; no token stands behind the last one. -/
structure Stretch where
  start : Position
  gap : List Char
  spelling : List Char

/-- The stretches of a text that is cut into tokens; they end where it is not. -/
def stretchesFrom (p : Position) (cs : List Char) : List Stretch :=
  let gap := (splitTrivia false cs).1
  match _hcut : (splitTrivia false cs).2 with
  | [] => [⟨p, gap, []⟩]
  | c :: tail =>
    match _hlex : splitLexeme c tail with
    | .error _ => [⟨p, gap, []⟩]
    | .ok lexeme =>
      ⟨p, gap, lexeme.spelling⟩ ::
        stretchesFrom ((p.after gap).after lexeme.spelling) lexeme.rest
termination_by cs.length
decreasing_by
  have hlt := length_rest_lt _hlex
  have hlen := congrArg List.length (splitTrivia_append false cs)
  simp only [List.length_append, _hcut, List.length_cons] at hlen
  omega

section Stretches

variable {p : Position} {c : Char} {cs tail : List Char}

theorem stretchesFrom_of_nil (hcut : (splitTrivia false cs).2 = []) :
    stretchesFrom p cs = [⟨p, (splitTrivia false cs).1, []⟩] := by
  rw [stretchesFrom]
  split <;> simp_all

theorem stretchesFrom_of_lexeme {l : Lexeme} (hcut : (splitTrivia false cs).2 = c :: tail)
    (hlex : splitLexeme c tail = .ok l) :
    stretchesFrom p cs = ⟨p, (splitTrivia false cs).1, l.spelling⟩ ::
      stretchesFrom ((p.after (splitTrivia false cs).1).after l.spelling) l.rest := by
  rw [stretchesFrom]
  split
  · simp_all
  · rename_i hcut'
    rw [hcut] at hcut'
    cases hcut'
    split <;> simp_all

end Stretches

namespace Stretch

def comments (s : Stretch) : List Comment :=
  gapComments s.start.line false s.gap

def brokenLines (s : Stretch) : List Nat :=
  List.range' ((s.start.after s.gap).line + 1) (s.spelling.count '\n')

end Stretch

def skipped (cs : List Char) : List Comment :=
  (stretchesFrom .start cs).flatMap Stretch.comments

def brokenLines (cs : List Char) : List Nat :=
  (stretchesFrom .start cs).flatMap Stretch.brokenLines

section Breaks

variable {c : Char} {cs : List Char}

/-- The line breaks of a literal are in its value. -/
theorem newline_mem_value {quote : Char} (hquote : isQuote quote = true) {l : Literal}
    (h : splitLiteral quote cs = some l) (hmem : '\n' ∈ l.spelling) : '\n' ∈ l.value := by
  fun_induction splitLiteral quote cs generalizing l with
  | case1 => cases h
  | case2 cs =>
    cases h
    exact absurd (List.mem_singleton.1 hmem).symm (quote_ne hquote).2.2.1
  | case3 => cases h
  | case4 e cs _ ih =>
    obtain ⟨l', hl', rfl⟩ := Option.map_eq_some_iff.1 h
    simp only [List.mem_cons] at hmem ⊢
    rcases hmem with hmem | hmem | hmem
    · cases hmem
    · exact Or.inl hmem
    · exact Or.inr (ih hl' hmem)
  | case5 => cases h
  | case6 c cs _ _ hnewline ih =>
    obtain ⟨l', hl', rfl⟩ := Option.map_eq_some_iff.1 h
    simp only [List.mem_cons] at hmem ⊢
    rcases hmem with hmem | hmem
    · exact absurd hmem.symm hnewline
    · exact Or.inr (ih hl' hmem)

/-- No other token has line breaks in it. -/
theorem newline_not_mem_spelling {l : Lexeme} (h : splitLexeme c cs = .ok l)
    (hstring : ∀ s, l.token = .string s → '\n' ∉ s.toList) : '\n' ∉ l.spelling := by
  intro hmem
  rcases splitLexeme_cases h with ⟨k, hsign, rfl⟩ | ⟨hquote, q, hq, rfl⟩ | ⟨hstart, rfl⟩
  · exact (sign_ne hsign).2.2.2 (List.mem_singleton.1 hmem).symm
  · apply hstring _ rfl
    rw [String.toList_ofList]
    rcases List.mem_cons.1 hmem with hmem | hmem
    · exact absurd hmem.symm (quote_ne hquote).2.2.1
    · exact newline_mem_value hquote hq hmem
  · exact (namePart_ne (isNamePart_of_mem_name hstart hmem)).2.2.2 rfl

theorem brokenLines_eq_nil {p : Position} {stream : TokenStream}
    (h : tokensFrom p cs = .ok stream)
    (hstring : ∀ t ∈ stream.tokens, ∀ s, t.token = .string s → '\n' ∉ s.toList) :
    (stretchesFrom p cs).flatMap Stretch.brokenLines = [] := by
  fun_induction tokensFrom p cs generalizing stream with
  | case1 p cs here =>
    rename_i hcut
    rw [stretchesFrom_of_nil hcut]
    rfl
  | case2 => cases h
  | case3 p cs here c tail hcut lexeme hlex =>
    rename_i ih
    obtain ⟨rest, hrest, h⟩ := Except.exists_of_bind h
    cases h
    have hcount : lexeme.spelling.count '\n' = 0 :=
      List.count_eq_zero.2 (newline_not_mem_spelling hlex (hstring _ List.mem_cons_self))
    rw [stretchesFrom_of_lexeme hcut hlex, List.flatMap_cons, Stretch.brokenLines, hcount]
    exact ih hrest fun t ht => hstring t (List.mem_cons_of_mem _ ht)

end Breaks

end Lexing

end SchemaLineage

import SchemaLineage.Proofs.SkippedComments
import SchemaLineage.Source.Tag

/-!
The line scanner beside the lexer. From the middle of a line on, what the scanner still finds
depends on the rest of the line and on the quote that is open in it, and each thing the lexer reads
moves both in step. Only an escaped line break within a literal does not: the scanner starts the next
line with no quote open. So the two agree on every line that does not start within a literal, and on
all lines if no literal holds a line break.
-/
namespace SchemaLineage

open Lexing Text

namespace Comment

def kept (leaveOut : Nat → Bool) (found : List Comment) : List Comment :=
  found.filter fun c => !leaveOut c.line

/-- What is found in the lines after the one of the text's start. -/
def later (leaveOut : Nat → Bool) (line : Nat) (cs : List Char) : List Comment :=
  kept leaveOut (ofLines (line + 1) (lines (afterLine cs)))

/-- What is found from the middle of a line on, where the quote is open. -/
def pending (leaveOut : Nat → Bool) (line : Nat) (quote : Option Char) (cs : List Char) :
    List Comment :=
  kept leaveOut ((ofLine? quote (restOfLine cs)).toList.map (⟨line, ·⟩)) ++ later leaveOut line cs

section Steps

variable {leaveOut : Nat → Bool} {line : Nat} {quote quote' : Option Char} {c q : Char}
  {cs ds : List Char}

theorem kept_append (leaveOut : Nat → Bool) (found found' : List Comment) :
    kept leaveOut (found ++ found') = kept leaveOut found ++ kept leaveOut found' :=
  List.filter_append found found'

theorem kept_ofLines_lines (leaveOut : Nat → Bool) (line : Nat) (cs : List Char) :
    kept leaveOut (ofLines line (lines cs)) = pending leaveOut line none cs := by
  cases cs with
  | nil => rfl
  | cons c cs =>
    rw [lines_eq_cons (List.cons_ne_nil c cs), ofLines, pending, later, ← kept_append]
    split
    · rename_i htext
      rw [htext]
      rfl
    · rename_i htext
      rw [htext]
      rfl

/-- On a line that is left out it does not matter which quote is open. -/
theorem pending_of_leaveOut (h : leaveOut line = true) (quote quote' : Option Char)
    (cs : List Char) : pending leaveOut line quote cs = pending leaveOut line quote' cs := by
  have hnone : ∀ texts : List (List Char), kept leaveOut (texts.map (⟨line, ·⟩)) = [] := by
    intro texts
    rw [kept, List.filter_eq_nil_iff]
    intro c hc
    obtain ⟨text, -, rfl⟩ := List.mem_map.1 hc
    simp [h]
  rw [pending, pending, hnone, hnone]

/-- A line break starts the next line with no quote open. -/
theorem pending_newline (leaveOut : Nat → Bool) (line : Nat) (quote : Option Char)
    (cs : List Char) :
    pending leaveOut line quote ('\n' :: cs) = pending leaveOut (line + 1) none cs := by
  rw [← kept_ofLines_lines, pending]
  cases quote <;> rfl

theorem later_newline (leaveOut : Nat → Bool) (line : Nat) (cs : List Char) :
    later leaveOut line ('\n' :: cs) = pending leaveOut (line + 1) none cs := by
  rw [← kept_ofLines_lines]
  rfl

theorem later_cons (hc : c ≠ '\n') : later leaveOut line (c :: cs) = later leaveOut line cs := by
  rw [later, afterLine, if_neg hc, later]

theorem ofLine?_nil (quote : Option Char) : ofLine? quote [] = none := by
  cases quote <;> rfl

/-- A character is passed if the scanner goes on alike behind it. A carriage return that is not in
the rest of the line has nothing of the line behind it. -/
theorem pending_cons (hc : c ≠ '\n')
    (h : ofLine? quote (c :: restOfLine cs) = ofLine? quote' (restOfLine cs)) :
    pending leaveOut line quote (c :: cs) = pending leaveOut line quote' cs := by
  have hrest : ofLine? quote (restOfLine (c :: cs)) = ofLine? quote' (restOfLine cs) := by
    by_cases hreturn : c = '\r' ∧ cs.head? = some '\n'
    · obtain ⟨rest, rfl⟩ := List.head?_eq_some_iff.1 hreturn.2
      have hleft : restOfLine (c :: '\n' :: rest) = [] := if_pos (Or.inr hreturn)
      have hright : restOfLine ('\n' :: rest) = [] := if_pos (Or.inl rfl)
      rw [hleft, hright, ofLine?_nil, ofLine?_nil]
    · rw [restOfLine, if_neg (by simp [hc, hreturn]), h]
  rw [pending, hrest, later_cons hc, pending]

theorem head?_of_head?_restOfLine (h : (restOfLine cs).head? = some c) : cs.head? = some c := by
  cases cs with
  | nil => cases h
  | cons d cs =>
    unfold restOfLine at h
    split at h
    · cases h
    · exact h

/-- Outside of literals nothing but quotes and comments matters. -/
theorem pending_ordinary (hc : c ≠ '\n') (hquote : isQuote c = false)
    (hcomment : ¬ (c = '-' ∧ cs.head? = some '-')) :
    pending leaveOut line none (c :: cs) = pending leaveOut line none cs := by
  apply pending_cons hc
  have hrest : ¬ (c = '-' ∧ (restOfLine cs).head? = some '-') :=
    fun h => hcomment ⟨h.1, head?_of_head?_restOfLine h.2⟩
  rw [ofLine?]
  simp only [hquote, Bool.false_eq_true, if_false, if_neg hrest]

theorem pending_ordinary_append (h : ∀ c ∈ ds, c ≠ '\n' ∧ isQuote c = false ∧ c ≠ '-')
    (cs : List Char) : pending leaveOut line none (ds ++ cs) = pending leaveOut line none cs := by
  induction ds with
  | nil => rfl
  | cons d ds ih =>
    obtain ⟨hd, hquote, hhyphen⟩ := h d List.mem_cons_self
    rw [List.cons_append, pending_ordinary hd hquote fun h => hhyphen h.1,
      ih fun c hc => h c (List.mem_cons_of_mem d hc)]

theorem pending_open (hquote : isQuote c = true) :
    pending leaveOut line none (c :: cs) = pending leaveOut line (some c) cs := by
  apply pending_cons (quote_ne hquote).2.2.1
  rw [ofLine?]
  simp only [hquote, if_true]

theorem pending_close (hquote : isQuote q = true) :
    pending leaveOut line (some q) (q :: cs) = pending leaveOut line none cs := by
  apply pending_cons (quote_ne hquote).2.2.1
  rw [ofLine?.eq_def]
  simp only [if_neg (quote_ne hquote).2.2.2.1, if_true]

theorem pending_within (hc : c ≠ '\n') (hescape : c ≠ '\\') (hquote : c ≠ q) :
    pending leaveOut line (some q) (c :: cs) = pending leaveOut line (some q) cs := by
  apply pending_cons hc
  rw [ofLine?.eq_def]
  simp only [if_neg hescape, if_neg hquote]

theorem pending_escape (hc : c ≠ '\n') :
    pending leaveOut line (some q) ('\\' :: c :: cs) = pending leaveOut line (some q) cs := by
  by_cases hreturn : c = '\r' ∧ cs.head? = some '\n'
  · obtain ⟨rest, rfl⟩ := List.head?_eq_some_iff.1 hreturn.2
    have hleft : restOfLine ('\\' :: c :: '\n' :: rest) = ['\\'] := by
      simp [restOfLine, hreturn.1]
    have hright : restOfLine ('\n' :: rest) = [] := if_pos (Or.inl rfl)
    rw [pending, hleft, later_cons (by decide), later_cons hc, pending, hright]
    rfl
  · have hleft : restOfLine ('\\' :: c :: cs) = '\\' :: c :: restOfLine cs := by
      rw [restOfLine, if_neg (by simp), restOfLine, if_neg (by simp [hc, hreturn])]
    have hpassed : ofLine? (some q) ('\\' :: c :: restOfLine cs) =
        ofLine? (some q) (restOfLine cs) := by
      rw [ofLine?]
      simp
    rw [pending, hleft, hpassed, later_cons (by decide), later_cons hc, pending]

/-- The quote is lost at an escaped line break. -/
theorem pending_escaped_newline (leaveOut : Nat → Bool) (line : Nat) (q : Char) (cs : List Char) :
    pending leaveOut line (some q) ('\\' :: '\n' :: cs) =
      pending leaveOut (line + 1) none cs := by
  have hbreak : pending leaveOut line (some q) ('\\' :: '\n' :: cs) =
      pending leaveOut line none ('\n' :: cs) := pending_cons (by decide) rfl
  rw [hbreak, pending_newline]

/-- The scanner reports a comment and leaves the rest of its line. -/
theorem pending_comment (leaveOut : Nat → Bool) (line : Nat) (cs : List Char) :
    pending leaveOut line none ('-' :: '-' :: cs) =
      kept leaveOut [⟨line, restOfLine cs⟩] ++ later leaveOut line ('-' :: cs) := by
  have hrest : restOfLine ('-' :: '-' :: cs) = '-' :: '-' :: restOfLine cs := by
    rw [restOfLine, if_neg (by simp), restOfLine, if_neg (by simp)]
  rw [pending, hrest, later_cons (by decide)]
  rfl

end Steps

section Gaps

variable {leaveOut : Nat → Bool} {inComment : Bool} {line : Nat} {c : Char} {cs : List Char}

/-- Over the gap at the start of a text the scanner finds the comments of the gap. Within a comment
the scanner is done with the line. -/
def ScansGap (leaveOut : Nat → Bool) (inComment : Bool) (line : Nat) (cs : List Char) : Prop :=
  (if inComment then later leaveOut line cs else pending leaveOut line none cs) =
    kept leaveOut (gapComments line inComment (splitTrivia inComment cs).1) ++
      pending leaveOut (line + (splitTrivia inComment cs).1.count '\n') none
        (splitTrivia inComment cs).2

theorem ScansGap.newline (h : ScansGap leaveOut false (line + 1) cs) :
    ScansGap leaveOut inComment line ('\n' :: cs) := by
  have hsplit : splitTrivia inComment ('\n' :: cs) =
      ('\n' :: (splitTrivia false cs).1, (splitTrivia false cs).2) := by
    cases inComment <;> rfl
  have hscan : (if inComment then later leaveOut line ('\n' :: cs)
      else pending leaveOut line none ('\n' :: cs)) = pending leaveOut (line + 1) none cs := by
    cases inComment
    · exact pending_newline leaveOut line none cs
    · exact later_newline leaveOut line cs
  have hcount : line + (List.count '\n' (splitTrivia false cs).1 + 1) =
      line + 1 + List.count '\n' (splitTrivia false cs).1 := by omega
  rw [ScansGap, hsplit, hscan, gapComments, if_pos rfl, List.count_cons_self, hcount]
  exact h

theorem ScansGap.within (h : ScansGap leaveOut true line cs) (hc : c ≠ '\n') :
    ScansGap leaveOut true line (c :: cs) := by
  have htrue : (c != '\n') = true := by simpa using hc
  have hsplit : splitTrivia true (c :: cs) =
      (c :: (splitTrivia (c != '\n') cs).1, (splitTrivia (c != '\n') cs).2) := rfl
  rw [ScansGap, hsplit, htrue, if_pos rfl, later_cons hc, gapComments, if_neg hc, if_pos rfl,
    List.count_cons_of_ne hc]
  exact h

theorem ScansGap.blank (h : ScansGap leaveOut false line cs) (hc : c ≠ '\n')
    (hblank : isBlank c = true) : ScansGap leaveOut false line (c :: cs) := by
  have hquote : isQuote c = false := by
    by_contra hquote
    rw [Bool.not_eq_false, isQuote, Bool.or_eq_true, beq_iff_eq, beq_iff_eq] at hquote
    rcases hquote with rfl | rfl <;> cases hblank
  have hhyphen : c ≠ '-' := by
    rintro rfl
    cases hblank
  rw [ScansGap, splitTrivia_blank hblank, if_neg Bool.false_ne_true,
    pending_ordinary hc hquote fun h => hhyphen h.1, gapComments, if_neg hc,
    if_neg Bool.false_ne_true, if_neg fun h => hhyphen h.1, List.count_cons_of_ne hc]
  exact h

theorem restOfLine_splitTrivia (cs : List Char) :
    restOfLine (splitTrivia true cs).1 = restOfLine cs := by
  induction cs with
  | nil => rfl
  | cons c cs ih =>
    have hsplit : (splitTrivia true (c :: cs)).1 = c :: (splitTrivia (c != '\n') cs).1 := rfl
    rw [hsplit]
    by_cases hc : c = '\n'
    · rw [restOfLine, restOfLine, if_pos (Or.inl hc), if_pos (Or.inl hc)]
    · have htrue : (c != '\n') = true := by simpa using hc
      have hhead : (splitTrivia true cs).1.head? = cs.head? := by
        cases cs <;> rfl
      rw [htrue, restOfLine, restOfLine, hhead, ih]

theorem ScansGap.comment (h : ScansGap leaveOut true line ('-' :: cs)) :
    ScansGap leaveOut false line ('-' :: '-' :: cs) := by
  have hsplit : splitTrivia false ('-' :: '-' :: cs) =
      ('-' :: (splitTrivia true ('-' :: cs)).1, (splitTrivia true ('-' :: cs)).2) := rfl
  have hcomments : gapComments line false ('-' :: (splitTrivia true ('-' :: cs)).1) =
      [⟨line, restOfLine cs⟩] ++ gapComments line true (splitTrivia true ('-' :: cs)).1 := by
    rw [← restOfLine_splitTrivia cs]
    rfl
  rw [ScansGap, hsplit, hcomments, if_neg Bool.false_ne_true, pending_comment, kept_append,
    List.append_assoc, List.count_cons_of_ne (by decide)]
  rw [ScansGap, if_pos rfl] at h
  rw [h]

theorem scansGap (leaveOut : Nat → Bool) (inComment : Bool) (line : Nat) (cs : List Char) :
    ScansGap leaveOut inComment line cs := by
  induction cs generalizing inComment line with
  | nil => cases inComment <;> rfl
  | cons c cs ih =>
    by_cases hc : c = '\n'
    · subst hc
      exact (ih false (line + 1)).newline
    · cases inComment with
      | true => exact (ih true line).within hc
      | false =>
        by_cases hblank : isBlank c = true
        · exact (ih false line).blank hc hblank
        · by_cases hcomment : c = '-' ∧ cs.head? = some '-'
          · obtain ⟨rfl, hhead⟩ := hcomment
            obtain ⟨cs, rfl⟩ := List.head?_eq_some_iff.1 hhead
            exact (ih true line).comment
          · rw [ScansGap, splitTrivia_lexeme cs (by simpa using hblank) hcomment]
            rfl

end Gaps

section Tokens

variable {leaveOut : Nat → Bool}

/-- A literal is passed if the lines that start within it are left out. -/
theorem pending_literal {quote : Char} (hquote : isQuote quote = true) {cs : List Char}
    {l : Literal} (h : splitLiteral quote cs = some l) {line : Nat}
    (hout : ∀ n, line < n → n ≤ line + l.spelling.count '\n' → leaveOut n = true) :
    pending leaveOut line (some quote) cs =
      pending leaveOut (line + l.spelling.count '\n') none l.rest := by
  fun_induction splitLiteral quote cs generalizing l line with
  | case1 => cases h
  | case2 cs =>
    cases h
    rw [List.count_cons_of_ne (quote_ne hquote).2.2.1]
    exact pending_close hquote
  | case3 => cases h
  | case4 e cs hescape ih =>
    obtain ⟨l', hl', rfl⟩ := Option.map_eq_some_iff.1 h
    have hbackslash : ('\\' : Char) ≠ '\n' := by decide
    by_cases he : e = '\n'
    · subst he
      -- The next line is left out, so the quote may be taken to be open on it still.
      simp only [List.count_cons_of_ne hbackslash, List.count_cons_self] at hout ⊢
      have hnext : leaveOut (line + 1) = true := hout (line + 1) (by omega) (by omega)
      have hcount : line + (l'.spelling.count '\n' + 1) = line + 1 + l'.spelling.count '\n' := by
        omega
      rw [pending_escaped_newline, pending_of_leaveOut hnext none (some quote), hcount]
      exact ih hl' fun n hn hle => hout n (by omega) (by omega)
    · simp only [List.count_cons_of_ne hbackslash, List.count_cons_of_ne he] at hout ⊢
      rw [pending_escape he]
      exact ih hl' hout
  | case5 => cases h
  | case6 c cs hc hescape hnewline ih =>
    obtain ⟨l', hl', rfl⟩ := Option.map_eq_some_iff.1 h
    simp only [List.count_cons_of_ne hnewline] at hout ⊢
    rw [pending_within hnewline hescape hc]
    exact ih hl' hout

/-- Only a literal has line breaks or quotes in it. -/
theorem pending_lexeme {c : Char} {cs : List Char} {l : Lexeme} (h : splitLexeme c cs = .ok l)
    {line : Nat} (hout : ∀ n, line < n → n ≤ line + l.spelling.count '\n' → leaveOut n = true) :
    pending leaveOut line none (c :: cs) =
      pending leaveOut (line + l.spelling.count '\n') none l.rest := by
  rcases splitLexeme_cases h with ⟨k, hsign, rfl⟩ | ⟨hquote, q, hq, rfl⟩ | ⟨hstart, rfl⟩
  · obtain ⟨-, hquote, hhyphen, hnewline⟩ := sign_ne hsign
    rw [List.count_cons_of_ne hnewline]
    exact pending_ordinary hnewline hquote fun h => hhyphen h.1
  · simp only [List.count_cons_of_ne (quote_ne hquote).2.2.1] at hout ⊢
    rw [pending_open hquote]
    exact pending_literal hquote hq hout
  · have hname : ∀ d ∈ c :: cs.takeWhile isNamePart, d ≠ '\n' ∧ isQuote d = false ∧ d ≠ '-' := by
      intro d hd
      obtain ⟨-, hquote, hhyphen, hnewline⟩ := namePart_ne (isNamePart_of_mem_name hstart hd)
      exact ⟨hnewline, hquote, hhyphen⟩
    have hcount : (c :: cs.takeWhile isNamePart).count '\n' = 0 :=
      List.count_eq_zero.2 fun hmem => (hname _ hmem).1 rfl
    have hpassed : pending leaveOut line none
          (c :: cs.takeWhile isNamePart ++ cs.dropWhile isNamePart) =
        pending leaveOut line none (cs.dropWhile isNamePart) := pending_ordinary_append hname _
    rw [List.cons_append, List.takeWhile_append_dropWhile] at hpassed
    rw [hpassed, hcount]
    rfl

/-- From the start of a gap on, the scanner finds what the lexer skips. -/
theorem pending_of_tokensFrom {p : Position} {cs : List Char} {stream : TokenStream}
    (h : tokensFrom p cs = .ok stream)
    (hout : ∀ n ∈ (stretchesFrom p cs).flatMap Stretch.brokenLines, leaveOut n = true) :
    pending leaveOut p.line none cs =
      kept leaveOut ((stretchesFrom p cs).flatMap Stretch.comments) := by
  fun_induction tokensFrom p cs generalizing stream with
  | case1 p cs here =>
    rename_i hcut
    have hgap := scansGap leaveOut false p.line cs
    rw [ScansGap, if_neg Bool.false_ne_true, hcut] at hgap
    rw [hgap, stretchesFrom_of_nil hcut, List.flatMap_singleton]
    exact List.append_nil _
  | case2 => cases h
  | case3 p cs here c tail hcut lexeme hlex =>
    rename_i ih
    obtain ⟨rest, hrest, h⟩ := Except.exists_of_bind h
    rw [stretchesFrom_of_lexeme hcut hlex, List.flatMap_cons] at hout ⊢
    have hgap := scansGap leaveOut false p.line cs
    rw [ScansGap, if_neg Bool.false_ne_true, hcut, ← Position.line_after] at hgap
    have hlexeme : pending leaveOut here.line none (c :: tail) =
        pending leaveOut (here.after lexeme.spelling).line none lexeme.rest := by
      rw [Position.line_after here]
      apply pending_lexeme hlex
      intro n hn hle
      apply hout n
      have hlt : n < here.line + 1 + lexeme.spelling.count '\n' := by omega
      rw [List.mem_append, Stretch.brokenLines, List.mem_range'_1]
      exact Or.inl ⟨hn, hlt⟩
    rw [hgap, kept_append]
    exact congrArg _ (hlexeme.trans (ih hrest fun n hn => hout n (List.mem_append_right _ hn)))

end Tokens

/-- On the lines that do not start within a literal the scanner finds what the lexer skips. -/
theorem kept_all {cs : List Char} {stream : TokenStream} (h : tokens cs = .ok stream) :
    kept (· ∈ brokenLines cs) (all cs) = kept (· ∈ brokenLines cs) (skipped cs) := by
  rw [all, kept_ofLines_lines]
  apply pending_of_tokensFrom h
  intro n hn
  exact decide_eq_true hn

theorem all_eq_skipped {cs : List Char} {stream : TokenStream} (h : tokens cs = .ok stream)
    (hbroken : brokenLines cs = []) : all cs = skipped cs := by
  have hkept := kept_all h
  rw [hbroken] at hkept
  have hall : ∀ found, kept (· ∈ ([] : List Nat)) found = found := by
    intro found
    rw [kept, List.filter_eq_self]
    simp
  rwa [hall, hall] at hkept

end Comment

namespace Version

/-- The version is read from a comment that is found. -/
theorem exists_comment_of_ofTag {filename source : String} {v : Version}
    (h : ofTag filename source = .ok v) :
    ∃ c ∈ Comment.all source.toList, ∃ tag, c.tag? = some tag ∧ ofChars tag = .ok v := by
  unfold ofTag at h
  split at h
  · cases h
  · rename_i tag htag
    obtain ⟨c, hc, hctag⟩ := List.exists_of_findSome?_eq_some htag
    refine ⟨c, hc, tag, hctag, ?_⟩
    split at h
    · rename_i hv
      cases h
      exact hv
    · cases h

end Version

/-- Where the text is cut into tokens, the comments that are found and those that are skipped are
the same on every line that does not start within a literal. If no literal has a line break in it,
they are the same on all lines, and so the version is read from a comment that is skipped. -/
theorem comments_agree_outside_literals {source : String} {stream : TokenStream}
    (h : Lexing.tokens source.toList = .ok stream) :
    ((Comment.all source.toList).filter (·.line ∉ Lexing.brokenLines source.toList) =
        (Lexing.skipped source.toList).filter (·.line ∉ Lexing.brokenLines source.toList)) ∧
      ((∀ t ∈ stream.tokens, ∀ s, t.token = .string s → '\n' ∉ s.toList) →
        Comment.all source.toList = Lexing.skipped source.toList ∧
          ∀ filename v, Version.ofTag filename source = .ok v →
            ∃ c ∈ Lexing.skipped source.toList, ∃ tag,
              c.tag? = some tag ∧ Version.ofChars tag = .ok v) := by
  constructor
  · simpa [Comment.kept] using Comment.kept_all h
  · intro hstring
    have hall := Comment.all_eq_skipped h (Lexing.brokenLines_eq_nil h hstring)
    refine ⟨hall, ?_⟩
    intro filename v hv
    rw [← hall]
    exact Version.exists_comment_of_ofTag hv

/-- A tag, a carriage return at the end of its line, and hyphens in a literal. -/
def commentedText : String :=
  "-- version=3.8\r\nmodule M version '--' \x7b \x7d -- end"

def commentedTokens : TokenStream where
  tokens :=
    [⟨.name "module", ⟨2, 1⟩⟩, ⟨.name "M", ⟨2, 8⟩⟩, ⟨.name "version", ⟨2, 10⟩⟩,
      ⟨.string "--", ⟨2, 18⟩⟩, ⟨.leftBrace, ⟨2, 23⟩⟩, ⟨.rightBrace, ⟨2, 25⟩⟩]
  finish := ⟨2, 33⟩

theorem comments_commentedText :
    Comment.all commentedText.toList = Lexing.skipped commentedText.toList ∧
      ∃ c ∈ Lexing.skipped commentedText.toList, ∃ tag,
        c.tag? = some tag ∧ Version.ofChars tag = .ok ⟨[3, 8]⟩ := by
  have htokens : Lexing.tokens commentedText.toList = .ok commentedTokens := by decide +kernel
  have hstring : ∀ t ∈ commentedTokens.tokens, ∀ s, t.token = .string s → '\n' ∉ s.toList := by
    simp [commentedTokens]
  have htag : Version.ofTag "m.asdl" commentedText = .ok ⟨[3, 8]⟩ := by decide +kernel
  obtain ⟨hall, hversion⟩ := (comments_agree_outside_literals htokens).2 hstring
  exact ⟨hall, hversion "m.asdl" _ htag⟩

/-- An escaped line break, hyphens before the closing quote on the next line, and a comment. -/
def brokenLiteral : List Char :=
  "module M version 'a\\\n-- b' \x7b \x7d -- c\n".toList

def brokenTokens : TokenStream where
  tokens :=
    [⟨.name "module", ⟨1, 1⟩⟩, ⟨.name "M", ⟨1, 8⟩⟩, ⟨.name "version", ⟨1, 10⟩⟩,
      ⟨.string "a\n-- b", ⟨1, 18⟩⟩, ⟨.leftBrace, ⟨2, 7⟩⟩, ⟨.rightBrace, ⟨2, 9⟩⟩]
  finish := ⟨3, 1⟩

/-- On a line that starts within a literal the scanner takes a part of the literal for a comment. -/
theorem brokenLiteral_scanned_as_comment :
    Lexing.tokens brokenLiteral = .ok brokenTokens ∧
      Comment.all brokenLiteral = [⟨2, " b' \x7b \x7d -- c".toList⟩] ∧
      Lexing.skipped brokenLiteral = [⟨2, " c".toList⟩] := by
  decide +kernel

end SchemaLineage

import SchemaLineage.Proofs.Lexemes

/-!
Where the tokens of a text stand. A text that is cut into tokens is a row of pieces, each a gap and
the spelling of a token, with one more gap at its end, and the place of a token is counted from the
text before its spelling. A text that is not cut has such a row of pieces and a gap before the
character that is blamed. Which of the two it is, and the pieces themselves, are determined by the
text.
-/
namespace SchemaLineage

namespace Position

/-- The place behind a text: one more than its line breaks, and one more than the characters since
the last of them. -/
def behind (cs : List Char) : Position :=
  ⟨cs.count '\n' + 1, (cs.reverse.takeWhile (· ≠ '\n')).length + 1⟩

theorem next_behind (cs : List Char) (c : Char) : (behind cs).next c = behind (cs ++ [c]) := by
  by_cases hc : c = '\n'
  · subst hc
    simp [next, behind]
  · simp [next, behind, hc]

theorem behind_nil : behind [] = start :=
  rfl

/-- The place that is moved over a text is counted from all that was passed. -/
theorem after_behind (cs ds : List Char) : (behind cs).after ds = behind (cs ++ ds) := by
  induction ds generalizing cs with
  | nil => rw [List.append_nil]; rfl
  | cons d ds ih =>
    have hstep : (behind cs).after (d :: ds) = ((behind cs).next d).after ds := rfl
    rw [hstep, next_behind, ih, List.append_assoc, List.singleton_append]

end Position

namespace Lexing

/-- The text starts where a line ends. -/
def EndsLine : List Char → Prop
  | [] => True
  | c :: _ => c = '\n'

/-- Blanks and comments before the rest of a text. A comment goes on to the end of its line. -/
inductive IsGap (rest : List Char) : List Char → Prop
  | nil : IsGap rest []
  | blank {c : Char} {gap : List Char} (hc : Text.isBlank c = true) (hgap : IsGap rest gap) :
      IsGap rest (c :: gap)
  | comment {body gap : List Char} (hbody : '\n' ∉ body) (hend : EndsLine (gap ++ rest))
      (hgap : IsGap rest gap) : IsGap rest ('-' :: '-' :: (body ++ gap))

/-- What stands between the quotes of a literal, and its value, which is the same without the
backslashes that escape. Neither the quote nor a line break stands there unescaped. -/
inductive IsContent (quote : Char) : (content value : List Char) → Prop
  | nil : IsContent quote [] []
  | escaped {content value : List Char} (e : Char) (h : IsContent quote content value) :
      IsContent quote ('\\' :: e :: content) (e :: value)
  | plain {c : Char} {content value : List Char} (hquote : c ≠ quote) (hescape : c ≠ '\\')
      (hnewline : c ≠ '\n') (h : IsContent quote content value) :
      IsContent quote (c :: content) (c :: value)

/-- The spelling of a token before the rest of a text: its sign, a quoted literal, or a name with no
more of the name behind it. -/
inductive Spelled (rest : List Char) : Token → List Char → Prop
  | sign {c : Char} {k : Token} (h : (c, k) ∈ signs) : Spelled rest k [c]
  | literal {quote : Char} {content value : List Char} (hquote : isQuote quote = true)
      (h : IsContent quote content value) :
      Spelled rest (.string (String.ofList value)) (quote :: (content ++ [quote]))
  | name {word : List Char} (hname : isName word = true) (hend : EndsName rest) :
      Spelled rest (.name (String.ofList word)) word

/-- A literal that is left open: its content goes on to the end of the text, a lone backslash there
apart, or to a line break that is not escaped. -/
def LeftOpen (quote : Char) (cs : List Char) : Prop :=
  ∃ content value tail, cs = content ++ tail ∧ IsContent quote content value ∧
    (tail = [] ∨ tail = ['\\'] ∨ tail.head? = some '\n')

def StartsToken (c : Char) : Prop :=
  ∃ rest k spelling, Spelled rest k (c :: spelling)

/-- What is wrong with a character and the text behind it: it starts no token and belongs to no gap,
or it is the quote of a literal that is left open. -/
inductive Blamed (c : Char) (rest : List Char) : SyntaxFault → Prop
  | character (hstart : ¬ StartsToken c) (hblank : Text.isBlank c = false)
      (hcomment : ¬ (c = '-' ∧ rest.head? = some '-')) : Blamed c rest (.unexpectedCharacter c)
  | literal (hquote : isQuote c = true) (hopen : LeftOpen c rest) :
      Blamed c rest .unterminatedString

structure Piece where
  gap : List Char
  token : Token
  spelling : List Char

def Piece.text (p : Piece) : List Char :=
  p.gap ++ p.spelling

def joined (ps : List Piece) : List Char :=
  ps.flatMap Piece.text

/-- The gaps of the pieces are gaps and their spellings spell their tokens, as they stand before the
rest of a text. -/
def Cut (rest : List Char) : List Piece → Prop
  | [] => True
  | p :: ps =>
    IsGap (p.spelling ++ (joined ps ++ rest)) p.gap ∧
      Spelled (joined ps ++ rest) p.token p.spelling ∧ Cut rest ps

/-- The tokens of pieces that stand behind a text, each at the place of its spelling. -/
def located (before : List Char) : List Piece → List LocatedToken
  | [] => []
  | p :: ps => ⟨p.token, .behind (before ++ p.gap)⟩ :: located (before ++ p.text) ps

section Gaps

variable {c : Char} {cs gap rest : List Char}

theorem EndsLine.newline_head {cs : List Char} (h : EndsLine cs) :
    ∀ c ∈ cs.head?, decide (c ≠ '\n') = false := by
  cases cs with
  | nil => simp
  | cons c cs => simpa [EndsLine] using h

theorem endsLine_dropWhile (cs : List Char) : EndsLine (cs.dropWhile (· ≠ '\n')) := by
  induction cs with
  | nil => trivial
  | cons c cs ih =>
    by_cases hc : c = '\n'
    · rw [List.dropWhile_cons_of_neg (by simpa using hc)]
      exact hc
    · rw [List.dropWhile_cons_of_pos (by simpa using hc)]
      exact ih

/-- Whatever stands behind a gap, the gap is passed over. -/
theorem splitTrivia_of_isGap (h : IsGap rest gap) :
    splitTrivia false (gap ++ rest) =
      (gap ++ (splitTrivia false rest).1, (splitTrivia false rest).2) := by
  induction h with
  | nil => rfl
  | blank hc _ ih => rw [List.cons_append, splitTrivia_blank hc, ih]; rfl
  | @comment body gap hbody hend _ ih =>
    have hin : ∀ d ∈ body, decide (d ≠ '\n') = true := by
      intro d hd
      rw [decide_eq_true_eq]
      exact ne_of_mem_of_not_mem hd hbody
    obtain ⟨htake, hdrop⟩ := takeWhile_append_dropWhile_append hin hend.newline_head
    rw [List.cons_append, List.cons_append, List.append_assoc, splitTrivia_comment, htake, hdrop,
      ih]
    simp

/-- What is split off is a gap, at the start of a text as well as from the end of its first line on.
The second is what a comment leaves. -/
theorem isGap_splitTrivia_and_dropWhile (cs : List Char) :
    IsGap (splitTrivia false cs).2 (splitTrivia false cs).1 ∧
      IsGap (splitTrivia false (cs.dropWhile (· ≠ '\n'))).2
        (splitTrivia false (cs.dropWhile (· ≠ '\n'))).1 := by
  induction cs with
  | nil => exact ⟨.nil, .nil⟩
  | cons c cs ih =>
    have hstart : IsGap (splitTrivia false (c :: cs)).2 (splitTrivia false (c :: cs)).1 := by
      by_cases hblank : Text.isBlank c = true
      · rw [splitTrivia_blank hblank]
        exact .blank hblank ih.1
      · by_cases hcomment : c = '-' ∧ cs.head? = some '-'
        · obtain ⟨rfl, hhead⟩ := hcomment
          obtain ⟨tail, rfl⟩ := List.head?_eq_some_iff.1 hhead
          rw [splitTrivia_comment]
          refine .comment (fun hmem => ?_) ?_ ih.2
          · exact absurd (List.mem_takeWhile_imp hmem) (by decide)
          · rw [splitTrivia_append]
            exact endsLine_dropWhile tail
        · rw [splitTrivia_lexeme cs (by simpa using hblank) hcomment]
          exact .nil
    refine ⟨hstart, ?_⟩
    by_cases hc : c = '\n'
    · rw [List.dropWhile_cons_of_neg (by simpa using hc)]
      exact hstart
    · rw [List.dropWhile_cons_of_pos (by simpa using hc)]
      exact ih.2

theorem isGap_splitTrivia (cs : List Char) :
    IsGap (splitTrivia false cs).2 (splitTrivia false cs).1 :=
  (isGap_splitTrivia_and_dropWhile cs).1

/-- A gap ends where neither a blank nor a comment stands. -/
theorem stops_splitTrivia {tail : List Char} (h : (splitTrivia false cs).2 = c :: tail) :
    Text.isBlank c = false ∧ ¬ (c = '-' ∧ tail.head? = some '-') := by
  have hagain := splitTrivia_of_isGap (isGap_splitTrivia cs)
  rw [splitTrivia_append, h] at hagain
  have hrest : (splitTrivia false (c :: tail)).2 = c :: tail :=
    (congrArg Prod.snd hagain).symm.trans h
  have hgap : (splitTrivia false (c :: tail)).1 = [] := by
    have happend := splitTrivia_append false (c :: tail)
    rwa [hrest, List.append_left_eq_self] at happend
  constructor
  · by_contra hblank
    rw [splitTrivia_blank (by simpa using hblank)] at hgap
    cases hgap
  · rintro ⟨rfl, hhead⟩
    obtain ⟨tail, rfl⟩ := List.head?_eq_some_iff.1 hhead
    rw [splitTrivia_comment] at hgap
    cases hgap

end Gaps

section Literals

variable {quote : Char} {cs content value rest : List Char}

theorem splitLiteral_close (quote : Char) (cs : List Char) :
    splitLiteral quote (quote :: cs) = some ⟨[], [quote], cs⟩ := by
  rw [splitLiteral.eq_def]
  exact if_pos rfl

theorem splitLiteral_escaped (hbackslash : quote ≠ '\\') (e : Char) (cs : List Char) :
    splitLiteral quote ('\\' :: e :: cs) =
      (splitLiteral quote cs).map fun l => ⟨e :: l.value, '\\' :: e :: l.spelling, l.rest⟩ := by
  rw [splitLiteral.eq_def]
  exact (if_neg (Ne.symm hbackslash)).trans (if_pos rfl)

theorem splitLiteral_plain {c : Char} (hne : c ≠ quote) (hescape : c ≠ '\\')
    (hnewline : c ≠ '\n') (cs : List Char) :
    splitLiteral quote (c :: cs) =
      (splitLiteral quote cs).map fun l => ⟨c :: l.value, c :: l.spelling, l.rest⟩ := by
  rw [splitLiteral.eq_def]
  exact (if_neg hne).trans ((if_neg hescape).trans (if_neg hnewline))

theorem splitLiteral_of_isContent (hquote : isQuote quote = true)
    (h : IsContent quote content value) :
    splitLiteral quote (content ++ quote :: rest) = some ⟨value, content ++ [quote], rest⟩ := by
  obtain ⟨-, -, -, hbackslash, -⟩ := quote_ne hquote
  induction h with
  | nil => exact splitLiteral_close quote rest
  | escaped e _ ih =>
    rw [List.cons_append, List.cons_append, splitLiteral_escaped hbackslash, ih]
    rfl
  | plain hne hescape hnewline _ ih =>
    rw [List.cons_append, splitLiteral_plain hne hescape hnewline, ih]
    rfl

/-- A literal that is read has its content before the closing quote. -/
theorem isContent_of_splitLiteral {l : Literal} (h : splitLiteral quote cs = some l) :
    ∃ content, IsContent quote content l.value ∧ l.spelling = content ++ [quote] := by
  fun_induction splitLiteral quote cs generalizing l with
  | case1 => cases h
  | case2 =>
    cases h
    exact ⟨[], .nil, rfl⟩
  | case3 => cases h
  | case4 e cs _ ih =>
    obtain ⟨l', hl', rfl⟩ := Option.map_eq_some_iff.1 h
    obtain ⟨content, hcontent, hspelling⟩ := ih hl'
    exact ⟨_, .escaped e hcontent, by rw [hspelling]; rfl⟩
  | case5 => cases h
  | case6 c cs hne hescape hnewline ih =>
    obtain ⟨l', hl', rfl⟩ := Option.map_eq_some_iff.1 h
    obtain ⟨content, hcontent, hspelling⟩ := ih hl'
    exact ⟨_, .plain hne hescape hnewline hcontent, by rw [hspelling]; rfl⟩

/-- A literal is not read exactly if it is left open. -/
theorem splitLiteral_eq_none_iff (hquote : isQuote quote = true) :
    splitLiteral quote cs = none ↔ LeftOpen quote cs := by
  obtain ⟨-, -, hnewline, hbackslash, -⟩ := quote_ne hquote
  constructor
  · intro h
    fun_induction splitLiteral quote cs with
    | case1 => exact ⟨[], [], [], rfl, .nil, Or.inl rfl⟩
    | case2 => cases h
    | case3 => exact ⟨[], [], _, rfl, .nil, Or.inr (Or.inl rfl)⟩
    | case4 e cs _ ih =>
      obtain ⟨content, value, tail, rfl, hcontent, htail⟩ := ih (Option.map_eq_none_iff.1 h)
      exact ⟨_, _, tail, rfl, .escaped e hcontent, htail⟩
    | case5 => exact ⟨[], [], _, rfl, .nil, Or.inr (Or.inr rfl)⟩
    | case6 c cs hne hescape hbreak ih =>
      obtain ⟨content, value, tail, rfl, hcontent, htail⟩ := ih (Option.map_eq_none_iff.1 h)
      exact ⟨_, _, tail, rfl, .plain hne hescape hbreak hcontent, htail⟩
  · rintro ⟨content, value, tail, rfl, hcontent, htail⟩
    induction hcontent with
    | nil =>
      rcases htail with rfl | rfl | htail
      · rfl
      · rw [List.nil_append, splitLiteral.eq_def]
        exact (if_neg (Ne.symm hbackslash)).trans (if_pos rfl)
      · obtain ⟨tail, rfl⟩ := List.head?_eq_some_iff.1 htail
        rw [List.nil_append, splitLiteral.eq_def]
        exact (if_neg (Ne.symm hnewline)).trans ((if_neg (by decide)).trans (if_pos rfl))
    | escaped e _ ih =>
      rw [List.cons_append, List.cons_append, splitLiteral_escaped hbackslash, ih,
        Option.map_none]
    | plain hne hescape hbreak _ ih =>
      rw [List.cons_append, splitLiteral_plain hne hescape hbreak, ih, Option.map_none]

end Literals

section Spellings

variable {c : Char} {k : Token} {rest spelling tail : List Char}

theorem ofSign?_of_mem_signs (h : (c, k) ∈ signs) : Token.ofSign? c = some k := by
  have hall : ∀ p ∈ signs, Token.ofSign? p.1 = some p.2 := by decide
  exact hall (c, k) h

theorem splitLexeme_literal (hquote : isQuote c = true) {q : Literal}
    (h : splitLiteral c tail = some q) :
    splitLexeme c tail = .ok ⟨.string (String.ofList q.value), c :: q.spelling, q.rest⟩ := by
  obtain ⟨-, -, -, -, hsign⟩ := quote_ne hquote
  simp [splitLexeme, hsign, hquote, h]

/-- What spells a token is cut off as that token, and no gap goes on there. -/
theorem splitLexeme_of_spelled (h : Spelled rest k spelling) :
    ∃ c tail, spelling = c :: tail ∧ Text.isBlank c = false ∧ c ≠ '-' ∧
      splitLexeme c (tail ++ rest) = .ok ⟨k, spelling, rest⟩ := by
  cases h with
  | sign hsign =>
    have hc := ofSign?_of_mem_signs hsign
    obtain ⟨hblank, -, hhyphen, -⟩ := sign_ne hc
    exact ⟨_, [], rfl, hblank, hhyphen, splitLexeme_sign hc rest⟩
  | literal hquote hcontent =>
    obtain ⟨hblank, hhyphen, -⟩ := quote_ne hquote
    refine ⟨_, _, rfl, hblank, hhyphen, ?_⟩
    rw [List.append_assoc, List.singleton_append]
    exact splitLexeme_literal hquote (splitLiteral_of_isContent hquote hcontent)
  | name hname hend =>
    cases spelling with
    | nil => cases hname
    | cons c word =>
      have hlex := splitLexeme_name hname hend
      rw [isName, Bool.and_eq_true] at hname
      obtain ⟨hblank, -, hhyphen, -⟩ := namePart_ne (isNamePart_of_isNameStart hname.1)
      exact ⟨c, word, rfl, hblank, hhyphen, hlex⟩

theorem endsName_dropWhile (cs : List Char) : EndsName (cs.dropWhile isNamePart) := by
  induction cs with
  | nil => trivial
  | cons c cs ih =>
    by_cases hc : isNamePart c = true
    · rw [List.dropWhile_cons_of_pos hc]
      exact ih
    · rw [List.dropWhile_cons_of_neg hc]
      simpa [EndsName] using hc

/-- What is cut off as a token spells it. -/
theorem spelled_of_splitLexeme {l : Lexeme} (h : splitLexeme c tail = .ok l) :
    Spelled l.rest l.token l.spelling := by
  rcases splitLexeme_cases h with ⟨k, hsign, rfl⟩ | ⟨hquote, q, hq, rfl⟩ | ⟨hstart, rfl⟩
  · exact .sign (mem_signs hsign)
  · obtain ⟨content, hcontent, hspelling⟩ := isContent_of_splitLiteral hq
    simp only [hspelling]
    exact .literal hquote hcontent
  · refine .name ?_ (endsName_dropWhile tail)
    rw [isName, hstart, List.all_takeWhile]
    rfl

/-- Signs, quotes and the first characters of names start tokens, and no others. -/
theorem startsToken_iff :
    StartsToken c ↔ Token.ofSign? c ≠ none ∨ isQuote c = true ∨ isNameStart c = true := by
  constructor
  · rintro ⟨rest, k, spelling, h⟩
    cases h with
    | sign hsign => exact Or.inl (by simp [ofSign?_of_mem_signs hsign])
    | literal hquote _ => exact Or.inr (Or.inl hquote)
    | name hname _ =>
      rw [isName, Bool.and_eq_true] at hname
      exact Or.inr (Or.inr hname.1)
  · rintro (hsign | hquote | hstart)
    · obtain ⟨k, hk⟩ := Option.ne_none_iff_exists'.1 hsign
      exact ⟨[], k, [], .sign (mem_signs hk)⟩
    · exact ⟨[], _, _, .literal hquote .nil⟩
    · exact ⟨[], _, [], .name (by simp [isName, hstart]) trivial⟩

/-- Behind a gap no token is cut off exactly if the next character is blamed. -/
theorem splitLexeme_eq_error_iff {fault : SyntaxFault} (hblank : Text.isBlank c = false)
    (hcomment : ¬ (c = '-' ∧ rest.head? = some '-')) :
    splitLexeme c rest = .error fault ↔ Blamed c rest fault := by
  constructor
  · intro h
    unfold splitLexeme at h
    split at h
    · cases h
    · rename_i hsign
      split at h
      · rename_i hquote
        split at h
        · cases h
        · rename_i hliteral
          cases h
          exact .literal hquote ((splitLiteral_eq_none_iff hquote).1 hliteral)
      · rename_i hquote
        split at h
        · cases h
        · rename_i hstart
          cases h
          refine .character (fun hstarts => ?_) hblank hcomment
          rcases startsToken_iff.1 hstarts with hsign' | hquote' | hstart'
          · exact hsign' hsign
          · exact hquote hquote'
          · exact hstart hstart'
  · intro h
    cases h with
    | character hstart =>
      rw [startsToken_iff, not_or, not_or, not_not] at hstart
      simp [splitLexeme, hstart]
    | literal hquote hopen =>
      obtain ⟨-, -, -, -, hsign⟩ := quote_ne hquote
      simp [splitLexeme, hsign, hquote, (splitLiteral_eq_none_iff hquote).2 hopen]

end Spellings

section Pieces

variable {before cs gap rest : List Char} {c : Char} {ps : List Piece}

theorem joined_cons (p : Piece) (ps : List Piece) (rest : List Char) :
    joined (p :: ps) ++ rest = p.gap ++ (p.spelling ++ (joined ps ++ rest)) := by
  simp [joined, Piece.text]

theorem tokensFrom_of_isGap (h : IsGap rest gap) :
    tokensFrom (.behind before) (gap ++ rest) = tokensFrom (.behind (before ++ gap)) rest := by
  rw [tokensFrom_of_gap gap (splitTrivia_of_isGap h), Position.after_behind]

theorem tokensFrom_of_spelled {k : Token} {spelling : List Char} (h : Spelled rest k spelling) :
    tokensFrom (.behind before) (spelling ++ rest) =
      (tokensFrom (.behind (before ++ spelling)) rest).map fun stream =>
        ⟨⟨k, .behind before⟩ :: stream.tokens, stream.finish⟩ := by
  obtain ⟨c, tail, rfl, hblank, hhyphen, hlex⟩ := splitLexeme_of_spelled h
  have hsplit := splitTrivia_lexeme (tail ++ rest) hblank fun h => hhyphen h.1
  have hhere : (Position.behind before).after [] = .behind before := rfl
  rw [List.cons_append, tokensFrom_eq, hsplit]
  simp only [hlex, hhere, Position.after_behind]
  rfl

/-- The pieces at the start of a text give their tokens, and the rest decides on what is next. -/
theorem tokensFrom_of_cut (h : Cut rest ps) :
    tokensFrom (.behind before) (joined ps ++ rest) =
      (tokensFrom (.behind (before ++ joined ps)) rest).map fun stream =>
        ⟨located before ps ++ stream.tokens, stream.finish⟩ := by
  induction ps generalizing before with
  | nil =>
    have hnil : joined [] = [] := rfl
    rw [hnil, List.append_nil, List.nil_append]
    cases tokensFrom (.behind before) rest <;> rfl
  | cons p ps ih =>
    obtain ⟨hgap, hspelled, hcut⟩ := h
    have hbefore : before ++ joined (p :: ps) =
        before ++ p.gap ++ p.spelling ++ joined ps := by
      simp [joined, Piece.text]
    rw [joined_cons, tokensFrom_of_isGap hgap, tokensFrom_of_spelled hspelled, ih hcut, hbefore,
      located, Piece.text, ← List.append_assoc before p.gap]
    cases tokensFrom (.behind (before ++ p.gap ++ p.spelling ++ joined ps)) rest <;> rfl

/-- Pieces and a last gap give the tokens of the pieces. -/
theorem tokens_of_isGap (hcut : Cut gap ps) (hgap : IsGap [] gap) :
    tokens (joined ps ++ gap) = .ok ⟨located [] ps, .behind (joined ps ++ gap)⟩ := by
  have hlast : tokensFrom (.behind (joined ps)) gap = .ok ⟨[], .behind (joined ps ++ gap)⟩ := by
    have hend : tokensFrom (.behind (joined ps)) (gap ++ []) =
        tokensFrom (.behind (joined ps ++ gap)) [] := tokensFrom_of_isGap hgap
    rw [List.append_nil] at hend
    rw [hend, tokensFrom_eq]
    rfl
  rw [tokens, ← Position.behind_nil, tokensFrom_of_cut hcut, List.nil_append, hlast, Except.map,
    List.append_nil]

theorem Blamed.stops {fault : SyntaxFault} (h : Blamed c rest fault) :
    Text.isBlank c = false ∧ ¬ (c = '-' ∧ rest.head? = some '-') := by
  cases h with
  | character _ hblank hcomment => exact ⟨hblank, hcomment⟩
  | literal hquote _ =>
    obtain ⟨hblank, hhyphen, -⟩ := quote_ne hquote
    exact ⟨hblank, fun h => hhyphen h.1⟩

/-- Behind pieces and a gap the fault is where the blamed character stands. -/
theorem tokens_of_blamed {fault : SyntaxFault} (hcut : Cut (gap ++ c :: rest) ps)
    (hgap : IsGap (c :: rest) gap) (hblamed : Blamed c rest fault) :
    tokens (joined ps ++ (gap ++ c :: rest)) = .error ⟨.behind (joined ps ++ gap), fault⟩ := by
  obtain ⟨hblank, hcomment⟩ := hblamed.stops
  have hlex := (splitLexeme_eq_error_iff hblank hcomment).2 hblamed
  have hfault : tokensFrom (.behind (joined ps ++ gap)) (c :: rest) =
      .error ⟨.behind (joined ps ++ gap), fault⟩ := by
    rw [tokensFrom_eq, splitTrivia_lexeme rest hblank hcomment]
    simp only [hlex]
    rfl
  rw [tokens, ← Position.behind_nil, tokensFrom_of_cut hcut, List.nil_append,
    tokensFrom_of_isGap hgap, hfault, Except.map]

/-- Every text is pieces and a last gap, or pieces, a gap and a character that is blamed. -/
theorem exists_pieces (cs : List Char) :
    ∃ ps tail, cs = joined ps ++ tail ∧ Cut tail ps ∧
      (IsGap [] tail ∨ ∃ gap c rest fault, tail = gap ++ c :: rest ∧ IsGap (c :: rest) gap ∧
        Blamed c rest fault) := by
  fun_induction tokensFrom .start cs with
  | case1 p cs here hcut =>
    have hgap := isGap_splitTrivia cs
    have happend := splitTrivia_append false cs
    rw [hcut] at hgap happend
    rw [List.append_nil] at happend
    rw [happend] at hgap
    exact ⟨[], cs, rfl, trivial, Or.inl hgap⟩
  | case2 p cs here c tail hcut fault hlex =>
    have hgap := isGap_splitTrivia cs
    have happend := splitTrivia_append false cs
    rw [hcut] at hgap happend
    obtain ⟨hblank, hcomment⟩ := stops_splitTrivia hcut
    exact ⟨[], cs, rfl, trivial, Or.inr ⟨_, c, tail, fault, happend.symm, hgap,
      (splitLexeme_eq_error_iff hblank hcomment).1 hlex⟩⟩
  | case3 p cs here c tail hcut lexeme hlex ih =>
    obtain ⟨ps, rest, hrest, hps, hend⟩ := ih
    have hgap := isGap_splitTrivia cs
    have happend := splitTrivia_append false cs
    have hspelled := spelled_of_splitLexeme hlex
    have hspelling := (splitLexeme_append hlex).1
    rw [hcut, ← hspelling, hrest] at hgap happend
    rw [hrest] at hspelled
    refine ⟨⟨(splitTrivia false cs).1, lexeme.token, lexeme.spelling⟩ :: ps, rest, ?_,
      ⟨hgap, hspelled, hps⟩, hend⟩
    rw [joined_cons]
    exact happend.symm

end Pieces

/-- A text is cut into tokens exactly if it is a row of gaps and spellings with a gap at the end,
and then the tokens stand where they are spelled. It is not cut exactly if such a row and a gap
stand before a character that starts no token or a literal that is left open, and then the fault
stands at that character. -/
theorem tokens_stand_where_spelled (source : List Char) :
    (∀ stream, tokens source = .ok stream ↔
      ∃ ps gap, source = joined ps ++ gap ∧ Cut gap ps ∧ IsGap [] gap ∧
        stream = ⟨located [] ps, .behind source⟩) ∧
      ∀ fault, tokens source = .error fault ↔
        ∃ ps gap c rest, source = joined ps ++ (gap ++ c :: rest) ∧
          Cut (gap ++ c :: rest) ps ∧ IsGap (c :: rest) gap ∧ Blamed c rest fault.fault ∧
          fault.position = .behind (joined ps ++ gap) := by
  obtain ⟨ps, tail, rfl, hcut, hend⟩ := exists_pieces source
  constructor
  · intro stream
    constructor
    · intro h
      rcases hend with hgap | ⟨gap, c, rest, fault, rfl, hgap, hblamed⟩
      · rw [tokens_of_isGap hcut hgap] at h
        exact ⟨ps, tail, rfl, hcut, hgap, (Except.ok.inj h).symm⟩
      · rw [tokens_of_blamed hcut hgap hblamed] at h
        cases h
    · rintro ⟨ps', gap, hsource, hcut', hgap, rfl⟩
      rw [hsource]
      exact tokens_of_isGap hcut' hgap
  · intro fault
    constructor
    · intro h
      rcases hend with hgap | ⟨gap, c, rest, fault', rfl, hgap, hblamed⟩
      · rw [tokens_of_isGap hcut hgap] at h
        cases h
      · rw [tokens_of_blamed hcut hgap hblamed] at h
        obtain rfl := Except.error.inj h
        exact ⟨ps, gap, c, rest, rfl, hcut, hgap, hblamed, rfl⟩
    · rintro ⟨ps', gap, c, rest, hsource, hcut', hgap, hblamed, hposition⟩
      rw [hsource, tokens_of_blamed hcut' hgap hblamed, ← hposition]

end Lexing

end SchemaLineage

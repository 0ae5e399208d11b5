import SchemaLineage.Source.Lexing
import SchemaLineage.Proofs.Cases
import Mathlib.Data.List.TakeWhile

/-!
The pieces that a text is cut into. A comment in a gap ends where its line ends, and a gap that
starts with one goes on as the gap of the next line does. A lexeme is a sign, a literal or a name.
The tokens of a text are those of its first lexeme and of what is left behind it, and what is cut as
a name is a name.
-/
namespace SchemaLineage.Lexing

/-- A letter or an underscore, and then letters, digits and underscores. -/
def isName : List Char → Bool
  | [] => false
  | c :: cs => isNameStart c && cs.all isNamePart

/-- No name goes on at the start of the text. -/
def EndsName : List Char → Prop
  | [] => True
  | c :: _ => isNamePart c = false

/-- A word is split off where the next character does not belong to it. -/
theorem takeWhile_append_dropWhile_append {p : Char → Bool} {word rest : List Char}
    (hword : ∀ c ∈ word, p c = true) (hrest : ∀ c ∈ rest.head?, p c = false) :
    (word ++ rest).takeWhile p = word ∧ (word ++ rest).dropWhile p = rest := by
  rw [List.takeWhile_append_of_pos hword, List.dropWhile_append_of_pos hword]
  cases rest with
  | nil => simp
  | cons c rest =>
    have hc : ¬ p c = true := by simp [hrest c rfl]
    rw [List.takeWhile_cons_of_neg hc, List.dropWhile_cons_of_neg hc, List.append_nil]
    exact ⟨rfl, rfl⟩

theorem EndsName.isNamePart_head {cs : List Char} (h : EndsName cs) :
    ∀ c ∈ cs.head?, isNamePart c = false := by
  cases cs with
  | nil => simp
  | cons c cs => simpa [EndsName] using h

theorem isNamePart_of_isNameStart {c : Char} (h : isNameStart c = true) : isNamePart c = true := by
  simp only [isNameStart, isNamePart, Char.isAlphanum, Bool.or_eq_true] at *
  rcases h with h | h
  · exact Or.inl (Or.inl h)
  · exact Or.inr h

theorem isNamePart_of_mem_name {c d : Char} {cs : List Char} (hc : isNameStart c = true)
    (hd : d ∈ c :: cs.takeWhile isNamePart) : isNamePart d = true := by
  rcases List.mem_cons.1 hd with rfl | hd
  · exact isNamePart_of_isNameStart hc
  · exact List.mem_takeWhile_imp hd

section Characters

def signs : List (Char × Token) :=
  [('=', .equals), ('|', .pipe), (',', .comma), ('?', .question), ('*', .star), ('(', .leftParen),
    (')', .rightParen), ('\x7b', .leftBrace), ('\x7d', .rightBrace)]

private theorem mem_cons_of_ite {c d : Char} {k l : Token} {rest : Option Token}
    {later : List (Char × Token)} (h : (if c = d then some l else rest) = some k)
    (hlater : rest = some k → (c, k) ∈ later) : (c, k) ∈ (d, l) :: later := by
  split at h
  · rename_i hc
    cases h
    rw [hc]
    exact List.mem_cons_self
  · exact List.mem_cons_of_mem _ (hlater h)

theorem mem_signs {c : Char} {k : Token} (h : Token.ofSign? c = some k) : (c, k) ∈ signs := by
  unfold Token.ofSign? at h
  unfold signs
  iterate 9 refine mem_cons_of_ite h fun h => ?_
  cases h

theorem name_not_mem_signs (c : Char) (s : String) : (c, .name s) ∉ signs := by
  simp [signs]

/-- No sign is taken for anything else. -/
theorem sign_ne {c : Char} {k : Token} (h : Token.ofSign? c = some k) :
    Text.isBlank c = false ∧ isQuote c = false ∧ c ≠ '-' ∧ c ≠ '\n' := by
  have hall : ∀ p ∈ signs,
      Text.isBlank p.1 = false ∧ isQuote p.1 = false ∧ p.1 ≠ '-' ∧ p.1 ≠ '\n' := by decide
  exact hall (c, k) (mem_signs h)

theorem toNat_of_isNamePart {c : Char} (h : isNamePart c = true) :
    48 ≤ c.toNat ∧ c.toNat ≤ 122 := by
  have hupper : c.isUpper = true → 65 ≤ c.toNat ∧ c.toNat ≤ 90 := of_decide_eq_true
  have hlower : c.isLower = true → 97 ≤ c.toNat ∧ c.toNat ≤ 122 := by
    intro h
    obtain ⟨hlow, hhigh⟩ := Bool.and_eq_true_iff.1 h
    exact ⟨of_decide_eq_true hlow, of_decide_eq_true hhigh⟩
  have hdigit : c.isDigit = true → 48 ≤ c.toNat ∧ c.toNat ≤ 57 := by
    intro h
    obtain ⟨hlow, hhigh⟩ := Bool.and_eq_true_iff.1 h
    exact ⟨of_decide_eq_true hlow, of_decide_eq_true hhigh⟩
  have hparts : (((c.isUpper || c.isLower) || c.isDigit) || c == '_') = true := h
  rw [Bool.or_eq_true, Bool.or_eq_true, Bool.or_eq_true, beq_iff_eq] at hparts
  rcases hparts with ((h | h) | h) | rfl
  · have hrange := hupper h
    omega
  · have hrange := hlower h
    omega
  · have hrange := hdigit h
    omega
  · decide

/-- A character of a name is no blank, no quote, no hyphen and no line break. -/
theorem namePart_ne {c : Char} (h : isNamePart c = true) :
    Text.isBlank c = false ∧ isQuote c = false ∧ c ≠ '-' ∧ c ≠ '\n' := by
  obtain ⟨hlow, hhigh⟩ := toNat_of_isNamePart h
  have hne : ∀ d : Char, d.toNat < 48 → c ≠ d := by
    rintro d hd rfl
    omega
  refine ⟨?_, ?_, hne _ (by decide), hne _ (by decide)⟩
  · by_contra hblank
    simp only [Text.isBlank, Bool.not_eq_false, Bool.or_eq_true, Bool.and_eq_true,
      decide_eq_true_eq, beq_iff_eq] at hblank
    omega
  · rw [isQuote, Bool.or_eq_false_iff]
    exact ⟨beq_false_of_ne (hne _ (by decide)), beq_false_of_ne (hne _ (by decide))⟩

/-- A quote is no blank, no hyphen, no line break, no backslash and no sign. -/
theorem quote_ne {c : Char} (h : isQuote c = true) :
    Text.isBlank c = false ∧ c ≠ '-' ∧ c ≠ '\n' ∧ c ≠ '\\' ∧ Token.ofSign? c = none := by
  simp only [isQuote, Bool.or_eq_true, beq_iff_eq] at h
  rcases h with rfl | rfl <;> decide

theorem ofSign?_eq_none_of_isNameStart {c : Char} (h : isNameStart c = true) :
    Token.ofSign? c = none := by
  cases hsign : Token.ofSign? c with
  | none => rfl
  | some k =>
    have hall : ∀ p ∈ signs, isNameStart p.1 = false := by decide
    rw [hall (c, k) (mem_signs hsign)] at h
    cases h

end Characters

section Gaps

/-- From within a comment the gap goes on as it does from the end of the line. -/
theorem splitTrivia_true (cs : List Char) :
    splitTrivia true cs =
      (cs.takeWhile (· ≠ '\n') ++ (splitTrivia false (cs.dropWhile (· ≠ '\n'))).1,
        (splitTrivia false (cs.dropWhile (· ≠ '\n'))).2) := by
  induction cs with
  | nil => rfl
  | cons c cs ih =>
    by_cases hc : c = '\n'
    · subst hc
      rw [List.takeWhile_cons_of_neg (by simp), List.dropWhile_cons_of_neg (by simp)]
      simp [splitTrivia, Text.isBlank]
    · rw [List.takeWhile_cons_of_pos (by simpa using hc),
        List.dropWhile_cons_of_pos (by simpa using hc)]
      have htrue : (c != '\n') = true := by simpa using hc
      rw [splitTrivia, if_pos rfl, htrue, ih]
      rfl

theorem splitTrivia_blank {c : Char} (h : Text.isBlank c = true) (cs : List Char) :
    splitTrivia false (c :: cs) = (c :: (splitTrivia false cs).1, (splitTrivia false cs).2) := by
  simp [splitTrivia, h]

theorem splitTrivia_comment (cs : List Char) :
    splitTrivia false ('-' :: '-' :: cs) =
      ('-' :: '-' :: (cs.takeWhile (· ≠ '\n') ++ (splitTrivia false (cs.dropWhile (· ≠ '\n'))).1),
        (splitTrivia false (cs.dropWhile (· ≠ '\n'))).2) := by
  have hblank : ¬ Text.isBlank '-' = true := by decide
  have hcomment : splitTrivia true ('-' :: cs) =
      ('-' :: (splitTrivia true cs).1, (splitTrivia true cs).2) := rfl
  rw [splitTrivia, if_neg Bool.false_ne_true, if_neg hblank, if_pos ⟨rfl, rfl⟩, hcomment,
    splitTrivia_true]

/-- What is neither blank nor a comment ends a gap. -/
theorem splitTrivia_lexeme {c : Char} (cs : List Char) (hblank : Text.isBlank c = false)
    (hcomment : ¬ (c = '-' ∧ cs.head? = some '-')) :
    splitTrivia false (c :: cs) = ([], c :: cs) := by
  rw [splitTrivia, if_neg Bool.false_ne_true, if_neg (by simp [hblank]), if_neg hcomment]

end Gaps

section Tokens

theorem tokensFrom_eq (p : Position) (cs : List Char) :
    tokensFrom p cs =
      match (splitTrivia false cs).2 with
      | [] => .ok ⟨[], p.after (splitTrivia false cs).1⟩
      | c :: tail =>
        match splitLexeme c tail with
        | .error fault => .error ⟨p.after (splitTrivia false cs).1, fault⟩
        | .ok lexeme => do
          let stream ← tokensFrom ((p.after (splitTrivia false cs).1).after lexeme.spelling)
            lexeme.rest
          return ⟨⟨lexeme.token, p.after (splitTrivia false cs).1⟩ :: stream.tokens,
            stream.finish⟩ := by
  rw [tokensFrom]
  split
  · rename_i hcut
    rw [hcut]
  · rename_i hcut
    rw [hcut]
    split
    · rename_i hlex
      simp only [hlex]
    · rename_i hlex
      simp only [hlex]

/-- The position moves over a gap, the tokens stay. -/
theorem tokensFrom_of_gap (gap : List Char) {cs rest : List Char}
    (h : splitTrivia false cs =
      (gap ++ (splitTrivia false rest).1, (splitTrivia false rest).2)) (p : Position) :
    tokensFrom p cs = tokensFrom (p.after gap) rest := by
  have hafter : p.after (gap ++ (splitTrivia false rest).1) =
      (p.after gap).after (splitTrivia false rest).1 := List.foldl_append
  rw [tokensFrom_eq, tokensFrom_eq (p.after gap), h, hafter]

theorem splitLexeme_sign {c : Char} {k : Token} (h : Token.ofSign? c = some k) (cs : List Char) :
    splitLexeme c cs = .ok ⟨k, [c], cs⟩ := by
  unfold splitLexeme
  rw [h]

/-- A name is cut off where no name goes on. -/
theorem splitLexeme_name {c : Char} {word rest : List Char} (h : isName (c :: word) = true)
    (hend : EndsName rest) :
    splitLexeme c (word ++ rest) = .ok ⟨.name (String.ofList (c :: word)), c :: word, rest⟩ := by
  rw [isName, Bool.and_eq_true] at h
  obtain ⟨-, hquote, -⟩ := namePart_ne (isNamePart_of_isNameStart h.1)
  obtain ⟨htake, hdrop⟩ :=
    takeWhile_append_dropWhile_append (List.all_eq_true.1 h.2) hend.isNamePart_head
  unfold splitLexeme
  rw [ofSign?_eq_none_of_isNameStart h.1]
  simp only [hquote, h.1, htake, hdrop]
  rfl

/-- A lexeme is a sign, a literal or a name. -/
theorem splitLexeme_cases {c : Char} {cs : List Char} {l : Lexeme}
    (h : splitLexeme c cs = .ok l) :
    (∃ k, Token.ofSign? c = some k ∧ l = ⟨k, [c], cs⟩) ∨
      (isQuote c = true ∧ ∃ q, splitLiteral c cs = some q ∧
        l = ⟨.string (String.ofList q.value), c :: q.spelling, q.rest⟩) ∨
      isNameStart c = true ∧
        l = ⟨.name (String.ofList (c :: cs.takeWhile isNamePart)), c :: cs.takeWhile isNamePart,
          cs.dropWhile isNamePart⟩ := by
  unfold splitLexeme at h
  split at h
  · rename_i k hsign
    cases h
    exact Or.inl ⟨k, hsign, rfl⟩
  · split at h
    · rename_i hquote
      split at h
      · rename_i q hliteral
        cases h
        exact Or.inr (Or.inl ⟨hquote, q, hliteral, rfl⟩)
      · cases h
    · split at h
      · rename_i hstart
        cases h
        exact Or.inr (Or.inr ⟨hstart, rfl⟩)
      · cases h

theorem isName_of_splitLexeme {c : Char} {cs : List Char} {l : Lexeme}
    (h : splitLexeme c cs = .ok l) {s : String} (hs : l.token = .name s) :
    isName s.toList = true := by
  rcases splitLexeme_cases h with ⟨k, hsign, rfl⟩ | ⟨-, q, -, rfl⟩ | ⟨hstart, rfl⟩
  · obtain rfl : k = .name s := hs
    exact absurd (mem_signs hsign) (name_not_mem_signs c s)
  · cases hs
  · cases hs
    rw [String.toList_ofList, isName, hstart, List.all_takeWhile]
    rfl

/-- What is cut as a name is a name. -/
theorem isName_of_tokensFrom {p : Position} {cs : List Char} {stream : TokenStream}
    (h : tokensFrom p cs = .ok stream) {t : LocatedToken} (ht : t ∈ stream.tokens) {s : String}
    (hs : t.token = .name s) : isName s.toList = true := by
  fun_induction tokensFrom p cs generalizing stream with
  | case1 =>
    cases h
    simp at ht
  | case2 => cases h
  | case3 p cs here c tail hcut lexeme hlex =>
    rename_i ih
    obtain ⟨rest, hrest, h⟩ := Except.exists_of_bind h
    cases h
    rcases List.mem_cons.1 ht with rfl | ht
    · exact isName_of_splitLexeme hlex hs
    · exact ih hrest ht

end Tokens

end SchemaLineage.Lexing

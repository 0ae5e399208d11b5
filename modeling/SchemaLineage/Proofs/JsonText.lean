import SchemaLineage.Document.Basic
import SchemaLineage.Json.Reading
import SchemaLineage.Proofs.FixedDigits

/-!
Reading back what was written. A string is cut where it was closed, and each of its characters is
decoded from its own spelling. The text of a document is cut into the tokens of the document, with
the blanks of the layout dropped, and these are put together to the value that was written. Main
statement: the JSON text of every document is read as the JSON value of the document.
-/
namespace SchemaLineage

namespace Json

section Strings

open Text.Hexadecimal

theorem exists_fixed_four (n : Nat) : ∃ a b c d, fixed 4 n = [a, b, c, d] :=
  ⟨_, _, _, _, rfl⟩

theorem ne_of_mem_fixed : ∀ n < 0x20, ∀ c ∈ fixed 4 n, c ≠ '"' ∧ c ≠ '\\' := by
  have hall : ∀ n < 0x20, (fixed 4 n).all (fun c => c ≠ '"' ∧ c ≠ '\\') = true := by decide
  intro n hn c hc
  simpa using List.all_eq_true.1 (hall n hn) c hc

/-- A character is spelled by a letter after a backslash, by its code, or by itself. -/
theorem escaped_cases (c : Char) :
    (∃ d, escaped c = ['\\', d] ∧ d ≠ 'u' ∧ unescape? d = some c) ∨
      (c.toNat < 0x20 ∧ escaped c = '\\' :: 'u' :: fixed 4 c.toNat) ∨
      (escaped c = [c] ∧ c ≠ '"' ∧ c ≠ '\\' ∧ ¬ c.toNat < 0x20) := by
  fun_cases escaped c with
  | case1 hc => exact Or.inl ⟨'"', rfl, by decide, by rw [hc]; rfl⟩
  | case2 _ hc => exact Or.inl ⟨'\\', rfl, by decide, by rw [hc]; rfl⟩
  | case3 _ _ hc => exact Or.inl ⟨'b', rfl, by decide, by rw [hc]; rfl⟩
  | case4 _ _ _ hc => exact Or.inl ⟨'f', rfl, by decide, by rw [hc]; rfl⟩
  | case5 _ _ _ _ hc => exact Or.inl ⟨'n', rfl, by decide, by rw [hc]; rfl⟩
  | case6 _ _ _ _ _ hc => exact Or.inl ⟨'r', rfl, by decide, by rw [hc]; rfl⟩
  | case7 _ _ _ _ _ _ hc => exact Or.inl ⟨'t', rfl, by decide, by rw [hc]; rfl⟩
  | case8 _ _ _ _ _ _ _ hlow => exact Or.inr (Or.inl ⟨hlow, rfl⟩)
  | case9 hquote hslash _ _ _ _ _ hhigh => exact Or.inr (Or.inr ⟨rfl, hquote, hslash, hhigh⟩)

theorem splitString_close (cs : List Char) : splitString ('"' :: cs) = some ([], cs) := by
  rw [splitString.eq_def]
  rfl

theorem splitString_backslash (d : Char) (cs : List Char) :
    splitString ('\\' :: d :: cs) =
      (splitString cs).map fun p => ('\\' :: d :: p.1, p.2) := by
  rw [splitString.eq_def]
  rfl

theorem splitString_ordinary {xs cs : List Char} (h : ∀ c ∈ xs, c ≠ '"' ∧ c ≠ '\\') :
    splitString (xs ++ cs) = (splitString cs).map fun p => (xs ++ p.1, p.2) := by
  induction xs with
  | nil => simp
  | cons x xs ih =>
    obtain ⟨hquote, hslash⟩ := h x List.mem_cons_self
    rw [List.cons_append, splitString.eq_def]
    simp only [hquote, hslash, if_false]
    rw [ih fun c hc => h c (List.mem_cons_of_mem _ hc), Option.map_map]
    rfl

/-- No string ends within the spelling of a character. -/
theorem splitString_escaped (c : Char) (cs : List Char) :
    splitString (escaped c ++ cs) = (splitString cs).map fun p => (escaped c ++ p.1, p.2) := by
  rcases escaped_cases c with ⟨d, heq, -, -⟩ | ⟨hlow, heq⟩ | ⟨heq, hquote, hslash, -⟩
  · rw [heq]
    exact splitString_backslash d cs
  · rw [heq, List.cons_append, List.cons_append, splitString_backslash,
      splitString_ordinary (ne_of_mem_fixed _ hlow), Option.map_map]
    rfl
  · rw [heq]
    exact splitString_ordinary (by simp [hquote, hslash])

theorem splitString_quoted (cs rest : List Char) :
    splitString (cs.flatMap escaped ++ '"' :: rest) = some (cs.flatMap escaped, rest) := by
  induction cs with
  | nil => exact splitString_close rest
  | cons c cs ih =>
    rw [List.flatMap_cons, List.append_assoc, splitString_escaped, ih]
    rfl

/-- The spelling of a character is decoded to the character. -/
theorem decode?_escaped (c : Char) (cs : List Char) :
    decode? (escaped c ++ cs) = (decode? cs).map (c :: ·) := by
  rcases escaped_cases c with ⟨d, heq, hu, hd⟩ | ⟨hlow, heq⟩ | ⟨heq, -, hslash, hhigh⟩
  · rw [heq, List.cons_append, List.cons_append, List.nil_append,
      decode?.eq_3 _ _ fun _ _ _ _ _ heq => absurd heq hu, hd]
  · have hread := read?_fixed_of_lt (show c.toNat < 16 ^ 4 by omega)
    have hlower : ¬ (0xD800 ≤ c.toNat ∧ c.toNat < 0xDC00) := by omega
    have hupper : ¬ (0xDC00 ≤ c.toNat ∧ c.toNat < 0xE000) := by omega
    obtain ⟨d₁, d₂, d₃, d₄, hdigits⟩ := exists_fixed_four c.toNat
    rw [hdigits] at heq hread
    rw [heq]
    simp only [List.cons_append, List.nil_append]
    rw [decode?.eq_2, hread]
    simp only [hlower, hupper, if_false, Char.ofNat_toNat]
  · have hplain : ¬ (c = '\\' ∨ c.toNat < 0x20) := by simp only [hslash, hhigh, or_self,
      not_false_eq_true]
    rw [heq, List.cons_append, List.nil_append, decode?.eq_4 _ _ (by simp [hslash])
      (by simp [hslash]), if_neg hplain]

theorem decode?_flatMap_escaped (cs : List Char) : decode? (cs.flatMap escaped) = some cs := by
  induction cs with
  | nil => rfl
  | cons c cs ih =>
    rw [List.flatMap_cons, decode?_escaped, ih]
    rfl

end Strings

section Tokens

variable {c : Char} {cs rest : List Char} {token : Token} {value : Json}

/-- No word goes on into this text. -/
def EndsWord (cs : List Char) : Prop :=
  ∀ c, cs.head? = some c → isAtomPart c = false

theorem endsWord_lineBreak (depth : Nat) (rest : List Char) :
    EndsWord (lineBreak depth ++ rest) := by
  intro c hc
  obtain rfl : '\n' = c := by simpa [lineBreak] using hc
  rfl

theorem endsWord_elementChars (depth : Nat) (xs : List Json) (h : EndsWord rest) :
    EndsWord (elementChars depth xs ++ rest) := by
  cases xs with
  | nil => simpa [elementChars] using h
  | cons x xs =>
    intro c hc
    obtain rfl : ',' = c := by simpa [elementChars] using hc
    rfl

theorem endsWord_memberChars (depth : Nat) (members : List (String × Json)) (h : EndsWord rest) :
    EndsWord (memberChars depth members ++ rest) := by
  cases members with
  | nil => simpa [memberChars] using h
  | cons member members =>
    intro c hc
    obtain rfl : ',' = c := by simpa [memberChars] using hc
    rfl

theorem tokens_nil : tokens [] = some [] := by
  rw [tokens]

theorem tokens_blank (hc : isBlank c = true) (cs : List Char) : tokens (c :: cs) = tokens cs := by
  rw [tokens, if_pos hc]

theorem tokens_cons (hc : isBlank c = false) (h : splitToken c cs = some (token, rest)) :
    tokens (c :: cs) = (tokens rest).map (token :: ·) := by
  rw [tokens, if_neg (by simp [hc])]
  split
  · rename_i hnone
    rw [hnone] at h
    cases h
  · rename_i token' rest' hsome
    rw [hsome] at h
    cases h
    rfl

theorem tokens_sign (hc : isBlank c = false) (hsign : sign? c = some token) (cs : List Char) :
    tokens (c :: cs) = (tokens cs).map (token :: ·) :=
  tokens_cons hc (by simp only [splitToken, hsign])

theorem tokens_lineBreak (depth : Nat) (cs : List Char) :
    tokens (lineBreak depth ++ cs) = tokens cs := by
  rw [lineBreak, List.cons_append, tokens_blank rfl]
  induction 2 * depth with
  | zero => rfl
  | succ n ih => rw [List.replicate_succ, List.cons_append, tokens_blank rfl, ih]

theorem tokens_quoted (s : String) (cs : List Char) :
    tokens (quoted s ++ cs) = (tokens cs).map (.text s :: ·) := by
  have hsplit : splitToken '"' (s.toList.flatMap escaped ++ '"' :: cs) = some (.text s, cs) := by
    simp [splitToken, sign?, splitString_quoted, decode?_flatMap_escaped]
  have htext : quoted s ++ cs = '"' :: (s.toList.flatMap escaped ++ '"' :: cs) := by
    simp [quoted]
  rw [htext, tokens_cons rfl hsplit]

theorem tokens_word (hblank : isBlank c = false) (hsign : sign? c = none) (hquote : c ≠ '"')
    (hword : ∀ d ∈ cs, isAtomPart d = true) (hatom : atom? (c :: cs) = some value)
    (hrest : EndsWord rest) : tokens (c :: cs ++ rest) = (tokens rest).map (.atom value :: ·) := by
  have htake : (cs ++ rest).takeWhile isAtomPart = cs := by
    rw [List.takeWhile_append_of_pos hword]
    cases rest with
    | nil => simp
    | cons d rest => simp [hrest d rfl]
  have hdrop : (cs ++ rest).dropWhile isAtomPart = rest := by
    rw [List.dropWhile_append_of_pos hword]
    cases rest with
    | nil => rfl
    | cons d rest => simp [hrest d rfl]
  refine tokens_cons hblank ?_
  rw [splitToken, hsign]
  simp only [hquote, if_false]
  rw [List.append_eq, htake, hdrop, hatom]
  rfl

theorem tokens_bool (b : Bool) (hrest : EndsWord rest) :
    tokens ((if b then "true" else "false").toList ++ rest) =
      (tokens rest).map (.atom (.bool b) :: ·) := by
  cases b with
  | false =>
    exact tokens_word (c := 'f') rfl rfl (by decide) (List.all_eq_true.1 rfl) rfl hrest
  | true =>
    exact tokens_word (c := 't') rfl rfl (by decide) (List.all_eq_true.1 rfl) rfl hrest

/-- A key with its colon. -/
theorem tokens_key (key : String) (cs : List Char) :
    tokens (quoted key ++ ':' :: ' ' :: cs) =
      (tokens cs).map fun ts => .text key :: .colon :: ts := by
  rw [tokens_quoted, tokens_sign (c := ':') rfl rfl, tokens_blank rfl, Option.map_map]
  rfl

/-- A closing bracket on a line of its own. -/
theorem tokens_close (depth : Nat) (hc : isBlank c = false) (hsign : sign? c = some token)
    (rest : List Char) :
    tokens (lineBreak depth ++ c :: rest) = (tokens rest).map (token :: ·) := by
  rw [tokens_lineBreak, tokens_sign hc hsign]

end Tokens

end Json

namespace Document

mutual

def tokens : Document → List Json.Token
  | text s => [.text s]
  | flag b => [.atom (.bool b)]
  | list [] => [.openArray, .closeArray]
  | list (x :: xs) => .openArray :: (tokens x ++ (elementTokens xs ++ [.closeArray]))
  | record [] => [.openObject, .closeObject]
  | record ((key, x) :: fields) =>
    .openObject :: .text key :: .colon :: (tokens x ++ (fieldTokens fields ++ [.closeObject]))
  | unit tag => [.text tag]
  | variant tag content =>
    .openObject :: .text tag :: .colon :: (tokens content ++ [.closeObject])

def elementTokens : List Document → List Json.Token
  | [] => []
  | x :: xs => .comma :: (tokens x ++ elementTokens xs)

def fieldTokens : List (String × Document) → List Json.Token
  | [] => []
  | (key, x) :: fields => .comma :: .text key :: .colon :: (tokens x ++ fieldTokens fields)

end

section Cutting

open Json (EndsWord)

mutual

/-- The text of a document is cut into its tokens. -/
theorem tokens_chars (d : Document) (depth : Nat) {rest : List Char} (hrest : EndsWord rest) :
    Json.tokens (Json.chars depth d.toJson ++ rest) =
      (Json.tokens rest).map (d.tokens ++ ·) := by
  match d with
  | text s => exact Json.tokens_quoted s rest
  | flag b => exact Json.tokens_bool b hrest
  | list [] =>
    have htext : Json.chars depth (list []).toJson ++ rest = '[' :: ']' :: rest := rfl
    rw [htext, Json.tokens_sign (c := '[') rfl rfl, Json.tokens_sign (c := ']') rfl rfl,
      Option.map_map]
    rfl
  | list (x :: xs) =>
    have htext : Json.chars depth (list (x :: xs)).toJson ++ rest =
        '[' :: (Json.lineBreak (depth + 1) ++ (Json.chars (depth + 1) x.toJson ++
          (Json.elementChars (depth + 1) (elementsToJson xs) ++
            (Json.lineBreak depth ++ ']' :: rest)))) := by
      simp [toJson, elementsToJson, Json.chars]
    have hclose := Json.endsWord_lineBreak depth (']' :: rest)
    rw [htext, Json.tokens_sign (c := '[') rfl rfl, Json.tokens_lineBreak,
      tokens_chars x (depth + 1) (Json.endsWord_elementChars _ _ hclose),
      tokens_elementChars xs (depth + 1) hclose, Json.tokens_close depth rfl rfl]
    simp [tokens, Function.comp_def]
  | record [] =>
    have htext : Json.chars depth (record []).toJson ++ rest = '\x7b' :: '\x7d' :: rest := rfl
    rw [htext, Json.tokens_sign (c := '\x7b') rfl rfl, Json.tokens_sign (c := '\x7d') rfl rfl,
      Option.map_map]
    rfl
  | record ((key, x) :: fields) =>
    have htext : Json.chars depth (record ((key, x) :: fields)).toJson ++ rest =
        '\x7b' :: (Json.lineBreak (depth + 1) ++ (Json.quoted key ++ ':' :: ' ' ::
          (Json.chars (depth + 1) x.toJson ++
            (Json.memberChars (depth + 1) (fieldsToJson fields) ++
              (Json.lineBreak depth ++ '\x7d' :: rest))))) := by
      simp [toJson, fieldsToJson, Json.chars]
    have hclose := Json.endsWord_lineBreak depth ('\x7d' :: rest)
    rw [htext, Json.tokens_sign (c := '\x7b') rfl rfl, Json.tokens_lineBreak, Json.tokens_key,
      tokens_chars x (depth + 1) (Json.endsWord_memberChars _ _ hclose),
      tokens_memberChars fields (depth + 1) hclose, Json.tokens_close depth rfl rfl]
    simp [tokens, Function.comp_def]
  | unit tag => exact Json.tokens_quoted tag rest
  | variant tag content =>
    have htext : Json.chars depth (variant tag content).toJson ++ rest =
        '\x7b' :: (Json.lineBreak (depth + 1) ++ (Json.quoted tag ++ ':' :: ' ' ::
          (Json.chars (depth + 1) content.toJson ++
            (Json.lineBreak depth ++ '\x7d' :: rest)))) := by
      simp [toJson, Json.chars, Json.memberChars]
    have hclose := Json.endsWord_lineBreak depth ('\x7d' :: rest)
    rw [htext, Json.tokens_sign (c := '\x7b') rfl rfl, Json.tokens_lineBreak, Json.tokens_key,
      tokens_chars content (depth + 1) hclose, Json.tokens_close depth rfl rfl]
    simp [tokens, Function.comp_def]

theorem tokens_elementChars (xs : List Document) (depth : Nat) {rest : List Char}
    (hrest : EndsWord rest) :
    Json.tokens (Json.elementChars depth (elementsToJson xs) ++ rest) =
      (Json.tokens rest).map (elementTokens xs ++ ·) := by
  match xs with
  | [] => simp [elementsToJson, Json.elementChars, elementTokens]
  | x :: xs =>
    have htext : Json.elementChars depth (elementsToJson (x :: xs)) ++ rest =
        ',' :: (Json.lineBreak depth ++ (Json.chars depth x.toJson ++
          (Json.elementChars depth (elementsToJson xs) ++ rest))) := by
      simp [elementsToJson, Json.elementChars]
    rw [htext, Json.tokens_sign (c := ',') rfl rfl, Json.tokens_lineBreak,
      tokens_chars x depth (Json.endsWord_elementChars _ _ hrest),
      tokens_elementChars xs depth hrest]
    simp [elementTokens, Function.comp_def]

theorem tokens_memberChars (fields : List (String × Document)) (depth : Nat) {rest : List Char}
    (hrest : EndsWord rest) :
    Json.tokens (Json.memberChars depth (fieldsToJson fields) ++ rest) =
      (Json.tokens rest).map (fieldTokens fields ++ ·) := by
  match fields with
  | [] => simp [fieldsToJson, Json.memberChars, fieldTokens]
  | (key, x) :: fields =>
    have htext : Json.memberChars depth (fieldsToJson ((key, x) :: fields)) ++ rest =
        ',' :: (Json.lineBreak depth ++ (Json.quoted key ++ ':' :: ' ' ::
          (Json.chars depth x.toJson ++
            (Json.memberChars depth (fieldsToJson fields) ++ rest)))) := by
      simp [fieldsToJson, Json.memberChars]
    rw [htext, Json.tokens_sign (c := ',') rfl rfl, Json.tokens_lineBreak, Json.tokens_key,
      tokens_chars x depth (Json.endsWord_memberChars _ _ hrest),
      tokens_memberChars fields depth hrest]
    simp [fieldTokens, Function.comp_def]

end

end Cutting

section Assembling

open Json (assemble)

/-- An array that has an element is not closed before it. -/
theorem tokens_ne_closeArray (d : Document) (us ts : List Json.Token) :
    d.tokens ++ us ≠ .closeArray :: ts := by
  match d with
  | text _ => simp [tokens]
  | flag _ => simp [tokens]
  | list [] => simp [tokens]
  | list (_ :: _) => simp [tokens]
  | record [] => simp [tokens]
  | record ((_, _) :: _) => simp [tokens]
  | unit _ => simp [tokens]
  | variant _ _ => simp [tokens]

mutual

/-- The tokens of a document are put together to its value, whatever is open around it. -/
theorem assemble_tokens (d : Document) (stack : List Json.Frame) (ts : List Json.Token) :
    assemble .due stack (d.tokens ++ ts) = assemble (.ended d.toJson) stack ts := by
  match d with
  | text s => rw [tokens, List.singleton_append, assemble, toJson]
  | flag b => rw [tokens, List.singleton_append, assemble, toJson]
  | list [] => rw [tokens, List.cons_append, List.singleton_append, assemble, toJson,
      elementsToJson]
  | list (x :: xs) =>
    rw [tokens, List.cons_append, List.append_assoc,
      assemble.eq_7 _ _ fun us heq => tokens_ne_closeArray _ _ _ heq, assemble_tokens x,
      List.append_assoc, List.singleton_append, assemble_elementTokens, List.nil_append, toJson,
      elementsToJson]
  | record [] => rw [tokens, List.cons_append, List.singleton_append, assemble, toJson,
      fieldsToJson]
  | record ((key, x) :: fields) =>
    rw [tokens, List.cons_append, List.cons_append, List.cons_append, assemble, List.append_assoc,
      assemble_tokens x, List.append_assoc, List.singleton_append, assemble_fieldTokens,
      List.nil_append, toJson, fieldsToJson]
  | unit tag => rw [tokens, List.singleton_append, assemble, toJson]
  | variant tag content =>
    rw [tokens, List.cons_append, List.cons_append, List.cons_append, assemble, List.append_assoc,
      assemble_tokens content, List.singleton_append, assemble, List.nil_append, toJson]

theorem assemble_elementTokens (xs : List Document) (value : Json) (elements : List Json)
    (stack : List Json.Frame) (ts : List Json.Token) :
    assemble (.ended value) (.array elements :: stack) (elementTokens xs ++ .closeArray :: ts) =
      assemble (.ended (.array (elements ++ value :: elementsToJson xs))) stack ts := by
  match xs with
  | [] => rw [elementTokens, List.nil_append, assemble, elementsToJson]
  | x :: xs =>
    rw [elementTokens, List.cons_append, assemble, List.append_assoc, assemble_tokens x,
      assemble_elementTokens xs, elementsToJson, List.append_assoc, List.singleton_append]

theorem assemble_fieldTokens (fields : List (String × Document)) (value : Json) (key : String)
    (members : List (String × Json)) (stack : List Json.Frame) (ts : List Json.Token) :
    assemble (.ended value) (.object members key :: stack)
        (fieldTokens fields ++ .closeObject :: ts) =
      assemble (.ended (.object (members ++ (key, value) :: fieldsToJson fields))) stack ts := by
  match fields with
  | [] => rw [fieldTokens, List.nil_append, assemble, fieldsToJson]
  | (key', x) :: fields =>
    rw [fieldTokens, List.cons_append, List.cons_append, List.cons_append, assemble,
      List.append_assoc, assemble_tokens x, assemble_fieldTokens fields, fieldsToJson,
      List.append_assoc, List.singleton_append]

end

end Assembling

/-- The JSON text of a document is read as the value that was written. -/
theorem ofText?_jsonText (d : Document) : Json.ofText? d.jsonText = some d.toJson := by
  have hends : Json.EndsWord [] := by
    intro c hc
    cases hc
  have htokens : Json.tokens (Json.chars 0 d.toJson) = some d.tokens := by
    simpa [Json.tokens_nil] using tokens_chars d 0 hends
  have hassemble := assemble_tokens d [] []
  rw [List.append_nil, Json.assemble] at hassemble
  rw [Json.ofText?, jsonText, Json.text, String.toList_ofList, htokens, Option.bind_some,
    hassemble]

end Document

end SchemaLineage

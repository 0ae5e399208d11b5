import SchemaLineage.Guard.Condition
import SchemaLineage.Output.Stub
import Mathlib.Data.List.TakeWhile

/-!
The expressions of a stub as an interpreter reads them. A tuple literal is a row of numerals in
brackets, a single one with a comma behind it; tuples are compared number by number. A test is a
comparison of the version expression, known by its text, with literals on one or on both sides. What
is printed for a condition reads back as a test that holds at the versions of the condition.
-/
namespace SchemaLineage.StubCode

def tupleOf (v : Version) : List Nat :=
  v.parts.map UInt32.toNat

/-- The numbers between the brackets. One number makes a tuple only with a comma behind it. -/
def readNumbers? (cs : List Char) : Option (List Nat) :=
  if cs = [] then some []
  else
    let pieces := cs.splitOn ','
    if pieces.length = 1 then none
    else
      let pieces := if pieces.getLast? = some [] then pieces.dropLast else pieces
      pieces.mapM fun piece => Text.Decimal.read? (piece.dropWhile (· = ' '))

def readTuple? : List Char → Option (List Nat)
  | '(' :: cs => if cs.getLast? = some ')' then readNumbers? cs.dropLast else none
  | _ => none

inductive Test where
  | constant
  | atLeast (low : List Nat)
  | atMost (high : List Nat)
  | between (low high : List Nat)

/-- Whether a tuple is no greater than another: the first numbers that differ decide, and a tuple
comes before those that go on after it. -/
def tupleLe : List Nat → List Nat → Bool
  | [], _ => true
  | _ :: _, [] => false
  | m :: ms, n :: ns => if m = n then tupleLe ms ns else decide (m < n)

def Test.holds (t : List Nat) : Test → Bool
  | constant => true
  | atLeast low => tupleLe low t
  | atMost high => tupleLe t high
  | between low high => tupleLe low t && tupleLe t high

def cutLast (c : Char) : List Char → Option (List Char × List Char)
  | [] => none
  | d :: cs =>
    match cutLast c cs with
    | some (left, right) => some (d :: left, right)
    | none => if d = c then some ([], d :: cs) else none

/-- A test on the version expression, whose text is given: the truth, or a comparison whose last
operand is a literal. -/
def readTest? (subject cs : List Char) : Option Test :=
  if cs = "True".toList then some .constant
  else do
    let (left, right) ← cutLast '(' cs
    let bound ← readTuple? right
    if left = subject ++ " >= ".toList then return .atLeast bound
    else if left = subject ++ " <= ".toList then return .atMost bound
    else if left.dropWhile (· ≠ ')') = ')' :: " <= ".toList ++ subject ++ " <= ".toList then
      (readTuple? (left.takeWhile (· ≠ ')') ++ [')'])).map (.between · bound)
    else none

section Tuples

def numerals (parts : List UInt32) : List Char :=
  match parts with
  | [part] => Text.Decimal.write part.toNat ++ [',']
  | parts => [',', ' '].intercalate (parts.map fun part => Text.Decimal.write part.toNat)

theorem toList_tuple (v : Version) : v.tuple.toList = '(' :: numerals v.parts ++ [')'] := by
  obtain ⟨parts⟩ := v
  match parts with
  | [] => rfl
  | [part] => simp [Version.tuple, Version.partText, numerals]
  | part :: part' :: parts =>
    simp [Version.tuple, Version.partText, numerals, String.toList_intercalate,
      Function.comp_def]

theorem mem_intercalate {α : Type} {x : α} {sep : List α} {ls : List (List α)}
    (h : x ∈ sep.intercalate ls) : x ∈ sep ∨ ∃ l ∈ ls, x ∈ l := by
  induction ls with
  | nil => simp at h
  | cons l ls ih =>
    by_cases hls : ls = []
    · subst hls
      rw [List.intercalate_singleton] at h
      exact Or.inr ⟨l, List.mem_cons_self, h⟩
    · rw [List.intercalate_cons_of_ne_nil hls, List.append_assoc, List.mem_append,
        List.mem_append] at h
      rcases h with h | h | h
      · exact Or.inr ⟨l, List.mem_cons_self, h⟩
      · exact Or.inl h
      · rcases ih h with h | ⟨l', hl', h⟩
        · exact Or.inl h
        · exact Or.inr ⟨l', List.mem_cons_of_mem _ hl', h⟩

theorem mem_numerals {parts : List UInt32} {c : Char} (h : c ∈ numerals parts) :
    c.isDigit = true ∨ c = ',' ∨ c = ' ' := by
  have hwrite : ∀ {n : Nat}, c ∈ Text.Decimal.write n → c.isDigit = true :=
    fun h => Text.Decimal.isDigit_of_mem_write h
  unfold numerals at h
  split at h
  · rw [List.mem_append, List.mem_singleton] at h
    rcases h with h | h
    · exact Or.inl (hwrite h)
    · exact Or.inr (Or.inl h)
  · rcases mem_intercalate h with h | ⟨l, hl, h⟩
    · exact Or.inr (by simpa using h)
    · obtain ⟨part, -, rfl⟩ := List.mem_map.1 hl
      exact Or.inl (hwrite h)

/-- No bracket stands between the brackets of a literal. -/
theorem bracket_not_mem_numerals (parts : List UInt32) :
    '(' ∉ numerals parts ∧ ')' ∉ numerals parts := by
  constructor <;> intro h <;> rcases mem_numerals h with h | h | h <;> revert h <;> decide

theorem read?_dropWhile_write (n : Nat) :
    Text.Decimal.read? ((Text.Decimal.write n).dropWhile (· = ' ')) = some n := by
  have hhead : (Text.Decimal.write n).dropWhile (· = ' ') = Text.Decimal.write n := by
    rw [List.dropWhile_eq_self_iff]
    intro hlen hspace
    have hdigit := Text.Decimal.isDigit_of_mem_write (List.getElem_mem hlen)
    rw [of_decide_eq_true hspace] at hdigit
    exact absurd hdigit (by decide)
  rw [hhead, Text.Decimal.read?_write]

/-- Behind a comma each numeral but the first has a blank before it. -/
theorem intercalate_comma_blank (first : List Char) (rest : List (List Char)) :
    [',', ' '].intercalate (first :: rest) = [','].intercalate (first :: rest.map (' ' :: ·)) := by
  induction rest generalizing first with
  | nil => rfl
  | cons second rest ih =>
    rw [List.intercalate_cons_cons, ih, List.map_cons, List.intercalate_cons_cons]
    cases rest <;> simp [List.intercalate_cons_cons]

theorem numerals_cons_cons (part part' : UInt32) (parts : List UInt32) :
    numerals (part :: part' :: parts) = [','].intercalate
      (Text.Decimal.write part.toNat ::
        (part' :: parts).map fun part => ' ' :: Text.Decimal.write part.toNat) := by
  rw [numerals, List.map_cons, intercalate_comma_blank, List.map_map]
  · rfl
  · simp

theorem comma_not_mem_write (n : Nat) : ',' ∉ Text.Decimal.write n := by
  intro h
  exact absurd (Text.Decimal.isDigit_of_mem_write h) (by decide)

theorem mapM_blank_numerals (parts : List UInt32) :
    ((parts.map fun part => ' ' :: Text.Decimal.write part.toNat).mapM fun piece =>
      Text.Decimal.read? (piece.dropWhile (· = ' '))) = some (parts.map UInt32.toNat) := by
  induction parts with
  | nil => rfl
  | cons part parts ih =>
    rw [List.map_cons, List.mapM_cons, ih, List.dropWhile_cons_of_pos (by decide),
      read?_dropWhile_write]
    rfl

theorem readNumbers?_numerals (parts : List UInt32) :
    readNumbers? (numerals parts) = some (parts.map UInt32.toNat) := by
  match parts with
  | [] => rfl
  | [part] =>
    have hsplit : (numerals [part]).splitOn ',' = [Text.Decimal.write part.toNat, []] := by
      rw [numerals, List.splitOn_append_cons_self_of_not_mem (comma_not_mem_write _)]
      rfl
    have hne : numerals [part] ≠ [] := by simp [numerals]
    rw [readNumbers?, if_neg hne, hsplit]
    simp [read?_dropWhile_write]
  | part :: part' :: parts =>
    have hnumerals := numerals_cons_cons part part' parts
    have hsplit : (numerals (part :: part' :: parts)).splitOn ',' =
        Text.Decimal.write part.toNat ::
          (part' :: parts).map fun part => ' ' :: Text.Decimal.write part.toNat := by
      rw [hnumerals]
      refine List.splitOn_intercalate _ (fun l hl => ?_) (List.cons_ne_nil _ _)
      rcases List.mem_cons.1 hl with rfl | hl
      · exact comma_not_mem_write _
      · obtain ⟨q, -, rfl⟩ := List.mem_map.1 hl
        simpa using comma_not_mem_write q.toNat
    have hne : numerals (part :: part' :: parts) ≠ [] := by
      simp [hnumerals, List.intercalate_cons_cons]
    have hlast : (Text.Decimal.write part.toNat ::
        (part' :: parts).map fun part => ' ' :: Text.Decimal.write part.toNat).getLast? ≠
          some [] := by
      rw [List.map_cons, List.getLast?_cons_cons]
      intro hnil
      obtain ⟨q, -, hq⟩ := List.mem_map.1
        (List.mem_of_getLast? hnil : [] ∈ (part' :: parts).map fun part =>
          ' ' :: Text.Decimal.write part.toNat)
      cases hq
    rw [readNumbers?, if_neg hne, hsplit]
    simp only [List.length_cons, List.length_map]
    rw [if_neg (by omega), if_neg hlast, List.mapM_cons, read?_dropWhile_write,
      mapM_blank_numerals]
    rfl

/-- The literal of a version reads back as its numbers. -/
theorem readTuple?_tuple (v : Version) : readTuple? v.tuple.toList = some (tupleOf v) := by
  rw [toList_tuple, List.cons_append, readTuple?, List.getLast?_concat, if_pos rfl,
    List.dropLast_concat, readNumbers?_numerals]
  rfl

end Tuples

section Order

theorem tupleLe_map_toNat_iff {xs ys : List UInt32} :
    tupleLe (xs.map UInt32.toNat) (ys.map UInt32.toNat) = true ↔ ¬ ys < xs := by
  induction xs generalizing ys with
  | nil => simp [tupleLe]
  | cons x xs ih =>
    cases ys with
    | nil => simp [tupleLe]
    | cons y ys =>
      rw [List.map_cons, List.map_cons, tupleLe, List.cons_lt_cons_iff, not_or]
      by_cases hxy : x = y
      · subst hxy
        rw [if_pos rfl, ih]
        simp
      · have hne : x.toNat ≠ y.toNat := fun h => hxy (UInt32.toNat_inj.1 h)
        rw [if_neg hne, decide_eq_true_eq, UInt32.lt_iff_toNat_lt]
        constructor
        · intro hlt
          exact ⟨by omega, fun h => hxy h.1.symm⟩
        · intro h
          omega

/-- Tuples compare like the versions that they are the numbers of. -/
theorem tupleLe_tupleOf (v w : Version) :
    tupleLe (tupleOf v) (tupleOf w) = decide (v ≤ w) := by
  rw [Bool.eq_iff_iff, decide_eq_true_eq]
  exact tupleLe_map_toNat_iff

end Order

section Tests

def testOf : Condition → Test
  | .always => .constant
  | .atLeast low => .atLeast (tupleOf low)
  | .atMost high => .atMost (tupleOf high)
  | .between low high => .between (tupleOf low) (tupleOf high)

theorem holds_testOf (c : Condition) (v : Version) :
    (testOf c).holds (tupleOf v) = c.holds v := by
  cases c <;> simp only [testOf, Test.holds, Condition.holds, tupleLe_tupleOf]

theorem cutLast_eq_none {c : Char} {cs : List Char} (h : c ∉ cs) : cutLast c cs = none := by
  induction cs with
  | nil => rfl
  | cons d cs ih =>
    rw [List.mem_cons, not_or] at h
    rw [cutLast, ih h.2]
    exact if_neg (Ne.symm h.1)

theorem cutLast_append {c : Char} (left : List Char) {right : List Char} (h : c ∉ right) :
    cutLast c (left ++ c :: right) = some (left, c :: right) := by
  induction left with
  | nil => simp [cutLast, cutLast_eq_none h]
  | cons d left ih => simp [cutLast, ih]

/-- The last literal of a text is cut off at its opening bracket. -/
theorem cutLast_tuple (left : List Char) (v : Version) :
    cutLast '(' (left ++ v.tuple.toList) = some (left, v.tuple.toList) := by
  have hright : '(' ∉ numerals v.parts ++ [')'] := by
    rw [List.mem_append, not_or]
    exact ⟨(bracket_not_mem_numerals _).1, by decide⟩
  rw [toList_tuple, List.cons_append, cutLast_append left hright]

theorem ne_true_of_append_tuple (left : List Char) (v : Version) :
    left ++ v.tuple.toList ≠ "True".toList := by
  intro heq
  have hlast := congrArg List.getLast? heq
  rw [toList_tuple, ← List.append_assoc, List.getLast?_concat] at hlast
  exact absurd hlast (by decide)

theorem readTest?_append_tuple (subject left : List Char) (v : Version) :
    readTest? subject (left ++ v.tuple.toList) =
      if left = subject ++ " >= ".toList then some (.atLeast (tupleOf v))
      else if left = subject ++ " <= ".toList then some (.atMost (tupleOf v))
      else if left.dropWhile (· ≠ ')') = ')' :: " <= ".toList ++ subject ++ " <= ".toList then
        (readTuple? (left.takeWhile (· ≠ ')') ++ [')'])).map (.between · (tupleOf v))
      else none := by
  rw [readTest?, if_neg (ne_true_of_append_tuple left v), cutLast_tuple]
  simp only [Option.bind_eq_bind, Option.bind_some, readTuple?_tuple]
  rfl

/-- The text of a condition reads back as its test. -/
theorem readTest?_conditionText (settings : Settings) (c : Condition) :
    readTest? settings.versionVariable.toList (Stub.conditionText settings c).toList =
      some (testOf c) := by
  cases c with
  | always => exact if_pos rfl
  | atLeast low =>
    rw [Stub.conditionText, String.toList_append, readTest?_append_tuple, String.toList_append,
      if_pos rfl, testOf]
  | atMost high =>
    have hne : settings.versionVariable.toList ++ " <= ".toList ≠
        settings.versionVariable.toList ++ " >= ".toList := by
      rw [ne_eq, List.append_cancel_left_eq]
      decide
    rw [Stub.conditionText, String.toList_append, readTest?_append_tuple, String.toList_append,
      if_neg hne, if_pos rfl, testOf]
  | between low high =>
    have hclose : ∀ c ∈ '(' :: numerals low.parts, decide (c ≠ ')') = true := by
      intro c hc
      rw [decide_eq_true_eq]
      rintro rfl
      rcases List.mem_cons.1 hc with hc | hc
      · exact absurd hc (by decide)
      · exact (bracket_not_mem_numerals _).2 hc
    have hleft : (low.tuple ++ " <= " ++ settings.versionVariable ++ " <= ").toList =
        ('(' :: numerals low.parts) ++
          (')' :: " <= ".toList ++ settings.versionVariable.toList ++ " <= ".toList) := by
      simp [toList_tuple]
    -- What stands before the last literal is too long to be the version expression alone.
    have hne : ∀ op : List Char, op.length = 4 →
        (low.tuple ++ " <= " ++ settings.versionVariable ++ " <= ").toList ≠
          settings.versionVariable.toList ++ op := by
      intro op hop heq
      have hlen := congrArg List.length heq
      have hle : " <= ".toList.length = 4 := rfl
      simp only [String.toList_append, List.length_append, hop, hle] at hlen
      omega
    rw [Stub.conditionText, String.toList_append, readTest?_append_tuple,
      if_neg (hne _ rfl), if_neg (hne _ rfl), hleft,
      List.dropWhile_append_of_pos hclose, List.takeWhile_append_of_pos hclose]
    have htuple : ('(' :: numerals low.parts) ++ [')'] = low.tuple.toList :=
      (toList_tuple low).symm
    simp [readTuple?_tuple, testOf, htuple]

end Tests

end SchemaLineage.StubCode

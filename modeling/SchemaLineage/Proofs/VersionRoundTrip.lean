import SchemaLineage.Proofs.Outcomes
import SchemaLineage.Proofs.VersionSpelling

/-!
The texts that read as a version. A numeral counts in full: a version is read only if each component
has the value of its numeral, so a numeral that does not fit in 32 bits is refused. Main statement:
every spelling of a version reads as that version, and what was read reads again as it is written.
-/
namespace SchemaLineage

namespace Version

open Text (isBlank)

/-! ## Numerals -/

/-- The text is a number in digits, after a plus sign or not. -/
def Numeral (n : Nat) (cs : List Char) : Prop :=
  ∃ digits, (cs = digits ∨ cs = '+' :: digits) ∧ Text.Decimal.read? digits = some n

theorem digits_of_read? {n : Nat} {digits : List Char} (h : Text.Decimal.read? digits = some n) :
    digits ≠ [] ∧ ∀ c ∈ digits, c.isDigit = true := by
  rw [Text.Decimal.read?, Option.ite_none_right_eq_some] at h
  exact ⟨h.1.1, List.all_eq_true.1 h.1.2⟩

theorem Numeral.isComponent {n : Nat} {cs : List Char} (h : Numeral n cs) : IsComponent cs := by
  obtain ⟨digits, hcs, hread⟩ := h
  obtain ⟨hne, hdigits⟩ := digits_of_read? hread
  rcases hcs with rfl | rfl
  · exact isComponent_of_digits hne hdigits
  · refine ⟨List.cons_ne_nil _ _, fun c hc => ?_⟩
    rcases List.mem_cons.1 hc with rfl | hc
    · decide
    · exact digit_ne (hdigits c hc)

def unsigned (piece : List Char) : List Char :=
  match piece with
  | '+' :: rest => rest
  | _ => piece

theorem numeral_iff {n : Nat} {piece : List Char} :
    Numeral n piece ↔ Text.Decimal.read? (unsigned piece) = some n := by
  constructor
  · rintro ⟨digits, rfl | rfl, hread⟩
    · have hplus : ∀ rest, piece ≠ '+' :: rest := by
        rintro rest rfl
        exact absurd ((digits_of_read? hread).2 '+' List.mem_cons_self) (by decide)
      rwa [unsigned.eq_2 piece hplus]
    · exact hread
  · intro hread
    unfold unsigned at hread
    split at hread
    · exact ⟨_, .inr rfl, hread⟩
    · exact ⟨_, .inl rfl, hread⟩

theorem readPart_eq (piece : List Char) : readPart piece =
    match Text.Decimal.read? (unsigned piece) with
    | none => .error (.invalidComponent (String.ofList piece))
    | some n =>
      if h : n < UInt32.size then .ok (UInt32.ofNatLT n h)
      else .error (.invalidComponent (String.ofList piece)) :=
  rfl

/-- A component is read as the number that its numeral stands for, which must fit in 32 bits. -/
theorem readPart_eq_ok_iff {piece : List Char} {part : UInt32} :
    readPart piece = .ok part ↔ Numeral part.toNat piece := by
  rw [readPart_eq, numeral_iff]
  cases Text.Decimal.read? (unsigned piece) with
  | none => simp
  | some n =>
    dsimp only
    constructor
    · intro h
      split at h
      · cases h
        rw [UInt32.toNat_ofNatLT]
      · cases h
    · intro h
      cases h
      exact dif_pos part.toNat_lt

theorem readPart_eq_error {piece : List Char} {e : VersionError} (h : readPart piece = .error e) :
    e = .invalidComponent (String.ofList piece) ∧ ∀ n, Numeral n piece → UInt32.size ≤ n := by
  have hlarge : ∀ n, Numeral n piece → UInt32.size ≤ n := by
    intro n hn
    by_contra hlt
    have hok : readPart piece = .ok (UInt32.ofNatLT n (Nat.lt_of_not_le hlt)) :=
      readPart_eq_ok_iff.2 hn
    rw [h] at hok
    cases hok
  refine ⟨?_, hlarge⟩
  rw [readPart_eq] at h
  split at h
  · cases h
    rfl
  · split at h
    · cases h
    · cases h
      rfl

/-! ## Reading -/

/-- Where there are no components, there are blanks alone. -/
theorem blank_of_pieces_eq_nil {cs : List Char} (h : pieces cs = []) :
    ∀ c ∈ cs, isBlank c = true := by
  by_cases hsep : ∃ c ∈ cs, isSeparator c = true
  · obtain ⟨c, hc, hsep⟩ := hsep
    obtain ⟨before, after, rfl⟩ := List.append_of_mem hc
    have hbefore := List.splitOnP_ne_nil isSeparator before
    rw [pieces, List.splitOnP_append_cons before after hsep, List.map_append] at h
    split at h
    · rw [List.dropLast_append_of_ne_nil (by simp), List.append_eq_nil_iff,
        List.map_eq_nil_iff] at h
      exact absurd h.1 hbefore
    · rw [List.append_eq_nil_iff, List.map_eq_nil_iff] at h
      exact absurd h.1 hbefore
  · have hnone : ∀ c ∈ cs, isSeparator c = false := by simpa using hsep
    rw [pieces, List.splitOnP_eq_singleton hnone, List.map_singleton] at h
    split at h
    · rename_i hlast
      exact (Text.trim_eq_nil_iff cs).1 (Option.some.inj hlast)
    · cases h

/-- A version is read only if every component has the value of its numeral. -/
theorem components_of_ofChars {cs : List Char} {v : Version} (h : ofChars cs = .ok v) :
    v.parts ≠ [] ∧
      List.Forall₂ (fun piece part => Numeral part.toNat piece) (components cs) v.parts := by
  have hne : components cs ≠ [] := by
    intro hnil
    have hall := List.all_eq_true.2 (blank_of_pieces_eq_nil hnil)
    rw [ofChars, if_pos hall] at h
    cases h
  rw [ofChars_eq hne] at h
  cases hparts : (components cs).mapM readPart with
  | error e =>
    rw [hparts] at h
    cases h
  | ok parts =>
    rw [hparts] at h
    cases h
    have hread := Except.mapM_eq_ok_iff.1 hparts
    refine ⟨?_, hread.imp fun _ _ => readPart_eq_ok_iff.1⟩
    rintro rfl
    exact hne (List.forall₂_nil_right_iff.1 hread)

/-- If a component does not fit in 32 bits, the first one that cannot be read is refused. -/
theorem ofChars_of_large {cs piece : List Char} {n : Nat} (hpiece : piece ∈ components cs)
    (hnumeral : Numeral n piece) (hlarge : UInt32.size ≤ n) :
    ∃ before bad after, components cs = before ++ bad :: after ∧
      (∀ good ∈ before, ∃ m < UInt32.size, Numeral m good) ∧
      (∀ m, Numeral m bad → UInt32.size ≤ m) ∧
      ofChars cs = .error (.invalidComponent (String.ofList bad)) := by
  have hne : components cs ≠ [] := List.ne_nil_of_mem hpiece
  rw [ofChars_eq hne]
  cases hparts : (components cs).mapM readPart with
  | error e =>
    obtain ⟨before, bad, after, hsplit, hbefore, hbad⟩ := Except.exists_first_error_of_mapM hparts
    obtain ⟨rfl, hall⟩ := readPart_eq_error hbad
    refine ⟨before, bad, after, hsplit, fun good hgood => ?_, hall, rfl⟩
    obtain ⟨part, hpart⟩ := hbefore good hgood
    exact ⟨part.toNat, part.toNat_lt_size, readPart_eq_ok_iff.1 hpart⟩
  | ok parts =>
    obtain ⟨part, -, hpart⟩ := exists_of_mem_of_forall₂ (Except.mapM_eq_ok_iff.1 hparts) hpiece
    have hsame := (numeral_iff.1 hnumeral).symm.trans (numeral_iff.1 (readPart_eq_ok_iff.1 hpart))
    have hlt := part.toNat_lt_size
    rw [Option.some.injEq] at hsame
    omega

/-- A version reads from every padded spelling of it, from the ones that are written above all. What
is read has the values of its components, and reads again from the text that is written for it. A
component that does not fit in 32 bits is refused, if none before it is. -/
theorem spelling_round_trip :
    (∀ v : Version, Spelled v.numerals v.dotted.toList ∧
      Spelled v.numerals (",".intercalate (v.parts.map partText)).toList ∧
      Spelled v.numerals v.tuple.toList ∧
      (v.parts ≠ [] → ∀ s, Spelled v.numerals s.toList → ofText s = .ok v)) ∧
    (∀ s v, ofText s = .ok v → ofText v.dotted = .ok v ∧
      List.Forall₂ (fun piece part => Numeral part.toNat piece) (components s.toList) v.parts) ∧
    (∀ (cs : List (List Char)) (s : String), (∀ c ∈ cs, ∃ n, Numeral n c) →
      Spelled cs s.toList → components s.toList = cs) ∧
    ∀ (s : String) (n : Nat), ∀ piece ∈ components s.toList, Numeral n piece → UInt32.size ≤ n →
      ∃ before bad after, components s.toList = before ++ bad :: after ∧
        (∀ good ∈ before, ∃ m < UInt32.size, Numeral m good) ∧
        (∀ m, Numeral m bad → UInt32.size ≤ m) ∧
        ofText s = .error (.invalidComponent (String.ofList bad)) := by
  refine ⟨fun v => ⟨v.spelled_joined rfl rfl, v.spelled_joined rfl rfl, v.spelled_tuple,
    fun hne s h => ofChars_of_spelled hne h⟩, fun s v h => ?_, fun cs s hcs h => ?_,
    fun s n piece hpiece hnumeral hlarge => ofChars_of_large hpiece hnumeral hlarge⟩
  · obtain ⟨hne, hcomponents⟩ := components_of_ofChars h
    exact ⟨ofChars_of_spelled hne (v.spelled_joined rfl rfl), hcomponents⟩
  · refine h.components fun c hc => ?_
    obtain ⟨n, hn⟩ := hcs c hc
    exact hn.isComponent

/-- Blanks and a last comma do not change a version, and a number that is too large is no part of
one. -/
theorem spelling_paddedTuple :
    Spelled (numerals ⟨[3, 10]⟩) "\t( 3 ,10, )\n".toList ∧
      ofText "\t( 3 ,10, )\n" = .ok ⟨[3, 10]⟩ ∧ ofText (dotted ⟨[3, 10]⟩) = .ok ⟨[3, 10]⟩ ∧
      ∃ bad, ofText "(3, 4294967296)" = .error (.invalidComponent bad) := by
  have hblank : ∀ b, isBlank b = true → ∀ c ∈ [b], isBlank c = true :=
    fun b hb => List.forall_mem_singleton.2 hb
  have hspelled : Spelled (numerals ⟨[3, 10]⟩) "\t( 3 ,10, )\n".toList :=
    .tuple (.cons (.intro [' '] [' '] (hblank ' ' rfl) (hblank ' ' rfl)) rfl
        (.cons (.refl _) rfl (.blank (hblank ' ' rfl))))
      (.intro ['\t'] ['\n'] (hblank '\t' rfl) (hblank '\n' rfl))
  obtain ⟨hwritten, hread, -, hlarge⟩ := spelling_round_trip
  have hok : ofText "\t( 3 ,10, )\n" = .ok ⟨[3, 10]⟩ :=
    (hwritten ⟨[3, 10]⟩).2.2.2 (List.cons_ne_nil _ _) _ hspelled
  have hnumeral : Numeral 4294967296 "4294967296".toList := ⟨_, .inl rfl, by decide +kernel⟩
  obtain ⟨_, bad, _, -, -, -, hbad⟩ := hlarge "(3, 4294967296)" 4294967296 "4294967296".toList
    (by decide +kernel) hnumeral (by decide)
  exact ⟨hspelled, hok, (hread _ _ hok).1, _, hbad⟩

end Version

end SchemaLineage

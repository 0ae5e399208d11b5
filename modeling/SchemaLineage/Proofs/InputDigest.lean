import Mathlib.Data.List.Basic
import SchemaLineage.Output.Header
import SchemaLineage.Proofs.FixedDigits
import SchemaLineage.Source.Tag

/-!
What a digest tells of its inputs. A zero character is written as the byte that ends a text, so the
bytes under a digest give back the pieces between zero characters, and nothing about which of them
make up one text. Main statement: two lists of inputs have the same bytes under their digests
exactly if they have the same pieces; texts without zero characters are told apart with their
boundaries and their order, and so are the headers over them unless their digests collide.
-/
namespace SchemaLineage

namespace Digest

/-- Two byte sequences differ, but not in the first `n` words of their digests. -/
def Collide (n : Nat) (bytes other : List UInt8) : Prop :=
  bytes ≠ other ∧ (ofBytes bytes).take n = (ofBytes other).take n

/-- The words of a row can be read off their digits. -/
theorem digits_inj {ws vs : List UInt32}
    (h : (ws.flatMap fun w => Text.Hexadecimal.fixed 8 w.toNat) =
      vs.flatMap fun v => Text.Hexadecimal.fixed 8 v.toNat) : ws = vs := by
  induction ws generalizing vs with
  | nil =>
    cases vs with
    | nil => rfl
    | cons v vs => cases h
  | cons w ws ih =>
    cases vs with
    | nil => cases h
    | cons v vs =>
      rw [List.flatMap_cons, List.flatMap_cons] at h
      obtain ⟨hdigits, hrest⟩ := List.append_inj h (by simp only [Text.Hexadecimal.length_fixed])
      have hread := congrArg Text.Hexadecimal.read? hdigits
      rw [Text.Hexadecimal.read?_fixed_of_lt w.toNat_lt,
        Text.Hexadecimal.read?_fixed_of_lt v.toNat_lt, Option.some.injEq] at hread
      rw [UInt32.toNat_inj.1 hread, ih hrest]

/-- Eight digits show one word. -/
theorem take_hex (n : Nat) (bytes : List UInt8) :
    (hex bytes).take (8 * n) =
      ((ofBytes bytes).take n).flatMap fun w => Text.Hexadecimal.fixed 8 w.toNat := by
  rw [hex]
  generalize ofBytes bytes = ws
  induction n generalizing ws with
  | zero => rfl
  | succ n ih =>
    cases ws with
    | nil => rfl
    | cons w ws =>
      have hlength : (Text.Hexadecimal.fixed 8 w.toNat).length = 8 :=
        Text.Hexadecimal.length_fixed 8 _
      rw [List.flatMap_cons, List.take_succ_cons, List.flatMap_cons, ← ih, List.take_append,
        hlength, List.take_of_length_le (by omega), Nat.mul_succ, Nat.add_sub_cancel]

theorem length_hex (bytes : List UInt8) : (hex bytes).length = 64 := by
  have hwords : (ofBytes bytes).length = 8 := rfl
  simp only [hex, List.length_flatMap, Text.Hexadecimal.length_fixed, List.map_const',
    List.sum_replicate_nat, hwords]

/-- Digests that start with the same digits start with the same words. -/
theorem collide_of_take_hex {n : Nat} {bytes other : List UInt8} (hne : bytes ≠ other)
    (h : (hex bytes).take (8 * n) = (hex other).take (8 * n)) : Collide n bytes other := by
  rw [take_hex, take_hex] at h
  exact ⟨hne, digits_inj h⟩

end Digest

namespace Header

def pieces (text : String) : List (List Char) :=
  text.toList.splitOn '\x00'

theorem pieces_eq_singleton {text : String} (h : '\x00' ∉ text.toList) :
    pieces text = [text.toList] :=
  List.splitOn_eq_singleton h

def terminated (texts : List String) : String :=
  String.join (texts.map (· ++ "\x00"))

theorem terminated_cons (text : String) (texts : List String) :
    terminated (text :: texts) = text ++ "\x00" ++ terminated texts := by
  rw [terminated, List.map_cons, String.join_cons, terminated]

theorem digestBytes_eq_toUTF8 (texts : List String) :
    digestBytes texts = (terminated texts).toUTF8.data.toList := by
  induction texts with
  | nil => rfl
  | cons text texts ih =>
    have hbytes : (text ++ "\x00" ++ terminated texts).toUTF8 =
        text.toUTF8 ++ "\x00".toUTF8 ++ (terminated texts).toUTF8 := by
      simp only [String.toUTF8_eq_toByteArray, String.toByteArray_append]
    rw [digestBytes, List.flatMap_cons, ← digestBytes, ih, terminated_cons, hbytes]
    simp only [ByteArray.data_append, Array.toList_append]
    rfl

theorem digestBytes_eq_iff_terminated {texts others : List String} :
    digestBytes texts = digestBytes others ↔ terminated texts = terminated others := by
  rw [digestBytes_eq_toUTF8, digestBytes_eq_toUTF8, Array.toList_inj, ← ByteArray.ext_iff,
    String.toUTF8_eq_toByteArray, String.toUTF8_eq_toByteArray, String.toByteArray_inj]

/-- Cut at its zero characters, a row of texts falls into the pieces of the texts; what follows the
last zero character is empty. -/
theorem pieces_terminated (texts : List String) :
    pieces (terminated texts) = texts.flatMap pieces ++ [[]] := by
  induction texts with
  | nil => rfl
  | cons text texts ih =>
    have hchars : (terminated (text :: texts)).toList =
        text.toList ++ '\x00' :: (terminated texts).toList := by
      rw [terminated_cons, String.toList_append, String.toList_append, List.append_assoc]
      rfl
    rw [pieces, hchars, List.splitOn_append_cons_self, List.flatMap_cons, List.append_assoc, ← ih,
      pieces, pieces]

theorem pieces_inj {text other : String} : pieces text = pieces other ↔ text = other := by
  refine ⟨fun h => ?_, fun h => h ▸ rfl⟩
  have hjoined := congrArg (List.intercalate ['\x00']) h
  rw [pieces, pieces, List.intercalate_splitOn, List.intercalate_splitOn] at hjoined
  exact String.toList_inj.1 hjoined

/-- The bytes under a digest hold the pieces of the texts. -/
theorem digestBytes_eq_iff {texts others : List String} :
    digestBytes texts = digestBytes others ↔ texts.flatMap pieces = others.flatMap pieces := by
  rw [digestBytes_eq_iff_terminated, ← pieces_inj, pieces_terminated, pieces_terminated,
    List.append_left_inj]

theorem flatMap_pieces {texts : List String} (h : ∀ text ∈ texts, '\x00' ∉ text.toList) :
    texts.flatMap pieces = texts.map String.toList := by
  rw [List.map_eq_flatMap]
  exact List.flatMap_congr fun text htext => pieces_eq_singleton (h text htext)

/-- Texts without zero characters are told apart, with their boundaries and their order. -/
theorem digestBytes_inj {texts others : List String}
    (h : ∀ text ∈ texts ++ others, '\x00' ∉ text.toList) :
    digestBytes texts = digestBytes others ↔ texts = others := by
  rw [List.forall_mem_append] at h
  rw [digestBytes_eq_iff, flatMap_pieces h.1, flatMap_pieces h.2]
  exact List.map_inj_right fun _ _ => String.toList_inj.1

/-- A header ends with the start of its digest. -/
theorem digest_of_text_eq {comment tool comment' tool' : String} {inputs others : List InputText}
    (h : text comment tool inputs = text comment' tool' others) :
    (digest inputs).take 16 = (digest others).take 16 := by
  have hlength : ∀ inputs, ((digest inputs).take 16).length = 16 := fun inputs => by
    rw [digest, List.length_take, Digest.length_hex]
    rfl
  have hchars := congrArg String.toList h
  simp only [text, String.toList_append, String.toList_ofList] at hchars
  have hline := (List.append_inj' hchars rfl).1
  exact (List.append_inj' hline (by rw [hlength, hlength])).2

end Header

open Header

/-- The bytes under a digest are those of the pieces of its texts between zero characters. If no
text has a zero character, another number of texts, another text or another order gives other
bytes, hence another digest and another header, as long as the digests of these bytes do not
collide: all eight words for the digest, the two words that are shown for the header. -/
theorem digest_tells_texts_apart (inputs others : List InputText) :
    (digestBytes (inputs.map (·.text)) = digestBytes (others.map (·.text)) ↔
      inputs.flatMap (pieces ·.text) = others.flatMap (pieces ·.text)) ∧
    ((∀ input ∈ inputs ++ others, '\x00' ∉ input.text.toList) →
      inputs.map (·.text) ≠ others.map (·.text) →
        digestBytes (inputs.map (·.text)) ≠ digestBytes (others.map (·.text)) ∧
        (¬ Digest.Collide 8 (digestBytes (inputs.map (·.text)))
            (digestBytes (others.map (·.text))) → digest inputs ≠ digest others) ∧
        (¬ Digest.Collide 2 (digestBytes (inputs.map (·.text)))
            (digestBytes (others.map (·.text))) →
          ∀ comment tool comment' tool',
            Header.text comment tool inputs ≠ Header.text comment' tool' others)) := by
  refine ⟨?_, fun hzero hne => ?_⟩
  · rw [digestBytes_eq_iff, List.flatMap_map, List.flatMap_map]
  · have hplain : ∀ text ∈ inputs.map (·.text) ++ others.map (·.text), '\x00' ∉ text.toList := by
      rw [← List.map_append, List.forall_mem_map]
      exact hzero
    have hbytes := mt (digestBytes_inj hplain).1 hne
    refine ⟨hbytes, fun hfree heq => hfree ?_, fun hfree comment tool comment' tool' heq =>
      hfree (Digest.collide_of_take_hex hbytes (digest_of_text_eq heq))⟩
    exact Digest.collide_of_take_hex hbytes (congrArg (List.take 64) heq)

def movedBoundary : List InputText :=
  [⟨"x.asdl", "ab"⟩, ⟨"y.asdl", "c"⟩]

/-- A boundary moves by one character. -/
theorem header_movedBoundary :
    digest movedBoundary ≠ digest [⟨"x.asdl", "a"⟩, ⟨"y.asdl", "bc"⟩] ∧
      ∀ comment tool comment' tool', Header.text comment tool movedBoundary ≠
        Header.text comment' tool' [⟨"x.asdl", "a"⟩, ⟨"y.asdl", "bc"⟩] := by
  obtain ⟨-, hapart⟩ := digest_tells_texts_apart movedBoundary
    [⟨"x.asdl", "a"⟩, ⟨"y.asdl", "bc"⟩]
  obtain ⟨-, hdigest, hheader⟩ := hapart (by decide) (by decide)
  exact ⟨hdigest fun h => absurd h.2 (by decide +kernel),
    hheader fun h => absurd h.2 (by decide +kernel)⟩

/-- Two snapshots, the first of which has a zero character in its last comment. -/
def hiddenBoundary : List InputText :=
  [⟨"v1.asdl", "-- version=1\nmodule M \x7b a = () \x7d\n--" ++ "\x00" ++
      "module M \x7b c = () \x7d -- version=2\n--"⟩,
    ⟨"v2.asdl", "module M \x7b b = () \x7d -- version=2"⟩]

/-- Two snapshots, the second of which has a zero character in its last comment. -/
def shownBoundary : List InputText :=
  [⟨"v1.asdl", "-- version=1\nmodule M \x7b a = () \x7d\n--"⟩,
    ⟨"v2.asdl", "module M \x7b c = () \x7d -- version=2\n--" ++ "\x00" ++
      "module M \x7b b = () \x7d -- version=2"⟩]

/-- A zero character within a text counts as a boundary, so that other snapshots get the same
header. -/
theorem zero_character_hides_boundary :
    (∀ input ∈ hiddenBoundary ++ shownBoundary,
      (Snapshot.ofText input.name input.text).toOption.isSome) ∧
    hiddenBoundary.map (·.text) ≠ shownBoundary.map (·.text) ∧
      digestBytes (hiddenBoundary.map (·.text)) = digestBytes (shownBoundary.map (·.text)) ∧
      ∀ comment tool,
        Header.text comment tool hiddenBoundary = Header.text comment tool shownBoundary := by
  have hbytes : digestBytes (hiddenBoundary.map (·.text)) =
      digestBytes (shownBoundary.map (·.text)) := by decide
  refine ⟨by decide +kernel, by decide, hbytes, fun comment tool => ?_⟩
  rw [Header.text, Header.text, digest, digest, hbytes]
  rfl

end SchemaLineage

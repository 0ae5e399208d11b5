import SchemaLineage.Text.Hexadecimal
import SchemaLineage.Yaml.Scalar
import SchemaLineage.Yaml.Spot

/-!
Quoted YAML scalars, which may go on over several lines. Between single quotes, a quote is written
twice and all else stands for itself; between double quotes, a backslash starts an escape or joins
two lines.
-/
namespace SchemaLineage.Yaml

def unescape? (c : Char) : Option Char :=
  if c = '/' ∨ c = ' ' ∨ c = '\t' then some c
  else (shortEscapes.find? (·.2 = c)).map (·.1)

def codeLength? (c : Char) : Option Nat :=
  if c = 'x' then some 2 else if c = 'u' then some 4 else if c = 'U' then some 8 else none

def codeChar? (digits : List Char) : Option Char :=
  (Text.Hexadecimal.read? digits).bind fun n =>
    if n.isValidChar then some (Char.ofNat n) else none

def escape? : List Char → Option (Char × Nat)
  | [] => none
  | letter :: cs =>
    match codeLength? letter with
    | none => (unescape? letter).map fun c => (c, 1)
    | some n =>
      if cs.length < n then none else (codeChar? (cs.take n)).map fun c => (c, n + 1)

structure Gap where
  /-- Whether it starts with an escaped line end. -/
  isEscaped : Bool := false
  /-- Its characters, last one first. -/
  chars : List Char := []

/-- What a gap stands for. After an escaped line end, only further line ends count. -/
def Gap.text (gap : Gap) : List Char :=
  if gap.isEscaped then gap.chars.reverse.filter isBreak else folded gap.chars.reverse

/-- Reads on in a scalar up to its closing quote: its text and how many characters it takes. -/
def quotedFrom (quote : Char) (gap : Gap) : List Spot → Option (List Char × Nat)
  | [] => none
  | p :: s =>
    if isGapOrBreak p.char then
      (quotedFrom quote { gap with chars := p.char :: gap.chars } s).map fun (text, size) =>
        (text, size + 1)
    else if isAnyMarker (p :: s) then none
    else if quote = '\'' ∧ p.char = quote ∧ (s.head?.map (·.char)) = some quote then
      (quotedFrom quote {} (s.drop 1)).map fun (text, size) =>
        (gap.text ++ quote :: text, size + 2)
    else if p.char = quote then some (gap.text, 1)
    else if quote = '"' ∧ p.char = '\\' then
      if s.head?.any fun q => isBreak q.char then
        (quotedFrom quote { isEscaped := true } (s.drop 1)).map fun (text, size) =>
          (gap.text ++ text, size + 2)
      else
        match escape? (chars (s.take 9)) with
        | none => none
        | some (c, n) =>
          (quotedFrom quote {} (s.drop n)).map fun (text, size) =>
            (gap.text ++ c :: text, size + n + 1)
    else
      (quotedFrom quote {} s).map fun (text, size) => (gap.text ++ p.char :: text, size + 1)
termination_by s => s.length
decreasing_by
  all_goals simp only [List.length_drop, List.length_cons]
  all_goals omega

end SchemaLineage.Yaml

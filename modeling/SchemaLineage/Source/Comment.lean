import SchemaLineage.Source.Lexing
import SchemaLineage.Text.Lines

/-!
The comments of a text, found line by line. Two hyphens within a quoted literal start no comment;
quotes are followed within one line only.
-/
namespace SchemaLineage

structure Comment where
  line : Nat
  text : List Char
  deriving DecidableEq

namespace Comment

/-- The comment of one line; `quote` is the quote that is open. -/
def ofLine? (quote : Option Char) : List Char → Option (List Char)
  | [] => none
  | c :: cs =>
    match quote with
    | some q =>
      if c = '\\' then
        match cs with
        | [] => none
        | _ :: cs => ofLine? (some q) cs
      else if c = q then ofLine? none cs
      else ofLine? (some q) cs
    | none =>
      if Lexing.isQuote c then ofLine? (some c) cs
      else if c = '-' ∧ cs.head? = some '-' then some cs.tail
      else ofLine? none cs

def ofLines (line : Nat) : List (List Char) → List Comment
  | [] => []
  | cs :: rest =>
    match ofLine? none cs with
    | some text => ⟨line, text⟩ :: ofLines (line + 1) rest
    | none => ofLines (line + 1) rest

def all (cs : List Char) : List Comment :=
  ofLines 1 (Text.lines cs)

end Comment

end SchemaLineage

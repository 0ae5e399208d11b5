import SchemaLineage.Json.Basic
import SchemaLineage.Text.Hexadecimal

/-!
JSON text over several lines: each element and member on a line of its own, two spaces deeper than
its brackets; empty arrays and objects stay on one line.
-/
namespace SchemaLineage.Json

/-- A character within a string. Quotes, backslashes and the ASCII controls are escaped. -/
def escaped (c : Char) : List Char :=
  if c = '"' then ['\\', '"']
  else if c = '\\' then ['\\', '\\']
  else if c = '\x08' then ['\\', 'b']
  else if c = '\x0c' then ['\\', 'f']
  else if c = '\n' then ['\\', 'n']
  else if c = '\r' then ['\\', 'r']
  else if c = '\t' then ['\\', 't']
  else if c.toNat < 0x20 then '\\' :: 'u' :: Text.Hexadecimal.fixed 4 c.toNat
  else [c]

def quoted (s : String) : List Char :=
  ['"'] ++ s.toList.flatMap escaped ++ ['"']

def lineBreak (depth : Nat) : List Char :=
  '\n' :: List.replicate (2 * depth) ' '

mutual

def chars (depth : Nat) : Json → List Char
  | null => "null".toList
  | bool b => (if b then "true" else "false").toList
  | number spelling => spelling.toList
  | string s => quoted s
  | array [] => ['[', ']']
  | array (x :: xs) =>
    ['['] ++ lineBreak (depth + 1) ++ chars (depth + 1) x ++ elementChars (depth + 1) xs ++
      lineBreak depth ++ [']']
  | object [] => ['\x7b', '\x7d']
  | object ((key, x) :: members) =>
    ['\x7b'] ++ lineBreak (depth + 1) ++ quoted key ++ [':', ' '] ++ chars (depth + 1) x ++
      memberChars (depth + 1) members ++ lineBreak depth ++ ['\x7d']

def elementChars (depth : Nat) : List Json → List Char
  | [] => []
  | x :: xs => [','] ++ lineBreak depth ++ chars depth x ++ elementChars depth xs

def memberChars (depth : Nat) : List (String × Json) → List Char
  | [] => []
  | (key, x) :: members =>
    [','] ++ lineBreak depth ++ quoted key ++ [':', ' '] ++ chars depth x ++
      memberChars depth members

end

def text (j : Json) : String :=
  String.ofList (chars 0 j)

end SchemaLineage.Json

import SchemaLineage.Text.Hexadecimal
import SchemaLineage.Text.Hidden

/-!
Text as it is quoted in messages: the quote in use and the backslash are escaped by a backslash,
a few controls by a letter, every other hidden character by its code in hexadecimal.
-/
namespace SchemaLineage.Text

def escaped (quote c : Char) : List Char :=
  if c = '\x00' then ['\\', '0']
  else if c = '\t' then ['\\', 't']
  else if c = '\r' then ['\\', 'r']
  else if c = '\n' then ['\\', 'n']
  else if c = '\\' ∨ c = quote then ['\\', c]
  else if isHidden c then ['\\', 'u', '\x7b'] ++ Hexadecimal.write c.toNat ++ ['\x7d']
  else [c]

def quoted (s : String) : String :=
  String.ofList (['"'] ++ s.toList.flatMap (escaped '"') ++ ['"'])

def quotedChar (c : Char) : String :=
  String.ofList (['\''] ++ escaped '\'' c ++ ['\''])

end SchemaLineage.Text

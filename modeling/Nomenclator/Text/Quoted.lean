import Nomenclator.Text.Hexadecimal
import Nomenclator.Text.Printable

/-!
# Quoted text in messages

A text is quoted so that it can be read off a message without doubt: it stands
in double quotes, quotes and backslashes carry a backslash, the common control
characters have letters, and any other character that is not printable is
written as its code point.
-/

namespace Nomenclator.Text

/-- The quoted form of one character. -/
def quotedChar (c : Char) : List Char :=
  if c = '"' then ['\\', '"']
  else if c = '\\' then ['\\', '\\']
  else if c = '\n' then ['\\', 'n']
  else if c = '\r' then ['\\', 'r']
  else if c = '\t' then ['\\', 't']
  else if c.toNat = 0 then ['\\', '0']
  else if isPrintable c then [c]
  else ['\\', 'u', '{'] ++ hexadecimal 1 c.toNat ++ ['}']

/-- The text in double quotes. -/
def quoted (s : String) : String :=
  String.ofList ('"' :: s.toList.flatMap quotedChar ++ ['"'])

end Nomenclator.Text

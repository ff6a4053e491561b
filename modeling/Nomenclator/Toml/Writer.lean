import Nomenclator.Text.Hexadecimal

/-!
# Writing values

A text is written in the first of the quoted forms that shows it best: between
double quotes if nothing has to be escaped, then as it stands between single
quotes, then over several lines, and with escapes only if nothing else is left.
-/

namespace Nomenclator.Toml

/-! ## Forms -/

/-- A form of quoted text. -/
inductive QuotedForm where
  /-- On one line, between double quotes. -/
  | basic
  /-- On one line, between single quotes. -/
  | literal
  /-- Over several lines, between triple double quotes. -/
  | basicLines
  /-- Over several lines, between triple single quotes. -/
  | literalLines
  deriving DecidableEq, Repr

/-- A control character that can only be written as an escape. -/
def needsEscape (c : Char) : Bool :=
  c ≠ '\t' && c ≠ '\n' && (c.toNat < 0x20 || c.toNat = 0x7F)

/-- Three of the quote stand in a row. -/
def hasThree (quote : Char) : List Char → Bool
  | a :: b :: c :: rest =>
    (a = quote && b = quote && c = quote) || hasThree quote (b :: c :: rest)
  | _ => false

/-- The form in which a text is written. -/
def QuotedForm.of (text : List Char) : QuotedForm :=
  let escapes := text.any needsEscape
  let breaks := text.contains '\n'
  if !text.contains '"' && !text.contains '\\' && !breaks && !escapes then .basic
  else if !text.contains '\'' && !breaks && !escapes then .literal
  else if !escapes && !text.contains '\\' && !hasThree '"' text then .basicLines
  else if !escapes && !hasThree '\'' text then .literalLines
  else if breaks then .basicLines
  else .basic

/-! ## Quoted texts -/

/-- A character other than the double quote and the line feed, as it is written
    between double quotes. -/
def escaped (c : Char) : List Char :=
  if c = '\x08' then ['\\', 'b']
  else if c = '\t' then ['\\', 't']
  else if c = '\x0c' then ['\\', 'f']
  else if c = '\r' then ['\\', 'r']
  else if c = '\\' then ['\\', '\\']
  else if needsEscape c then '\\' :: 'u' :: Text.hexadecimalUpper 4 c.toNat
  else [c]

/-- A text as it is written between double quotes. -/
def basicBody (text : List Char) : List Char :=
  text.flatMap fun c =>
    if c = '"' then ['\\', '"'] else if c = '\n' then ['\\', 'n'] else escaped c

/-- A text as it is written between triple double quotes, after `quotes` of them
    in a row. The third in a row is escaped. -/
def basicLinesBody (quotes : Nat) : List Char → List Char
  | [] => []
  | c :: rest =>
    if c = '"' then
      if quotes = 2 then '\\' :: '"' :: basicLinesBody 0 rest
      else '"' :: basicLinesBody (quotes + 1) rest
    else if c = '\n' then '\n' :: basicLinesBody 0 rest
    else escaped c ++ basicLinesBody 0 rest

/-- The line end behind an opening delimiter, which is not part of the text and
    so lets a text over several lines start on a line of its own. -/
def leadingBreak (text : List Char) : List Char := if text.contains '\n' then ['\n'] else []

/-- A text in a form. -/
def QuotedForm.write : QuotedForm → List Char → List Char
  | basic, text => ['"'] ++ basicBody text ++ ['"']
  | literal, text => ['\''] ++ text ++ ['\'']
  | basicLines, text =>
    ['"', '"', '"'] ++ leadingBreak text ++ basicLinesBody 0 text ++ ['"', '"', '"']
  | literalLines, text =>
    ['\'', '\'', '\''] ++ leadingBreak text ++ text ++ ['\'', '\'', '\'']

/-- A text as it is written. -/
def writeText (text : String) : List Char :=
  (QuotedForm.of text.toList).write text.toList

example : writeText "a b" = "\"a b\"".toList := by decide +kernel
example : writeText "a\\b" = "'a\\b'".toList := by decide +kernel
example : writeText "'a\"" = "\"\"\"'a\"\"\"\"".toList := by decide +kernel
example : writeText "\x1f\"" = "\"\\u001F\\\"\"".toList := by decide +kernel

/-! ## Other values -/

/-- A truth value as it is written. -/
def writeBoolean (truth : Bool) : List Char := (if truth then "true" else "false").toList

/-- A natural number as it is written. -/
def writeNumber (number : Nat) : List Char := Nat.toDigits 10 number

/-- An array of texts as it is written. -/
def writeTexts (texts : List String) : List Char :=
  ['['] ++ ((texts.map writeText).intersperse [',', ' ']).flatten ++ [']']

/-! ## Lines -/

/-- A line that gives a key its value. -/
def writePair (key : String) (value : List Char) : List Char :=
  key.toList ++ [' ', '=', ' '] ++ value ++ ['\n']

/-- A blank line and the header of a table. -/
def writeHeader (key : String) : List Char := ['\n', '['] ++ key.toList ++ [']', '\n']

/-- A blank line and the header of the next of several tables. -/
def writeElementHeader (key : String) : List Char :=
  ['\n', '[', '['] ++ key.toList ++ [']', ']', '\n']

end Nomenclator.Toml

/-!
# Scanning text

A scanner takes an item from the front of a text and hands back the rest, or
refuses. Repetition stops of its own accord because a text has room for no more
items than it has characters.
-/

namespace Nomenclator

/-- Takes an item from the front of a text, or refuses. -/
abbrev Scanner (α : Type) := List Char → Option (α × List Char)

namespace Scanner

/-- Exactly this character. -/
def expect (c : Char) : List Char → Option (List Char)
  | [] => none
  | d :: text => if d = c then some text else none

/-- The text goes on with this character. -/
def startsWith (c : Char) : List Char → Bool
  | [] => false
  | d :: _ => d = c

/-- The longest run of characters with the property, which must not be empty. -/
def run1 (p : Char → Bool) : Scanner (List Char) := fun text =>
  match text.takeWhile p with
  | [] => none
  | taken => some (taken, text.dropWhile p)

/-- At most `most` items, for as long as `more` holds of the text ahead. It is
    refused if `more` still holds after them. -/
def repeatUpTo {α : Type} (more : List Char → Bool) (item : Scanner α) :
    (most : Nat) → Scanner (List α)
  | 0, text => if more text then none else some ([], text)
  | most + 1, text =>
    if more text then
      match item text with
      | none => none
      | some (first, rest) =>
        match repeatUpTo more item most rest with
        | none => none
        | some (items, behind) => some (first :: items, behind)
    else some ([], text)

/-- Items for as long as `more` holds of the text ahead. Items that each take a
    character cannot outnumber the characters. -/
def repeatWhile {α : Type} (more : List Char → Bool) (item : Scanner α) : Scanner (List α) :=
  fun text => repeatUpTo more item text.length text

end Scanner

end Nomenclator

/-!
# Order of names without regard to case

Names are put in order by their lower-case expansions, code point by code
point. Names with equal expansions are put in order as they stand, so only
equal names compare as equal. The expansion of a character is a parameter: the
order is total whatever it is.
-/

namespace Nomenclator.Text

/-- The lower-case expansion of a whole text. -/
def lowered (lower : Char → List Char) (s : String) : List Char := s.toList.flatMap lower

/-- Compares the expansions first and the names themselves second. -/
def compareIgnoringCase (lower : Char → List Char) (a b : String) : Ordering :=
  (compare (lowered lower a) (lowered lower b)).then (compare a b)

end Nomenclator.Text

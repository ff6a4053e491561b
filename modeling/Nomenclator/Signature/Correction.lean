import Nomenclator.Signature.ClassTypes
import Nomenclator.Signature.Parser
import Nomenclator.Text.Cut

/-!
# Correction of inner class names

Some obfuscators write the qualified name of an inner class where a signature
has room only for its simple name:

    (TK;)Lzt<TK;TT;TR;>.zt$a;    for    (TK;)Lzt<TK;TT;TR;>.a;

Correction drops the repeated name of the enclosing class. A text that is no
signature is left as it is.

Specification: `SPEC_FULL.md` §4.4, the signature corrector.
-/

namespace Nomenclator

/-- The simple name in a name that repeats the enclosing class: what follows
    `enclosing$`, unless nothing does. -/
def ClassSegment.simpleName? (enclosing name : String) : Option String :=
  match Text.dropLeading? (enclosing.toList ++ ['$']) name.toList with
  | some (c :: rest) => some (String.ofList (c :: rest))
  | _ => none

/-- The simple name of an inner class, with a repeated enclosing name
    dropped. -/
def ClassSegment.correctedName (enclosing name : String) : String :=
  (simpleName? enclosing name).getD name

/-- Inner segments with their names corrected, given the qualified name of the
    class that encloses the first. -/
def ClassSegment.correctInner (enclosing : String) : List ClassSegment → List ClassSegment
  | [] => []
  | .mk name arguments :: inner =>
    let corrected := correctedName enclosing name
    .mk corrected arguments :: correctInner (enclosing ++ "$" ++ corrected) inner

/-- A class type with the names of its inner classes corrected. -/
def ClassType.correct : ClassType → ClassType
  | .mk outer inner => .mk outer (ClassSegment.correctInner outer.name inner)

/-- A signature with the names of all inner classes corrected. -/
def Signature.correct (signature : Signature) : Signature :=
  signature.mapClassTypes ClassType.correct

/-- The corrected text of a signature (`correct_signature`, §4.4). A text that is
    no signature is left as it is (§7). -/
def correctSignature (raw : String) : String :=
  match Signature.parse raw with
  | .ok signature => signature.correct.text
  | .error _ => raw

end Nomenclator

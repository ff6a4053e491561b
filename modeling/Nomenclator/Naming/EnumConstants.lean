import Nomenclator.Naming.SourceClass

/-!
# Recovering the constants of an enumeration

The static initializer of an enumeration creates each constant, loads the
string that is its name and later stores the constant in its field. So a store
into a field of the enumeration's own type binds the field to the first string
loaded since a constant was last created, if no other store came in between.

Specification: `SPEC_FULL.md` §4.3, enum constant recovery. Unlike there, a store into another
class binds nothing, whatever the descriptor of its field.
-/

namespace Nomenclator.EnumConstants

/-- The class that every enumeration extends. -/
def superName : String := "java/lang/Enum"

/-- The descriptor of fields that hold a constant of the enumeration. -/
def descriptor (className : String) : String := "L" ++ className ++ ";"

/-- What a scan of an initializer remembers: whether a constant has been created
    whose name has not been loaded yet, and the name that the next store
    takes. -/
structure Scan where
  armed : Bool := false
  candidate : Option String := none

/-- The scan after an instruction, and the field that the instruction binds to
    a constant, if it does (`NEW`, `LDC` and `PUTSTATIC` of §4.3). -/
def step (className : String) (scan : Scan) (instruction : Instruction) :
    Scan × Option (String × String) :=
  match instruction with
  | .new created => (if created = className then { scan with armed := true } else scan, none)
  | .loadString text => (if scan.armed then ⟨false, some text⟩ else scan, none)
  | .field .putStatic owner field fieldDescriptor =>
    if owner = className ∧ fieldDescriptor = descriptor className then
      ({ scan with candidate := none }, scan.candidate.map fun constant => (field, constant))
    else (scan, none)
  | _ => (scan, none)

/-- The fields that the instructions bind, each with its constant, in order. -/
def bindings (className : String) (scan : Scan) : List Instruction → List (String × String)
  | [] => []
  | instruction :: instructions =>
    let (scan, binding) := step className scan instruction
    binding.toList ++ bindings className scan instructions

/-- The bindings of a class: none unless it is an enumeration with a static
    initializer, and the cause if that cannot be decoded. -/
def ofClass (source : SourceClass) : Except Malformed (List (String × String)) :=
  if source.superName = some superName then
    match source.staticInit with
    | some initializer => do
      let instructions ← initializer.instructions
      return bindings source.name {} instructions
    | none => .ok []
  else .ok []

end Nomenclator.EnumConstants

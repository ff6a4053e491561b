import Nomenclator.Hierarchy.Basic
import Nomenclator.Renames
import Nomenclator.Signature.Correction

/-!
# Resolving references

References in code name a member through some class that may only inherit it.
Resolution finds the class in whose entry the new name stands. Fields are not
virtual and are looked for in the superclasses only; methods are looked for
depth first, superclass before interfaces. An ancestor that the hierarchy does
not know ends that line of ancestry, even if there are entries under its name.
Nothing is invented: without a new name the old one stays.

The new name of an inner class replaces only what follows its last `$`; what
stands before it is the new name of the enclosing class.

Specification: `SPEC_FULL.md` §4.2 and §4.4. Unlike there, `resolveClass` gives the full name of
an inner class and not only what its own entry holds.

Results:
* `enclosing?_shorter`: the enclosing class has the shorter name.
-/

namespace Nomenclator

/-! ## Members -/

namespace Resolution

/-- A name that was looked for, and the classes about which the hierarchy was
    asked for it, in order. -/
structure Answer where
  newName : Option String
  asked : List String

/-- The walk for the new name of a field. -/
def fieldWalk (renames : Renames) (hierarchy : Hierarchy) (owner name : String) : Walk String :=
  hierarchy.knownSuperGraph.walk (fun current => renames.fieldName? current name) [] [owner]

/-- The walk for the new name of a method. -/
def methodWalk (renames : Renames) (hierarchy : Hierarchy) (owner : String) (key : MethodKey) :
    Walk String :=
  hierarchy.knownParentGraph.walk (fun current => renames.methodName? current key) [] [owner]

/-- The new name of a field. For each class that does not name it, the hierarchy
    is asked about the class and then whether its superclass is known. -/
def field (renames : Renames) (hierarchy : Hierarchy) (owner name : String) : Answer :=
  let walk := fieldWalk renames hierarchy owner name
  ⟨walk.found, walk.passed.flatMap fun current => current :: hierarchy.superNames current⟩

/-- The new name of a method. For each class that does not name it, the
    hierarchy is asked about the class and then whether its parents are
    known. -/
def method (renames : Renames) (hierarchy : Hierarchy) (owner : String) (key : MethodKey) :
    Answer :=
  let walk := methodWalk renames hierarchy owner key
  ⟨walk.found, walk.passed.flatMap fun current => current :: hierarchy.parents current⟩

end Resolution

namespace Renames

/-- The new name of a field reference (`resolve_field`, §4.2). -/
def resolveField (renames : Renames) (hierarchy : Hierarchy) (owner name : String) :
    Option String :=
  (Resolution.field renames hierarchy owner name).newName

/-- The new name of a method reference (`resolve_method`, §4.2). -/
def resolveMethod (renames : Renames) (hierarchy : Hierarchy) (owner : String)
    (key : MethodKey) : Option String :=
  (Resolution.method renames hierarchy owner key).newName

/-- The name to write for a field reference (`map_field_name`, §4.2). -/
def mapFieldName (renames : Renames) (hierarchy : Hierarchy) (owner name : String) : String :=
  (renames.resolveField hierarchy owner name).getD name

/-- The name to write for a method reference (`map_method_name`, §4.2). -/
def mapMethodName (renames : Renames) (hierarchy : Hierarchy) (owner : String)
    (key : MethodKey) : String :=
  (renames.resolveMethod hierarchy owner key).getD key.name

end Renames

/-! ## Classes -/

/-- The enclosing class and the simple name of an inner class: the parts before
    and after the last `$`, both of which must not be empty. -/
def enclosing? (name : String) : Option (String × String) :=
  match Text.cutAtLast? '$' name with
  | some (outer, inner) => if outer = "" ∨ inner = "" then none else some (outer, inner)
  | none => none

/-- The enclosing class has the shorter name. -/
theorem enclosing?_shorter {name outer inner : String} (h : enclosing? name = some (outer, inner)) :
    outer.toList.length < name.toList.length := by
  rw [enclosing?, Text.cutAtLast?] at h
  cases hcut : Text.cutLast '$' name.toList with
  | none => rw [hcut] at h; cases h
  | some parts =>
    obtain ⟨before, after⟩ := parts
    rw [hcut] at h
    simp only [Option.map_some] at h
    split at h
    · cases h
    · obtain ⟨rfl, -⟩ := Prod.mk.injEq .. ▸ Option.some.inj h
      rw [String.toList_ofList, (Text.cutLast_eq_some hcut).1, List.length_append,
        List.length_cons]
      omega

namespace Renames

/-- The full new name of a class, its old name where nothing was renamed. -/
def mapClassName (renames : Renames) (name : String) : String :=
  match _ : enclosing? name with
  | some (outer, inner) =>
    renames.mapClassName outer ++ "$" ++ (renames.className? name).getD inner
  | none => (renames.className? name).getD name
termination_by name.toList.length
decreasing_by exact enclosing?_shorter ‹_›

/-- The full new name of a class that differs from the old one (`resolve_class`, §4.2). -/
def resolveClass (renames : Renames) (name : String) : Option String :=
  let mapped := renames.mapClassName name
  if mapped = name then none else some mapped

/-! ## Signatures -/

/-- Inner segments renamed, given the old qualified name of the class that
    encloses the first. -/
def mapInner (renames : Renames) (enclosing : String) : List ClassSegment → List ClassSegment
  | [] => []
  | .mk name arguments :: inner =>
    let qualified := enclosing ++ "$" ++ name
    let newName :=
      match Text.cutAtLast? '$' (renames.mapClassName qualified) with
      | some (_, simple) => simple
      | none => name
    .mk newName arguments :: renames.mapInner qualified inner

/-- A class type with the names of all its classes renamed. -/
def mapClassType (renames : Renames) : ClassType → ClassType
  | .mk (.mk name arguments) inner =>
    .mk (.mk (renames.mapClassName name) arguments) (renames.mapInner name inner)

/-- The corrected signature with every class in it renamed (`remap_signature`, §4.4).
    A text that is no signature is left as it is. -/
def remapSignature (renames : Renames) (raw : String) : String :=
  let corrected := correctSignature raw
  match Signature.parse corrected with
  | .ok signature => (signature.mapClassTypes renames.mapClassType).text
  | .error _ => corrected

end Renames

end Nomenclator

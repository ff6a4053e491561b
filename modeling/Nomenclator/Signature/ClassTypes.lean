import Nomenclator.Signature.Basic

/-!
# The class types of a signature

Every class type in a signature can be replaced, wherever it stands: in bounds,
parameters, results, thrown types, arrays and type arguments. The class types
inside the arguments of a class type are replaced before it.

Specification: `SPEC_FULL.md` §4.4, the walk over class-type tokens.
-/

namespace Nomenclator

/-- A replacement for class types. -/
abbrev ClassTypeMap := ClassType → ClassType

mutual

/-- A type with its class types replaced. -/
def GenericType.mapClassTypes (f : ClassTypeMap) : GenericType → GenericType
  | .base type => .base type
  | .reference type => .reference (type.mapClassTypes f)

/-- A type of objects with its class types replaced. -/
def ReferenceType.mapClassTypes (f : ClassTypeMap) : ReferenceType → ReferenceType
  | .classType type => .classType (type.mapClassTypes f)
  | .typeVariable name => .typeVariable name
  | .array component => .array (component.mapClassTypes f)

/-- A class type replaced after the class types in its arguments. -/
def ClassType.mapClassTypes (f : ClassTypeMap) : ClassType → ClassType
  | .mk outer inner => f (.mk (outer.mapClassTypes f) (ClassSegment.mapInner f inner))

/-- Inner segments with the class types in their arguments replaced. -/
def ClassSegment.mapInner (f : ClassTypeMap) : List ClassSegment → List ClassSegment
  | [] => []
  | segment :: inner => segment.mapClassTypes f :: ClassSegment.mapInner f inner

/-- A segment with the class types in its arguments replaced. -/
def ClassSegment.mapClassTypes (f : ClassTypeMap) : ClassSegment → ClassSegment
  | .mk name arguments => .mk name (TypeArgument.mapList f arguments)

/-- Type arguments with their class types replaced. -/
def TypeArgument.mapList (f : ClassTypeMap) : List TypeArgument → List TypeArgument
  | [] => []
  | argument :: arguments => argument.mapClassTypes f :: TypeArgument.mapList f arguments

/-- A type argument with its class types replaced. -/
def TypeArgument.mapClassTypes (f : ClassTypeMap) : TypeArgument → TypeArgument
  | .any => .any
  | .bounded variance bound => .bounded variance (bound.mapClassTypes f)

end

/-- A type parameter with the class types in its bounds replaced. -/
def TypeParameter.mapClassTypes (f : ClassTypeMap) (parameter : TypeParameter) : TypeParameter :=
  { parameter with
    classBound := parameter.classBound.map (·.mapClassTypes f)
    interfaceBounds := parameter.interfaceBounds.map (·.mapClassTypes f) }

/-- A class signature with its class types replaced. -/
def ClassSignature.mapClassTypes (f : ClassTypeMap) (signature : ClassSignature) :
    ClassSignature where
  parameters := signature.parameters.map (·.mapClassTypes f)
  superclass := signature.superclass.mapClassTypes f
  interfaces := signature.interfaces.map (·.mapClassTypes f)

/-- A method signature with its class types replaced. -/
def MethodSignature.mapClassTypes (f : ClassTypeMap) (signature : MethodSignature) :
    MethodSignature where
  typeParameters := signature.typeParameters.map (·.mapClassTypes f)
  parameters := signature.parameters.map (·.mapClassTypes f)
  result := signature.result.map (·.mapClassTypes f)
  thrown := signature.thrown.map (·.mapClassTypes f)

/-- A signature with its class types replaced. -/
def Signature.mapClassTypes (f : ClassTypeMap) : Signature → Signature
  | ofClass signature => ofClass (signature.mapClassTypes f)
  | ofMethod signature => ofMethod (signature.mapClassTypes f)
  | ofField type => ofField (type.mapClassTypes f)

end Nomenclator

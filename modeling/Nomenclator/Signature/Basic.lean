import Nomenclator.Descriptor

/-!
# Generic signatures

Generic signatures say of a class, method or field what its descriptor leaves
out: type parameters, type variables and the arguments of generic classes. A
class type is its outermost class followed by the inner classes inside it, each
with arguments of its own: `Lpkg/Outer<..>.Inner<..>;`.

The text of a signature is the one form in which class files hold it.

Specification: `SPEC_FULL.md` §4.4, the typed generic signatures.
-/

namespace Nomenclator

/-! ## Types -/

/-- How a type argument relates to its bound. -/
inductive Variance where
  /-- Exactly the bound. -/
  | invariant
  /-- Any subtype of the bound. -/
  | covariant
  /-- Any supertype of the bound. -/
  | contravariant
  deriving DecidableEq, Repr

mutual

/-- A type in a signature. -/
inductive GenericType where
  | base (type : BaseType)
  | reference (type : ReferenceType)

/-- A type of objects. -/
inductive ReferenceType where
  | classType (type : ClassType)
  | typeVariable (name : String)
  | array (component : GenericType)

/-- A class with the chain of inner classes that lead to the one meant. -/
inductive ClassType where
  | mk (outer : ClassSegment) (inner : List ClassSegment)

/-- One class of a class type: an internal name for the outermost, a simple
    name for an inner class, and the type arguments. -/
inductive ClassSegment where
  | mk (name : String) (arguments : List TypeArgument)

/-- A type argument; `any` is the wildcard without a bound. -/
inductive TypeArgument where
  | any
  | bounded (variance : Variance) (bound : ReferenceType)

end

/-- The name of a segment. -/
def ClassSegment.name : ClassSegment → String
  | mk name _ => name

/-- The type arguments of a segment. -/
def ClassSegment.arguments : ClassSegment → List TypeArgument
  | mk _ arguments => arguments

/-- The outermost class of a class type. -/
def ClassType.outer : ClassType → ClassSegment
  | mk outer _ => outer

/-- The inner classes of a class type, from the outside in. -/
def ClassType.inner : ClassType → List ClassSegment
  | mk _ inner => inner

/-- A type parameter with its bounds; the class bound may be left out. -/
structure TypeParameter where
  name : String
  classBound : Option ReferenceType
  interfaceBounds : List ReferenceType

/-- The signature of a class. -/
structure ClassSignature where
  parameters : List TypeParameter
  superclass : ClassType
  interfaces : List ClassType

/-- The signature of a method; a method without result has no result type. -/
structure MethodSignature where
  typeParameters : List TypeParameter
  parameters : List GenericType
  result : Option GenericType
  thrown : List ReferenceType

/-- The signature of a class, method or field (`Signature`, §4.4). -/
inductive Signature where
  | ofClass (signature : ClassSignature)
  | ofMethod (signature : MethodSignature)
  | ofField (type : ReferenceType)

/-! ## Text -/

/-- The mark in front of the bound of a type argument. -/
def Variance.mark : Variance → List Char
  | invariant => []
  | covariant => ['+']
  | contravariant => ['-']

mutual

/-- The text of a type. -/
def GenericType.chars : GenericType → List Char
  | .base type => [type.letter]
  | .reference type => type.chars

/-- The text of a type of objects. -/
def ReferenceType.chars : ReferenceType → List Char
  | .classType type => type.chars
  | .typeVariable name => 'T' :: name.toList ++ [';']
  | .array component => '[' :: component.chars

/-- The text of a class type. -/
def ClassType.chars : ClassType → List Char
  | .mk outer inner => 'L' :: outer.chars ++ ClassSegment.innerChars inner ++ [';']

/-- The text of inner segments, each behind a dot. -/
def ClassSegment.innerChars : List ClassSegment → List Char
  | [] => []
  | segment :: inner => '.' :: segment.chars ++ ClassSegment.innerChars inner

/-- The text of a segment; angle brackets enclose the arguments, if any. -/
def ClassSegment.chars : ClassSegment → List Char
  | .mk name [] => name.toList
  | .mk name (first :: arguments) =>
    name.toList ++ '<' :: first.chars ++ TypeArgument.listChars arguments ++ ['>']

/-- The text of type arguments in a row. -/
def TypeArgument.listChars : List TypeArgument → List Char
  | [] => []
  | argument :: arguments => argument.chars ++ TypeArgument.listChars arguments

/-- The text of a type argument. -/
def TypeArgument.chars : TypeArgument → List Char
  | .any => ['*']
  | .bounded variance bound => variance.mark ++ bound.chars

end

namespace TypeParameter

/-- The text of a type parameter: its name and a colon before each bound. -/
def chars (parameter : TypeParameter) : List Char :=
  parameter.name.toList ++ ':' ::
    (match parameter.classBound with
     | some bound => bound.chars
     | none => []) ++
    parameter.interfaceBounds.flatMap fun bound => ':' :: bound.chars

/-- The text of type parameters, in angle brackets if there are any. -/
def listChars (parameters : List TypeParameter) : List Char :=
  if parameters.isEmpty then [] else '<' :: parameters.flatMap chars ++ ['>']

end TypeParameter

/-- The text of a class signature. -/
def ClassSignature.chars (signature : ClassSignature) : List Char :=
  TypeParameter.listChars signature.parameters ++ signature.superclass.chars ++
    signature.interfaces.flatMap ClassType.chars

/-- The text of a method signature. -/
def MethodSignature.chars (signature : MethodSignature) : List Char :=
  TypeParameter.listChars signature.typeParameters ++
    '(' :: signature.parameters.flatMap GenericType.chars ++ ')' ::
    (match signature.result with
     | some type => type.chars
     | none => ['V']) ++
    signature.thrown.flatMap fun type => '^' :: type.chars

/-- The text of a signature. -/
def Signature.chars : Signature → List Char
  | ofClass signature => signature.chars
  | ofMethod signature => signature.chars
  | ofField type => type.chars

/-- The text of a signature. -/
def Signature.text (signature : Signature) : String := String.ofList signature.chars

end Nomenclator

import Nomenclator.Signature.Basic
import Nomenclator.Text.Scanner

/-!
# Reading generic signatures

Signatures are read by recursive descent. Two limits bound what is accepted: a
type may nest types in its arguments and array components 128 levels deep, and
an array has at most 255 dimensions in a row. The recursion is on the levels
that are left, so every part of a type is read by a scanner that is handed the
one for the types inside it.

A refused signature is reported as a whole.

Specification: `SPEC_FULL.md` §4.4, `parse_signature`.
-/

namespace Nomenclator

namespace SignatureScanner

/-- How deep types may nest. -/
def maxNesting : Nat := 128

/-- How many dimensions an array may have. -/
def maxDimensions : Nat := 255

/-- A non-empty name that ends before one of the stops, or at the end. -/
def identifier (stops : List Char) : Scanner String := fun text => do
  let (name, rest) ← Scanner.run1 (fun c => !stops.contains c) text
  return (String.ofList name, rest)

/-- Items in angle brackets, at least one; none where no bracket opens. -/
def enclosed {α : Type} (item : Scanner α) : Scanner (List α)
  | '<' :: text => do
    let (items, rest) ←
      Scanner.repeatWhile (fun ahead => !Scanner.startsWith '>' ahead) item text
    let rest ← Scanner.expect '>' rest
    if items.isEmpty then none else return (items, rest)
  | text => some ([], text)

/-! ## Types -/

/-- A type argument, given the scanner for its bound. -/
def typeArgument (bound : Scanner ReferenceType) : Scanner TypeArgument
  | '*' :: text => some (.any, text)
  | '+' :: text => do
    let (type, rest) ← bound text
    return (.bounded .covariant type, rest)
  | '-' :: text => do
    let (type, rest) ← bound text
    return (.bounded .contravariant type, rest)
  | text => do
    let (type, rest) ← bound text
    return (.bounded .invariant type, rest)

/-- Type arguments in angle brackets, if any. -/
def typeArguments (bound : Scanner ReferenceType) : Scanner (List TypeArgument) :=
  enclosed (typeArgument bound)

/-- A class of a class type with its arguments. -/
def classSegment (bound : Scanner ReferenceType) : Scanner ClassSegment := fun text => do
  let (name, rest) ← identifier ['<', '.', ';'] text
  let (arguments, rest) ← typeArguments bound rest
  return (.mk name arguments, rest)

/-- An inner class behind its dot. -/
def innerSegment (bound : Scanner ReferenceType) : Scanner ClassSegment := fun text => do
  let rest ← Scanner.expect '.' text
  classSegment bound rest

/-- A class type, given the scanner for the bounds of its arguments. -/
def classType (bound : Scanner ReferenceType) : Scanner ClassType := fun text => do
  let rest ← Scanner.expect 'L' text
  let (outer, rest) ← classSegment bound rest
  let (inner, rest) ← Scanner.repeatWhile (Scanner.startsWith '.') (innerSegment bound) rest
  let rest ← Scanner.expect ';' rest
  return (.mk outer inner, rest)

/-- A type variable behind its `T`. -/
def typeVariable : Scanner ReferenceType := fun text => do
  let rest ← Scanner.expect 'T' text
  let (name, rest) ← identifier [';'] rest
  let rest ← Scanner.expect ';' rest
  return (.typeVariable name, rest)

/-- A base type, or whatever the scanner for types of objects accepts. -/
def genericType (reference : Scanner ReferenceType) : Scanner GenericType := fun text =>
  match text.head?.bind BaseType.ofLetter? with
  | some type => some (.base type, text.tail)
  | none => do
    let (type, rest) ← reference text
    return (.reference type, rest)

/-- The component type inside `dimensions` arrays. -/
def nestedArrays : (dimensions : Nat) → GenericType → GenericType
  | 0, component => component
  | dimensions + 1, component => .reference (.array (nestedArrays dimensions component))

/-- An array: all its dimensions at once, then the component type. -/
def arrayType (reference : Scanner ReferenceType) : Scanner ReferenceType := fun text => do
  let dimensions := (text.takeWhile (· = '[')).length
  if maxDimensions < dimensions then none
  else
    let (component, rest) ← genericType reference (text.dropWhile (· = '['))
    return (.array (nestedArrays (dimensions - 1) component), rest)

/-- A type of objects that may nest `levels` deep. -/
def referenceType : (levels : Nat) → Scanner ReferenceType
  | 0, _ => none
  | levels + 1, text =>
    match text with
    | 'L' :: _ => do
      let (type, rest) ← classType (referenceType levels) text
      return (.classType type, rest)
    | 'T' :: _ => typeVariable text
    | '[' :: _ => arrayType (referenceType levels) text
    | _ => none

/-- A type of objects, at the full depth. -/
def anyReferenceType : Scanner ReferenceType := referenceType maxNesting

/-- A class type that stands by itself. It takes up no level of nesting. -/
def anyClassType : Scanner ClassType := classType anyReferenceType

/-! ## Type parameters -/

/-- The class bound of a type parameter, left out where the next bound or the
    end of the parameters follows at once. -/
def classBound : Scanner (Option ReferenceType) := fun text =>
  if Scanner.startsWith ':' text || Scanner.startsWith '>' text then some (none, text)
  else do
    let (type, rest) ← anyReferenceType text
    return (some type, rest)

/-- An interface bound behind its colon. -/
def interfaceBound : Scanner ReferenceType := fun text => do
  let rest ← Scanner.expect ':' text
  anyReferenceType rest

/-- A type parameter. -/
def typeParameter : Scanner TypeParameter := fun text => do
  let (name, rest) ← identifier [':', '>'] text
  let rest ← Scanner.expect ':' rest
  let (classBound, rest) ← classBound rest
  let (interfaceBounds, rest) ←
    Scanner.repeatWhile (Scanner.startsWith ':') interfaceBound rest
  return (⟨name, classBound, interfaceBounds⟩, rest)

/-- Type parameters in angle brackets, if any. -/
def typeParameters : Scanner (List TypeParameter) := enclosed typeParameter

/-! ## Whole signatures -/

/-- The interfaces that make up the rest of a class signature. -/
def interfaces (text : List Char) : Option (List ClassType) := do
  let (interfaces, _) ← Scanner.repeatWhile (fun ahead => !ahead.isEmpty) anyClassType text
  return interfaces

/-- A thrown type behind its mark; arrays cannot be thrown. -/
def thrownType : Scanner ReferenceType := fun text => do
  let rest ← Scanner.expect '^' text
  let (type, rest) ← anyReferenceType rest
  match type with
  | .array _ => none
  | type => return (type, rest)

/-- The result type of a method, or `V`. -/
def resultType : Scanner (Option GenericType)
  | 'V' :: text => some (none, text)
  | text => do
    let (type, rest) ← genericType anyReferenceType text
    return (some type, rest)

/-- A method signature behind its type parameters, up to the end. -/
def methodAfter (typeParameters : List TypeParameter) (text : List Char) :
    Option MethodSignature := do
  let rest ← Scanner.expect '(' text
  let (parameters, rest) ←
    Scanner.repeatWhile (fun ahead => !Scanner.startsWith ')' ahead)
      (genericType anyReferenceType) rest
  let rest ← Scanner.expect ')' rest
  let (result, rest) ← resultType rest
  let (thrown, rest) ← Scanner.repeatWhile (Scanner.startsWith '^') thrownType rest
  if rest.isEmpty then return ⟨typeParameters, parameters, result, thrown⟩ else none

/-- A class signature. -/
def classSignature (text : List Char) : Option ClassSignature := do
  let (parameters, rest) ← typeParameters text
  let (superclass, rest) ← anyClassType rest
  let interfaces ← interfaces rest
  return ⟨parameters, superclass, interfaces⟩

/-- A method signature. -/
def methodSignature (text : List Char) : Option MethodSignature := do
  let (typeParameters, rest) ← typeParameters text
  methodAfter typeParameters rest

/-- A field signature. -/
def fieldSignature (text : List Char) : Option ReferenceType := do
  let (type, rest) ← anyReferenceType text
  if rest.isEmpty then return type else none

/-- A signature of any kind. A parenthesis behind the type parameters, if any,
    makes it a method's and type parameters without one a class's. Otherwise a
    type of objects comes first: alone it is a field's, and a class type that
    is followed by more is the superclass of a class. -/
def anySignature (text : List Char) : Option Signature := do
  let (parameters, rest) ← typeParameters text
  if Scanner.startsWith '(' rest then
    return .ofMethod (← methodAfter parameters rest)
  else if parameters.isEmpty then
    let (first, rest) ← anyReferenceType rest
    if rest.isEmpty then return .ofField first
    else
      match first with
      | .classType superclass => return .ofClass ⟨[], superclass, ← interfaces rest⟩
      | _ => none
  else
    let (superclass, rest) ← anyClassType rest
    return .ofClass ⟨parameters, superclass, ← interfaces rest⟩

end SignatureScanner

/-- What a scan of the whole text found, or the refusal of the text. -/
def Malformed.signatureOr {α : Type} (s : String) : Option α → Except Malformed α
  | some signature => .ok signature
  | none => .error (.badSignature s)

/-- The class signature that a text stands for. -/
def ClassSignature.parse (s : String) : Except Malformed ClassSignature :=
  Malformed.signatureOr s (SignatureScanner.classSignature s.toList)

/-- The method signature that a text stands for. -/
def MethodSignature.parse (s : String) : Except Malformed MethodSignature :=
  Malformed.signatureOr s (SignatureScanner.methodSignature s.toList)

/-- The field signature that a text stands for. -/
def ReferenceType.parse (s : String) : Except Malformed ReferenceType :=
  Malformed.signatureOr s (SignatureScanner.fieldSignature s.toList)

/-- The signature of any kind that a text stands for (`parse_signature`, §4.4). -/
def Signature.parse (s : String) : Except Malformed Signature :=
  Malformed.signatureOr s (SignatureScanner.anySignature s.toList)

end Nomenclator

import Nomenclator.ClassFile.Malformed

/-!
# Descriptors

The types of fields and methods as class files write them: a letter for a base
type, `L` name `;` for a class, `[` before the type of the components of an
array, and for a method its parameter types in parentheses before the type of
its result, with `V` for no result.

A refused field descriptor reports the text at which no type starts; a method
descriptor whose parameter list is in order reports the whole text.

Specification: `SPEC_FULL.md` §1, descriptor parsing of the class-file reader.

Results:
* `FieldType.read_shorter`: a type that is read takes at least one character.
-/

namespace Nomenclator

/-- The types of numbers and truth values. -/
inductive BaseType where
  | byte
  | char
  | double
  | float
  | int
  | long
  | short
  | boolean
  deriving DecidableEq, Repr

namespace BaseType

/-- The letter of a base type. -/
def letter : BaseType → Char
  | byte => 'B'
  | char => 'C'
  | double => 'D'
  | float => 'F'
  | int => 'I'
  | long => 'J'
  | short => 'S'
  | boolean => 'Z'

/-- The base type with this letter. -/
def ofLetter? (c : Char) : Option BaseType :=
  match c with
  | 'B' => some byte
  | 'C' => some char
  | 'D' => some double
  | 'F' => some float
  | 'I' => some int
  | 'J' => some long
  | 'S' => some short
  | 'Z' => some boolean
  | _ => none

end BaseType

/-! ## Fields -/

/-- The type of a field. -/
inductive FieldType where
  | base (type : BaseType)
  | object (name : String)
  | array (component : FieldType)
  deriving DecidableEq, Repr

namespace FieldType

/-- The characters of a descriptor. -/
def chars : FieldType → List Char
  | base type => [type.letter]
  | object name => 'L' :: name.toList ++ [';']
  | array component => '[' :: component.chars

/-- The descriptor of a type. -/
def descriptor (type : FieldType) : String := String.ofList type.chars

/-- The type at the front of a text and the text behind it, or the text at
    which a type should start. -/
def read : List Char → Except (List Char) (FieldType × List Char)
  | [] => .error []
  | 'L' :: text =>
    match text.dropWhile (· ≠ ';') with
    | _ :: rest =>
      let name := text.takeWhile (· ≠ ';')
      if name.isEmpty then .error ('L' :: text) else .ok (object (String.ofList name), rest)
    | [] => .error ('L' :: text)
  | '[' :: text =>
    match read text with
    | .ok (component, rest) => .ok (array component, rest)
    | .error found => .error found
  | c :: text =>
    match BaseType.ofLetter? c with
    | some type => .ok (base type, text)
    | none => .error (c :: text)

/-- A type that is read takes at least one character. -/
theorem read_shorter {text rest : List Char} {type : FieldType}
    (h : read text = .ok (type, rest)) : rest.length < text.length := by
  fun_induction read text generalizing type rest with
  | case1 => cases h
  | case2 text d behind hd hname => cases h
  | case3 text d behind hd hname =>
    obtain ⟨-, rfl⟩ := Prod.mk.injEq .. ▸ Except.ok.inj h
    have hle := (List.dropWhile_suffix (l := text) (· ≠ ';')).length_le
    rw [hd] at hle
    simp only [List.length_cons] at hle ⊢
    omega
  | case4 text hd => cases h
  | case5 text component behind hread ih =>
    obtain ⟨-, rfl⟩ := Prod.mk.injEq .. ▸ Except.ok.inj h
    exact Nat.lt_succ_of_lt (ih hread)
  | case6 text found hread ih => cases h
  | case7 c text hL hA type' hc =>
    obtain ⟨-, rfl⟩ := Prod.mk.injEq .. ▸ Except.ok.inj h
    exact Nat.lt_succ_self _
  | case8 c text hL hA hc => cases h

/-- The type that a descriptor stands for. -/
def parse (s : String) : Except Malformed FieldType :=
  match read s.toList with
  | .ok (type, []) => .ok type
  | .ok (_, _ :: _) => .error (.badDescriptor s)
  | .error found => .error (.badDescriptor (String.ofList found))

/-- The type is an array whose components are objects of the class. -/
def isArrayOfClass (type : FieldType) (name : String) : Bool :=
  type = array (object name)

end FieldType

/-! ## Methods -/

/-- The parameter types of a method and the type of its result, if it has
    one. -/
structure MethodDescriptor where
  parameters : List FieldType
  result : Option FieldType
  deriving DecidableEq, Repr

namespace MethodDescriptor

/-- The characters of a descriptor. -/
def chars (method : MethodDescriptor) : List Char :=
  '(' :: method.parameters.flatMap FieldType.chars ++ ')' ::
    (match method.result with
     | some type => type.chars
     | none => ['V'])

/-- The descriptor of a method. -/
def descriptor (method : MethodDescriptor) : String := String.ofList method.chars

/-- The parameter types up to the closing parenthesis and the text behind it.
    A text that ends before the parenthesis gives `none`. -/
def readParameters (text : List Char) :
    Except (List Char) (Option (List FieldType × List Char)) :=
  match text with
  | [] => .ok none
  | ')' :: rest => .ok (some ([], rest))
  | c :: text =>
    match _ : FieldType.read (c :: text) with
    | .error found => .error found
    | .ok (type, rest) =>
      match readParameters rest with
      | .ok (some (types, behind)) => .ok (some (type :: types, behind))
      | other => other
termination_by text.length
decreasing_by exact FieldType.read_shorter ‹_›

/-- The result type that is the whole of a text. -/
def readResult? (text : List Char) : Option (Option FieldType) :=
  if text = ['V'] then some none
  else
    match FieldType.read text with
    | .ok (type, []) => some (some type)
    | _ => none

/-- The parameters and result that a descriptor stands for. -/
def parse (s : String) : Except Malformed MethodDescriptor :=
  match s.toList with
  | '(' :: text =>
    match readParameters text with
    | .error found => .error (.badDescriptor (String.ofList found))
    | .ok none => .error (.badDescriptor s)
    | .ok (some (parameters, behind)) =>
      match readResult? behind with
      | some result => .ok ⟨parameters, result⟩
      | none => .error (.badDescriptor s)
  | _ => .error (.badDescriptor s)

end MethodDescriptor

end Nomenclator

import Nomenclator.ClassFile.Decoder
import Nomenclator.ClassFile.ModifiedUtf8

/-!
# The constant pool

The constants of a class and the look-ups that follow their references. Slots
are numbered from one. A long or double constant takes two slots, of which the
second is unusable, as is slot zero.

A look-up first asks that the slot be usable and only then that the constant be
of the kind its use requires.

Specification: `SPEC_FULL.md` §2, the class-file reader.
-/

namespace Nomenclator

/-- A constant of a class. References are slot numbers. -/
inductive Constant where
  | utf8 (text : String)
  | integer (bits : UInt32)
  | float (bits : UInt32)
  | long (high low : UInt32)
  | double (high low : UInt32)
  | classRef (name : UInt16)
  | string (text : UInt16)
  | fieldRef (owner nameAndType : UInt16)
  | methodRef (owner nameAndType : UInt16)
  | interfaceMethodRef (owner nameAndType : UInt16)
  | nameAndType (name descriptor : UInt16)
  | methodHandle (behaviour : UInt8) (target : UInt16)
  | methodType (descriptor : UInt16)
  | dynamic (bootstrap nameAndType : UInt16)
  | invokeDynamic (bootstrap nameAndType : UInt16)
  | moduleRef (name : UInt16)
  | packageRef (name : UInt16)
  deriving DecidableEq, Repr

namespace Constant

/-- The kind of a constant. -/
def kind : Constant → ConstantKind
  | utf8 .. => .utf8
  | integer .. => .integer
  | float .. => .float
  | long .. => .long
  | double .. => .double
  | classRef .. => .classRef
  | string .. => .string
  | fieldRef .. => .fieldRef
  | methodRef .. => .methodRef
  | interfaceMethodRef .. => .interfaceMethodRef
  | nameAndType .. => .nameAndType
  | methodHandle .. => .methodHandle
  | methodType .. => .methodType
  | dynamic .. => .dynamic
  | invokeDynamic .. => .invokeDynamic
  | moduleRef .. => .moduleRef
  | packageRef .. => .packageRef

/-- The constant takes two slots. -/
def isWide : Constant → Bool
  | long .. | double .. => true
  | _ => false

/-- The text constant whose length and bytes come next. -/
def readText : Decoder Constant := do
  let length ← Decoder.word
  let bytes ← Decoder.take length.toNat
  match ModifiedUtf8.decode? bytes with
  | some text => return utf8 text
  | none => throw .badModifiedUtf8

/-- The constant with the given tag, whose contents come next. -/
def readTagged (tag : UInt8) : Decoder Constant :=
  match tag with
  | 1 => readText
  | 3 => return integer (← Decoder.doubleWord)
  | 4 => return float (← Decoder.doubleWord)
  | 5 => return long (← Decoder.doubleWord) (← Decoder.doubleWord)
  | 6 => return double (← Decoder.doubleWord) (← Decoder.doubleWord)
  | 7 => return classRef (← Decoder.word)
  | 8 => return string (← Decoder.word)
  | 9 => return fieldRef (← Decoder.word) (← Decoder.word)
  | 10 => return methodRef (← Decoder.word) (← Decoder.word)
  | 11 => return interfaceMethodRef (← Decoder.word) (← Decoder.word)
  | 12 => return nameAndType (← Decoder.word) (← Decoder.word)
  | 15 => return methodHandle (← Decoder.byte) (← Decoder.word)
  | 16 => return methodType (← Decoder.word)
  | 17 => return dynamic (← Decoder.word) (← Decoder.word)
  | 18 => return invokeDynamic (← Decoder.word) (← Decoder.word)
  | 19 => return moduleRef (← Decoder.word)
  | 20 => return packageRef (← Decoder.word)
  | _ => throw (.badTag tag)

/-- A constant: its tag, then its contents. -/
def read : Decoder Constant := do
  let tag ← Decoder.byte
  readTagged tag

end Constant

/-- The constants by slot; an unusable slot is empty. -/
structure ConstantPool where
  slots : Array (Option Constant)
  deriving DecidableEq, Repr

namespace ConstantPool

/-- Constants until `count` slots are filled. A wide constant in the last slot
    has no second one. -/
def readSlots : (count : Nat) → Decoder (List (Option Constant))
  | 0 => return []
  | 1 => return [some (← Constant.read)]
  | count + 2 => do
    let constant ← Constant.read
    if constant.isWide then return some constant :: none :: (← readSlots count)
    else return some constant :: (← readSlots (count + 1))

/-- A constant pool: one more than the number of its slots, then the
    constants. -/
def read : Decoder ConstantPool := do
  let count ← Decoder.word
  let slots ← readSlots (count.toNat - 1)
  return ⟨(none :: slots).toArray⟩

/-! ## Look-ups -/

/-- The constant in a usable slot. -/
def constant (pool : ConstantPool) (index : UInt16) : Except Malformed Constant :=
  match pool.slots[index.toNat]? with
  | some (some constant) => .ok constant
  | _ => .error (.badIndex index)

/-- The text of a text constant. -/
def text (pool : ConstantPool) (index : UInt16) : Except Malformed String := do
  match ← pool.constant index with
  | .utf8 text => return text
  | other => throw (.wrongKind index .utf8 other.kind)

/-- The name of the class that a class constant stands for. -/
def className (pool : ConstantPool) (index : UInt16) : Except Malformed String := do
  match ← pool.constant index with
  | .classRef name => pool.text name
  | other => throw (.wrongKind index .classRef other.kind)

/-- The text of a string constant, and nothing for a constant of another kind. -/
def string? (pool : ConstantPool) (index : UInt16) : Except Malformed (Option String) := do
  match ← pool.constant index with
  | .string text => return some (← pool.text text)
  | _ => return none

/-- The two references of a field, method or interface method constant. -/
def memberParts (pool : ConstantPool) (index : UInt16) : Except Malformed (UInt16 × UInt16) := do
  match ← pool.constant index with
  | .fieldRef owner nameAndType => return (owner, nameAndType)
  | .methodRef owner nameAndType => return (owner, nameAndType)
  | .interfaceMethodRef owner nameAndType => return (owner, nameAndType)
  | other => throw (.wrongKind index .fieldRef other.kind)

/-- The two references of a name-and-type constant. -/
def nameAndType (pool : ConstantPool) (index : UInt16) : Except Malformed (UInt16 × UInt16) := do
  match ← pool.constant index with
  | .nameAndType name descriptor => return (name, descriptor)
  | other => throw (.wrongKind index .nameAndType other.kind)

/-- A member of a class as code refers to it. -/
structure MemberRef where
  owner : String
  name : String
  descriptor : String
  deriving DecidableEq, Repr

/-- The member that a field, method or interface method constant stands for. -/
def member (pool : ConstantPool) (index : UInt16) : Except Malformed MemberRef := do
  let (ownerIndex, nameAndTypeIndex) ← pool.memberParts index
  let (nameIndex, descriptorIndex) ← pool.nameAndType nameAndTypeIndex
  let owner ← pool.className ownerIndex
  let name ← pool.text nameIndex
  let descriptor ← pool.text descriptorIndex
  return ⟨owner, name, descriptor⟩

end ConstantPool

end Nomenclator

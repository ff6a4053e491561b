import Nomenclator.Text.Hexadecimal

/-!
# What can be wrong with a class file

The causes for which class files, their code, and the descriptors and
signatures inside them are refused, and the message that reports each cause.

Specification: `SPEC_FULL.md` §7, malformed class bytes.
-/

namespace Nomenclator

/-- The kinds of constants in a constant pool. -/
inductive ConstantKind where
  | utf8
  | integer
  | float
  | long
  | double
  | classRef
  | string
  | fieldRef
  | methodRef
  | interfaceMethodRef
  | nameAndType
  | methodHandle
  | methodType
  | dynamic
  | invokeDynamic
  | moduleRef
  | packageRef
  deriving DecidableEq, Repr

/-- The name of a kind of constant in the class-file format. -/
def ConstantKind.name : ConstantKind → String
  | utf8 => "Utf8"
  | integer => "Integer"
  | float => "Float"
  | long => "Long"
  | double => "Double"
  | classRef => "Class"
  | string => "String"
  | fieldRef => "Fieldref"
  | methodRef => "Methodref"
  | interfaceMethodRef => "InterfaceMethodref"
  | nameAndType => "NameAndType"
  | methodHandle => "MethodHandle"
  | methodType => "MethodType"
  | dynamic => "Dynamic"
  | invokeDynamic => "InvokeDynamic"
  | moduleRef => "Module"
  | packageRef => "Package"

/-- Why bytes, a descriptor or a signature are refused. -/
inductive Malformed where
  /-- The input ends inside an item. -/
  | unexpectedEnd
  /-- The file does not start with the class-file magic number. -/
  | badMagic (found : UInt32)
  /-- No usable constant has this index. -/
  | badIndex (index : UInt16)
  /-- No kind of constant has this tag. -/
  | badTag (tag : UInt8)
  /-- The constant at the index is of another kind than its use requires. -/
  | wrongKind (index : UInt16) (expected found : ConstantKind)
  /-- A text constant is not modified UTF-8. -/
  | badModifiedUtf8
  /-- The text is no descriptor. -/
  | badDescriptor (text : String)
  /-- The text is no generic signature. -/
  | badSignature (text : String)
  /-- The contents of the attribute contradict its length. -/
  | badAttribute (name : String)
  /-- Bytes are left over after the class. -/
  | trailingBytes (count : Nat)
  /-- No instruction has this opcode. -/
  | badOpcode (opcode : UInt8) (offset : Nat)
  /-- The instruction does not fit into the code. -/
  | truncatedInstruction (opcode : UInt8) (offset : Nat)
  deriving DecidableEq, Repr

/-- The message that reports a cause. -/
def Malformed.message : Malformed → String
  | unexpectedEnd => "unexpected end of input"
  | badMagic found =>
    "invalid classfile magic: 0x" ++ String.ofList (Text.hexadecimal 8 found.toNat)
  | badIndex index => "invalid constant pool index: " ++ toString index.toNat
  | badTag tag => "invalid constant pool tag: " ++ toString tag.toNat
  | wrongKind index expected found =>
    "constant pool type mismatch at index " ++ toString index.toNat ++ ": expected " ++
      expected.name ++ ", found " ++ found.name
  | badModifiedUtf8 => "invalid modified UTF-8 constant"
  | badDescriptor text => "invalid descriptor: " ++ text
  | badSignature text => "invalid signature: " ++ text
  | badAttribute name => "malformed " ++ name ++ " attribute"
  | trailingBytes count => toString count ++ " trailing bytes after class file"
  | badOpcode opcode offset =>
    "invalid opcode 0x" ++ String.ofList (Text.hexadecimal 2 opcode.toNat) ++ " at offset " ++
      toString offset
  | truncatedInstruction opcode offset =>
    "instruction 0x" ++ String.ofList (Text.hexadecimal 2 opcode.toNat) ++ " at offset " ++
      toString offset ++ " runs past the end of the code"

end Nomenclator

import Nomenclator.ClassFile.ConstantPool

/-!
# Instructions

The code of a method is a sequence of instructions, each an opcode followed by
its operands. Only the instructions that take part in recovering names are
decoded into their meaning; all others are kept as bare opcodes, so the order
of instructions is complete.

The length of an instruction is fixed by its opcode, with three exceptions: the
two switches carry a table behind padding that aligns it to a multiple of four
in the code, and `wide` lengthens the instruction it precedes.

Specification: `SPEC_FULL.md` §3, the instruction model.
-/

namespace Nomenclator

/-- The four instructions that read or write a field (`FieldOp`, §3). -/
inductive FieldAccess where
  | getStatic
  | putStatic
  | getField
  | putField
  deriving DecidableEq, Repr

/-- An instruction as the recovery of names sees it (`Insn`, §3). -/
inductive Instruction where
  /-- Creates an object of a class. -/
  | new (className : String)
  /-- Loads a string constant. -/
  | loadString (text : String)
  /-- Loads a constant that is no string. -/
  | loadOther
  /-- Reads or writes a field. -/
  | field (access : FieldAccess) (owner name descriptor : String)
  /-- Any other instruction, by its opcode. -/
  | other (opcode : UInt8)
  deriving DecidableEq, Repr

namespace Instruction

/-! ## Lengths -/

/-- The opcodes from `first` to `last` take `length` bytes, the opcode
    included. -/
structure LengthRun where
  first : Nat
  last : Nat
  length : Nat

/-- The lengths that the opcode alone decides. -/
def fixedLengths : List LengthRun :=
  [⟨0x00, 0x0f, 1⟩, ⟨0x10, 0x10, 2⟩, ⟨0x11, 0x11, 3⟩, ⟨0x12, 0x12, 2⟩, ⟨0x13, 0x14, 3⟩,
   ⟨0x15, 0x19, 2⟩, ⟨0x1a, 0x35, 1⟩, ⟨0x36, 0x3a, 2⟩, ⟨0x3b, 0x83, 1⟩, ⟨0x84, 0x84, 3⟩,
   ⟨0x85, 0x98, 1⟩, ⟨0x99, 0xa8, 3⟩, ⟨0xa9, 0xa9, 2⟩, ⟨0xac, 0xb1, 1⟩, ⟨0xb2, 0xb8, 3⟩,
   ⟨0xb9, 0xba, 5⟩, ⟨0xbb, 0xbb, 3⟩, ⟨0xbc, 0xbc, 2⟩, ⟨0xbd, 0xbd, 3⟩, ⟨0xbe, 0xbf, 1⟩,
   ⟨0xc0, 0xc1, 3⟩, ⟨0xc2, 0xc3, 1⟩, ⟨0xc5, 0xc5, 4⟩, ⟨0xc6, 0xc7, 3⟩, ⟨0xc8, 0xc9, 5⟩,
   ⟨0xca, 0xca, 1⟩, ⟨0xfe, 0xff, 1⟩]

/-- The length that the opcode alone decides, if it does. -/
def fixedLength? (opcode : UInt8) : Option Nat :=
  (fixedLengths.find? fun run => run.first ≤ opcode.toNat && opcode.toNat ≤ run.last).map
    (·.length)

/-- The signed big-endian number in the first four bytes. -/
def signed? : List UInt8 → Option Int
  | a :: b :: c :: d :: _ =>
    let n := ((a.toNat * 256 + b.toNat) * 256 + c.toNat) * 256 + d.toNat
    some (if n < 0x80000000 then (n : Int) else (n : Int) - 0x100000000)
  | _ => none

/-- The padding between the opcode of a switch at `offset` and its table, which
    starts at the next multiple of four. -/
def padding (offset : Nat) : Nat := 3 - offset % 4

/-- The length of a jump table over a range of keys; its operands are the
    padding, the default target, the least and the greatest key and a target
    for each key. -/
def tableSwitchLength? (offset : Nat) (operands : List UInt8) : Option Nat := do
  let low ← signed? (operands.drop (padding offset + 4))
  let high ← signed? (operands.drop (padding offset + 8))
  if high < low then none
  else some (1 + padding offset + 12 + 4 * (high - low + 1).toNat)

/-- The length of a jump table over listed keys; its operands are the padding,
    the default target, the number of pairs and a key and a target for each
    pair. -/
def lookupSwitchLength? (offset : Nat) (operands : List UInt8) : Option Nat := do
  let pairs ← signed? (operands.drop (padding offset + 4))
  if pairs < 0 then none else some (1 + padding offset + 8 + 8 * pairs.toNat)

/-- The length of an instruction made `wide`: six bytes for an increment and
    four for any other. -/
def wideLength? : (operands : List UInt8) → Option Nat
  | [] => none
  | widened :: _ => some (if widened = 0x84 then 6 else 4)

/-- The length of the instruction at `offset`, whose operands are at the front
    of the bytes that follow its opcode. -/
def length (offset : Nat) (opcode : UInt8) (operands : List UInt8) : Except Malformed Nat :=
  let orTruncated (length? : Option Nat) : Except Malformed Nat :=
    match length? with
    | some length => .ok length
    | none => .error (.truncatedInstruction opcode offset)
  if opcode = 0xaa then orTruncated (tableSwitchLength? offset operands)
  else if opcode = 0xab then orTruncated (lookupSwitchLength? offset operands)
  else if opcode = 0xc4 then orTruncated (wideLength? operands)
  else
    match fixedLength? opcode with
    | some length => .ok length
    | none => .error (.badOpcode opcode offset)

/-! ## Meaning -/

/-- The slot number in two operand bytes. -/
def slot (high low : UInt8) : UInt16 := UInt16.ofNat (high.toNat * 256 + low.toNat)

/-- Loading the constant in a slot. -/
def load (pool : ConstantPool) (index : UInt16) : Except Malformed Instruction := do
  match ← pool.string? index with
  | some text => return loadString text
  | none => return loadOther

/-- Reading or writing the field in a slot. -/
def fieldAt (pool : ConstantPool) (access : FieldAccess) (index : UInt16) :
    Except Malformed Instruction := do
  let member ← pool.member index
  return field access member.owner member.name member.descriptor

/-- The meaning of an opcode with its operands. -/
def ofOperands (pool : ConstantPool) (opcode : UInt8) (operands : List UInt8) :
    Except Malformed Instruction :=
  match opcode, operands with
  | 0x12, index :: _ => load pool index.toUInt16
  | 0x13, high :: low :: _ => load pool (slot high low)
  | 0x14, _ => .ok loadOther
  | 0xb2, high :: low :: _ => fieldAt pool .getStatic (slot high low)
  | 0xb3, high :: low :: _ => fieldAt pool .putStatic (slot high low)
  | 0xb4, high :: low :: _ => fieldAt pool .getField (slot high low)
  | 0xb5, high :: low :: _ => fieldAt pool .putField (slot high low)
  | 0xbb, high :: low :: _ => return new (← pool.className (slot high low))
  | _, _ => .ok (other opcode)

/-- The instructions of the code that starts at `offset`. -/
def decodeFrom (pool : ConstantPool) (offset : Nat) (code : List UInt8) :
    Except Malformed (List Instruction) :=
  match code with
  | [] => .ok []
  | opcode :: following => do
    let length ← length offset opcode following
    if following.length + 1 < length then throw (.truncatedInstruction opcode offset)
    let instruction ← ofOperands pool opcode (following.take (length - 1))
    let rest ← decodeFrom pool (offset + length) (following.drop (length - 1))
    return instruction :: rest
termination_by code.length
decreasing_by simp only [List.length_drop, List.length_cons]; omega

end Instruction

/-- The code of a method, with the constants its operands refer to. It is
    decoded only when its instructions are asked for. -/
structure Code where
  maxStack : UInt16
  maxLocals : UInt16
  bytes : List UInt8
  pool : ConstantPool
  deriving DecidableEq, Repr

/-- The instructions of the code in order. -/
def Code.instructions (code : Code) : Except Malformed (List Instruction) :=
  Instruction.decodeFrom code.pool 0 code.bytes

end Nomenclator

import Nomenclator.ClassFile.Instruction
import Nomenclator.Proofs.Decoding
import Nomenclator.Proofs.PoolLookups

/-!
# Instructions against the code they are decoded from

How instructions are laid out in code: each opcode with the operands that the instruction
set gives it, switches with a table that starts at a multiple of four, and `wide` with a
longer form of the instruction behind it. Code is decoded exactly if it consists of such
instructions and the constants that they use are there, and then into their meanings in
order.

Results:
* `Layout`: the operands that may follow an opcode at an offset.
* `Means`: the meaning of an opcode with its operands.
* `length_eq_ok_iff`: the length that is computed from the front of the code is that of the
  one layout that fits there.
* `instructions_eq_ok_iff`: code is decoded exactly if it is assembled.
-/

namespace Nomenclator

/-! ## Signed numbers -/

namespace Encoder

/-- The four bytes of a signed number, in two's complement. -/
def signed (n : Int32) : List UInt8 := doubleWord n.toUInt32

@[simp] theorem length_signed (n : Int32) : (signed n).length = 4 := rfl

/-- Any four bytes are those of a signed number. -/
theorem exists_signed {bytes : List UInt8} (h : bytes.length = 4) : ∃ n, signed n = bytes := by
  obtain ⟨a, b, c, d, rfl⟩ : ∃ a b c d, bytes = [a, b, c, d] := by
    match bytes, h with
    | [a, b, c, d], _ => exact ⟨a, b, c, d, rfl⟩
  have ha := a.toNat_lt
  have hb := b.toNat_lt
  have hc := c.toNat_lt
  have hd := d.toNat_lt
  let n := UInt32.ofNat (((a.toNat * 256 + b.toNat) * 256 + c.toNat) * 256 + d.toNat)
  refine ⟨n.toInt32, ?_⟩
  rw [signed, UInt32.toUInt32_toInt32, doubleWord_eq_iff, UInt32.toNat_ofNat']
  omega

/-- Bytes enough for `count` items of `size` bytes each start with such items, if any
    `size` bytes are those of an item. -/
theorem exists_row {α : Type} {item : α → List UInt8} {size : Nat}
    (hitem : ∀ bytes : List UInt8, bytes.length = size → ∃ a, item a = bytes) {count : Nat}
    {bytes : List UInt8} (h : size * count ≤ bytes.length) :
    ∃ (items : List α) (rest : List UInt8), items.length = count ∧
      bytes = items.flatMap item ++ rest := by
  induction count generalizing bytes with
  | zero => exact ⟨[], bytes, rfl, rfl⟩
  | succ count ih =>
    rw [Nat.mul_succ] at h
    have hfirst : (bytes.take size).length = size := by
      rw [List.length_take]
      omega
    have hrest : size * count ≤ (bytes.drop size).length := by
      rw [List.length_drop]
      omega
    obtain ⟨a, ha⟩ := hitem _ hfirst
    obtain ⟨items, rest, hlength, hitems⟩ := ih hrest
    refine ⟨a :: items, rest, by rw [List.length_cons, hlength], ?_⟩
    rw [List.flatMap_cons, ha, List.append_assoc, ← hitems, List.take_append_drop]

end Encoder

/-- The opcode of an instruction that reads or writes a field. -/
def FieldAccess.opcode : FieldAccess → UInt8
  | .getStatic => 0xb2
  | .putStatic => 0xb3
  | .getField => 0xb4
  | .putField => 0xb5

namespace Instruction

open Encoder (signed)

theorem signed?_signed (n : Int32) (rest : List UInt8) :
    signed? (signed n ++ rest) = some n.toInt := by
  have hbytes := Encoder.doubleWord_eq_iff.mp (rfl : Encoder.doubleWord n.toUInt32 = _)
  have hvalue : n.toInt = if 2 * n.toUInt32.toNat < 2 ^ 32 then (n.toUInt32.toNat : Int)
      else n.toUInt32.toNat - 2 ^ 32 := BitVec.toInt_eq_toNat_cond n.toBitVec
  show some (if _ < _ then _ else _) = _
  rw [← hbytes, hvalue]
  congr 1
  split_ifs <;> omega

/-! ## Operands -/

/-- What stands behind an opcode. -/
inductive Operand where
  /-- A constant or an increment of eight bits. -/
  | byteValue
  /-- A constant of sixteen bits. -/
  | shortValue
  /-- A slot of the constant pool up to 255. -/
  | smallSlot
  /-- A slot of the constant pool. -/
  | slot
  /-- A local variable. -/
  | localVariable
  /-- The distance of a jump in sixteen bits. -/
  | branch
  /-- The distance of a jump in thirty-two bits. -/
  | wideBranch
  /-- The element type of an array of numbers. -/
  | elementType
  /-- A number of arguments or of dimensions. -/
  | count
  /-- A byte without meaning. -/
  | reserved
  deriving DecidableEq

/-- The number of bytes that an operand takes. -/
def Operand.size : Operand → Nat
  | byteValue | smallSlot | localVariable | elementType | count | reserved => 1
  | shortValue | slot | branch => 2
  | wideBranch => 4

/-- The opcodes from `first` to `last` have these operands. -/
structure OperandRun where
  first : Nat
  last : Nat
  operands : List Operand

/-- The opcodes with operands, as the instruction set lists them. -/
def operandRuns : List OperandRun :=
  [⟨0x10, 0x10, [.byteValue]⟩, ⟨0x11, 0x11, [.shortValue]⟩, ⟨0x12, 0x12, [.smallSlot]⟩,
   ⟨0x13, 0x14, [.slot]⟩, ⟨0x15, 0x19, [.localVariable]⟩, ⟨0x36, 0x3a, [.localVariable]⟩,
   ⟨0x84, 0x84, [.localVariable, .byteValue]⟩, ⟨0x99, 0xa8, [.branch]⟩,
   ⟨0xa9, 0xa9, [.localVariable]⟩, ⟨0xb2, 0xb8, [.slot]⟩,
   ⟨0xb9, 0xb9, [.slot, .count, .reserved]⟩, ⟨0xba, 0xba, [.slot, .reserved, .reserved]⟩,
   ⟨0xbb, 0xbb, [.slot]⟩, ⟨0xbc, 0xbc, [.elementType]⟩, ⟨0xbd, 0xbd, [.slot]⟩,
   ⟨0xc0, 0xc1, [.slot]⟩, ⟨0xc5, 0xc5, [.slot, .count]⟩, ⟨0xc6, 0xc7, [.branch]⟩,
   ⟨0xc8, 0xc9, [.wideBranch]⟩]

/-- The operands of an opcode; most opcodes have none. -/
def operandsOf (opcode : UInt8) : List Operand :=
  match operandRuns.find? fun run => run.first ≤ opcode.toNat && opcode.toNat ≤ run.last with
  | some run => run.operands
  | none => []

/-- The number of bytes behind an opcode. -/
def operandSize (opcode : UInt8) : Nat := ((operandsOf opcode).map Operand.size).sum

/-- The opcode is one of the instruction set, the three reserved ones included, and what
    follows it does not vary in length, as it does for the two switches and `wide`. -/
def isFixed (opcode : UInt8) : Bool :=
  (opcode ≤ 0xca || 0xfe ≤ opcode) && opcode ∉ [0xaa, 0xab, 0xc4]

/-- The table of lengths agrees with the operands of the instruction set. -/
theorem fixedLength?_eq (opcode : UInt8) :
    fixedLength? opcode = if isFixed opcode then some (operandSize opcode + 1) else none := by
  revert opcode
  apply forall_byte
  decide +kernel

/-! ## Layouts -/

/-- A block of bytes that brings the byte behind it from the opcode at `offset` to the next
    multiple of four. -/
def Aligns (offset : Nat) (padding : List UInt8) : Prop :=
  padding.length < 4 ∧ (offset + 1 + padding.length) % 4 = 0

/-- The bytes that may follow an opcode at `offset` in the code. -/
inductive Layout (offset : Nat) : (opcode : UInt8) → (operands : List UInt8) → Prop
  | fixed {opcode : UInt8} {operands : List UInt8} (hopcode : isFixed opcode = true)
      (hlength : operands.length = operandSize opcode) : Layout offset opcode operands
  /-- Padding, the default target, the least and the greatest key and a target for each
      key between them. -/
  | tableSwitch {padding : List UInt8} {default low high : Int32} {targets : List Int32}
      (hpadding : Aligns offset padding) (hkeys : low ≤ high)
      (htargets : (targets.length : Int) = high.toInt - low.toInt + 1) :
      Layout offset 0xaa (padding ++ (default :: low :: high :: targets).flatMap signed)
  /-- Padding, the default target, the number of pairs, and pairs of a key and a target. -/
  | lookupSwitch {padding : List UInt8} {default count : Int32} {pairs : List (Int32 × Int32)}
      (hpadding : Aligns offset padding) (hcount : (pairs.length : Int) = count.toInt) :
      Layout offset 0xab (padding ++ ([default, count].flatMap signed ++
        pairs.flatMap fun pair => signed pair.1 ++ signed pair.2))
  /-- An increment with a local variable and a constant of sixteen bits each. -/
  | wideIncrement {operands : List UInt8} (hlength : operands.length = 4) :
      Layout offset 0xc4 (0x84 :: operands)
  /-- Any other instruction with a local variable of sixteen bits. -/
  | wide {widened : UInt8} {operands : List UInt8} (hwidened : widened ≠ 0x84)
      (hlength : operands.length = 2) : Layout offset 0xc4 (widened :: operands)

theorem aligns_iff {offset : Nat} {bytes : List UInt8} :
    Aligns offset bytes ↔ bytes.length = padding offset := by
  unfold Aligns padding
  omega

section Lengths

variable {offset n : Nat} {opcode : UInt8} {following : List UInt8}

/-- The bytes start with a layout of the opcode that makes the instruction `n` bytes long. -/
def StartsWithLayout (offset : Nat) (opcode : UInt8) (n : Nat) (following : List UInt8) : Prop :=
  ∃ operands rest, following = operands ++ rest ∧ n = operands.length + 1 ∧
    Layout offset opcode operands

theorem Layout.length_eq {operands : List UInt8} (h : Layout offset opcode operands)
    (hopcode : isFixed opcode = true) : operands.length = operandSize opcode := by
  cases h with
  | fixed _ hlength => exact hlength
  | tableSwitch => exact absurd hopcode (by decide)
  | lookupSwitch => exact absurd hopcode (by decide)
  | wideIncrement => exact absurd hopcode (by decide)
  | wide => exact absurd hopcode (by decide)

theorem fixedLength_iff (hopcode : isFixed opcode = true) :
    (n = operandSize opcode + 1 ∧ n ≤ following.length + 1) ↔
      StartsWithLayout offset opcode n following := by
  constructor
  · rintro ⟨rfl, hle⟩
    have hlength : (following.take (operandSize opcode)).length = operandSize opcode := by
      rw [List.length_take]
      omega
    exact ⟨_, _, (List.take_append_drop (operandSize opcode) following).symm, by rw [hlength],
      .fixed hopcode hlength⟩
  · rintro ⟨operands, rest, rfl, rfl, hlayout⟩
    rw [hlayout.length_eq hopcode, List.length_append, hlayout.length_eq hopcode]
    omega

theorem length_flatMap_signed (numbers : List Int32) :
    (numbers.flatMap signed).length = 4 * numbers.length := by
  rw [List.length_flatMap]
  simp [Nat.mul_comm]

/-- Bytes enough for the padding of a table and `count` numbers start with them. -/
theorem exists_table {count : Nat} (h : padding offset + 4 * count ≤ following.length) :
    ∃ (bytes : List UInt8) (numbers : List Int32) (rest : List UInt8),
      bytes.length = padding offset ∧ numbers.length = count ∧
      following = bytes ++ (numbers.flatMap signed ++ rest) := by
  have hnumbers : 4 * count ≤ (following.drop (padding offset)).length := by
    rw [List.length_drop]
    omega
  obtain ⟨numbers, rest, hcount, hrow⟩ :=
    Encoder.exists_row (fun _ => Encoder.exists_signed) hnumbers
  refine ⟨following.take (padding offset), numbers, rest, ?_, hcount, ?_⟩
  · rw [List.length_take]
    omega
  · rw [← hrow, List.take_append_drop]

/-- The numbers of a table are found behind its padding. -/
theorem signed?_table {bytes : List UInt8} (hbytes : bytes.length = padding offset)
    (before : List Int32) (number : Int32) (behind : List Int32) (rest : List UInt8) {skip : Nat}
    (hskip : skip = 4 * before.length) :
    signed? ((bytes ++ ((before ++ number :: behind).flatMap signed ++ rest)).drop
      (padding offset + skip)) = some number.toInt := by
  have hbefore : (before.flatMap signed).length = skip := by
    rw [length_flatMap_signed, hskip]
  rw [← hbytes, List.drop_length_add_append, List.flatMap_append, List.append_assoc, ← hbefore,
    List.drop_left, List.flatMap_cons, List.append_assoc, signed?_signed]

theorem tableSwitchLength_iff :
    (tableSwitchLength? offset following = some n ∧ n ≤ following.length + 1) ↔
      StartsWithLayout offset 0xaa n following := by
  simp only [tableSwitchLength?, Option.bind_eq_bind, Option.bind_eq_some_iff]
  constructor
  · rintro ⟨⟨least, hleast, greatest, hgreatest, hn⟩, hle⟩
    split_ifs at hn with hkeys
    have hn := Option.some.inj hn
    have hroom : padding offset + 4 * (3 + (greatest - least + 1).toNat) ≤ following.length := by
      omega
    obtain ⟨bytes, numbers, rest, hbytes, hcount, rfl⟩ := exists_table hroom
    obtain ⟨default, low, high, targets, rfl⟩ :
        ∃ default low high targets, numbers = default :: low :: high :: targets := by
      rcases numbers with _ | ⟨default, _ | ⟨low, _ | ⟨high, targets⟩⟩⟩
      · simp at hcount; omega
      · simp at hcount; omega
      · simp at hcount; omega
      · exact ⟨default, low, high, targets, rfl⟩
    have hlow := signed?_table hbytes [default] low (high :: targets) rest rfl
    have hhigh := signed?_table hbytes [default, low] high targets rest rfl
    obtain rfl : low.toInt = least := Option.some.inj (hlow.symm.trans hleast)
    obtain rfl : high.toInt = greatest := Option.some.inj (hhigh.symm.trans hgreatest)
    refine ⟨_, rest, (List.append_assoc _ _ _).symm, ?_, .tableSwitch (aligns_iff.mpr hbytes) ?_ ?_⟩
    · rw [List.length_append, length_flatMap_signed, hbytes, hcount]
      omega
    · rw [Int32.le_iff_toInt_le]
      omega
    · simp only [List.length_cons] at hcount
      omega
  · rintro ⟨operands, rest, rfl, rfl, hlayout⟩
    cases hlayout with
    | fixed hopcode => exact absurd hopcode (by decide)
    | @tableSwitch bytes default low high targets hpadding hkeys htargets =>
      have hbytes := aligns_iff.mp hpadding
      have hle := Int32.le_iff_toInt_le.mp hkeys
      have hlow := signed?_table hbytes [default] low (high :: targets) rest rfl
      have hhigh := signed?_table hbytes [default, low] high targets rest rfl
      rw [List.append_assoc]
      refine ⟨⟨low.toInt, hlow, high.toInt, hhigh, ?_⟩, ?_⟩
      · rw [if_neg (by omega), List.length_append, length_flatMap_signed, hbytes]
        simp only [List.length_cons, Option.some.injEq]
        omega
      · simp only [List.length_append]
        omega

theorem length_flatMap_pairs (pairs : List (Int32 × Int32)) :
    (pairs.flatMap fun pair => signed pair.1 ++ signed pair.2).length = 8 * pairs.length := by
  rw [List.length_flatMap]
  simp [Nat.mul_comm]

/-- Any eight bytes are those of two signed numbers. -/
theorem exists_pair {bytes : List UInt8} (h : bytes.length = 8) :
    ∃ pair : Int32 × Int32, signed pair.1 ++ signed pair.2 = bytes := by
  have htake : (bytes.take 4).length = 4 := by simp [h]
  have hdrop : (bytes.drop 4).length = 4 := by simp [h]
  obtain ⟨first, hfirst⟩ := Encoder.exists_signed htake
  obtain ⟨second, hsecond⟩ := Encoder.exists_signed hdrop
  refine ⟨(first, second), ?_⟩
  rw [hfirst, hsecond, List.take_append_drop]

theorem lookupSwitchLength_iff :
    (lookupSwitchLength? offset following = some n ∧ n ≤ following.length + 1) ↔
      StartsWithLayout offset 0xab n following := by
  simp only [lookupSwitchLength?, Option.bind_eq_bind, Option.bind_eq_some_iff]
  constructor
  · rintro ⟨⟨count, hcount, hn⟩, hle⟩
    split_ifs at hn with hnegative
    have hn := Option.some.inj hn
    have hroom : padding offset + 4 * 2 ≤ following.length := by omega
    obtain ⟨bytes, numbers, behind, hbytes, hnumbers, rfl⟩ := exists_table hroom
    obtain ⟨default, number, rfl⟩ := List.length_eq_two.mp hnumbers
    have hnumber := signed?_table hbytes [default] number [] behind rfl
    obtain rfl : number.toInt = count := Option.some.inj (hnumber.symm.trans hcount)
    have hpairs : 8 * number.toInt.toNat ≤ behind.length := by
      simp only [List.length_append, length_flatMap_signed] at hle
      omega
    obtain ⟨pairs, rest, hlength, rfl⟩ := Encoder.exists_row (fun _ => exists_pair) hpairs
    have hlayout : Layout offset 0xab (bytes ++ ([default, number].flatMap signed ++
        pairs.flatMap fun pair => signed pair.1 ++ signed pair.2)) :=
      .lookupSwitch (aligns_iff.mpr hbytes) (by omega)
    refine ⟨_, rest, ?_, ?_, hlayout⟩
    · simp only [List.append_assoc]
    · simp only [List.length_append, length_flatMap_signed, length_flatMap_pairs]
      omega
  · rintro ⟨operands, rest, rfl, rfl, hlayout⟩
    cases hlayout with
    | fixed hopcode => exact absurd hopcode (by decide)
    | @lookupSwitch bytes default count pairs hpadding hcount =>
      have hbytes := aligns_iff.mp hpadding
      have hnumber := signed?_table hbytes [default] count []
        ((pairs.flatMap fun pair => signed pair.1 ++ signed pair.2) ++ rest) rfl
      simp only [List.append_assoc]
      refine ⟨⟨count.toInt, hnumber, ?_⟩, ?_⟩
      · rw [if_neg (by omega)]
        simp only [List.length_append, length_flatMap_signed, length_flatMap_pairs, hbytes,
          List.length_cons, List.length_nil, Option.some.injEq]
        omega
      · simp only [List.length_append]
        omega

theorem wideLength_iff :
    (wideLength? following = some n ∧ n ≤ following.length + 1) ↔
      StartsWithLayout offset 0xc4 n following := by
  constructor
  · rintro ⟨hlength, hle⟩
    cases following with
    | nil => cases hlength
    | cons widened behind =>
      obtain rfl : (if widened = 0x84 then 6 else 4) = n := Option.some.inj hlength
      rw [List.length_cons] at hle
      by_cases hwidened : widened = 0x84
      · rw [if_pos hwidened] at hle
        have htake : (behind.take 4).length = 4 := by
          rw [List.length_take]
          omega
        refine ⟨widened :: behind.take 4, behind.drop 4, ?_, ?_, ?_⟩
        · rw [List.cons_append, List.take_append_drop]
        · rw [if_pos hwidened, List.length_cons, htake]
        · rw [hwidened]
          exact .wideIncrement htake
      · rw [if_neg hwidened] at hle
        have htake : (behind.take 2).length = 2 := by
          rw [List.length_take]
          omega
        refine ⟨widened :: behind.take 2, behind.drop 2, ?_, ?_, .wide hwidened htake⟩
        · rw [List.cons_append, List.take_append_drop]
        · rw [if_neg hwidened, List.length_cons, htake]
  · rintro ⟨operands, rest, rfl, rfl, hlayout⟩
    cases hlayout with
    | fixed hopcode => exact absurd hopcode (by decide)
    | wideIncrement hlength => simp [wideLength?, hlength]
    | wide hwidened hlength => simp [wideLength?, hwidened, hlength]

/-- The length of the instruction at the front of the code is found, and lies within the
    code, exactly if a layout of its opcode stands there. -/
theorem length_eq_ok_iff :
    (length offset opcode following = .ok n ∧ n ≤ following.length + 1) ↔
      StartsWithLayout offset opcode n following := by
  unfold length
  split_ifs with htable hlookup hwide
  · rw [htable, ← tableSwitchLength_iff]
    cases tableSwitchLength? offset following <;> simp
  · rw [hlookup, ← lookupSwitchLength_iff]
    cases lookupSwitchLength? offset following <;> simp
  · rw [hwide, ← wideLength_iff]
    cases wideLength? following <;> simp
  · rw [fixedLength?_eq]
    split_ifs with hfixed
    · rw [← fixedLength_iff hfixed]
      simp [eq_comm]
    · constructor
      · rintro ⟨hlength, -⟩
        cases hlength
      · rintro ⟨operands, rest, -, -, hlayout⟩
        cases hlayout <;> contradiction

end Lengths

/-! ## Meanings -/

/-- The two instructions that load a constant of one word, with its slot. -/
inductive LoadsSlot : (opcode : UInt8) → (operands : List UInt8) → (index : UInt16) → Prop
  | short (index : UInt8) : LoadsSlot 0x12 [index] index.toUInt16
  | long (index : UInt16) : LoadsSlot 0x13 (Encoder.word index) index

/-- The opcodes whose meaning is more than the opcode. -/
def decodedOpcodes : List UInt8 := [0x12, 0x13, 0x14, 0xb2, 0xb3, 0xb4, 0xb5, 0xbb]

/-- The meaning of an opcode with its operands. -/
inductive Means (pool : ConstantPool) : UInt8 → List UInt8 → Instruction → Prop
  | loadString {opcode : UInt8} {operands : List UInt8} {index : UInt16} {text : String}
      (hslot : LoadsSlot opcode operands index) (hheld : pool.HoldsString index text) :
      Means pool opcode operands (.loadString text)
  | loadOther {opcode : UInt8} {operands : List UInt8} {index : UInt16} {constant : Constant}
      (hslot : LoadsSlot opcode operands index) (hheld : pool.Holds index constant)
      (hkind : constant.kind ≠ .string) : Means pool opcode operands .loadOther
  | loadTwoWords {operands : List UInt8} : Means pool 0x14 operands .loadOther
  | field {index : UInt16} {member : ConstantPool.MemberRef} (access : FieldAccess)
      (hheld : pool.HoldsMember index member) :
      Means pool access.opcode (Encoder.word index)
        (.field access member.owner member.name member.descriptor)
  | new {index : UInt16} {name : String} (hheld : pool.HoldsClass index name) :
      Means pool 0xbb (Encoder.word index) (.new name)
  | other {opcode : UInt8} {operands : List UInt8} (hopcode : opcode ∉ decodedOpcodes) :
      Means pool opcode operands (.other opcode)

section Meanings

variable {pool : ConstantPool} {offset : Nat} {opcode : UInt8} {operands : List UInt8}
  {instruction : Instruction}

theorem load_eq_ok_iff {index : UInt16} :
    load pool index = .ok instruction ↔
      (∃ text, .loadString text = instruction ∧ pool.HoldsString index text) ∨
        .loadOther = instruction ∧
          ∃ constant, pool.Holds index constant ∧ constant.kind ≠ .string := by
  unfold load
  rw [bind_eq_ok_iff]
  constructor
  · rintro ⟨text?, hfound, hpure⟩
    rcases ConstantPool.string?_eq_ok_iff.mp hfound with ⟨text, rfl, hheld⟩ | ⟨rfl, hheld⟩
    · exact .inl ⟨text, pure_eq_ok_iff.mp hpure, hheld⟩
    · exact .inr ⟨pure_eq_ok_iff.mp hpure, hheld⟩
  · rintro (⟨text, rfl, hheld⟩ | ⟨rfl, hheld⟩)
    · exact ⟨some text, ConstantPool.string?_eq_ok_iff.mpr (.inl ⟨text, rfl, hheld⟩), rfl⟩
    · exact ⟨none, ConstantPool.string?_eq_ok_iff.mpr (.inr ⟨rfl, hheld⟩), rfl⟩

theorem load_means {index : UInt16} (hslot : LoadsSlot opcode operands index) :
    load pool index = .ok instruction → Means pool opcode operands instruction := by
  rw [load_eq_ok_iff]
  rintro (⟨text, rfl, hheld⟩ | ⟨rfl, constant, hheld, hkind⟩)
  · exact .loadString hslot hheld
  · exact .loadOther hslot hheld hkind

theorem fieldAt_eq_ok_iff {access : FieldAccess} {index : UInt16} :
    fieldAt pool access index = .ok instruction ↔
      ∃ member, pool.HoldsMember index member ∧
        .field access member.owner member.name member.descriptor = instruction := by
  simp only [fieldAt, bind_eq_ok_iff, ConstantPool.member_eq_ok_iff, pure_eq_ok_iff]

/-- Two operand bytes are those of the slot that they name. -/
theorem word_slot (high low : UInt8) : Encoder.word (slot high low) = [high, low] := by
  have hhigh := high.toNat_lt
  have hlow := low.toNat_lt
  rw [Encoder.word_eq_iff, slot, UInt16.toNat_ofNat']
  omega

theorem Layout.exists_slot (h : Layout offset opcode operands) (hopcode : isFixed opcode = true)
    (hsize : operandSize opcode = 2) : ∃ index, operands = Encoder.word index := by
  obtain ⟨high, low, rfl⟩ := List.length_eq_two.mp ((h.length_eq hopcode).trans hsize)
  exact ⟨slot high low, (word_slot high low).symm⟩

theorem slot_word (index : UInt16) :
    slot (UInt8.ofNat (index.toNat / 256)) (UInt8.ofNat index.toNat) = index := by
  have hword := Encoder.word_eq_iff.mp (rfl : Encoder.word index = _)
  rw [slot, ← hword, UInt16.ofNat_toNat]

theorem ofOperands_field (access : FieldAccess) (index : UInt16) :
    ofOperands pool access.opcode (Encoder.word index) = fieldAt pool access index := by
  cases access <;> exact congrArg (fieldAt pool _) (slot_word index)

theorem ofOperands_new (index : UInt16) :
    ofOperands pool 0xbb (Encoder.word index) = (do return new (← pool.className index)) := by
  show (do return new (← pool.className (slot _ _))) = _
  rw [slot_word]

theorem ofOperands_load {index : UInt16} (hslot : LoadsSlot opcode operands index) :
    ofOperands pool opcode operands = load pool index := by
  cases hslot with
  | short index => rfl
  | long index => exact congrArg (load pool) (slot_word index)

theorem ofOperands_other (hopcode : opcode ∉ decodedOpcodes) :
    ofOperands pool opcode operands = .ok (.other opcode) := by
  unfold ofOperands
  split <;> first | rfl | exact absurd (by decide) hopcode

theorem field_means (access : FieldAccess) (hlayout : Layout offset access.opcode operands)
    (h : ofOperands pool access.opcode operands = .ok instruction) :
    Means pool access.opcode operands instruction := by
  have hfixed : isFixed access.opcode = true := by cases access <;> rfl
  have hsize : operandSize access.opcode = 2 := by cases access <;> rfl
  obtain ⟨index, rfl⟩ := hlayout.exists_slot hfixed hsize
  rw [ofOperands_field, fieldAt_eq_ok_iff] at h
  obtain ⟨member, hheld, rfl⟩ := h
  exact .field access hheld

/-- Operands in a layout of their opcode have exactly the stated meanings. -/
theorem ofOperands_eq_ok_iff (hlayout : Layout offset opcode operands) :
    ofOperands pool opcode operands = .ok instruction ↔
      Means pool opcode operands instruction := by
  constructor
  · intro h
    by_cases hopcode : opcode ∈ decodedOpcodes
    · simp only [decodedOpcodes, List.mem_cons, List.not_mem_nil, or_false] at hopcode
      rcases hopcode with rfl | rfl | rfl | rfl | rfl | rfl | rfl | rfl
      · obtain ⟨index, rfl⟩ := List.length_eq_one_iff.mp (hlayout.length_eq rfl)
        exact load_means (.short index) h
      · obtain ⟨index, rfl⟩ := hlayout.exists_slot rfl rfl
        rw [ofOperands_load (.long index)] at h
        exact load_means (.long index) h
      · cases h
        exact .loadTwoWords
      · exact field_means .getStatic hlayout h
      · exact field_means .putStatic hlayout h
      · exact field_means .getField hlayout h
      · exact field_means .putField hlayout h
      · obtain ⟨index, rfl⟩ := hlayout.exists_slot rfl rfl
        rw [ofOperands_new, bind_eq_ok_iff] at h
        obtain ⟨name, hname, hpure⟩ := h
        cases hpure
        exact .new (ConstantPool.className_eq_ok_iff.mp hname)
    · rw [ofOperands_other hopcode] at h
      cases h
      exact .other hopcode
  · intro h
    cases h with
    | loadString hslot hheld =>
      rw [ofOperands_load hslot, load_eq_ok_iff]
      exact .inl ⟨_, rfl, hheld⟩
    | loadOther hslot hheld hkind =>
      rw [ofOperands_load hslot, load_eq_ok_iff]
      exact .inr ⟨rfl, _, hheld, hkind⟩
    | loadTwoWords => rfl
    | field access hheld =>
      rw [ofOperands_field, fieldAt_eq_ok_iff]
      exact ⟨_, hheld, rfl⟩
    | new hheld =>
      rw [ofOperands_new, ConstantPool.className_eq_ok_iff.mpr hheld]
      rfl
    | other hopcode => exact ofOperands_other hopcode

end Meanings

/-! ## Code -/

/-- Code that starts at `offset` and is put together from instructions, one behind the
    other, with these meanings. -/
inductive Assembled (pool : ConstantPool) :
    (offset : Nat) → (code : List UInt8) → List Instruction → Prop
  | nil {offset : Nat} : Assembled pool offset [] []
  | cons {offset : Nat} {opcode : UInt8} {operands rest : List UInt8}
      {instruction : Instruction} {instructions : List Instruction}
      (hlayout : Layout offset opcode operands) (hmeans : Means pool opcode operands instruction)
      (hrest : Assembled pool (offset + (operands.length + 1)) rest instructions) :
      Assembled pool offset (opcode :: operands ++ rest) (instruction :: instructions)

section Code

variable {pool : ConstantPool} {offset : Nat}

/-- One step of decoding: a layout of the opcode with its meaning, and then the rest. -/
theorem decodeFrom_cons_iff {opcode : UInt8} {following : List UInt8} {out : List Instruction} :
    decodeFrom pool offset (opcode :: following) = .ok out ↔
      ∃ operands rest instruction instructions, following = operands ++ rest ∧
        Layout offset opcode operands ∧ Means pool opcode operands instruction ∧
        decodeFrom pool (offset + (operands.length + 1)) rest = .ok instructions ∧
        instruction :: instructions = out := by
  rw [decodeFrom, bind_eq_ok_iff]
  constructor
  · rintro ⟨n, hlength, hrest⟩
    split_ifs at hrest with htruncated
    · cases hrest
    · obtain ⟨operands, rest, rfl, rfl, hlayout⟩ :=
        length_eq_ok_iff.mp ⟨hlength, Nat.le_of_not_lt htruncated⟩
      simp only [Nat.add_sub_cancel, List.take_left, List.drop_left, bind_eq_ok_iff,
        pure_eq_ok_iff, ofOperands_eq_ok_iff hlayout] at hrest
      obtain ⟨instruction, hmeans, instructions, hrest, rfl⟩ := hrest
      exact ⟨operands, rest, instruction, instructions, rfl, hlayout, hmeans, hrest, rfl⟩
  · rintro ⟨operands, rest, instruction, instructions, rfl, hlayout, hmeans, hrest, rfl⟩
    obtain ⟨hlength, hle⟩ := length_eq_ok_iff.mpr ⟨operands, rest, rfl, rfl, hlayout⟩
    refine ⟨_, hlength, ?_⟩
    rw [if_neg (Nat.not_lt.mpr hle)]
    simp only [Nat.add_sub_cancel, List.take_left, List.drop_left, bind_eq_ok_iff, pure_eq_ok_iff,
      ofOperands_eq_ok_iff hlayout]
    exact ⟨instruction, hmeans, instructions, hrest, rfl⟩

theorem assembled_of_decodeFrom {code : List UInt8} {out : List Instruction}
    (h : decodeFrom pool offset code = .ok out) : Assembled pool offset code out := by
  induction hlength : code.length using Nat.strong_induction_on generalizing offset code out with
  | _ n ih =>
    cases code with
    | nil =>
      rw [decodeFrom] at h
      cases h
      exact .nil
    | cons opcode following =>
      obtain ⟨operands, rest, instruction, instructions, rfl, hlayout, hmeans, hrest, rfl⟩ :=
        decodeFrom_cons_iff.mp h
      -- Each step consumes at least the opcode.
      have hshorter : rest.length < n := by
        rw [← hlength, List.length_cons, List.length_append]
        omega
      exact .cons hlayout hmeans (ih rest.length hshorter hrest rfl)

theorem decodeFrom_of_assembled {code : List UInt8} {out : List Instruction}
    (h : Assembled pool offset code out) : decodeFrom pool offset code = .ok out := by
  induction h with
  | nil => rw [decodeFrom]
  | cons hlayout hmeans _ ih =>
    exact decodeFrom_cons_iff.mpr ⟨_, _, _, _, rfl, hlayout, hmeans, ih, rfl⟩

end Code

end Instruction

/-- The code of a method is decoded exactly if it is assembled from instructions whose
    constants are there, from offset zero on, and then into their meanings in order. -/
theorem Code.instructions_eq_ok_iff (code : Code) (out : List Instruction) :
    code.instructions = .ok out ↔ Instruction.Assembled code.pool 0 code.bytes out := by
  constructor
  · exact Instruction.assembled_of_decodeFrom
  · exact Instruction.decodeFrom_of_assembled

end Nomenclator

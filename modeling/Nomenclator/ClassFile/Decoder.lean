import Nomenclator.ClassFile.Malformed

/-!
# Decoding bytes

A decoder takes what it needs from the front of the bytes and leaves the rest.
Numbers are unsigned and big-endian. A decoder that finds too few bytes reports
the unexpected end of the input.
-/

namespace Nomenclator

/-- A step that consumes bytes from the front, or says what is wrong with them. -/
abbrev Decoder := StateT (List UInt8) (Except Malformed)

namespace Decoder

/-- One byte. -/
def byte : Decoder UInt8
  | [] => .error .unexpectedEnd
  | b :: bytes => .ok (b, bytes)

/-- A number of two bytes. -/
def word : Decoder UInt16 := do
  let high ← byte
  let low ← byte
  return UInt16.ofNat (high.toNat * 256 + low.toNat)

/-- A number of four bytes. -/
def doubleWord : Decoder UInt32 := do
  let high ← word
  let low ← word
  return UInt32.ofNat (high.toNat * 65536 + low.toNat)

/-- The next `count` bytes as they are. -/
def take (count : Nat) : Decoder (List UInt8) := fun bytes =>
  let taken := bytes.take count
  if taken.length = count then .ok (taken, bytes.drop count) else .error .unexpectedEnd

/-- The same item `count` times. -/
def times {α : Type} (item : Decoder α) : (count : Nat) → Decoder (List α)
  | 0 => return []
  | count + 1 => do
    let first ← item
    let rest ← times item count
    return first :: rest

/-- A table: the number of its items in two bytes, then the items. -/
def table {α : Type} (item : Decoder α) : Decoder (List α) := do
  let count ← word
  times item count.toNat

/-- Decodes a whole block on its own, whether or not it is used up. -/
def within {α : Type} (block : List UInt8) (item : Decoder α) :
    Except Malformed (α × List UInt8) :=
  item.run block

end Decoder

end Nomenclator

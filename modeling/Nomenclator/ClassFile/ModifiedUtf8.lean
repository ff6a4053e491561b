/-!
# Modified UTF-8

Text constants hold UTF-16 code units, each in one, two or three bytes: a byte
`1` to `7f` stands for itself, two bytes `110xxxxx 10xxxxxx` for a unit of
eleven bits and three bytes `1110xxxx 10xxxxxx 10xxxxxx` for any unit. A longer
form than needed is accepted. The byte zero and four-byte forms do not occur:
a zero unit takes two bytes, and a supplementary character is a pair of
surrogate units.
-/

namespace Nomenclator.ModifiedUtf8

/-- The byte continues a group: its top bits are `10`. -/
def isContinuation (b : UInt8) : Bool := b &&& 0xc0 == 0x80

/-- The six payload bits of a continuation byte. -/
def payload (b : UInt8) : Nat := (b &&& 0x3f).toNat

/-- The code units that the bytes stand for. -/
def units? : List UInt8 → Option (List Nat)
  | [] => some []
  | a :: bytes =>
    if a &&& 0x80 == 0 then
      if a == 0 then none else (units? bytes).map (a.toNat :: ·)
    else if a &&& 0xe0 == 0xc0 then
      match bytes with
      | b :: bytes =>
        if isContinuation b then
          (units? bytes).map (((a &&& 0x1f).toNat * 64 + payload b) :: ·)
        else none
      | [] => none
    else if a &&& 0xf0 == 0xe0 then
      match bytes with
      | b :: c :: bytes =>
        if isContinuation b && isContinuation c then
          (units? bytes).map (((a &&& 0x0f).toNat * 4096 + payload b * 64 + payload c) :: ·)
        else none
      | _ => none
    else none

/-- The unit starts a surrogate pair. -/
def isHighSurrogate (u : Nat) : Bool := 0xd800 ≤ u && u < 0xdc00

/-- The unit ends a surrogate pair. -/
def isLowSurrogate (u : Nat) : Bool := 0xdc00 ≤ u && u < 0xe000

/-- The supplementary character of a surrogate pair. -/
def pairedChar (high low : Nat) : Char :=
  Char.ofNat (0x10000 + (high - 0xd800) * 0x400 + (low - 0xdc00))

/-- The characters of a sequence of UTF-16 code units without lone surrogates. -/
def chars? : List Nat → Option (List Char)
  | [] => some []
  | u :: units =>
    if isHighSurrogate u then
      match units with
      | v :: units => if isLowSurrogate v then (chars? units).map (pairedChar u v :: ·) else none
      | [] => none
    else if isLowSurrogate u then none
    else (chars? units).map (Char.ofNat u :: ·)

/-- The text that the bytes encode. -/
def decode? (bytes : List UInt8) : Option String :=
  ((units? bytes).bind chars?).map String.ofList

end Nomenclator.ModifiedUtf8

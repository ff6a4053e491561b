import Nomenclator.Proofs.Decoding
import Nomenclator.Proofs.PoolLookups
import Nomenclator.Proofs.TextConstants

/-!
# Constant pools against the constants they are read from

The bytes of a list of constants, and the slots that the constants take one after another:
one each, and two for a long or double constant. The pool that is read from the bytes holds
each constant at the slot where it starts and nothing in between.

Results:
* `Constant.read_reads`, `ConstantPool.read_reads`: constants and pools are read back from
  their bytes.
* `ConstantPool.holds_ofConstants_iff`: what the pool of a list of constants holds.
* `text_ofConstants_iff`, `className_ofConstants_iff`: what look-ups in it find.
-/

namespace Nomenclator

open Decoder (byte_reads word_reads doubleWord_reads)

/-! ## Bytes of constants -/

/-- The tag that announces a constant of a kind. -/
def ConstantKind.tag : ConstantKind → UInt8
  | utf8 => 1
  | integer => 3
  | float => 4
  | long => 5
  | double => 6
  | classRef => 7
  | string => 8
  | fieldRef => 9
  | methodRef => 10
  | interfaceMethodRef => 11
  | nameAndType => 12
  | methodHandle => 15
  | methodType => 16
  | dynamic => 17
  | invokeDynamic => 18
  | moduleRef => 19
  | packageRef => 20

namespace Constant

/-- The bytes behind the tag of a constant. -/
def contents : Constant → List UInt8
  | utf8 text =>
    Encoder.word (UInt16.ofNat (ModifiedUtf8.encode text).length) ++ ModifiedUtf8.encode text
  | integer bits | float bits => Encoder.doubleWord bits
  | long high low | double high low => Encoder.doubleWord high ++ Encoder.doubleWord low
  | classRef index | string index | methodType index | moduleRef index | packageRef index =>
    Encoder.word index
  | fieldRef first second | methodRef first second | interfaceMethodRef first second
  | nameAndType first second | dynamic first second | invokeDynamic first second =>
    Encoder.word first ++ Encoder.word second
  | methodHandle behaviour target => behaviour :: Encoder.word target

/-- The bytes of a constant. -/
def bytes (constant : Constant) : List UInt8 := constant.kind.tag :: constant.contents

/-- The length of a text constant can be written down. -/
def Fits : Constant → Prop
  | utf8 text => (ModifiedUtf8.encode text).length < 65536
  | _ => True

instance : (constant : Constant) → Decidable constant.Fits
  | utf8 _ => inferInstanceAs (Decidable (_ < _))
  | integer _ | float _ | long _ _ | double _ _ | classRef _ | string _ | fieldRef _ _
  | methodRef _ _ | interfaceMethodRef _ _ | nameAndType _ _ | methodHandle _ _ | methodType _
  | dynamic _ _ | invokeDynamic _ _ | moduleRef _ | packageRef _ => isTrue trivial

theorem readText_reads {text : String} (h : (utf8 text).Fits) :
    readText.Reads (utf8 text).contents (utf8 text) := by
  have hlength : (UInt16.ofNat (ModifiedUtf8.encode text).length).toNat =
      (ModifiedUtf8.encode text).length := UInt16.toNat_ofNat_of_lt' h
  apply (word_reads _).bind
  rw [hlength]
  intro rest
  rw [StateT.run_bind, Decoder.take_reads]
  simp only [bind, Except.bind, ModifiedUtf8.decode?_encode]
  rfl

/-- A constant is read back from its bytes. -/
theorem read_reads {constant : Constant} (h : constant.Fits) :
    read.Reads constant.bytes constant := by
  apply (byte_reads _).bind
  cases constant with
  | utf8 text => exact readText_reads h
  | integer bits => exact (doubleWord_reads bits).map _
  | float bits => exact (doubleWord_reads bits).map _
  | long high low => exact (doubleWord_reads high).bind ((doubleWord_reads low).map _)
  | double high low => exact (doubleWord_reads high).bind ((doubleWord_reads low).map _)
  | classRef name => exact (word_reads name).map _
  | string text => exact (word_reads text).map _
  | fieldRef owner nameAndType => exact (word_reads owner).bind ((word_reads nameAndType).map _)
  | methodRef owner nameAndType => exact (word_reads owner).bind ((word_reads nameAndType).map _)
  | interfaceMethodRef owner nameAndType =>
    exact (word_reads owner).bind ((word_reads nameAndType).map _)
  | nameAndType name descriptor => exact (word_reads name).bind ((word_reads descriptor).map _)
  | methodHandle behaviour target => exact (byte_reads behaviour).bind ((word_reads target).map _)
  | methodType descriptor => exact (word_reads descriptor).map _
  | dynamic bootstrap nameAndType =>
    exact (word_reads bootstrap).bind ((word_reads nameAndType).map _)
  | invokeDynamic bootstrap nameAndType =>
    exact (word_reads bootstrap).bind ((word_reads nameAndType).map _)
  | moduleRef name => exact (word_reads name).map _
  | packageRef name => exact (word_reads name).map _

/-! ## Slots -/

/-- The number of slots that a constant takes. -/
def width (constant : Constant) : Nat := if constant.isWide then 2 else 1

/-- The slots that a constant takes; the second is unusable. -/
def slots (constant : Constant) : List (Option Constant) :=
  if constant.isWide then [some constant, none] else [some constant]

end Constant

namespace ConstantPool

/-- The number of slots that constants take. -/
def slotCount (constants : List Constant) : Nat := (constants.map Constant.width).sum

/-- The pool of a list of constants. Slot zero is unusable. -/
def ofConstants (constants : List Constant) : ConstantPool :=
  ⟨(none :: constants.flatMap Constant.slots).toArray⟩

/-- The bytes of a pool: one more than the number of its slots, then the constants. -/
def bytes (constants : List Constant) : List UInt8 :=
  Encoder.word (UInt16.ofNat (slotCount constants + 1)) ++ constants.flatMap Constant.bytes

theorem slotCount_cons (constant : Constant) (constants : List Constant) :
    slotCount (constant :: constants) = slotCount constants + constant.width := by
  rw [slotCount, List.map_cons, List.sum_cons, Nat.add_comm]
  rfl

theorem slotCount_eq_zero {constants : List Constant} (h : slotCount constants = 0) :
    constants = [] := by
  cases constants with
  | nil => rfl
  | cons constant constants =>
    have hwidth : 0 < constant.width := by unfold Constant.width; split <;> decide
    rw [slotCount_cons] at h
    omega

/-- Constants are read until their slots are filled. -/
theorem readSlots_reads {constants : List Constant} (h : ∀ constant ∈ constants, constant.Fits) :
    (readSlots (slotCount constants)).Reads (constants.flatMap Constant.bytes)
      (constants.flatMap Constant.slots) := by
  induction constants with
  | nil => exact Decoder.Reads.pure []
  | cons constant constants ih =>
    have hfirst := Constant.read_reads (h constant List.mem_cons_self)
    have hrest := ih fun c hc => h c (List.mem_cons_of_mem _ hc)
    rw [slotCount_cons, List.flatMap_cons, List.flatMap_cons, Constant.width, Constant.slots]
    by_cases hwide : constant.isWide = true
    · rw [if_pos hwide, if_pos hwide, readSlots]
      apply hfirst.bind
      rw [if_pos hwide]
      exact hrest.map _
    · rw [if_neg hwide, if_neg hwide]
      cases hcount : slotCount constants with
      | zero =>
        -- The last constant is read without a look at how many slots it takes.
        obtain rfl := slotCount_eq_zero hcount
        rw [readSlots, List.flatMap_nil, List.append_nil]
        exact hfirst.map _
      | succ count =>
        rw [hcount] at hrest
        rw [readSlots]
        apply hfirst.bind
        rw [if_neg hwide]
        exact hrest.map _

/-- A pool is read back from the bytes of its constants. -/
theorem read_reads {constants : List Constant} (hcount : slotCount constants < 65535)
    (hfits : ∀ constant ∈ constants, constant.Fits) :
    read.Reads (bytes constants) (ofConstants constants) := by
  have hslots : (UInt16.ofNat (slotCount constants + 1)).toNat - 1 = slotCount constants := by
    rw [UInt16.toNat_ofNat']
    omega
  apply (word_reads _).bind
  rw [hslots]
  exact (readSlots_reads hfits).map _

/-! ## Look-ups by slot -/

/-- The constant that starts at a slot. The first starts at slot one, and each of the others
    behind the slots of those before it. -/
def constantAt? : (constants : List Constant) → (slot : Nat) → Option Constant
  | [], _ => none
  | constant :: constants, slot =>
    if slot = 1 then some constant else constantAt? constants (slot - constant.width)

/-- The text whose constant is at a slot. -/
def textAt? (constants : List Constant) (index : UInt16) : Option String :=
  match constantAt? constants index.toNat with
  | some (.utf8 text) => some text
  | _ => none

/-- The name of the class whose constant is at a slot. -/
def classAt? (constants : List Constant) (index : UInt16) : Option String :=
  match constantAt? constants index.toNat with
  | some (.classRef name) => textAt? constants name
  | _ => none

theorem constantAt?_zero (constants : List Constant) : constantAt? constants 0 = none := by
  induction constants with
  | nil => rfl
  | cons constant constants ih =>
    rw [constantAt?, if_neg (by decide), Nat.zero_sub, ih]

theorem getElem?_slots (constants : List Constant) (slot : Nat) :
    (none :: constants.flatMap Constant.slots)[slot]?.join = constantAt? constants slot := by
  induction constants generalizing slot with
  | nil => cases slot <;> rfl
  | cons constant constants ih =>
    rw [constantAt?, List.flatMap_cons, Constant.slots, Constant.width]
    by_cases hwide : constant.isWide = true
    · rw [if_pos hwide, if_pos hwide]
      rcases slot with _ | _ | _ | slot
      · rw [if_neg (by decide), constantAt?_zero]
        rfl
      · rfl
      · rw [if_neg (by decide), constantAt?_zero]
        rfl
      · rw [if_neg (by omega), ← ih]
        rfl
    · rw [if_neg hwide, if_neg hwide]
      rcases slot with _ | _ | slot
      · rw [if_neg (by decide), constantAt?_zero]
        rfl
      · rfl
      · rw [if_neg (by omega), ← ih]
        rfl

/-- The pool holds each constant at the slot where it starts. -/
theorem holds_ofConstants_iff {constants : List Constant} {index : UInt16} {constant : Constant} :
    (ofConstants constants).Holds index constant ↔
      constantAt? constants index.toNat = some constant := by
  rw [← getElem?_slots, Holds, ofConstants, List.getElem?_toArray, Option.join_eq_some_iff]

theorem text_ofConstants_iff {constants : List Constant} {index : UInt16} {text : String} :
    (ofConstants constants).text index = .ok text ↔ textAt? constants index = some text := by
  rw [text_eq_ok_iff, holds_ofConstants_iff, textAt?]
  constructor
  · intro h
    rw [h]
  · intro h
    split at h
    · next found => rw [found, ← Option.some.inj h]
    · cases h

theorem className_ofConstants_iff {constants : List Constant} {index : UInt16} {name : String} :
    (ofConstants constants).className index = .ok name ↔
      classAt? constants index = some name := by
  rw [className_eq_ok_iff, HoldsClass, classAt?]
  simp only [holds_ofConstants_iff]
  constructor
  · rintro ⟨nameIndex, hclass, hname⟩
    rw [hclass]
    exact text_ofConstants_iff.mp (text_eq_ok_iff.mpr (holds_ofConstants_iff.mpr hname))
  · intro h
    split at h
    · next nameIndex found =>
      have hname := text_eq_ok_iff.mp (text_ofConstants_iff.mpr h)
      exact ⟨nameIndex, found, holds_ofConstants_iff.mp hname⟩
    · cases h

end ConstantPool

end Nomenclator

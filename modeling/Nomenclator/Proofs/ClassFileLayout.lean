import Nomenclator.ClassFile.Basic
import Nomenclator.Proofs.PoolLayout

/-!
# Class files against what they describe

A description of a class gives everything that its file holds, with slots of the constant
pool where the file has slots: versions, constants, flags, names, interfaces, members and
attributes with their contents as bytes. Its bytes are those of the class-file format. From
them exactly the described class is read back, whatever the attributes that do not matter
hold.

Results:
* `RawClass.bytes`: the file of a description.
* `RawClass.Describes`: the class that is described, said by the constants at its slots.
* `readMore_reads`: of attributes with the same name the last counts.
* `parse_bytes`: parsing the file of a well-formed description gives the described class.
-/

namespace Nomenclator

open ConstantPool (textAt? classAt? text_ofConstants_iff className_ofConstants_iff)
open Decoder (Reads word_reads doubleWord_reads take_reads table_reads)

/-! ## Descriptions -/

/-- An attribute: the slot of its name, and its contents. -/
structure RawAttribute where
  name : UInt16
  info : List UInt8

/-- A field or method, with the slots of its names. -/
structure RawMember where
  access : AccessFlags
  name : UInt16
  descriptor : UInt16
  attributes : List RawAttribute

/-- A class, with the slots of its names. Slot zero for the superclass says that there is
    none. -/
structure RawClass where
  minorVersion : UInt16
  majorVersion : UInt16
  constants : List Constant
  access : AccessFlags
  name : UInt16
  superName : UInt16
  interfaces : List UInt16
  fields : List RawMember
  methods : List RawMember
  attributes : List RawAttribute

/-! ## Bytes -/

/-- The bytes of an attribute: the slot of its name, its length and its contents. -/
def RawAttribute.bytes (raw : RawAttribute) : List UInt8 :=
  Encoder.word raw.name ++ (Encoder.doubleWord (UInt32.ofNat raw.info.length) ++ raw.info)

/-- The bytes of a field or method. -/
def RawMember.bytes (raw : RawMember) : List UInt8 :=
  Encoder.word raw.access ++ (Encoder.word raw.name ++ (Encoder.word raw.descriptor ++
    Encoder.table RawAttribute.bytes raw.attributes))

/-- The bytes of a class file. -/
def RawClass.bytes (raw : RawClass) : List UInt8 :=
  Encoder.doubleWord 0xcafebabe ++ (Encoder.word raw.minorVersion ++
    (Encoder.word raw.majorVersion ++ (ConstantPool.bytes raw.constants ++
    (Encoder.word raw.access ++ (Encoder.word raw.name ++ (Encoder.word raw.superName ++
    (Encoder.table Encoder.word raw.interfaces ++ (Encoder.table RawMember.bytes raw.fields ++
    (Encoder.table RawMember.bytes raw.methods ++
      Encoder.table RawAttribute.bytes raw.attributes)))))))))

/-! ## Options and lists, item by item -/

theorem exists_rel {α β : Type} {r : α → β → Prop} {x : Option α}
    (h : ∀ a, x = some a → ∃ b, r a b) : ∃ y, Option.Rel r x y := by
  cases x with
  | none => exact ⟨none, .none⟩
  | some a =>
    obtain ⟨b, hb⟩ := h a rfl
    exact ⟨some b, .some hb⟩

/-- A partner of `x.or y` is a partner of `x`, or else the partner of `y`. -/
theorem exists_of_rel_or {α β : Type} {r : α → β → Prop}
    (hunique : ∀ a b c, r a b → r a c → b = c) {x y : Option α} {z w : Option β}
    (h : Option.Rel r (x.or y) z) (hy : Option.Rel r y w) :
    ∃ v, Option.Rel r x v ∧ z = v.or w := by
  cases x with
  | none =>
    refine ⟨none, .none, ?_⟩
    rw [Option.none_or] at h ⊢
    cases hy with
    | none => cases h; rfl
    | some hyw =>
      cases h with
      | some hyz => rw [hunique _ _ _ hyz hyw]
  | some a =>
    cases h with
    | some haz => exact ⟨_, .some haz, rfl⟩

theorem forall₂_of_mem {α β : Type} {r s : α → β → Prop} {items : List α} {values : List β}
    (h : List.Forall₂ r items values) (himp : ∀ a ∈ items, ∀ b, r a b → s a b) :
    List.Forall₂ s items values := by
  induction h with
  | nil => exact .nil
  | cons hab _ ih =>
    exact .cons (himp _ List.mem_cons_self _ hab)
      (ih fun a ha => himp a (List.mem_cons_of_mem _ ha))

theorem exists_forall₂ {α β : Type} {r : α → β → Prop} {items : List α}
    (h : ∀ a ∈ items, ∃ b, r a b) : ∃ values, List.Forall₂ r items values := by
  induction items with
  | nil => exact ⟨[], .nil⟩
  | cons a items ih =>
    obtain ⟨b, hb⟩ := h a List.mem_cons_self
    obtain ⟨values, hvalues⟩ := ih fun x hx => h x (List.mem_cons_of_mem _ hx)
    exact ⟨b :: values, .cons hb hvalues⟩

/-! ## Attributes -/

/-- The contents of an attribute if it has this name. -/
def RawAttribute.infoIf? (constants : List Constant) (name : String) (raw : RawAttribute) :
    Option (List UInt8) :=
  if textAt? constants raw.name = some name then some raw.info else none

/-- The contents of the last attribute of this name. -/
def lastInfo? (constants : List Constant) (name : String) (raws : List RawAttribute) :
    Option (List UInt8) :=
  (raws.filterMap (·.infoIf? constants name)).getLast?

/-- The contents are the slot of a text. -/
def HoldsSignature (constants : List Constant) (info : List UInt8) (text : String) : Prop :=
  ∃ index, info = Encoder.word index ∧ textAt? constants index = some text

/-- The contents start with the two limits, the length of the code in four bytes and the
    code, whose operands refer to the constants. -/
def HoldsCode (constants : List Constant) (info : List UInt8) (code : Code) : Prop :=
  code.bytes.length < 4294967296 ∧ code.pool = ConstantPool.ofConstants constants ∧
    ∃ rest, info = Encoder.word code.maxStack ++ (Encoder.word code.maxLocals ++
      Encoder.doubleWord (UInt32.ofNat code.bytes.length)) ++ (code.bytes ++ rest)

/-- The attributes say this: the last signature and the last code. -/
structure DescribesAttributes (constants : List Constant) (raws : List RawAttribute)
    (attributes : Attributes) : Prop where
  signature : Option.Rel (HoldsSignature constants) (lastInfo? constants "Signature" raws)
    attributes.signature
  code : Option.Rel (HoldsCode constants) (lastInfo? constants "Code" raws) attributes.code

/-- The attribute has a name, and holds what an attribute of its name has to. -/
structure RawAttribute.WellFormed (constants : List Constant) (raw : RawAttribute) : Prop where
  named : ∃ name, textAt? constants raw.name = some name
  signature : textAt? constants raw.name = some "Signature" →
    ∃ text, HoldsSignature constants raw.info text
  code : textAt? constants raw.name = some "Code" → ∃ code, HoldsCode constants raw.info code

/-- The number of the attributes and the lengths of their contents can be written down. -/
def AttributesFit (raws : List RawAttribute) : Prop :=
  raws.length < 65536 ∧ ∀ raw ∈ raws, raw.info.length < 4294967296

instance (raws : List RawAttribute) : Decidable (AttributesFit raws) :=
  inferInstanceAs (Decidable (_ ∧ _))

section Attributes

variable {constants : List Constant}

theorem signatureOf_eq {info : List UInt8} {text : String}
    (h : HoldsSignature constants info text) :
    Attributes.signatureOf (ConstantPool.ofConstants constants) info = .ok text := by
  obtain ⟨index, rfl, htext⟩ := h
  have hword : Decoder.within (Encoder.word index) Decoder.word = .ok (index, []) := by
    have h := word_reads index []
    rwa [List.append_nil] at h
  unfold Attributes.signatureOf
  rw [hword]
  simp only [bind, Except.bind, text_ofConstants_iff.mpr htext]
  rfl

theorem codeOf_eq {info : List UInt8} {code : Code} (h : HoldsCode constants info code) :
    Attributes.codeOf (ConstantPool.ofConstants constants) info = .ok code := by
  obtain ⟨hlength, hpool, rest, rfl⟩ := h
  have hcount : (UInt32.ofNat code.bytes.length).toNat = code.bytes.length :=
    UInt32.toNat_ofNat_of_lt' hlength
  have hhead : Reads (do
      let maxStack ← Decoder.word
      let maxLocals ← Decoder.word
      let length ← Decoder.doubleWord
      return (maxStack, maxLocals, length)) _
      (code.maxStack, code.maxLocals, UInt32.ofNat code.bytes.length) :=
    (word_reads _).bind ((word_reads _).bind ((doubleWord_reads _).map _))
  unfold Attributes.codeOf Decoder.within
  rw [hhead]
  simp only [bind, Except.bind, hcount, List.take_left, if_true, ← hpool]
  rfl

theorem lastInfo?_cons (name : String) (raw : RawAttribute) (raws : List RawAttribute) :
    lastInfo? constants name (raw :: raws) =
      (lastInfo? constants name raws).or (raw.infoIf? constants name) := by
  unfold lastInfo?
  rw [List.filterMap_cons]
  cases raw.infoIf? constants name with
  | none => rw [Option.or_none]
  | some info =>
    rw [List.getLast?_cons]
    cases (raws.filterMap (·.infoIf? constants name)).getLast? <;> rfl

theorem exists_of_lastInfo? {name : String} {raws : List RawAttribute} {info : List UInt8}
    (h : lastInfo? constants name raws = some info) :
    ∃ raw ∈ raws, textAt? constants raw.name = some name ∧ raw.info = info := by
  obtain ⟨raw, hraw, hinfo⟩ := List.mem_filterMap.mp (List.mem_of_getLast? h)
  unfold RawAttribute.infoIf? at hinfo
  split_ifs at hinfo with hname
  exact ⟨raw, hraw, hname, Option.some.inj hinfo⟩

theorem HoldsSignature.unique {info : List UInt8} {a b : String}
    (ha : HoldsSignature constants info a) (hb : HoldsSignature constants info b) : a = b :=
  Except.ok.inj ((signatureOf_eq ha).symm.trans (signatureOf_eq hb))

theorem HoldsCode.unique {info : List UInt8} {a b : Code} (ha : HoldsCode constants info a)
    (hb : HoldsCode constants info b) : a = b :=
  Except.ok.inj ((codeOf_eq ha).symm.trans (codeOf_eq hb))

/-- What an attribute adds to those before it. -/
theorem exists_add {raw : RawAttribute} (h : raw.WellFormed constants) (before : Attributes) :
    ∃ name signature code, textAt? constants raw.name = some name ∧
      Option.Rel (HoldsSignature constants) (raw.infoIf? constants "Signature") signature ∧
      Option.Rel (HoldsCode constants) (raw.infoIf? constants "Code") code ∧
      before.add (ConstantPool.ofConstants constants) name raw.info =
        .ok ⟨signature.or before.signature, code.or before.code⟩ := by
  obtain ⟨name, hname⟩ := h.named
  unfold RawAttribute.infoIf? Attributes.add
  by_cases hsignature : name = "Signature"
  · subst hsignature
    obtain ⟨text, htext⟩ := h.signature hname
    refine ⟨_, some text, none, hname, ?_, ?_, ?_⟩
    · rw [if_pos hname]
      exact .some htext
    · rw [if_neg (by rw [hname]; decide)]
      exact .none
    · rw [if_pos rfl, signatureOf_eq htext]
      rfl
  · by_cases hcode : name = "Code"
    · subst hcode
      obtain ⟨code, hheld⟩ := h.code hname
      refine ⟨_, none, some code, hname, ?_, ?_, ?_⟩
      · rw [if_neg (by rw [hname]; decide)]
        exact .none
      · rw [if_pos hname]
        exact .some hheld
      · rw [if_neg (by decide), if_pos rfl, codeOf_eq hheld]
        rfl
    · refine ⟨name, none, none, hname, ?_, ?_, ?_⟩
      · rw [if_neg (by rw [hname]; simpa using hsignature)]
        exact .none
      · rw [if_neg (by rw [hname]; simpa using hcode)]
        exact .none
      · rw [if_neg hsignature, if_neg hcode]
        rfl

/-- Of attributes with the same name the last counts. -/
theorem readMore_reads {raws : List RawAttribute} (hformed : ∀ raw ∈ raws, raw.WellFormed constants)
    (hfits : ∀ raw ∈ raws, raw.info.length < 4294967296) {attributes : Attributes}
    (h : DescribesAttributes constants raws attributes) (before : Attributes) :
    (Attributes.readMore (ConstantPool.ofConstants constants) raws.length before).Reads
      (raws.flatMap RawAttribute.bytes)
      ⟨attributes.signature.or before.signature, attributes.code.or before.code⟩ := by
  obtain ⟨signature, code⟩ := attributes
  induction raws generalizing signature code before with
  | nil =>
    have hsignature : signature = none := by cases h.signature; rfl
    have hcode : code = none := by cases h.code; rfl
    subst hsignature hcode
    exact Reads.pure before
  | cons raw raws ih =>
    have hlength : (UInt32.ofNat raw.info.length).toNat = raw.info.length :=
      UInt32.toNat_ofNat_of_lt' (hfits raw List.mem_cons_self)
    obtain ⟨name, ownSignature, ownCode, hname, hownSignature, hownCode, hadd⟩ :=
      exists_add (hformed raw List.mem_cons_self) before
    have hsignature := h.signature
    have hcode := h.code
    rw [lastInfo?_cons] at hsignature hcode
    obtain ⟨laterSignature, hlaterSignature, rfl⟩ :=
      exists_of_rel_or (r := HoldsSignature constants) (fun _ _ _ => HoldsSignature.unique)
        hsignature hownSignature
    obtain ⟨laterCode, hlaterCode, rfl⟩ :=
      exists_of_rel_or (r := HoldsCode constants) (fun _ _ _ => HoldsCode.unique) hcode hownCode
    have hrest := ih (fun r hr => hformed r (List.mem_cons_of_mem _ hr))
      (fun r hr => hfits r (List.mem_cons_of_mem _ hr))
      ⟨ownSignature.or before.signature, ownCode.or before.code⟩ laterSignature laterCode
      ⟨hlaterSignature, hlaterCode⟩
    rw [List.flatMap_cons, RawAttribute.bytes, Option.or_assoc, Option.or_assoc]
    simp only [List.append_assoc]
    apply (word_reads _).bind
    apply (doubleWord_reads _).bind
    rw [hlength]
    apply (take_reads _).bind
    apply Reads.lift_bind (text_ofConstants_iff.mpr hname)
    exact Reads.lift_bind hadd hrest

/-- A table of attributes is read as what it says. -/
theorem attributes_reads {raws : List RawAttribute}
    (hformed : ∀ raw ∈ raws, raw.WellFormed constants) (hfits : AttributesFit raws)
    {attributes : Attributes} (h : DescribesAttributes constants raws attributes) :
    (Attributes.read (ConstantPool.ofConstants constants)).Reads
      (Encoder.table RawAttribute.bytes raws) attributes := by
  have hcount : (UInt16.ofNat raws.length).toNat = raws.length :=
    UInt16.toNat_ofNat_of_lt' hfits.1
  have hmore := readMore_reads hformed hfits.2 h {}
  rw [Option.or_none, Option.or_none] at hmore
  apply (word_reads _).bind
  rw [hcount]
  exact hmore

/-- Well-formed attributes say something. -/
theorem exists_describesAttributes {raws : List RawAttribute}
    (hformed : ∀ raw ∈ raws, raw.WellFormed constants) :
    ∃ attributes, DescribesAttributes constants raws attributes := by
  have hsignature : ∃ signature, Option.Rel (HoldsSignature constants)
      (lastInfo? constants "Signature" raws) signature := by
    apply exists_rel
    intro info hinfo
    obtain ⟨raw, hraw, hname, rfl⟩ := exists_of_lastInfo? hinfo
    exact (hformed raw hraw).signature hname
  have hcode : ∃ code, Option.Rel (HoldsCode constants) (lastInfo? constants "Code" raws) code := by
    apply exists_rel
    intro info hinfo
    obtain ⟨raw, hraw, hname, rfl⟩ := exists_of_lastInfo? hinfo
    exact (hformed raw hraw).code hname
  obtain ⟨signature, hsignature⟩ := hsignature
  obtain ⟨code, hcode⟩ := hcode
  exact ⟨⟨signature, code⟩, hsignature, hcode⟩

end Attributes

/-! ## Members -/

/-- The member that is described. -/
structure RawMember.Describes (constants : List Constant) (raw : RawMember) (member : Member) :
    Prop where
  access : member.access = raw.access
  name : textAt? constants raw.name = some member.name
  descriptor : textAt? constants raw.descriptor = some member.descriptor
  attributes : DescribesAttributes constants raw.attributes ⟨member.signature, member.code⟩

/-- The slots of the names hold texts, and the attributes hold what they have to. -/
structure RawMember.WellFormed (constants : List Constant) (raw : RawMember) : Prop where
  name : ∃ name, textAt? constants raw.name = some name
  descriptor : ∃ descriptor, textAt? constants raw.descriptor = some descriptor
  attributes : ∀ item ∈ raw.attributes, item.WellFormed constants

section Members

variable {constants : List Constant}

theorem member_reads {raw : RawMember} (hformed : raw.WellFormed constants)
    (hfits : AttributesFit raw.attributes) {member : Member} (h : raw.Describes constants member) :
    (Member.read (ConstantPool.ofConstants constants)).Reads raw.bytes member := by
  obtain ⟨access, name, descriptor, signature, code⟩ := member
  obtain rfl : access = raw.access := h.access
  have hattributes := attributes_reads hformed.attributes hfits h.attributes
  apply (word_reads _).bind
  apply (word_reads _).bind
  apply Reads.lift_bind (text_ofConstants_iff.mpr h.name)
  apply (word_reads _).bind
  apply Reads.lift_bind (text_ofConstants_iff.mpr h.descriptor)
  exact hattributes.map _

theorem members_reads {raws : List RawMember} {members : List Member}
    (hlength : raws.length < 65536) (hfits : ∀ member ∈ raws, AttributesFit member.attributes)
    (hformed : ∀ member ∈ raws, member.WellFormed constants)
    (h : List.Forall₂ (RawMember.Describes constants) raws members) :
    (Decoder.table (Member.read (ConstantPool.ofConstants constants))).Reads
      (Encoder.table RawMember.bytes raws) members :=
  table_reads hlength (forall₂_of_mem h fun member hmember _ hdescribes =>
    member_reads (hformed member hmember) (hfits member hmember) hdescribes)

theorem exists_describesMember {raw : RawMember} (h : raw.WellFormed constants) :
    ∃ member, raw.Describes constants member := by
  obtain ⟨name, hname⟩ := h.name
  obtain ⟨descriptor, hdescriptor⟩ := h.descriptor
  obtain ⟨attributes, hattributes⟩ := exists_describesAttributes h.attributes
  exact ⟨⟨raw.access, name, descriptor, attributes.signature, attributes.code⟩,
    rfl, hname, hdescriptor, hattributes⟩

end Members

/-! ## Classes -/

namespace RawClass

/-- The class that is described. -/
structure Describes (raw : RawClass) (file : ClassFile) : Prop where
  minorVersion : file.minorVersion = raw.minorVersion
  majorVersion : file.majorVersion = raw.majorVersion
  access : file.access = raw.access
  name : classAt? raw.constants raw.name = some file.name
  superName : file.superName =
    if raw.superName = 0 then none else classAt? raw.constants raw.superName
  interfaces : List.Forall₂ (fun index name => classAt? raw.constants index = some name)
    raw.interfaces file.interfaces
  fields : List.Forall₂ (RawMember.Describes raw.constants) raw.fields file.fields
  methods : List.Forall₂ (RawMember.Describes raw.constants) raw.methods file.methods
  signature : Option.Rel (HoldsSignature raw.constants)
    (lastInfo? raw.constants "Signature" raw.attributes) file.signature

/-- Every slot that is used holds a constant of the kind that is needed there, and the
    attributes hold what they have to. -/
structure WellFormed (raw : RawClass) : Prop where
  name : ∃ name, classAt? raw.constants raw.name = some name
  superName : raw.superName ≠ 0 → ∃ name, classAt? raw.constants raw.superName = some name
  interfaces : ∀ index ∈ raw.interfaces, ∃ name, classAt? raw.constants index = some name
  fields : ∀ field ∈ raw.fields, field.WellFormed raw.constants
  methods : ∀ method ∈ raw.methods, method.WellFormed raw.constants
  attributes : ∀ item ∈ raw.attributes, item.WellFormed raw.constants

/-- All the numbers of items and all the lengths can be written down. -/
structure Fits (raw : RawClass) : Prop where
  slots : ConstantPool.slotCount raw.constants < 65535
  constants : ∀ constant ∈ raw.constants, constant.Fits
  interfaces : raw.interfaces.length < 65536
  fields : raw.fields.length < 65536
  fieldAttributes : ∀ field ∈ raw.fields, AttributesFit field.attributes
  methods : raw.methods.length < 65536
  methodAttributes : ∀ method ∈ raw.methods, AttributesFit method.attributes
  attributes : AttributesFit raw.attributes

section Classes

variable {constants : List Constant}

theorem className_reads {index : UInt16} {name : String}
    (h : classAt? constants index = some name) :
    (ClassFile.readClassName (ConstantPool.ofConstants constants)).Reads (Encoder.word index)
      name := by
  rw [← List.append_nil (Encoder.word index)]
  exact (word_reads index).bind (Reads.lift (className_ofConstants_iff.mpr h))

theorem superName_reads {index : UInt16}
    (h : index ≠ 0 → ∃ name, classAt? constants index = some name) :
    (ClassFile.readSuperName (ConstantPool.ofConstants constants)).Reads (Encoder.word index)
      (if index = 0 then none else classAt? constants index) := by
  rw [← List.append_nil (Encoder.word index)]
  apply (word_reads index).bind
  by_cases hzero : index = 0
  · rw [if_pos hzero, if_pos hzero]
    exact Reads.pure none
  · obtain ⟨name, hname⟩ := h hzero
    rw [if_neg hzero, if_neg hzero, hname]
    exact (Reads.lift (className_ofConstants_iff.mpr hname)).map some

end Classes

variable {raw : RawClass}

/-- The described class is read from the bytes of its description. -/
theorem read_reads (hfits : raw.Fits) (hformed : raw.WellFormed) {file : ClassFile}
    (h : raw.Describes file) : ClassFile.read.Reads raw.bytes file := by
  obtain ⟨minorVersion, majorVersion, access, name, superName, interfaces, fields, methods,
    signature⟩ := file
  obtain rfl : minorVersion = raw.minorVersion := h.minorVersion
  obtain rfl : majorVersion = raw.majorVersion := h.majorVersion
  obtain rfl : access = raw.access := h.access
  -- The code of a class has to be readable, but is dropped.
  obtain ⟨⟨_, code⟩, hattributes⟩ := exists_describesAttributes hformed.attributes
  have hsuper := superName_reads hformed.superName
  rw [← h.superName] at hsuper
  have hinterfaces := table_reads hfits.interfaces (h.interfaces.imp fun _ _ => className_reads)
  have hfields := members_reads hfits.fields hfits.fieldAttributes hformed.fields h.fields
  have hmethods := members_reads hfits.methods hfits.methodAttributes hformed.methods h.methods
  have hlast : (Attributes.read _).Reads _ ⟨signature, code⟩ :=
    attributes_reads hformed.attributes hfits.attributes ⟨h.signature, hattributes.code⟩
  apply (doubleWord_reads _).bind
  apply (word_reads _).bind
  apply (word_reads _).bind
  apply (ConstantPool.read_reads hfits.slots hfits.constants).bind
  apply (word_reads _).bind
  apply (className_reads h.name).bind
  apply hsuper.bind
  apply hinterfaces.bind
  apply hfields.bind
  apply hmethods.bind
  exact hlast.map _

theorem parse_eq_ok_of_describes (hfits : raw.Fits) (hformed : raw.WellFormed) {file : ClassFile}
    (h : raw.Describes file) : ClassFile.parse raw.bytes = .ok file := by
  have hread := read_reads hfits hformed h []
  rw [List.append_nil] at hread
  unfold ClassFile.parse
  rw [hread]
  rfl

theorem exists_describes (h : raw.WellFormed) : ∃ file, raw.Describes file := by
  obtain ⟨name, hname⟩ := h.name
  obtain ⟨interfaces, hinterfaces⟩ := exists_forall₂ h.interfaces
  obtain ⟨fields, hfields⟩ := exists_forall₂ fun field hfield =>
    exists_describesMember (h.fields field hfield)
  obtain ⟨methods, hmethods⟩ := exists_forall₂ fun method hmethod =>
    exists_describesMember (h.methods method hmethod)
  obtain ⟨attributes, hattributes⟩ := exists_describesAttributes h.attributes
  exact ⟨⟨raw.minorVersion, raw.majorVersion, raw.access, name, _, interfaces, fields, methods,
    attributes.signature⟩, rfl, rfl, rfl, hname, rfl, hinterfaces, hfields, hmethods,
    hattributes.signature⟩

/-- The file of a well-formed description is read, and as the class that is described: there
    is exactly one. -/
theorem parse_bytes (hfits : raw.Fits) (hformed : raw.WellFormed) :
    ∃ file, ClassFile.parse raw.bytes = .ok file ∧
      ∀ other, raw.Describes other ↔ other = file := by
  obtain ⟨file, hfile⟩ := exists_describes hformed
  have hparse := parse_eq_ok_of_describes hfits hformed hfile
  refine ⟨file, hparse, fun other => ⟨fun hother => ?_, fun heq => heq ▸ hfile⟩⟩
  have hparseOther := parse_eq_ok_of_describes hfits hformed hother
  exact Except.ok.inj (hparseOther.symm.trans hparse)

/-- A class without superclass. Its long constant takes two slots, and the method has two
    signatures, an attribute that does not matter and code. -/
def box : RawClass where
  minorVersion := 0
  majorVersion := 52
  constants := [.utf8 "Box", .classRef 1, .long 0 7, .utf8 "Kept", .classRef 5, .utf8 "size",
    .utf8 "()I", .utf8 "Signature", .utf8 "()TT;", .utf8 "()LBox;", .utf8 "Note", .utf8 "Code"]
  access := 0x0001
  name := 2
  superName := 0
  interfaces := [6]
  fields := []
  methods := [⟨0x0001, 7, 8, [⟨9, [0, 10]⟩, ⟨12, [255]⟩, ⟨9, [0, 11]⟩,
    ⟨13, [0, 1, 0, 2, 0, 0, 0, 1, 177, 0, 0]⟩]⟩]
  attributes := []

/-- What `box` describes. -/
def boxFile : ClassFile where
  minorVersion := 0
  majorVersion := 52
  access := 0x0001
  name := "Box"
  superName := none
  interfaces := ["Kept"]
  fields := []
  methods := [⟨0x0001, "size", "()I", some "()LBox;",
    some ⟨1, 2, [177], ConstantPool.ofConstants box.constants⟩⟩]
  signature := none

theorem box_fits : box.Fits where
  slots := by decide
  constants := by decide
  interfaces := by decide
  fields := by decide
  fieldAttributes := by decide
  methods := by decide
  methodAttributes := by decide
  attributes := by decide

theorem box_wellFormed : box.WellFormed where
  name := ⟨"Box", rfl⟩
  superName := fun h => absurd rfl h
  interfaces := List.forall_mem_singleton.mpr ⟨"Kept", rfl⟩
  fields := List.forall_mem_nil _
  methods := List.forall_mem_singleton.mpr
    { name := ⟨"size", rfl⟩
      descriptor := ⟨"()I", rfl⟩
      attributes := by
        have hsignature (text : String) (index : UInt16)
            (htext : textAt? box.constants index = some text) :
            RawAttribute.WellFormed box.constants ⟨9, Encoder.word index⟩ :=
          ⟨⟨_, rfl⟩, fun _ => ⟨text, index, rfl, htext⟩, fun h =>
            absurd h (show ¬ textAt? box.constants 9 = some "Code" by decide)⟩
        have hnote : RawAttribute.WellFormed box.constants ⟨12, [255]⟩ :=
          ⟨⟨_, rfl⟩, fun h => absurd h (by decide), fun h => absurd h (by decide)⟩
        have hcode : RawAttribute.WellFormed box.constants
            ⟨13, [0, 1, 0, 2, 0, 0, 0, 1, 177, 0, 0]⟩ :=
          ⟨⟨_, rfl⟩, fun h => absurd h (by decide),
            fun _ => ⟨⟨1, 2, [177], _⟩, by decide, rfl, [0, 0], rfl⟩⟩
        simp only [List.forall_mem_cons]
        exact ⟨hsignature "()TT;" 10 rfl, hnote, hsignature "()LBox;" 11 rfl, hcode,
          List.forall_mem_nil _⟩ }
  attributes := List.forall_mem_nil _

theorem box_describes : box.Describes boxFile where
  minorVersion := rfl
  majorVersion := rfl
  access := rfl
  name := rfl
  superName := rfl
  interfaces := .cons rfl .nil
  fields := .nil
  methods := by
    refine .cons ⟨rfl, rfl, rfl, ⟨.some ⟨11, rfl, rfl⟩, .some ?_⟩⟩ .nil
    exact ⟨by decide, rfl, [0, 0], rfl⟩
  signature := .none

theorem parse_bytes_box : box.Fits ∧ box.WellFormed ∧ ClassFile.parse box.bytes = .ok boxFile := by
  refine ⟨box_fits, box_wellFormed, ?_⟩
  obtain ⟨file, hparse, hdescribes⟩ := parse_bytes box_fits box_wellFormed
  rw [hparse, (hdescribes boxFile).mp box_describes]

end RawClass

end Nomenclator

import Mathlib.Tactic
import Nomenclator.ClassFile.ConstantPool

/-!
# What look-ups in a constant pool find

A look-up follows the references between constants and succeeds exactly if each slot on
its way holds a constant of the kind that it needs there.

Results:
* `Holds`, `HoldsClass`, `HoldsString`, `HoldsMember`: which constants stand for a text, a
  class, a string and a member.
* `text_eq_ok_iff`, `className_eq_ok_iff`, `string?_eq_ok_iff`, `member_eq_ok_iff`: the
  look-ups find exactly these.
-/

namespace Nomenclator

/-- Two steps in a row succeed exactly if both do. -/
theorem bind_eq_ok_iff {ε α β : Type} {x : Except ε α} {f : α → Except ε β} {b : β} :
    (x >>= f) = .ok b ↔ ∃ a, x = .ok a ∧ f a = .ok b := by
  cases x <;> simp [Bind.bind, Except.bind]

theorem pure_eq_ok_iff {ε α : Type} {a b : α} : (pure a : Except ε α) = .ok b ↔ a = b := by
  simp [pure, Except.pure]

namespace ConstantPool

/-! ## What stands for what -/

/-- The slot is usable and holds the constant. -/
def Holds (pool : ConstantPool) (index : UInt16) (constant : Constant) : Prop :=
  pool.slots[index.toNat]? = some (some constant)

/-- The slot holds a class constant, which refers to the name. -/
def HoldsClass (pool : ConstantPool) (index : UInt16) (name : String) : Prop :=
  ∃ nameIndex, pool.Holds index (.classRef nameIndex) ∧ pool.Holds nameIndex (.utf8 name)

/-- The slot holds a string constant, which refers to the text. -/
def HoldsString (pool : ConstantPool) (index : UInt16) (text : String) : Prop :=
  ∃ textIndex, pool.Holds index (.string textIndex) ∧ pool.Holds textIndex (.utf8 text)

/-- The constants that refer to the owner and to the name and type of a member. -/
inductive RefersToMember (owner nameAndType : UInt16) : Constant → Prop
  | field : RefersToMember owner nameAndType (.fieldRef owner nameAndType)
  | method : RefersToMember owner nameAndType (.methodRef owner nameAndType)
  | interfaceMethod : RefersToMember owner nameAndType (.interfaceMethodRef owner nameAndType)

/-- The slot holds a constant that refers to the member. -/
def HoldsMember (pool : ConstantPool) (index : UInt16) (member : MemberRef) : Prop :=
  ∃ constant owner nameAndType name descriptor,
    pool.Holds index constant ∧ RefersToMember owner nameAndType constant ∧
      pool.Holds nameAndType (.nameAndType name descriptor) ∧
      pool.HoldsClass owner member.owner ∧ pool.Holds name (.utf8 member.name) ∧
      pool.Holds descriptor (.utf8 member.descriptor)

/-! ## Look-ups -/

variable {pool : ConstantPool} {index : UInt16}

theorem constant_eq_ok_iff {constant : Constant} :
    pool.constant index = .ok constant ↔ pool.Holds index constant := by
  unfold ConstantPool.constant Holds
  rcases pool.slots[index.toNat]? with _ | _ | found <;> simp

theorem text_eq_ok_iff {text : String} :
    pool.text index = .ok text ↔ pool.Holds index (.utf8 text) := by
  simp only [ConstantPool.text, bind_eq_ok_iff, constant_eq_ok_iff]
  constructor
  · rintro ⟨constant, hholds, hkind⟩
    split at hkind
    · cases hkind
      exact hholds
    · cases hkind
  · exact fun hholds => ⟨_, hholds, rfl⟩

theorem className_eq_ok_iff {name : String} :
    pool.className index = .ok name ↔ pool.HoldsClass index name := by
  simp only [ConstantPool.className, bind_eq_ok_iff, constant_eq_ok_iff]
  constructor
  · rintro ⟨constant, hholds, hkind⟩
    split at hkind
    · exact ⟨_, hholds, text_eq_ok_iff.mp hkind⟩
    · cases hkind
  · rintro ⟨nameIndex, hholds, hname⟩
    exact ⟨_, hholds, text_eq_ok_iff.mpr hname⟩

/-- A string is found where a string constant stands, and nothing where any other constant
    stands. -/
theorem string?_eq_ok_iff {text? : Option String} :
    pool.string? index = .ok text? ↔
      (∃ text, text? = some text ∧ pool.HoldsString index text) ∨
        text? = none ∧ ∃ constant, pool.Holds index constant ∧ constant.kind ≠ .string := by
  simp only [ConstantPool.string?, bind_eq_ok_iff, constant_eq_ok_iff]
  constructor
  · rintro ⟨constant, hholds, hkind⟩
    split at hkind
    · next textIndex =>
      obtain ⟨text, htext, hsome⟩ := bind_eq_ok_iff.mp hkind
      cases hsome
      exact .inl ⟨text, rfl, textIndex, hholds, text_eq_ok_iff.mp htext⟩
    · next hother =>
      cases hkind
      refine .inr ⟨rfl, constant, hholds, fun hstring => ?_⟩
      cases constant <;> cases hstring
      exact hother _ rfl
  · rintro (⟨text, rfl, textIndex, hholds, htext⟩ | ⟨rfl, constant, hholds, hkind⟩)
    · exact ⟨_, hholds, bind_eq_ok_iff.mpr ⟨text, text_eq_ok_iff.mpr htext, rfl⟩⟩
    · refine ⟨constant, hholds, ?_⟩
      split
      · exact absurd rfl hkind
      · rfl

theorem memberParts_eq_ok_iff {owner nameAndType : UInt16} :
    pool.memberParts index = .ok (owner, nameAndType) ↔
      ∃ constant, pool.Holds index constant ∧ RefersToMember owner nameAndType constant := by
  simp only [ConstantPool.memberParts, bind_eq_ok_iff, constant_eq_ok_iff]
  constructor
  · rintro ⟨constant, hholds, hkind⟩
    refine ⟨constant, hholds, ?_⟩
    split at hkind <;> cases hkind
    · exact .field
    · exact .method
    · exact .interfaceMethod
  · rintro ⟨constant, hholds, hrefers⟩
    refine ⟨constant, hholds, ?_⟩
    cases hrefers <;> rfl

theorem nameAndType_eq_ok_iff {name descriptor : UInt16} :
    pool.nameAndType index = .ok (name, descriptor) ↔
      pool.Holds index (.nameAndType name descriptor) := by
  simp only [ConstantPool.nameAndType, bind_eq_ok_iff, constant_eq_ok_iff]
  constructor
  · rintro ⟨constant, hholds, hkind⟩
    split at hkind <;> cases hkind
    exact hholds
  · exact fun hholds => ⟨_, hholds, rfl⟩

theorem member_eq_ok_iff {member : MemberRef} :
    pool.member index = .ok member ↔ pool.HoldsMember index member := by
  simp only [ConstantPool.member, bind_eq_ok_iff, Prod.exists, memberParts_eq_ok_iff,
    nameAndType_eq_ok_iff, className_eq_ok_iff, text_eq_ok_iff, pure_eq_ok_iff]
  constructor
  · rintro ⟨owner, nameAndType, ⟨constant, hholds, hrefers⟩, name, descriptor, hparts,
      ownerName, howner, memberName, hname, memberDescriptor, hdescriptor, rfl⟩
    exact ⟨constant, owner, nameAndType, name, descriptor, hholds, hrefers, hparts, howner,
      hname, hdescriptor⟩
  · rintro ⟨constant, owner, nameAndType, name, descriptor, hholds, hrefers, hparts, howner,
      hname, hdescriptor⟩
    exact ⟨owner, nameAndType, ⟨constant, hholds, hrefers⟩, name, descriptor, hparts,
      member.owner, howner, member.name, hname, member.descriptor, hdescriptor, rfl⟩

end ConstantPool

end Nomenclator

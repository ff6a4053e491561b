import Nomenclator.Proofs.PoolLayout

/-!
# Slots of a constant pool

Which slot belongs to which constant, and what look-ups find there. The constants of a pool
stand in slots from one on, each behind those of the constants before it, and a long or double
constant takes two. Every slot is the first one of a constant or unusable, so a look-up either
meets a constant, of the kind it needs or of another one, or an unusable slot.

Results:
* `startsAt_or_unusable`, `not_unusable_of_startsAt`: every slot is one or the other.
* `constantAt?_eq_some_iff`, `constantAt?_eq_none_iff`: which slots hold a constant.
* `text_eq_iff`, `className_eq_iff`, `string?_eq_iff`, `member_eq_iff`: what the look-ups
  answer, failures included.
* `read_addresses`: a pool is read from the bytes of its constants, whatever follows them, and
  its look-ups answer as the slots of the constants say.
-/

namespace Nomenclator.ConstantPool

/-! ## Slots -/

/-- The constant starts at the slot, behind slot zero and the slots of the constants before
    it. -/
def StartsAt (constants : List Constant) (slot : Nat) (constant : Constant) : Prop :=
  ∃ before after, constants = before ++ constant :: after ∧ slot = 1 + slotCount before

/-- The slot is slot zero, the second slot of a long or double constant, or behind all
    constants. -/
def Unusable (constants : List Constant) (slot : Nat) : Prop :=
  slot = 0 ∨
    (∃ first constant, StartsAt constants first constant ∧ constant.isWide = true ∧
      slot = first + 1) ∨
    slotCount constants + 1 ≤ slot

theorem width_pos (constant : Constant) : 0 < constant.width := by
  unfold Constant.width
  split <;> decide

theorem width_eq_two_iff {constant : Constant} : constant.width = 2 ↔ constant.isWide = true := by
  unfold Constant.width
  split_ifs with hwide
  · simp [hwide]
  · simp [hwide]

theorem StartsAt.pos {constants : List Constant} {slot : Nat} {constant : Constant}
    (h : StartsAt constants slot constant) : 0 < slot := by
  obtain ⟨before, after, -, rfl⟩ := h
  omega

theorem not_startsAt_nil (slot : Nat) (constant : Constant) : ¬StartsAt [] slot constant := by
  rintro ⟨before, after, h, -⟩
  simp at h

/-- The first constant starts at slot one, and the others as many slots later as it takes. -/
theorem startsAt_cons_iff {head constant : Constant} {constants : List Constant} {slot : Nat} :
    StartsAt (head :: constants) slot constant ↔
      slot = 1 ∧ constant = head ∨
      ∃ earlier, StartsAt constants earlier constant ∧ slot = earlier + head.width := by
  constructor
  · rintro ⟨before, after, hlist, rfl⟩
    cases before with
    | nil =>
      obtain ⟨rfl, -⟩ := List.cons.inj hlist
      exact Or.inl ⟨rfl, rfl⟩
    | cons first before =>
      obtain ⟨rfl, rfl⟩ := List.cons.inj hlist
      refine Or.inr ⟨1 + slotCount before, ⟨before, after, rfl, rfl⟩, ?_⟩
      rw [slotCount_cons, Nat.add_assoc]
  · rintro (⟨rfl, rfl⟩ | ⟨earlier, ⟨before, after, rfl, rfl⟩, rfl⟩)
    · exact ⟨[], constants, rfl, rfl⟩
    · refine ⟨head :: before, after, rfl, ?_⟩
      rw [slotCount_cons, Nat.add_assoc]

/-- A constant is found where it starts. -/
theorem constantAt?_eq_some_iff {constants : List Constant} {slot : Nat} {constant : Constant} :
    constantAt? constants slot = some constant ↔ StartsAt constants slot constant := by
  induction constants generalizing slot with
  | nil => simp [constantAt?, not_startsAt_nil]
  | cons head constants ih =>
    have hwidth := width_pos head
    rw [constantAt?, startsAt_cons_iff]
    split_ifs with hslot
    · constructor
      · intro h
        exact Or.inl ⟨hslot, (Option.some.inj h).symm⟩
      · rintro (⟨-, rfl⟩ | ⟨earlier, hearlier, heq⟩)
        · rfl
        · have hpos := hearlier.pos
          omega
    · rw [ih]
      constructor
      · intro h
        have hpos := h.pos
        exact Or.inr ⟨_, h, by omega⟩
      · rintro (⟨hone, -⟩ | ⟨earlier, hearlier, rfl⟩)
        · exact absurd hone hslot
        · rwa [Nat.add_sub_cancel]

/-- A constant ends before the slots do. -/
theorem StartsAt.add_width_le {constants : List Constant} {slot : Nat} {constant : Constant}
    (h : StartsAt constants slot constant) : slot + constant.width ≤ slotCount constants + 1 := by
  induction constants generalizing slot with
  | nil => exact absurd h (not_startsAt_nil slot constant)
  | cons head constants ih =>
    rw [slotCount_cons]
    rcases startsAt_cons_iff.mp h with ⟨rfl, rfl⟩ | ⟨earlier, hearlier, rfl⟩
    · omega
    · have hle := ih hearlier
      omega

/-- A slot at which no constant starts is unusable. -/
theorem startsAt_or_unusable (constants : List Constant) (slot : Nat) :
    (∃ constant, StartsAt constants slot constant) ∨ Unusable constants slot := by
  induction constants generalizing slot with
  | nil => exact Or.inr (by simp only [Unusable, slotCount]; simp; omega)
  | cons head constants ih =>
    by_cases hlast : slot ≤ 1
    · rcases Nat.le_one_iff_eq_zero_or_eq_one.mp hlast with rfl | rfl
      · exact Or.inr (Or.inl rfl)
      · exact Or.inl ⟨head, startsAt_cons_iff.mpr (Or.inl ⟨rfl, rfl⟩)⟩
    by_cases hsecond : slot < head.width + 1
    · -- Only a constant with two slots reaches beyond slot one.
      have hwide : head.isWide = true := by
        rw [← width_eq_two_iff]
        unfold Constant.width at hsecond ⊢
        split_ifs at hsecond ⊢ <;> omega
      rw [width_eq_two_iff.mpr hwide] at hsecond
      exact Or.inr (Or.inr (Or.inl ⟨1, head, startsAt_cons_iff.mpr (Or.inl ⟨rfl, rfl⟩), hwide,
        by omega⟩))
    · obtain ⟨earlier, rfl⟩ : ∃ earlier, slot = earlier + head.width := ⟨slot - head.width, by omega⟩
      rcases ih earlier with ⟨constant, hstarts⟩ | hunusable
      · exact Or.inl ⟨constant, startsAt_cons_iff.mpr (Or.inr ⟨earlier, hstarts, rfl⟩)⟩
      · rcases hunusable with rfl | ⟨first, constant, hstarts, hwide, rfl⟩ | hbehind
        · omega
        · refine Or.inr (Or.inr (Or.inl ⟨first + head.width, constant, ?_, hwide, by omega⟩))
          exact startsAt_cons_iff.mpr (Or.inr ⟨first, hstarts, rfl⟩)
        · refine Or.inr (Or.inr (Or.inr ?_))
          rw [slotCount_cons]
          omega

/-- A constant that starts later starts behind all slots of an earlier one. -/
theorem StartsAt.add_width_le_of_lt {constants : List Constant} {first slot : Nat}
    {constant other : Constant} (h : StartsAt constants first constant)
    (h' : StartsAt constants slot other) (hlt : first < slot) :
    first + constant.width ≤ slot := by
  induction constants generalizing first slot with
  | nil => exact absurd h (not_startsAt_nil first constant)
  | cons head constants ih =>
    rcases startsAt_cons_iff.mp h with ⟨rfl, rfl⟩ | ⟨earlier, hearlier, rfl⟩
    · rcases startsAt_cons_iff.mp h' with ⟨rfl, -⟩ | ⟨later, hlater, rfl⟩
      · omega
      · have hpos := hlater.pos
        omega
    · rcases startsAt_cons_iff.mp h' with ⟨rfl, -⟩ | ⟨later, hlater, rfl⟩
      · have hpos := hearlier.pos
        omega
      · have hle := ih hearlier hlater (by omega)
        omega

theorem not_unusable_of_startsAt {constants : List Constant} {slot : Nat} {constant : Constant}
    (h : StartsAt constants slot constant) : ¬Unusable constants slot := by
  have hpos := h.pos
  have hwidth := width_pos constant
  have hle := h.add_width_le
  rintro (rfl | ⟨first, other, hother, hwide, rfl⟩ | hbehind)
  · omega
  · have hbehind := hother.add_width_le_of_lt h (by omega)
    rw [width_eq_two_iff.mpr hwide] at hbehind
    omega
  · omega

/-- No constant is found in the unusable slots, and in no others. -/
theorem constantAt?_eq_none_iff {constants : List Constant} {slot : Nat} :
    constantAt? constants slot = none ↔ Unusable constants slot := by
  constructor
  · intro h
    refine (startsAt_or_unusable constants slot).resolve_left ?_
    rintro ⟨constant, hstarts⟩
    rw [constantAt?_eq_some_iff.mpr hstarts] at h
    cases h
  · intro h
    cases hfound : constantAt? constants slot with
    | none => rfl
    | some constant =>
      exact absurd h (not_unusable_of_startsAt (constantAt?_eq_some_iff.mp hfound))

/-! ## What look-ups find -/

/-- Why a look-up finds nothing in a slot: the slot is unusable, or its constant is of a kind
    that is not among those the look-up can use. The kind that is asked for is named. -/
inductive Misses (constants : List Constant) (index : UInt16) (asked : ConstantKind)
    (usable : List ConstantKind) : Malformed → Prop
  | unusable (h : Unusable constants index.toNat) :
    Misses constants index asked usable (.badIndex index)
  | otherKind {constant : Constant} (h : StartsAt constants index.toNat constant)
    (hkind : constant.kind ∉ usable) :
    Misses constants index asked usable (.wrongKind index asked constant.kind)

/-- What the look-up of a text answers. -/
inductive FindsText (constants : List Constant) (index : UInt16) : Except Malformed String → Prop
  | text {text : String} (h : StartsAt constants index.toNat (.utf8 text)) :
    FindsText constants index (.ok text)
  | misses {cause : Malformed} (h : Misses constants index .utf8 [.utf8] cause) :
    FindsText constants index (.error cause)

/-- What the look-up of a class name answers: what the look-up of the text does to which the
    class constant refers. -/
inductive FindsClass (constants : List Constant) (index : UInt16) :
    Except Malformed String → Prop
  | name {name : UInt16} {answer : Except Malformed String}
    (h : StartsAt constants index.toNat (.classRef name)) (hname : FindsText constants name answer) :
    FindsClass constants index answer
  | misses {cause : Malformed} (h : Misses constants index .classRef [.classRef] cause) :
    FindsClass constants index (.error cause)

/-- What the look-up of a string answers. A constant of another kind is no string, but that is
    no failure. -/
inductive FindsString (constants : List Constant) (index : UInt16) :
    Except Malformed (Option String) → Prop
  | text {text : UInt16} {answer : Except Malformed String}
    (h : StartsAt constants index.toNat (.string text)) (htext : FindsText constants text answer) :
    FindsString constants index (answer.map some)
  | otherKind {constant : Constant} (h : StartsAt constants index.toNat constant)
    (hkind : constant.kind ≠ .string) : FindsString constants index (.ok none)
  | unusable (h : Unusable constants index.toNat) :
    FindsString constants index (.error (.badIndex index))

/-- The kinds of constants that refer to a member. -/
def memberKinds : List ConstantKind := [.fieldRef, .methodRef, .interfaceMethodRef]

/-- What the look-up of a member answers. It follows the name and type before the owner, and
    the owner before the name and the descriptor. -/
inductive FindsMember (constants : List Constant) (index : UInt16) :
    Except Malformed MemberRef → Prop
  | misses {cause : Malformed} (h : Misses constants index .fieldRef memberKinds cause) :
    FindsMember constants index (.error cause)
  | missesParts {constant : Constant} {owner nameAndType : UInt16} {cause : Malformed}
    (h : StartsAt constants index.toNat constant)
    (hrefers : RefersToMember owner nameAndType constant)
    (hparts : Misses constants nameAndType .nameAndType [.nameAndType] cause) :
    FindsMember constants index (.error cause)
  | parts {constant : Constant} {owner nameAndType name descriptor : UInt16}
    {ownerName memberName memberDescriptor : Except Malformed String}
    (h : StartsAt constants index.toNat constant)
    (hrefers : RefersToMember owner nameAndType constant)
    (hparts : StartsAt constants nameAndType.toNat (.nameAndType name descriptor))
    (howner : FindsClass constants owner ownerName) (hname : FindsText constants name memberName)
    (hdescriptor : FindsText constants descriptor memberDescriptor) :
    FindsMember constants index
      (ownerName.bind fun o => memberName.bind fun n => memberDescriptor.map fun d => ⟨o, n, d⟩)

/-! ## Look-ups in the pool of the constants -/

section Lookups

variable {constants : List Constant} {index : UInt16}

theorem constant_eq_ok_iff_startsAt {constant : Constant} :
    (ofConstants constants).constant index = .ok constant ↔
      StartsAt constants index.toNat constant := by
  rw [constant_eq_ok_iff, holds_ofConstants_iff, constantAt?_eq_some_iff]

theorem constant_of_startsAt {constant : Constant} (h : StartsAt constants index.toNat constant) :
    (ofConstants constants).constant index = .ok constant :=
  constant_eq_ok_iff_startsAt.mpr h

theorem constant_eq_error_iff {cause : Malformed} :
    (ofConstants constants).constant index = .error cause ↔
      Unusable constants index.toNat ∧ cause = .badIndex index := by
  constructor
  · intro h
    refine ⟨(startsAt_or_unusable constants index.toNat).resolve_left ?_, ?_⟩
    · rintro ⟨constant, hstarts⟩
      rw [constant_of_startsAt hstarts] at h
      cases h
    · unfold ConstantPool.constant at h
      split at h
      · cases h
      · exact (Except.error.inj h).symm
  · rintro ⟨hunusable, rfl⟩
    cases hfound : (ofConstants constants).constant index with
    | ok constant =>
      exact absurd hunusable (not_unusable_of_startsAt (constant_eq_ok_iff_startsAt.mp hfound))
    | error cause =>
      unfold ConstantPool.constant at hfound
      split at hfound
      · cases hfound
      · rw [Except.error.inj hfound]

theorem constant_of_unusable (h : Unusable constants index.toNat) :
    (ofConstants constants).constant index = .error (.badIndex index) :=
  constant_eq_error_iff.mpr ⟨h, rfl⟩

/-- A slot has a constant that a look-up can use, or the look-up misses. -/
theorem startsAt_or_misses (constants : List Constant) (index : UInt16) (asked : ConstantKind)
    (usable : List ConstantKind) :
    (∃ constant, StartsAt constants index.toNat constant ∧ constant.kind ∈ usable) ∨
      ∃ cause, Misses constants index asked usable cause := by
  rcases startsAt_or_unusable constants index.toNat with ⟨constant, hstarts⟩ | hunusable
  · by_cases hkind : constant.kind ∈ usable
    · exact Or.inl ⟨constant, hstarts, hkind⟩
    · exact Or.inr ⟨_, .otherKind hstarts hkind⟩
  · exact Or.inr ⟨_, .unusable hunusable⟩

/-- A look-up that refuses every constant it cannot use, and names its kind, fails as it
    misses. -/
theorem lookup_of_misses {α : Type} {use : Constant → Except Malformed α} {asked : ConstantKind}
    {usable : List ConstantKind} {cause : Malformed}
    (hrefuses : ∀ constant, constant.kind ∉ usable →
      use constant = .error (.wrongKind index asked constant.kind))
    (h : Misses constants index asked usable cause) :
    (ofConstants constants).constant index >>= use = .error cause := by
  cases h with
  | unusable h => rw [constant_of_unusable h]; rfl
  | otherKind h hkind => rw [constant_of_startsAt h]; exact hrefuses _ hkind

/-- What always gives a described answer gives exactly the answers described, if there is
    one. -/
theorem eq_iff_of_forall {α : Type} {a b : α} {describes : α → Prop}
    (hdescribes : ∀ c, describes c → a = c) (hexists : ∃ c, describes c) :
    a = b ↔ describes b := by
  obtain ⟨c, hc⟩ := hexists
  constructor
  · rintro rfl
    rwa [← hdescribes c hc] at hc
  · exact hdescribes b

/-! ### Texts -/

theorem text_of_misses {cause : Malformed} (h : Misses constants index .utf8 [.utf8] cause) :
    (ofConstants constants).text index = .error cause := by
  refine lookup_of_misses (fun constant hkind => ?_) h
  split
  · exact absurd List.mem_cons_self hkind
  · rfl

theorem exists_findsText (constants : List Constant) (index : UInt16) :
    ∃ answer, FindsText constants index answer := by
  rcases startsAt_or_misses constants index .utf8 [.utf8] with ⟨constant, h, hkind⟩ | ⟨cause, h⟩
  · cases constant with
    | utf8 text => exact ⟨_, .text h⟩
    | _ => simp [Constant.kind] at hkind
  · exact ⟨_, .misses h⟩

theorem text_eq_iff {answer : Except Malformed String} :
    (ofConstants constants).text index = answer ↔ FindsText constants index answer := by
  refine eq_iff_of_forall (fun answer h => ?_) (exists_findsText constants index)
  cases h with
  | text h => rw [ConstantPool.text, constant_of_startsAt h]; rfl
  | misses h => exact text_of_misses h

/-! ### Classes and strings -/

theorem className_of_misses {cause : Malformed}
    (h : Misses constants index .classRef [.classRef] cause) :
    (ofConstants constants).className index = .error cause := by
  refine lookup_of_misses (fun constant hkind => ?_) h
  split
  · exact absurd List.mem_cons_self hkind
  · rfl

theorem exists_findsClass (constants : List Constant) (index : UInt16) :
    ∃ answer, FindsClass constants index answer := by
  rcases startsAt_or_misses constants index .classRef [.classRef] with
    ⟨constant, h, hkind⟩ | ⟨cause, h⟩
  · cases constant with
    | classRef name =>
      obtain ⟨answer, hname⟩ := exists_findsText constants name
      exact ⟨answer, .name h hname⟩
    | _ => simp [Constant.kind] at hkind
  · exact ⟨_, .misses h⟩

theorem className_eq_iff {answer : Except Malformed String} :
    (ofConstants constants).className index = answer ↔ FindsClass constants index answer := by
  refine eq_iff_of_forall (fun answer h => ?_) (exists_findsClass constants index)
  cases h with
  | name h hname =>
    rw [ConstantPool.className, constant_of_startsAt h]
    exact text_eq_iff.mpr hname
  | misses h => exact className_of_misses h

theorem string?_eq_iff {answer : Except Malformed (Option String)} :
    (ofConstants constants).string? index = answer ↔ FindsString constants index answer := by
  refine eq_iff_of_forall (fun answer h => ?_) ?_
  · cases h with
    | text h htext =>
      rw [ConstantPool.string?, constant_of_startsAt h, ← text_eq_iff.mpr htext]
      rfl
    | otherKind h hkind =>
      rw [ConstantPool.string?, constant_of_startsAt h]
      dsimp only [bind, Except.bind]
      split
      · exact absurd rfl hkind
      · rfl
    | unusable h => rw [ConstantPool.string?, constant_of_unusable h]; rfl
  · rcases startsAt_or_unusable constants index.toNat with ⟨constant, h⟩ | h
    · cases constant with
      | string text =>
        obtain ⟨answer, htext⟩ := exists_findsText constants text
        exact ⟨_, .text h htext⟩
      | _ => exact ⟨_, .otherKind h (by simp [Constant.kind])⟩
    · exact ⟨_, .unusable h⟩

/-! ### Members -/

theorem memberParts_of_misses {cause : Malformed}
    (h : Misses constants index .fieldRef memberKinds cause) :
    (ofConstants constants).memberParts index = .error cause := by
  refine lookup_of_misses (fun constant hkind => ?_) h
  split
  · exact absurd (by simp [memberKinds, Constant.kind]) hkind
  · exact absurd (by simp [memberKinds, Constant.kind]) hkind
  · exact absurd (by simp [memberKinds, Constant.kind]) hkind
  · rfl

theorem memberParts_of_refers {constant : Constant} {owner nameAndType : UInt16}
    (h : StartsAt constants index.toNat constant)
    (hrefers : RefersToMember owner nameAndType constant) :
    (ofConstants constants).memberParts index = .ok (owner, nameAndType) :=
  memberParts_eq_ok_iff.mpr
    ⟨constant, constant_eq_ok_iff.mp (constant_of_startsAt h), hrefers⟩

theorem nameAndType_of_misses {cause : Malformed}
    (h : Misses constants index .nameAndType [.nameAndType] cause) :
    (ofConstants constants).nameAndType index = .error cause := by
  refine lookup_of_misses (fun constant hkind => ?_) h
  split
  · exact absurd List.mem_cons_self hkind
  · rfl

theorem nameAndType_of_startsAt {name descriptor : UInt16}
    (h : StartsAt constants index.toNat (.nameAndType name descriptor)) :
    (ofConstants constants).nameAndType index = .ok (name, descriptor) :=
  nameAndType_eq_ok_iff.mpr (constant_eq_ok_iff.mp (constant_of_startsAt h))

theorem exists_refersToMember {constant : Constant} (h : constant.kind ∈ memberKinds) :
    ∃ owner nameAndType, RefersToMember owner nameAndType constant := by
  cases constant with
  | fieldRef owner nameAndType => exact ⟨owner, nameAndType, .field⟩
  | methodRef owner nameAndType => exact ⟨owner, nameAndType, .method⟩
  | interfaceMethodRef owner nameAndType => exact ⟨owner, nameAndType, .interfaceMethod⟩
  | _ => simp [Constant.kind, memberKinds] at h

theorem exists_findsMember (constants : List Constant) (index : UInt16) :
    ∃ answer, FindsMember constants index answer := by
  rcases startsAt_or_misses constants index .fieldRef memberKinds with
    ⟨constant, h, hkind⟩ | ⟨cause, h⟩
  · obtain ⟨owner, nameAndType, hrefers⟩ := exists_refersToMember hkind
    rcases startsAt_or_misses constants nameAndType .nameAndType [.nameAndType] with
      ⟨parts, hparts, hkind⟩ | ⟨cause, hparts⟩
    · cases parts with
      | nameAndType name descriptor =>
        obtain ⟨ownerName, howner⟩ := exists_findsClass constants owner
        obtain ⟨memberName, hname⟩ := exists_findsText constants name
        obtain ⟨memberDescriptor, hdescriptor⟩ := exists_findsText constants descriptor
        exact ⟨_, .parts h hrefers hparts howner hname hdescriptor⟩
      | _ => simp [Constant.kind] at hkind
    · exact ⟨_, .missesParts h hrefers hparts⟩
  · exact ⟨_, .misses h⟩

theorem member_eq_iff {answer : Except Malformed MemberRef} :
    (ofConstants constants).member index = answer ↔ FindsMember constants index answer := by
  refine eq_iff_of_forall (fun answer h => ?_) (exists_findsMember constants index)
  cases h with
  | misses h => rw [ConstantPool.member, memberParts_of_misses h]; rfl
  | missesParts h hrefers hparts =>
    rw [ConstantPool.member, memberParts_of_refers h hrefers]
    dsimp only [bind, Except.bind]
    rw [nameAndType_of_misses hparts]
  | parts h hrefers hparts howner hname hdescriptor =>
    rw [ConstantPool.member, memberParts_of_refers h hrefers]
    dsimp only [bind, Except.bind]
    rw [nameAndType_of_startsAt hparts, ← className_eq_iff.mpr howner, ← text_eq_iff.mpr hname,
      ← text_eq_iff.mpr hdescriptor]
    rfl

end Lookups

/-! ## Reading -/

/-- The look-ups in a pool answer as the slots of the constants say. -/
structure Addresses (pool : ConstantPool) (constants : List Constant) : Prop where
  found : ∀ (index : UInt16) constant,
    pool.constant index = .ok constant ↔ StartsAt constants index.toNat constant
  unusable : ∀ (index : UInt16) cause,
    pool.constant index = .error cause ↔
      Unusable constants index.toNat ∧ cause = .badIndex index
  texts : ∀ index answer, pool.text index = answer ↔ FindsText constants index answer
  classes : ∀ index answer, pool.className index = answer ↔ FindsClass constants index answer
  strings : ∀ index answer, pool.string? index = answer ↔ FindsString constants index answer
  members : ∀ index answer, pool.member index = answer ↔ FindsMember constants index answer

theorem addresses_ofConstants (constants : List Constant) :
    (ofConstants constants).Addresses constants where
  found _ _ := constant_eq_ok_iff_startsAt
  unusable _ _ := constant_eq_error_iff
  texts _ _ := text_eq_iff
  classes _ _ := className_eq_iff
  strings _ _ := string?_eq_iff
  members _ _ := member_eq_iff

/-- A pool is read from the bytes of its constants, if these take at most 65534 slots. Nothing
    of what follows is read, and look-ups find each constant in the slot at which it starts and
    none in the others. -/
theorem read_addresses {constants : List Constant} (hcount : slotCount constants + 1 ≤ 65535)
    (hfits : ∀ constant ∈ constants, constant.Fits) (rest : List UInt8) :
    ∃ pool, read.run (bytes constants ++ rest) = .ok (pool, rest) ∧ pool.Addresses constants :=
  ⟨ofConstants constants, read_reads hcount hfits rest, addresses_ofConstants constants⟩

/-- Constants in slots one to nine. The string in slot five refers to a long constant, and the
    double constant at the end takes the last two slots. -/
def mixedConstants : List Constant :=
  [.utf8 "a", .long 0 1, .classRef 1, .string 2, .nameAndType 1 1, .fieldRef 4 6, .double 0 0]

theorem read_addresses_mixed :
    slotCount mixedConstants + 1 ≤ 65535 ∧ (∀ constant ∈ mixedConstants, constant.Fits) ∧
      ∃ pool, read.run (bytes mixedConstants ++ [7]) = .ok (pool, [7]) ∧
        pool.className 4 = .ok "a" ∧ pool.member 7 = .ok ⟨"a", "a", "a"⟩ ∧
        pool.string? 5 = .error (.wrongKind 2 .utf8 .long) ∧
        pool.constant 3 = .error (.badIndex 3) ∧ pool.constant 9 = .error (.badIndex 9) := by
  have hcount : slotCount mixedConstants + 1 ≤ 65535 := by decide
  have hfits : ∀ constant ∈ mixedConstants, constant.Fits := by decide
  obtain ⟨pool, hread, haddresses⟩ := read_addresses hcount hfits [7]
  have hstarts : ∀ slot constant, constantAt? mixedConstants slot = some constant →
      StartsAt mixedConstants slot constant := fun _ _ => constantAt?_eq_some_iff.mp
  have hunusable : ∀ slot, constantAt? mixedConstants slot = none →
      Unusable mixedConstants slot := fun _ => constantAt?_eq_none_iff.mp
  have htext : FindsText mixedConstants 1 (.ok "a") := .text (hstarts _ _ (by decide))
  have hclass : FindsClass mixedConstants 4 (.ok "a") := .name (hstarts _ _ (by decide)) htext
  have hlong : FindsText mixedConstants 2 (.error (.wrongKind 2 .utf8 .long)) :=
    .misses (.otherKind (hstarts _ (.long 0 1) (by decide)) (by decide))
  refine ⟨hcount, hfits, pool, hread, (haddresses.classes _ _).mpr hclass, ?_, ?_, ?_, ?_⟩
  · exact (haddresses.members _ _).mpr
      (.parts (hstarts _ (.fieldRef 4 6) (by decide)) .field (hstarts _ _ (by decide)) hclass
        htext htext)
  · exact (haddresses.strings _ _).mpr (.text (hstarts _ _ (by decide)) hlong)
  · exact (haddresses.unusable _ _).mpr ⟨hunusable _ (by decide), rfl⟩
  · exact (haddresses.unusable _ _).mpr ⟨hunusable _ (by decide), rfl⟩

end Nomenclator.ConstantPool

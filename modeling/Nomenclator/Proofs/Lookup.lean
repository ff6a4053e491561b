import Mathlib.Tactic.SplitIfs
import Nomenclator.Renames

/-!
# Looking up after writing

Every write changes the entry of one class. This module says what each kind of
look-up answers after each kind of write.

Results:
* `ext_lookup`: renames are determined by which classes have entries and by the
  answers about class names, fields and methods.
* `setFieldName_comm`, `setMethodName_comm`: two members of a class can be named in either
  order.
* `RenamesFields`: a change of nothing but names that stand in entries of fields. If
  the names come out as they were, nothing has changed (`RenamesFields.eq_of_fieldName`).
* `Keeps`, `KeepsNames`: what a change leaves in place. Entering something and
  naming what has no name keep all names (`KeepsNames.setFieldName` and its
  siblings).
* `NamesMethods`: a change that only gives names to methods without one. Two such
  changes that lead to the same method names are equal (`NamesMethods.unique`).
-/

namespace Nomenclator.Renames

/-! ## Entries -/

/-- The entry of a class, an empty one if it has none. -/
def entry (renames : Renames) (name : String) : ClassRename := (renames.class? name).getD {}

/-- The descriptor in the entry of a field. -/
def fieldDescriptor? (renames : Renames) (owner name : String) : Option String :=
  (renames.field? owner name).bind (·.descriptor)

theorem className?_eq_entry (renames : Renames) (name : String) :
    renames.className? name = (renames.entry name).newName := by
  unfold className? entry
  cases renames.class? name <;> rfl

theorem field?_eq_entry (renames : Renames) (owner name : String) :
    renames.field? owner name = (renames.entry owner).fields.find? name := by
  unfold field? entry
  cases renames.class? owner <;> rfl

theorem method?_eq_entry (renames : Renames) (owner : String) (key : MethodKey) :
    renames.method? owner key = (renames.entry owner).methods.find? key := by
  unfold method? entry
  cases renames.class? owner <;> rfl

theorem isSome_class?_of_field? {renames : Renames} {owner name : String}
    (h : (renames.field? owner name).isSome) : (renames.class? owner).isSome := by
  cases hc : renames.class? owner with
  | none => simp [field?, hc] at h
  | some _ => rfl

/-- Renames are equal if the same classes have entries and every question about
    class names, fields and methods has the same answer. -/
theorem ext_lookup {a b : Renames} (hclass : ∀ c, (a.class? c).isSome = (b.class? c).isSome)
    (hname : ∀ c, a.className? c = b.className? c)
    (hfield : ∀ c f, a.field? c f = b.field? c f)
    (hmethod : ∀ c k, a.method? c k = b.method? c k) : a = b := by
  have hentry : ∀ c, a.entry c = b.entry c := by
    intro c
    have hn : (a.entry c).newName = (b.entry c).newName := by
      rw [← className?_eq_entry, ← className?_eq_entry, hname]
    have hf : (a.entry c).fields = (b.entry c).fields := by
      apply OrderedMap.ext_find?
      intro f
      rw [← field?_eq_entry, ← field?_eq_entry, hfield]
    have hm : (a.entry c).methods = (b.entry c).methods := by
      apply OrderedMap.ext_find?
      intro k
      rw [← method?_eq_entry, ← method?_eq_entry, hmethod]
    generalize a.entry c = ea at hn hf hm ⊢
    generalize b.entry c = eb at hn hf hm ⊢
    cases ea
    cases eb
    simp_all
  have hclasses : a.classes = b.classes := by
    apply OrderedMap.ext_find?
    intro c
    have he := hentry c
    have hs := hclass c
    unfold entry at he
    unfold class? at he hs
    cases ha : a.classes.find? c with
    | none =>
      rw [ha] at hs
      cases hb : b.classes.find? c with
      | none => rfl
      | some _ => rw [hb] at hs; cases hs
    | some ea =>
      rw [ha] at hs he
      cases hb : b.classes.find? c with
      | none => rw [hb] at hs; cases hs
      | some eb => rw [hb] at he; exact congrArg some he
  cases a
  cases b
  exact congrArg _ hclasses

/-! ## Writes -/

theorem class?_editClass (renames : Renames) (name : String) (f : ClassRename → ClassRename)
    (c : String) :
    (renames.editClass name f).class? c =
      if c = name then some (f (renames.entry name)) else renames.class? c := by
  unfold class? editClass
  split_ifs with h
  · rw [h, OrderedMap.find?_update_self]
    rfl
  · exact OrderedMap.find?_update_of_ne _ h _

theorem entry_editClass (renames : Renames) (name : String) (f : ClassRename → ClassRename)
    (c : String) :
    (renames.editClass name f).entry c =
      if c = name then f (renames.entry name) else renames.entry c := by
  unfold entry
  rw [class?_editClass]
  split_ifs <;> rfl

/-- A write makes an entry for its class and for no other. -/
theorem isSome_class?_editClass (renames : Renames) (name : String)
    (f : ClassRename → ClassRename) (c : String) :
    ((renames.editClass name f).class? c).isSome =
      (decide (c = name) || (renames.class? c).isSome) := by
  rw [class?_editClass]
  split_ifs with h <;> simp [h]

/-! ### Fields -/

@[simp] theorem className?_editField (renames : Renames) (owner name : String)
    (descriptor : Option String) (f : FieldRename → FieldRename) (c : String) :
    (renames.editField owner name descriptor f).className? c = renames.className? c := by
  rw [className?_eq_entry, className?_eq_entry, editField, entry_editClass]
  split_ifs with h
  · rw [h]
  · rfl

@[simp] theorem method?_editField (renames : Renames) (owner name : String)
    (descriptor : Option String) (f : FieldRename → FieldRename) (c : String) (k : MethodKey) :
    (renames.editField owner name descriptor f).method? c k = renames.method? c k := by
  rw [method?_eq_entry, method?_eq_entry, editField, entry_editClass]
  split_ifs with h
  · rw [h]
  · rfl

theorem field?_editField (renames : Renames) (owner name : String) (descriptor : Option String)
    (f : FieldRename → FieldRename) (c n : String) :
    (renames.editField owner name descriptor f).field? c n =
      if c = owner ∧ n = name then
        some (f ⟨(renames.fieldDescriptor? owner name).or descriptor,
          renames.fieldName? owner name⟩)
      else renames.field? c n := by
  unfold fieldDescriptor? fieldName?
  rw [field?_eq_entry, field?_eq_entry, field?_eq_entry, editField, entry_editClass]
  by_cases hc : c = owner
  · rw [if_pos hc, hc]
    by_cases hn : n = name
    · rw [hn, OrderedMap.find?_update_self]
      cases (renames.entry owner).fields.find? name <;> simp
    · simp only [true_and]
      rw [OrderedMap.find?_update_of_ne _ hn, if_neg hn]
  · rw [if_neg hc]
    simp [hc]

theorem fieldName?_setFieldName (renames : Renames) (owner name : String)
    (descriptor : Option String) (newName : String) (c n : String) :
    (renames.setFieldName owner name descriptor newName).fieldName? c n =
      if c = owner ∧ n = name then some newName else renames.fieldName? c n := by
  unfold fieldName? setFieldName
  rw [field?_editField]
  split_ifs <;> rfl

@[simp] theorem fieldName?_setFieldName_self (renames : Renames) (owner name : String)
    (descriptor : Option String) (newName : String) :
    (renames.setFieldName owner name descriptor newName).fieldName? owner name = some newName := by
  rw [fieldName?_setFieldName, if_pos ⟨rfl, rfl⟩]

theorem fieldDescriptor?_setFieldName (renames : Renames) (owner name : String)
    (descriptor : Option String) (newName : String) (c n : String) :
    (renames.setFieldName owner name descriptor newName).fieldDescriptor? c n =
      if c = owner ∧ n = name then (renames.fieldDescriptor? owner name).or descriptor
      else renames.fieldDescriptor? c n := by
  rw [fieldDescriptor?, setFieldName, field?_editField]
  split_ifs <;> rfl

@[simp] theorem fieldName?_enterField (renames : Renames) (owner name : String)
    (descriptor : Option String) (c n : String) :
    (renames.enterField owner name descriptor).fieldName? c n = renames.fieldName? c n := by
  rw [fieldName?, enterField, field?_editField]
  split_ifs with h
  · obtain ⟨rfl, rfl⟩ := h
    rfl
  · rfl

theorem fieldDescriptor?_enterField (renames : Renames) (owner name : String)
    (descriptor : Option String) (c n : String) :
    (renames.enterField owner name descriptor).fieldDescriptor? c n =
      if c = owner ∧ n = name then (renames.fieldDescriptor? owner name).or descriptor
      else renames.fieldDescriptor? c n := by
  rw [fieldDescriptor?, enterField, field?_editField]
  split_ifs <;> rfl

/-! ### Methods and classes -/

@[simp] theorem className?_editMethod (renames : Renames) (owner : String) (key : MethodKey)
    (f : Option String → Option String) (c : String) :
    (renames.editMethod owner key f).className? c = renames.className? c := by
  rw [className?_eq_entry, className?_eq_entry, editMethod, entry_editClass]
  split_ifs with h
  · rw [h]
  · rfl

@[simp] theorem field?_editMethod (renames : Renames) (owner : String) (key : MethodKey)
    (f : Option String → Option String) (c n : String) :
    (renames.editMethod owner key f).field? c n = renames.field? c n := by
  rw [field?_eq_entry, field?_eq_entry, editMethod, entry_editClass]
  split_ifs with h
  · rw [h]
  · rfl

theorem method?_setMethodName (renames : Renames) (owner : String) (key : MethodKey)
    (newName : String) (c : String) (k : MethodKey) :
    (renames.setMethodName owner key newName).method? c k =
      if c = owner ∧ k = key then some (some newName) else renames.method? c k := by
  rw [method?_eq_entry, method?_eq_entry, setMethodName, editMethod, entry_editClass]
  by_cases hc : c = owner
  · rw [if_pos hc, hc]
    by_cases hk : k = key
    · rw [hk, OrderedMap.find?_update_self]
      simp
    · simp only [true_and]
      rw [OrderedMap.find?_update_of_ne _ hk, if_neg hk]
  · rw [if_neg hc]
    simp [hc]

theorem methodName?_setMethodName (renames : Renames) (owner : String) (key : MethodKey)
    (newName : String) (c : String) (k : MethodKey) :
    (renames.setMethodName owner key newName).methodName? c k =
      if c = owner ∧ k = key then some newName else renames.methodName? c k := by
  unfold methodName?
  rw [method?_setMethodName]
  split_ifs <;> rfl

@[simp] theorem methodName?_setMethodName_self (renames : Renames) (owner : String)
    (key : MethodKey) (newName : String) :
    (renames.setMethodName owner key newName).methodName? owner key = some newName := by
  rw [methodName?_setMethodName, if_pos ⟨rfl, rfl⟩]

theorem className?_setClassName (renames : Renames) (name newName : String) (c : String) :
    (renames.setClassName name newName).className? c =
      if c = name then some newName else renames.className? c := by
  rw [className?_eq_entry, className?_eq_entry, setClassName, entry_editClass]
  split_ifs <;> rfl

@[simp] theorem className?_setClassName_self (renames : Renames) (name newName : String) :
    (renames.setClassName name newName).className? name = some newName := by
  rw [className?_setClassName, if_pos rfl]

@[simp] theorem field?_setClassName (renames : Renames) (name newName : String) (c n : String) :
    (renames.setClassName name newName).field? c n = renames.field? c n := by
  rw [field?_eq_entry, field?_eq_entry, setClassName, entry_editClass]
  split_ifs with h
  · rw [h]
  · rfl

@[simp] theorem method?_setClassName (renames : Renames) (name newName : String) (c : String)
    (k : MethodKey) :
    (renames.setClassName name newName).method? c k = renames.method? c k := by
  rw [method?_eq_entry, method?_eq_entry, setClassName, entry_editClass]
  split_ifs with h
  · rw [h]
  · rfl

/-! ### Writes in either order -/

/-- Two fields of a class can be named in either order. -/
theorem setFieldName_comm (renames : Renames) (owner : String) {a b : String} (h : a ≠ b)
    (da db : Option String) (newA newB : String) :
    (renames.setFieldName owner a da newA).setFieldName owner b db newB =
      (renames.setFieldName owner b db newB).setFieldName owner a da newA := by
  apply ext_lookup
  · intro c
    simp only [setFieldName, editField, isSome_class?_editClass]
  · intro c
    simp only [setFieldName, className?_editField]
  · intro c f
    simp only [setFieldName, field?_editField, fieldDescriptor?, h, h.symm, and_false, if_false]
    by_cases ha : c = owner ∧ f = a
    · have hb : ¬(c = owner ∧ f = b) := fun hb => h (ha.2.symm.trans hb.2)
      simp only [if_pos ha, if_neg hb]
    · simp only [if_neg ha]
  · intro c k
    simp only [setFieldName, method?_editField]

/-- Two methods of a class can be named in either order. -/
theorem setMethodName_comm (renames : Renames) (owner : String) {a b : MethodKey} (h : a ≠ b)
    (newA newB : String) :
    (renames.setMethodName owner a newA).setMethodName owner b newB =
      (renames.setMethodName owner b newB).setMethodName owner a newA := by
  apply ext_lookup
  · intro c
    simp only [setMethodName, editMethod, isSome_class?_editClass]
  · intro c
    simp only [setMethodName, className?_editMethod]
  · intro c f
    simp only [setMethodName, field?_editMethod]
  · intro c k
    simp only [method?_setMethodName]
    by_cases ha : c = owner ∧ k = a
    · have hb : ¬(c = owner ∧ k = b) := fun hb => h (ha.2.symm.trans hb.2)
      simp only [if_pos ha, if_neg hb]
    · simp only [if_neg ha]

/-! ## Changes to names of fields alone -/

/-- A change of nothing but the names that stand in entries of fields. -/
structure RenamesFields (before after : Renames) : Prop where
  classEntry : ∀ c, (after.class? c).isSome = (before.class? c).isSome
  className : ∀ c, after.className? c = before.className? c
  fieldEntry : ∀ c f, (after.field? c f).isSome = (before.field? c f).isSome
  fieldDescriptor : ∀ c f, after.fieldDescriptor? c f = before.fieldDescriptor? c f
  method : ∀ c k, after.method? c k = before.method? c k

namespace RenamesFields

theorem refl (renames : Renames) : RenamesFields renames renames :=
  ⟨fun _ => rfl, fun _ => rfl, fun _ _ => rfl, fun _ _ => rfl, fun _ _ => rfl⟩

theorem trans {a b c : Renames} (hab : RenamesFields a b) (hbc : RenamesFields b c) :
    RenamesFields a c where
  classEntry name := (hbc.classEntry name).trans (hab.classEntry name)
  className name := (hbc.className name).trans (hab.className name)
  fieldEntry name f := (hbc.fieldEntry name f).trans (hab.fieldEntry name f)
  fieldDescriptor name f := (hbc.fieldDescriptor name f).trans (hab.fieldDescriptor name f)
  method name k := (hbc.method name k).trans (hab.method name k)

/-- Editing a field that has a descriptor enters nothing new. -/
theorem editField {renames : Renames} {owner name : String} (descriptor : Option String)
    {f : FieldRename → FieldRename} (hf : ∀ field, (f field).descriptor = field.descriptor)
    (h : (renames.fieldDescriptor? owner name).isSome) :
    RenamesFields renames (renames.editField owner name descriptor f) := by
  have hfield : (renames.field? owner name).isSome := by
    cases hentry : renames.field? owner name with
    | none => simp [fieldDescriptor?, hentry] at h
    | some _ => rfl
  refine ⟨?_, fun c => className?_editField _ _ _ _ _ _, ?_, ?_,
    fun c k => method?_editField _ _ _ _ _ _ _⟩
  · intro c
    rw [Renames.editField, isSome_class?_editClass]
    by_cases hc : c = owner
    · simp [hc, isSome_class?_of_field? hfield]
    · simp [hc]
  · intro c n
    rw [field?_editField]
    split_ifs with hcn
    · rw [hcn.1, hcn.2, hfield]
      rfl
    · rfl
  · intro c n
    unfold fieldDescriptor? at h ⊢
    rw [field?_editField]
    split_ifs with hcn
    · obtain ⟨d, hd⟩ := Option.isSome_iff_exists.mp h
      rw [Option.bind_some, hf, hcn.1, hcn.2, fieldDescriptor?, hd]
      rfl
    · rfl

theorem setFieldName {renames : Renames} {owner name : String} (descriptor : Option String)
    (newName : String) (h : (renames.fieldDescriptor? owner name).isSome) :
    RenamesFields renames (renames.setFieldName owner name descriptor newName) :=
  editField descriptor (fun _ => rfl) h

/-- If the names of fields come out as they were, nothing has changed. -/
theorem eq_of_fieldName {a b : Renames} (h : RenamesFields a b)
    (hname : ∀ c f, b.fieldName? c f = a.fieldName? c f) : b = a := by
  apply ext_lookup h.classEntry h.className _ h.method
  intro c f
  have hentry := h.fieldEntry c f
  have hdescriptor := h.fieldDescriptor c f
  have hnewName := hname c f
  unfold fieldDescriptor? at hdescriptor
  unfold fieldName? at hnewName
  cases ha : a.field? c f with
  | none => rw [ha] at hentry; exact Option.isNone_iff_eq_none.mp (by simpa using hentry)
  | some fa =>
    rw [ha] at hentry hdescriptor hnewName
    obtain ⟨fb, hb⟩ := Option.isSome_iff_exists.mp hentry
    rw [hb] at hdescriptor hnewName ⊢
    cases fa
    cases fb
    simp_all

end RenamesFields

/-- Entering a field that has an entry with a descriptor changes nothing. -/
theorem enterField_eq_self {renames : Renames} {owner name : String} (descriptor : Option String)
    (h : (renames.fieldDescriptor? owner name).isSome) :
    renames.enterField owner name descriptor = renames :=
  (RenamesFields.editField descriptor (fun _ => rfl) h).eq_of_fieldName
    (fieldName?_enterField renames owner name descriptor)

/-! ## What a change keeps -/

/-- A change loses no entry, no name of a class or method and no descriptor. It
    may replace names of fields. -/
structure Keeps (before after : Renames) : Prop where
  classEntry : ∀ c, (before.class? c).isSome → (after.class? c).isSome
  className : ∀ c n, before.className? c = some n → after.className? c = some n
  fieldEntry : ∀ c f, (before.field? c f).isSome → (after.field? c f).isSome
  fieldDescriptor : ∀ c f d, before.fieldDescriptor? c f = some d →
    after.fieldDescriptor? c f = some d
  methodEntry : ∀ c k, (before.method? c k).isSome → (after.method? c k).isSome
  methodName : ∀ c k n, before.methodName? c k = some n → after.methodName? c k = some n

/-- A change loses no entry, no name and no descriptor. -/
structure KeepsNames (before after : Renames) : Prop extends Keeps before after where
  fieldName : ∀ c f n, before.fieldName? c f = some n → after.fieldName? c f = some n

theorem Keeps.refl (renames : Renames) : Keeps renames renames :=
  ⟨fun _ => id, fun _ _ => id, fun _ _ => id, fun _ _ _ => id, fun _ _ => id, fun _ _ _ => id⟩

theorem Keeps.trans {a b c : Renames} (hab : Keeps a b) (hbc : Keeps b c) : Keeps a c where
  classEntry name h := hbc.classEntry name (hab.classEntry name h)
  className name n h := hbc.className name n (hab.className name n h)
  fieldEntry name f h := hbc.fieldEntry name f (hab.fieldEntry name f h)
  fieldDescriptor name f d h := hbc.fieldDescriptor name f d (hab.fieldDescriptor name f d h)
  methodEntry name k h := hbc.methodEntry name k (hab.methodEntry name k h)
  methodName name k n h := hbc.methodName name k n (hab.methodName name k n h)

theorem KeepsNames.refl (renames : Renames) : KeepsNames renames renames :=
  ⟨Keeps.refl renames, fun _ _ _ => id⟩

theorem KeepsNames.trans {a b c : Renames} (hab : KeepsNames a b) (hbc : KeepsNames b c) :
    KeepsNames a c :=
  ⟨hab.toKeeps.trans hbc.toKeeps, fun name f n h =>
    hbc.fieldName name f n (hab.fieldName name f n h)⟩

theorem KeepsNames.isSome_className? {before after : Renames} (h : KeepsNames before after)
    {c : String} (hc : (before.className? c).isSome) : (after.className? c).isSome := by
  obtain ⟨n, hn⟩ := Option.isSome_iff_exists.mp hc
  rw [h.className c n hn]
  rfl

theorem KeepsNames.isSome_fieldName? {before after : Renames} (h : KeepsNames before after)
    {c f : String} (hf : (before.fieldName? c f).isSome) : (after.fieldName? c f).isSome := by
  obtain ⟨n, hn⟩ := Option.isSome_iff_exists.mp hf
  rw [h.fieldName c f n hn]
  rfl

theorem KeepsNames.isSome_methodName? {before after : Renames} (h : KeepsNames before after)
    {c : String} {k : MethodKey} (hk : (before.methodName? c k).isSome) :
    (after.methodName? c k).isSome := by
  obtain ⟨n, hn⟩ := Option.isSome_iff_exists.mp hk
  rw [h.methodName c k n hn]
  rfl

/-- Editing a field keeps everything else, and its descriptor as well unless the
    edit drops it. -/
theorem Keeps.editField (renames : Renames) (owner name : String) (descriptor : Option String)
    {f : FieldRename → FieldRename} (hf : ∀ field, (f field).descriptor = field.descriptor) :
    Keeps renames (renames.editField owner name descriptor f) where
  classEntry c h := by
    rw [Renames.editField, isSome_class?_editClass, h]
    simp
  className c n h := by simpa using h
  fieldEntry c n h := by
    rw [field?_editField]
    split_ifs
    · rfl
    · exact h
  fieldDescriptor c n d h := by
    rw [fieldDescriptor?, field?_editField]
    split_ifs with hcn
    · obtain ⟨rfl, rfl⟩ := hcn
      rw [Option.bind_some, hf, h]
      rfl
    · exact h
  methodEntry c k h := by simpa using h
  methodName c k n h := by simpa [methodName?] using h

theorem Keeps.setFieldName (renames : Renames) (owner name : String)
    (descriptor : Option String) (newName : String) :
    Keeps renames (renames.setFieldName owner name descriptor newName) :=
  Keeps.editField renames owner name descriptor fun _ => rfl

theorem KeepsNames.enterField (renames : Renames) (owner name : String)
    (descriptor : Option String) :
    KeepsNames renames (renames.enterField owner name descriptor) :=
  ⟨Keeps.editField renames owner name descriptor fun _ => rfl, fun c n newName h => by
    rw [fieldName?_enterField, h]⟩

/-- Naming a field that has no name keeps all names. -/
theorem KeepsNames.setFieldName {renames : Renames} {owner name : String}
    (h : renames.fieldName? owner name = none) (descriptor : Option String) (newName : String) :
    KeepsNames renames (renames.setFieldName owner name descriptor newName) where
  toKeeps := Keeps.setFieldName renames owner name descriptor newName
  fieldName c f n hn := by
    rw [fieldName?_setFieldName]
    split_ifs with hcf
    · rw [hcf.1, hcf.2, h] at hn
      cases hn
    · exact hn

/-- Naming a class that has no name keeps all names. -/
theorem KeepsNames.setClassName {renames : Renames} {name : String}
    (h : renames.className? name = none) (newName : String) :
    KeepsNames renames (renames.setClassName name newName) where
  classEntry c hc := by
    rw [Renames.setClassName, isSome_class?_editClass, hc]
    simp
  className c n hn := by
    rw [className?_setClassName]
    split_ifs with hc
    · rw [hc, h] at hn
      cases hn
    · exact hn
  fieldEntry c f hf := by simpa using hf
  fieldDescriptor c f d hd := by simpa [fieldDescriptor?] using hd
  methodEntry c k hk := by simpa using hk
  methodName c k n hn := by simpa [methodName?] using hn
  fieldName c f n hn := by simpa [fieldName?] using hn

/-! ## Changes to methods alone -/

/-- A change that does nothing but give names to methods that have none; a class
    gets an entry only if a method of it gets a name. -/
structure NamesMethods (before after : Renames) : Prop where
  class_iff : ∀ c, (after.class? c).isSome ↔ (before.class? c).isSome ∨
    ∃ k, before.methodName? c k = none ∧ (after.methodName? c k).isSome
  className : ∀ c, after.className? c = before.className? c
  field : ∀ c f, after.field? c f = before.field? c f
  method : ∀ c k, after.method? c k = before.method? c k ∨
    ∃ n, before.methodName? c k = none ∧ after.method? c k = some (some n)

namespace NamesMethods

variable {a b c : Renames}

theorem refl (renames : Renames) : NamesMethods renames renames where
  class_iff name := by
    constructor
    · exact Or.inl
    · rintro (h | ⟨k, hnone, hsome⟩)
      · exact h
      · rw [hnone] at hsome; cases hsome
  className _ := rfl
  field _ _ := rfl
  method _ _ := Or.inl rfl

theorem methodName (h : NamesMethods a b) {name : String} {k : MethodKey} {n : String}
    (hn : a.methodName? name k = some n) : b.methodName? name k = some n := by
  rcases h.method name k with hsame | ⟨m, hnone, -⟩
  · rw [methodName?, hsame]
    exact hn
  · rw [hnone] at hn
    cases hn

theorem keepsNames (h : NamesMethods a b) : KeepsNames a b where
  classEntry name hc := (h.class_iff name).mpr (Or.inl hc)
  className name n hn := by rw [h.className, hn]
  fieldEntry name f hf := by rw [h.field]; exact hf
  fieldDescriptor name f d hd := by rw [fieldDescriptor?, h.field]; exact hd
  methodEntry name k hk := by
    rcases h.method name k with hsame | ⟨n, -, hnew⟩
    · rw [hsame]; exact hk
    · rw [hnew]; rfl
  methodName name k n hn := h.methodName hn
  fieldName name f n hn := by rw [fieldName?, h.field]; exact hn

theorem trans (hab : NamesMethods a b) (hbc : NamesMethods b c) : NamesMethods a c where
  class_iff name := by
    rw [hbc.class_iff, hab.class_iff]
    constructor
    · rintro ((h | ⟨k, hnone, hsome⟩) | ⟨k, hnone, hsome⟩)
      · exact Or.inl h
      · exact Or.inr ⟨k, hnone, hbc.keepsNames.isSome_methodName? hsome⟩
      · refine Or.inr ⟨k, ?_, hsome⟩
        cases ha : a.methodName? name k with
        | none => rfl
        | some n => rw [hab.methodName ha] at hnone; cases hnone
    · rintro (h | ⟨k, hnone, hsome⟩)
      · exact Or.inl (Or.inl h)
      · cases hb : b.methodName? name k with
        | none => exact Or.inr ⟨k, hb, hsome⟩
        | some n => exact Or.inl (Or.inr ⟨k, hnone, by rw [hb]; rfl⟩)
  className name := by rw [hbc.className, hab.className]
  field name f := by rw [hbc.field, hab.field]
  method name k := by
    rcases hab.method name k with hsame | ⟨n, hnone, hnew⟩
    · have hname : a.methodName? name k = b.methodName? name k := by
        rw [methodName?, methodName?, hsame]
      rw [hname, ← hsame]
      exact hbc.method name k
    · right
      rcases hbc.method name k with hsame | ⟨m, -, hnew'⟩
      · exact ⟨n, hnone, by rw [hsame, hnew]⟩
      · exact ⟨m, hnone, hnew'⟩

/-- Naming a method that has no name. -/
theorem setMethodName {renames : Renames} {owner : String} {key : MethodKey}
    (h : renames.methodName? owner key = none) (newName : String) :
    NamesMethods renames (renames.setMethodName owner key newName) where
  class_iff name := by
    have hclass : ((renames.setMethodName owner key newName).class? name).isSome =
        (decide (name = owner) || (renames.class? name).isSome) :=
      isSome_class?_editClass renames owner _ name
    rw [hclass, Bool.or_eq_true, decide_eq_true_eq]
    simp only [methodName?_setMethodName]
    constructor
    · rintro (rfl | hc)
      · exact Or.inr ⟨key, h, by simp⟩
      · exact Or.inl hc
    · rintro (hc | ⟨k, hnone, hsome⟩)
      · exact Or.inr hc
      · split_ifs at hsome with hk
        · exact Or.inl hk.1
        · rw [hnone] at hsome; cases hsome
  className name := className?_editMethod _ _ _ _ _
  field name f := field?_editMethod _ _ _ _ _ _
  method name k := by
    rw [method?_setMethodName]
    split_ifs with hk
    · exact Or.inr ⟨newName, by rw [hk.1, hk.2]; exact h, rfl⟩
    · exact Or.inl rfl

/-- What such a change leads to is determined by the names that methods have in
    the end. -/
theorem unique (hb : NamesMethods a b) (hc : NamesMethods a c)
    (h : ∀ name k, b.methodName? name k = c.methodName? name k) : b = c := by
  have hentry : ∀ {x : Renames}, NamesMethods a x → ∀ name k,
      x.method? name k = if x.methodName? name k = a.methodName? name k then a.method? name k
        else some (x.methodName? name k) := by
    intro x hx name k
    rcases hx.method name k with hsame | ⟨n, hnone, hnew⟩
    · rw [if_pos (by rw [methodName?, methodName?, hsame]), hsame]
    · have hname : x.methodName? name k = some n := by rw [methodName?, hnew]; rfl
      rw [hname, hnone, if_neg (by simp), hnew]
  apply ext_lookup
  · intro name
    rw [Bool.eq_iff_iff, hb.class_iff, hc.class_iff]
    simp only [h]
  · intro name
    rw [hb.className, hc.className]
  · intro name f
    rw [hb.field, hc.field]
  · intro name k
    rw [hentry hb, hentry hc, h]

end NamesMethods

/-- Naming a method that has no name keeps all names. -/
theorem KeepsNames.setMethodName {renames : Renames} {owner : String} {key : MethodKey}
    (h : renames.methodName? owner key = none) (newName : String) :
    KeepsNames renames (renames.setMethodName owner key newName) :=
  (NamesMethods.setMethodName h newName).keepsNames

end Nomenclator.Renames

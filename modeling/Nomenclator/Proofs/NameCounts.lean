import Mathlib.Tactic
import Nomenclator.OrderedMap.Lemmas
import Nomenclator.Proofs.Lookup

/-!
# How many names there are

The numbers of classes, fields and methods that have a new name, counted over all entries, and
what a change does to them. Whoever gives a name to something without one adds one to the
number of its kind and leaves the other two alone.

Results:
* `OrderedMap.total_update`: what an update does to a sum over all values.
* `Renames.nameCounts_setClassName`, `nameCounts_setFieldName`, `nameCounts_setMethodName`: a
  new name counts once.
* `Renames.nameCounts_enterField`: an entry without a name does not count.
-/

namespace Nomenclator

/-! ## Sums over a map -/

namespace OrderedMap

variable {κ α : Type} [Ord κ]

/-- The sum of the weights of all values. -/
def total (m : OrderedMap κ α) (weight : α → Nat) : Nat :=
  (m.entries.map fun entry => weight entry.2).sum

theorem sum_updateIn (k : κ) (f : Option α → α) (weight : α → Nat) (entries : List (κ × α)) :
    ((updateIn k f entries).map fun entry => weight entry.2).sum +
        (findIn k entries).elim 0 weight =
      (entries.map fun entry => weight entry.2).sum + weight (f (findIn k entries)) := by
  induction entries with
  | nil => simp [updateIn, findIn]
  | cons head entries ih =>
    obtain ⟨j, a⟩ := head
    rw [updateIn, findIn]
    split
    · simp only [List.map_cons, List.sum_cons, Option.elim_none]
      omega
    · simp only [List.map_cons, List.sum_cons, Option.elim_some]
      omega
    · simp only [List.map_cons, List.sum_cons]
      omega

/-- An update takes the weight of the old value away, if there was one, and adds that of the
    new one. -/
theorem total_update [Std.TransOrd κ] [Std.LawfulEqOrd κ] (m : OrderedMap κ α) (k : κ)
    (f : Option α → α) (weight : α → Nat) :
    (m.update k f).total weight + (m.find? k).elim 0 weight =
      m.total weight + weight (f (m.find? k)) :=
  sum_updateIn k f weight m.entries

end OrderedMap

/-! ## Names of each kind -/

/-- How many classes, fields and methods have a new name. -/
structure NameCounts where
  classes : Nat
  fields : Nat
  methods : Nat
  deriving DecidableEq, Repr

/-- One for a name, and nothing for none. -/
def nameCount (newName : Option String) : Nat := if newName.isSome then 1 else 0

@[simp] theorem nameCount_none : nameCount none = 0 := rfl

@[simp] theorem nameCount_some (newName : String) : nameCount (some newName) = 1 := rfl

/-- The fields of a class that have a new name. -/
def ClassRename.fieldCount (entry : ClassRename) : Nat :=
  entry.fields.total fun field => nameCount field.newName

/-- The methods of a class that have a new name. -/
def ClassRename.methodCount (entry : ClassRename) : Nat := entry.methods.total nameCount

namespace Renames

/-- The names of each kind over all entries. -/
def nameCounts (renames : Renames) : NameCounts where
  classes := renames.classes.total fun entry => nameCount entry.newName
  fields := renames.classes.total ClassRename.fieldCount
  methods := renames.classes.total ClassRename.methodCount

/-! ## Changes -/

/-- A change to a class counts as the change to its entry does, where a class without an entry
    counts nothing. -/
theorem total_editClass (renames : Renames) (name : String) (f : ClassRename → ClassRename)
    (weight : ClassRename → Nat) (hweight : weight {} = 0) :
    (renames.editClass name f).classes.total weight + weight (renames.entry name) =
      renames.classes.total weight + weight (f (renames.entry name)) := by
  have htotal := renames.classes.total_update name (fun before => f (before.getD {})) weight
  have hbefore : (renames.classes.find? name).elim 0 weight = weight (renames.entry name) := by
    unfold entry class?
    cases renames.classes.find? name with
    | none => exact hweight.symm
    | some found => rfl
  rw [hbefore] at htotal
  exact htotal

theorem total_editClass_of_eq (renames : Renames) (name : String)
    (f : ClassRename → ClassRename) (weight : ClassRename → Nat) (hweight : weight {} = 0)
    (hsame : weight (f (renames.entry name)) = weight (renames.entry name)) :
    (renames.editClass name f).classes.total weight = renames.classes.total weight := by
  have htotal := renames.total_editClass name f weight hweight
  omega

/-- A class without a name that is given one counts once more. -/
theorem nameCounts_setClassName {renames : Renames} {name : String}
    (h : renames.className? name = none) (newName : String) :
    (renames.setClassName name newName).nameCounts =
      { renames.nameCounts with classes := renames.nameCounts.classes + 1 } := by
  have hclasses := renames.total_editClass name
    (fun entry => { entry with newName := some newName }) (fun entry => nameCount entry.newName) rfl
  have hfields : (renames.setClassName name newName).nameCounts.fields =
      renames.nameCounts.fields :=
    renames.total_editClass_of_eq name _ ClassRename.fieldCount rfl rfl
  have hmethods : (renames.setClassName name newName).nameCounts.methods =
      renames.nameCounts.methods :=
    renames.total_editClass_of_eq name _ ClassRename.methodCount rfl rfl
  rw [className?_eq_entry] at h
  rw [h] at hclasses
  exact NameCounts.mk.injEq .. ▸ ⟨hclasses, hfields, hmethods⟩

/-! ### Fields -/

/-- Only the number of named fields depends on the entries of fields. -/
theorem nameCounts_editField (renames : Renames) (owner name : String)
    (descriptor : Option String) (f : FieldRename → FieldRename) :
    (renames.editField owner name descriptor f).nameCounts =
      { renames.nameCounts with
        fields := (renames.editField owner name descriptor f).nameCounts.fields } := by
  have hclasses : (renames.editField owner name descriptor f).nameCounts.classes =
      renames.nameCounts.classes :=
    renames.total_editClass_of_eq owner _ (fun entry => nameCount entry.newName) rfl rfl
  have hmethods : (renames.editField owner name descriptor f).nameCounts.methods =
      renames.nameCounts.methods :=
    renames.total_editClass_of_eq owner _ ClassRename.methodCount rfl rfl
  exact NameCounts.mk.injEq .. ▸ ⟨hclasses, rfl, hmethods⟩

/-- A change to the entry of a field takes away what its name counted before and adds what it
    counts afterwards. -/
theorem fields_editClass (renames : Renames) (owner name : String)
    (f : Option FieldRename → FieldRename) :
    (renames.editClass owner fun entry =>
        { entry with fields := entry.fields.update name f }).nameCounts.fields +
        nameCount (renames.fieldName? owner name) =
      renames.nameCounts.fields +
        nameCount (f ((renames.entry owner).fields.find? name)).newName := by
  have houter := renames.total_editClass owner
    (fun entry => { entry with fields := entry.fields.update name f }) ClassRename.fieldCount rfl
  have hinner := (renames.entry owner).fields.total_update name f
    fun field => nameCount field.newName
  have hbefore : ((renames.entry owner).fields.find? name).elim 0
      (fun field => nameCount field.newName) = nameCount (renames.fieldName? owner name) := by
    rw [fieldName?, field?_eq_entry]
    cases (renames.entry owner).fields.find? name <;> rfl
  rw [hbefore] at hinner
  simp only [ClassRename.fieldCount] at houter
  simp only [nameCounts]
  omega

/-- An entry that is only made counts nothing. -/
theorem nameCounts_enterField (renames : Renames) (owner name : String)
    (descriptor : Option String) :
    (renames.enterField owner name descriptor).nameCounts = renames.nameCounts := by
  have hfields : (renames.enterField owner name descriptor).nameCounts.fields + _ = _ :=
    renames.fields_editClass owner name _
  have hname : (((renames.entry owner).fields.find? name).getD {}).newName =
      renames.fieldName? owner name := by
    rw [fieldName?, field?_eq_entry]
    cases (renames.entry owner).fields.find? name <;> rfl
  dsimp only [id] at hfields
  rw [hname, Nat.add_left_inj] at hfields
  rw [enterField, nameCounts_editField, ← enterField, hfields]

/-- A field without a name that is given one counts once more. -/
theorem nameCounts_setFieldName {renames : Renames} {owner name : String}
    (h : renames.fieldName? owner name = none) (descriptor : Option String) (newName : String) :
    (renames.setFieldName owner name descriptor newName).nameCounts =
      { renames.nameCounts with fields := renames.nameCounts.fields + 1 } := by
  have hfields : (renames.setFieldName owner name descriptor newName).nameCounts.fields + _ = _ :=
    renames.fields_editClass owner name _
  rw [h] at hfields
  rw [setFieldName, nameCounts_editField, ← setFieldName]
  exact congrArg (NameCounts.mk _ · _) hfields

/-! ### Methods -/

/-- A method without a name that is given one counts once more. -/
theorem nameCounts_setMethodName {renames : Renames} {owner : String} {key : MethodKey}
    (h : renames.methodName? owner key = none) (newName : String) :
    (renames.setMethodName owner key newName).nameCounts =
      { renames.nameCounts with methods := renames.nameCounts.methods + 1 } := by
  have hclasses : (renames.setMethodName owner key newName).nameCounts.classes =
      renames.nameCounts.classes :=
    renames.total_editClass_of_eq owner _ (fun entry => nameCount entry.newName) rfl rfl
  have hfields : (renames.setMethodName owner key newName).nameCounts.fields =
      renames.nameCounts.fields :=
    renames.total_editClass_of_eq owner _ ClassRename.fieldCount rfl rfl
  have houter := renames.total_editClass owner (fun entry =>
    { entry with methods := entry.methods.update key fun _ => some newName })
    ClassRename.methodCount rfl
  have hinner := (renames.entry owner).methods.total_update key (fun _ => some newName) nameCount
  -- A method without an entry and one whose entry holds no name count the same.
  have hbefore : ((renames.entry owner).methods.find? key).elim 0 nameCount = 0 := by
    rw [methodName?, method?_eq_entry] at h
    cases hfound : (renames.entry owner).methods.find? key with
    | none => rfl
    | some found =>
      rw [hfound] at h
      obtain rfl : found = none := h
      rfl
  have hmethods : (renames.setMethodName owner key newName).nameCounts.methods =
      renames.nameCounts.methods + 1 := by
    rw [hbefore, nameCount_some] at hinner
    simp only [ClassRename.methodCount] at houter
    simp only [nameCounts, setMethodName, editMethod]
    omega
  exact NameCounts.mk.injEq .. ▸ ⟨hclasses, hfields, hmethods⟩

end Renames

end Nomenclator

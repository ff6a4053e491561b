import Nomenclator.Proofs.CounterLimits
import Nomenclator.Proofs.NamedMethods
import Nomenclator.Proofs.RecoveredConstants

/-!
# Where the name of a field comes from

Three passes give names to fields. Rules replace whatever name there is, while recovered
constants and definitions leave a field alone that has a name. So the passes together act like
one list of cases, of which the first that fits a field decides.

Results:
* `fieldName?_recovered`: the names after the first two passes, if no two classes have the same
  name.
* `defineSlot_definesFields`, `definitionPass_definesFields`: what the third pass names, and how.
* `numbersField_of_mem`: a number that a field gets goes to no other member.
* `namesField`, `fieldName?_undeclared`: the names of declared and of other fields in the end.
* `field_precedence`: the name of every declared field, and what else gets a name.
-/

namespace Nomenclator

/-! ## Cases -/

/-- The rule is for the type of the field, and the field has the modifiers that the rule
    requires and lacks those that it forbids. -/
def FieldRule.Covers (rule : FieldRule) (field : SourceMember) : Prop :=
  rule.descriptor = field.descriptor ∧
    ∀ modifier expected, rule.requirements.get? modifier = some expected →
      modifier.isSet field.access = expected

/-- The rule covers the field, and no rule after it does. -/
def FieldRule.IsLastFor (rule : FieldRule) (rules : List FieldRule) (field : SourceMember) :
    Prop :=
  ∃ earlier later, rules = earlier ++ rule :: later ∧ rule.Covers field ∧
    ∀ other ∈ later, ¬other.Covers field

/-- The class is an enumeration, and its initializer can be decoded and binds the constant to
    the field. -/
def SourceClass.Recovers (source : SourceClass) (field constant : String) : Prop :=
  source.superName = some "java/lang/Enum" ∧
    ∃ initializer instructions, source.staticInit = some initializer ∧
      initializer.instructions = .ok instructions ∧
      EnumConstants.FirstBinds source.name instructions field constant

/-- A name that marks a field as named already or as made up by a compiler. -/
def Settings.SparesField (settings : Settings) (name : String) : Prop :=
  (∃ rest, name = settings.fieldPrefix ++ rest) ∨ (∃ rest, name = "this$" ++ rest) ∨
  (∃ rest, name = "val$" ++ rest) ∨ Text.equalsIgnoringAsciiCase name "$VALUES" = true

/-- The array in which an enumeration keeps its constants. -/
def SourceClass.KeepsConstantsIn (source : SourceClass) (field : SourceMember) : Prop :=
  source.superName = some "java/lang/Enum" ∧ field.access &&& 0x1000 ≠ 0 ∧
    FieldType.parse field.descriptor = .ok (.array (.object source.name))

namespace FinishedRun

open Progress (Slot)

variable (run : FinishedRun) (source : SourceClass) (field : SourceMember)

/-- No rule covers the field, it had no name and no constant is recovered for it. -/
structure LeavesToDefinition : Prop where
  unruled : ∀ rule ∈ run.settings.fieldRules, ¬rule.Covers field
  unnamed : run.before.fieldName? source.name field.name = none
  unrecovered : run.settings.recoverEnumConstants = true →
    ∀ constant, ¬source.Recovers field.name constant

/-- The number is one that the run has handed out, to this field and to no other member. -/
structure NumbersField (id : Nat) : Prop where
  notBefore : run.settings.nextMember.toNat ≤ id
  before : id < run.after.outcome.nextMember.toNat
  reported : (Slot.field source field).event run.settings id ∈ run.after.memberEvents
  alone : ∀ slot : Slot, slot.event run.settings id ∈ run.after.memberEvents →
    slot.event run.settings id = (Slot.field source field).event run.settings id

/-- The name that a run leaves to a declared field, each case only where none before it
    applies. -/
inductive NamesField : Option String → Prop
  | ruled {rule : FieldRule} : rule.IsLastFor run.settings.fieldRules field →
      NamesField (some rule.name)
  | kept {name : String} : (∀ rule ∈ run.settings.fieldRules, ¬rule.Covers field) →
      run.before.fieldName? source.name field.name = some name → NamesField (some name)
  | recovered {constant : String} : (∀ rule ∈ run.settings.fieldRules, ¬rule.Covers field) →
      run.before.fieldName? source.name field.name = none →
      run.settings.recoverEnumConstants = true → source.Recovers field.name constant →
      NamesField (some constant)
  | spared : run.LeavesToDefinition source field →
      run.settings.mapFields = false ∨ run.settings.SparesField field.name → NamesField none
  | constants : run.LeavesToDefinition source field → run.settings.mapFields = true →
      ¬run.settings.SparesField field.name → run.settings.mapSyntheticValues = true →
      source.KeepsConstantsIn field → NamesField (some "$VALUES")
  | numbered {id : Nat} : run.LeavesToDefinition source field → run.settings.mapFields = true →
      ¬run.settings.SparesField field.name →
      ¬(run.settings.mapSyntheticValues = true ∧ source.KeepsConstantsIn field) →
      run.NumbersField source field id →
      NamesField (some (run.settings.fieldPrefix ++ toString id ++ "_" ++ field.name))

end FinishedRun

/-! ## Rules -/

namespace FieldRule

theorem appliesTo_iff {rule : FieldRule} {field : SourceMember} :
    rule.appliesTo field.descriptor field.access = true ↔ rule.Covers field := by
  rw [appliesTo, Bool.and_eq_true, decide_eq_true_eq, Covers, Requirements.areMetBy,
    List.all_eq_true]
  refine and_congr_right fun _ => ⟨fun h modifier expected hget => ?_, fun h modifier _ => ?_⟩
  · have hall : modifier ∈ Modifier.all := by cases modifier <;> decide
    have hmet := h modifier hall
    rw [hget] at hmet
    exact beq_iff_eq.mp hmet
  · cases hget : rule.requirements.get? modifier with
    | none => rfl
    | some expected => exact beq_iff_eq.mpr (h modifier expected hget)

theorem last?_eq_none_iff {rules : List FieldRule} {field : SourceMember} :
    last? rules field.descriptor field.access = none ↔
      ∀ rule ∈ rules, ¬rule.Covers field := by
  simp [last?, appliesTo_iff]

theorem isLastFor_of_last? {rules : List FieldRule} {field : SourceMember} {rule : FieldRule}
    (h : last? rules field.descriptor field.access = some rule) : rule.IsLastFor rules field := by
  obtain ⟨happlies, later, earlier, hrules, hlater⟩ := List.find?_eq_some_iff_append.mp h
  refine ⟨earlier.reverse, later.reverse, ?_, appliesTo_iff.mp happlies, ?_⟩
  · have hreversed := congrArg List.reverse hrules
    simpa using hreversed
  · intro other hother hcovers
    have hnot := hlater other (List.mem_reverse.mp hother)
    rw [appliesTo_iff.mpr hcovers] at hnot
    cases hnot

end FieldRule

/-! ## Names that do not depend on progress -/

/-- The constant that is recovered for a field of the class. -/
def SourceClass.constant? (source : SourceClass) (field : String) : Option String :=
  match EnumConstants.ofClass source with
  | .ok bindings => bindings.lookup field
  | .error _ => none

theorem SourceClass.constant?_eq_some_iff {source : SourceClass} {field constant : String} :
    source.constant? field = some constant ↔ source.Recovers field constant := by
  unfold constant? Recovers EnumConstants.ofClass
  by_cases hsuper : source.superName = some EnumConstants.superName
  · rw [if_pos hsuper]
    cases hinit : source.staticInit with
    | none => simp
    | some initializer =>
      cases hcode : initializer.instructions with
      | error cause => simp [hcode, bind, Except.bind]
      | ok instructions =>
        simp [hcode, hsuper, EnumConstants.superName, EnumConstants.firstBinds_iff, bind,
          Except.bind, pure, Except.pure]
  · rw [if_neg hsuper]
    refine iff_of_false (by simp) fun h => hsuper h.1

theorem Progress.keepsFieldName_iff {settings : Settings} {name : String} :
    keepsFieldName settings name = true ↔ settings.SparesField name := by
  simp only [keepsFieldName, Settings.SparesField, valuesName, Bool.or_eq_true,
    Text.startsWith_eq_true_iff, or_assoc]

theorem Progress.isValuesArray_iff {source : SourceClass} {field : SourceMember} :
    isValuesArray source field = true ↔ source.KeepsConstantsIn field := by
  unfold isValuesArray SourceClass.KeepsConstantsIn
  rw [Bool.and_eq_true, Bool.and_eq_true, decide_eq_true_eq, and_assoc]
  refine and_congr_right fun _ => and_congr (by simp [Modifier.isSet, Modifier.bit]) ?_
  cases FieldType.parse field.descriptor with
  | ok type => simp [FieldType.isArrayOfClass]
  | error cause => simp

/-! ## The first two passes -/

/-- A search in which only one item can succeed has the result of that item. -/
theorem findSome?_eq_of_unique {α β : Type} {l : List α} {f : α → Option β} {x : α} (hx : x ∈ l)
    (hunique : ∀ y ∈ l, (f y).isSome → y = x) : l.findSome? f = f x := by
  cases hf : l.findSome? f with
  | none => exact (List.findSome?_eq_none_iff.mp hf x hx).symm
  | some b =>
    obtain ⟨y, hy, hfy⟩ := List.exists_of_findSome?_eq_some hf
    rw [← hunique y hy (Option.isSome_of_eq_some hfy), hfy]

namespace Progress

theorem fieldName?_recoverConstants (p : Progress) (source : SourceClass) (owner field : String) :
    (p.recoverConstants source).renames.fieldName? owner field =
      (p.renames.fieldName? owner field).or
        (if owner = source.name then source.constant? field else none) := by
  unfold recoverConstants SourceClass.constant?
  cases EnumConstants.ofClass source with
  | ok bindings => exact nameOf?_foldl_bindConstant source.name bindings p (.ofField owner field)
  | error cause =>
    rw [ite_self, Option.or_none]
    rfl

/-- Of several classes with the same name the first one that binds a field names it. -/
theorem fieldName?_constantsPass {settings : Settings}
    (hrecover : settings.recoverEnumConstants = true) (classes : List SourceClass) (p : Progress)
    (owner field : String) :
    (constantsPass settings classes p).renames.fieldName? owner field =
      (p.renames.fieldName? owner field).or (classes.findSome? fun source =>
        if owner = source.name then source.constant? field else none) := by
  rw [constantsPass, if_pos hrecover]
  induction classes generalizing p with
  | nil => exact (Option.or_none).symm
  | cons source classes ih =>
    rw [List.foldl_cons, ih, fieldName?_recoverConstants, Option.or_assoc, List.findSome?_cons]
    generalize (if owner = source.name then source.constant? field else none) = constant
    cases constant <;> rfl

/-! ## The passes that name no field -/

/-- All fields have the names they had. -/
def KeepsFieldNames (p q : Progress) : Prop :=
  ∀ owner field, q.renames.fieldName? owner field = p.renames.fieldName? owner field

theorem KeepsFieldNames.refl (p : Progress) : KeepsFieldNames p p := fun _ _ => rfl

theorem KeepsFieldNames.trans {p q r : Progress} (hpq : KeepsFieldNames p q)
    (hqr : KeepsFieldNames q r) : KeepsFieldNames p r :=
  fun owner field => (hqr owner field).trans (hpq owner field)

theorem KeepsFieldNames.setMethodName {p q : Progress} {owner : String} {key : MethodKey}
    {newName : String} (h : q.renames = p.renames.setMethodName owner key newName) :
    KeepsFieldNames p q := by
  intro other field
  rw [h, Renames.fieldName?, Renames.setMethodName, Renames.field?_editMethod]
  rfl

theorem nameClass_keepsFieldNames {conventions : Conventions} {naming : ClassNaming}
    {p p' : Progress} {source : SourceClass}
    (h : nameClass conventions naming p source = some p') : KeepsFieldNames p p' := by
  rcases nameClass_cases h with ⟨-, rfl⟩ | ⟨-, id, -, rfl⟩
  · exact KeepsFieldNames.refl _
  · intro owner field
    show (p.renames.setClassName _ _).fieldName? owner field = _
    rw [Renames.fieldName?, Renames.field?_setClassName]
    rfl

theorem classesPass_keepsFieldNames {conventions : Conventions} {settings : Settings}
    {classes : List SourceClass} {p p' : Progress}
    (h : classesPass conventions settings classes p = some p') : KeepsFieldNames p p' :=
  classesPass_rel KeepsFieldNames.refl KeepsFieldNames.trans
    (fun _ _ _ _ _ _ => nameClass_keepsFieldNames) h

theorem propagationPass_keepsFieldNames (hierarchy : Hierarchy) (settings : Settings)
    (classes : List SourceClass) (p : Progress) :
    KeepsFieldNames p (propagationPass hierarchy settings classes p) := by
  refine propagationPass_rel KeepsFieldNames.refl KeepsFieldNames.trans ?_
    (fun q _ => KeepsFieldNames.refl q) p
  intro q source _ method _
  obtain ⟨asked, ⟨-, heq⟩ | ⟨-, newName, -, heq⟩⟩ :=
    propagateMethod_cases hierarchy source q method
  · rw [heq]
    exact KeepsFieldNames.refl q
  · rw [heq]
    exact KeepsFieldNames.setMethodName rfl

/-! ## The pass over definitions -/

/-- A field may be given this name: that of the array of constants, or one with a number that
    is reported. -/
def DefinesAs (settings : Settings) (source : SourceClass) (field : SourceMember) (p : Progress)
    (newName : String) : Prop :=
  ¬settings.SparesField field.name ∧
    (settings.mapSyntheticValues = true ∧ source.KeepsConstantsIn field ∧ newName = "$VALUES" ∨
      ¬(settings.mapSyntheticValues = true ∧ source.KeepsConstantsIn field) ∧
        ∃ id, newName = numberedName settings.fieldPrefix id field.name ∧
          (Slot.field source field).event settings id ∈ p.memberEvents)

/-- Fields are to be named, and a declared field of this name may be given the new one. -/
def GivesField (settings : Settings) (classes : List SourceClass) (p : Progress)
    (owner name newName : String) : Prop :=
  settings.mapFields = true ∧ ∃ source ∈ classes, source.name = owner ∧
    ∃ field ∈ source.fields, field.name = name ∧ DefinesAs settings source field p newName

/-- No report is lost, and new names are such as may be given. -/
structure DefinesFields (settings : Settings) (classes : List SourceClass) (p q : Progress) :
    Prop where
  events : p.memberEvents ⊆ q.memberEvents
  names : ∀ {owner name newName}, q.renames.fieldName? owner name = some newName →
    p.renames.fieldName? owner name = some newName ∨
      GivesField settings classes q owner name newName

variable {settings : Settings} {classes : List SourceClass}

theorem GivesField.mono {p q : Progress} {owner name newName : String}
    (h : GivesField settings classes p owner name newName)
    (hevents : p.memberEvents ⊆ q.memberEvents) :
    GivesField settings classes q owner name newName := by
  obtain ⟨hmap, source, hsource, howner, field, hfield, hname, hspared, hcase⟩ := h
  refine ⟨hmap, source, hsource, howner, field, hfield, hname, hspared, hcase.imp_right ?_⟩
  rintro ⟨hother, id, hnew, hmem⟩
  exact ⟨hother, id, hnew, hevents hmem⟩

namespace DefinesFields

theorem keep {p q : Progress} (hevents : p.memberEvents ⊆ q.memberEvents)
    (hnames : KeepsFieldNames p q) : DefinesFields settings classes p q :=
  ⟨hevents, fun {owner name _} h => Or.inl ((hnames owner name).symm.trans h)⟩

theorem of_keepsMembers {p q : Progress} (hmembers : KeepsMembers p q)
    (hnames : KeepsFieldNames p q) : DefinesFields settings classes p q := by
  refine keep ?_ hnames
  rw [hmembers.events]
  exact List.Subset.refl _

theorem refl (p : Progress) : DefinesFields settings classes p p :=
  of_keepsMembers (KeepsMembers.refl p) (KeepsFieldNames.refl p)

theorem trans {p q r : Progress} (hpq : DefinesFields settings classes p q)
    (hqr : DefinesFields settings classes q r) : DefinesFields settings classes p r where
  events := List.Subset.trans hpq.events hqr.events
  names h := (hqr.names h).elim
    (fun hq => (hpq.names hq).imp_right fun hgives => hgives.mono hqr.events) Or.inr

/-- A step that gives one declared field a name that it may have. -/
theorem setField {p q : Progress} {source : SourceClass} {field : SourceMember} {newName : String}
    (hevents : p.memberEvents ⊆ q.memberEvents)
    (hrenames : q.renames = p.renames.setFieldName source.name field.name
      (some field.descriptor) newName)
    (hgives : GivesField settings classes q source.name field.name newName) :
    DefinesFields settings classes p q where
  events := hevents
  names {owner name _} h := by
    rw [hrenames, Renames.fieldName?_setFieldName] at h
    split_ifs at h with hkey
    · obtain ⟨rfl, rfl⟩ := hkey
      cases h
      exact Or.inr hgives
    · exact Or.inl h

end DefinesFields

theorem defineSlot_definesFields {conventions : Conventions} {hierarchy : Hierarchy}
    {p p' : Progress} {slot : Slot} (hslot : slot ∈ slots conventions settings classes)
    (h : defineSlot conventions hierarchy settings p slot = some p') :
    DefinesFields settings classes p p' := by
  have hevents : p.memberEvents ⊆ p'.memberEvents := by
    rcases defineSlot_numbers h with hkeeps | ⟨-, hmore⟩
    · rw [hkeeps.events]
      exact List.Subset.refl _
    · rw [hmore]
      exact List.subset_append_left _ _
  cases slot with
  | field source field =>
    obtain ⟨hmap, hsource, hfield⟩ := mem_slots_field.mp hslot
    have hspared : FieldIsOpen settings source p.renames field →
        ¬settings.SparesField field.name := by
      intro hopen
      rw [← keepsFieldName_iff, hopen.2]
      exact Bool.false_ne_true
    have hconstants : (settings.mapSyntheticValues && isValuesArray source field) = true ↔
        settings.mapSyntheticValues = true ∧ source.KeepsConstantsIn field := by
      rw [Bool.and_eq_true, isValuesArray_iff]
    rcases defineField_cases h with
      ⟨-, rfl⟩ | ⟨hopen, hvalues, rfl⟩ | ⟨hopen, hvalues, next, -, rfl⟩
    · exact DefinesFields.refl _
    · obtain ⟨hflag, harray⟩ := hconstants.mp hvalues
      exact .setField hevents rfl ⟨hmap, source, hsource, rfl, field, hfield, rfl, hspared hopen,
        Or.inl ⟨hflag, harray, rfl⟩⟩
    · have hother := mt hconstants.mpr (by rw [hvalues]; exact Bool.false_ne_true)
      refine .setField hevents rfl ⟨hmap, source, hsource, rfl, field, hfield, rfl, hspared hopen,
        Or.inr ⟨hother, p.nextMember, rfl, ?_⟩⟩
      exact List.mem_filter.mpr ⟨Array.mem_toList_iff.mpr Array.mem_push_self,
        Slot.numbersMember_event settings (.field source field) p.nextMember⟩
  | method source method =>
    rcases defineMethod_cases h with ⟨-, rfl⟩ | ⟨-, next, -, rfl⟩
    · exact .keep hevents (KeepsFieldNames.refl p)
    · exact .keep hevents (KeepsFieldNames.setMethodName (p := p) rfl)

theorem definitionPass_definesFields {conventions : Conventions} {hierarchy : Hierarchy}
    {p p' : Progress}
    (h : definitionPass conventions hierarchy settings classes p = some p') :
    DefinesFields settings classes p p' := by
  refine definitionPass_rel DefinesFields.refl DefinesFields.trans
    (fun _ _ _ hslot => defineSlot_definesFields hslot) ?_ h
  intro q fields methods next
  refine .keep ?_ (KeepsFieldNames.refl q)
  rw [memberEvents_note]
  exact List.subset_append_left _ _

end Progress

/-! ## Runs -/

namespace FinishedRun

open Progress (Slot DefinesAs DefinesFields GivesField declaredFields mem_declaredFields
  ruleName? ruleNameAt? slots)
open Renames (KeepsNames)

variable (run : FinishedRun)

/-- Numbers are reported in their order, so a report stands where its number says. -/
theorem getElem?_memberEvents {slot : Slot} {id : Nat}
    (h : slot.event run.settings id ∈ run.after.memberEvents) :
    run.settings.nextMember.toNat ≤ id ∧ id < run.after.outcome.nextMember.toNat ∧
      run.after.memberEvents[id - run.settings.nextMember.toNat]? =
        some (slot.event run.settings id) := by
  obtain ⟨numbered, -, hevents, hend⟩ := run.numbersMembers
  obtain ⟨k, hk⟩ := List.mem_iff_getElem?.mp h
  -- The event at position `k` has the number `k` places after the first one.
  have hposition := hk
  rw [hevents, List.getElem?_zipWith_eq_some] at hposition
  obtain ⟨other, n, -, hn, hevent⟩ := hposition
  have hid : n = id := Progress.Slot.event_injective hevent
  obtain ⟨hlt, hvalue⟩ := List.getElem?_eq_some_iff.mp hn
  rw [List.getElem_range'] at hvalue
  rw [List.length_range'] at hlt
  have hindex : id - run.settings.nextMember.toNat = k := by omega
  refine ⟨by omega, by omega, ?_⟩
  rw [hindex, hk]

theorem numbersField_of_mem {source : SourceClass} {field : SourceMember} {id : Nat}
    (h : (Slot.field source field).event run.settings id ∈ run.after.memberEvents) :
    run.NumbersField source field id := by
  obtain ⟨hfirst, hlast, hplace⟩ := run.getElem?_memberEvents h
  refine ⟨hfirst, hlast, h, fun slot hslot => ?_⟩
  obtain ⟨-, -, hsame⟩ := run.getElem?_memberEvents hslot
  exact Option.some.inj (hsame.symm.trans hplace)

/-- The constant that the run recovers for a field. -/
def recoveredName? (source : SourceClass) (name : String) : Option String :=
  if run.settings.recoverEnumConstants then source.constant? name else none

theorem recoveredName?_eq_some_iff {source : SourceClass} {name constant : String} :
    run.recoveredName? source name = some constant ↔
      run.settings.recoverEnumConstants = true ∧ source.Recovers name constant := by
  rw [recoveredName?, ← SourceClass.constant?_eq_some_iff]
  split_ifs with hflag <;> simp [hflag]

/-- What comes after recovery names fields only in the pass over definitions. -/
theorem definesFields : DefinesFields run.settings run.ordered run.recovered run.after := by
  obtain ⟨named, defined, hnamed, hdefined, hafter⟩ := run.passes
  have hclasses : DefinesFields run.settings run.ordered run.recovered named :=
    .of_keepsMembers (Progress.classesPass_keepsMembers hnamed)
      (Progress.classesPass_keepsFieldNames hnamed)
  have hlast : DefinesFields run.settings run.ordered defined run.after := by
    rw [hafter]
    exact .of_keepsMembers (Progress.propagationPass_keepsNumbers _ _ _ _).1
      (Progress.propagationPass_keepsFieldNames _ _ _ _)
  exact (hclasses.trans (Progress.definitionPass_definesFields hdefined)).trans hlast

theorem takesPart :
    ∀ source ∈ run.ordered, Progress.TakesPart run.settings run.classes source.name :=
  fun _ hsource => Progress.takesPart_of_mem hsource

theorem recovered_keepsNames : KeepsNames run.recovered.renames run.after.renames := by
  obtain ⟨named, defined, hnamed, hdefined, hafter⟩ := run.passes
  have howners := run.takesPart
  rw [hafter]
  exact ((Progress.classesPass_adds howners hnamed).keepsNames.trans
    (Progress.definitionPass_adds howners hdefined).keepsNames).trans
    (Progress.propagationPass_adds howners _ _ _).keepsNames

theorem not_isOpen {slot : Slot} (hslot : slot ∈ slots .standard run.settings run.ordered) :
    ¬slot.IsOpen run.hierarchy run.settings run.after.renames := by
  obtain ⟨named, defined, hnamed, hdefined, hafter⟩ := run.passes
  have howners := run.takesPart
  rw [hafter]
  exact fun hopen => Progress.definitionPass_closes hdefined hslot
    (Slot.isOpen_of_keepsNames (Progress.propagationPass_adds howners _ _ _).keepsNames hopen)

section Distinct

variable {run} (hclasses : (run.classes.map (·.name)).Nodup)
  (hfields : ∀ source ∈ run.classes, (source.fields.map (·.name)).Nodup)
  {source : SourceClass} (hsource : source ∈ run.ordered)

include hclasses hsource

theorem eq_of_name {other : SourceClass} (hother : other ∈ run.ordered)
    (hname : other.name = source.name) : other = source :=
  List.inj_on_of_nodup_map hclasses (Progress.mem_classesInOrder.mp hother).1
    (Progress.mem_classesInOrder.mp hsource).1 hname

/-- A declared field that the rules name under the name of the class is one of the class. -/
theorem of_ruleNameAt? {slot : SourceClass × SourceMember}
    (hslot : slot ∈ declaredFields run.ordered) {name : String}
    (hnamed : (ruleNameAt? run.settings.fieldRules source.name name slot).isSome) :
    slot.1 = source ∧ slot.2 ∈ source.fields ∧ slot.2.name = name := by
  obtain ⟨hother, hmember⟩ := mem_declaredFields.mp hslot
  unfold ruleNameAt? at hnamed
  split_ifs at hnamed with hkey
  · have hsame := eq_of_name hclasses hsource hother hkey.1.symm
    exact ⟨hsame, hsame ▸ hmember, hkey.2.symm⟩
  · cases hnamed

theorem ruleName?_undeclared {name : String} (hname : ∀ field ∈ source.fields, field.name ≠ name) :
    ruleName? run.settings.fieldRules (declaredFields run.ordered) source.name name = none := by
  refine List.findSome?_eq_none_iff.mpr fun slot hslot => ?_
  rw [← Option.not_isSome_iff_eq_none]
  intro hnamed
  obtain ⟨-, hmember, hsame⟩ :=
    of_ruleNameAt? hclasses hsource (List.mem_reverse.mp hslot) hnamed
  exact hname slot.2 hmember hsame

include hfields

theorem ruleName?_declared {field : SourceMember} (hfield : field ∈ source.fields) :
    ruleName? run.settings.fieldRules (declaredFields run.ordered) source.name field.name =
      (FieldRule.last? run.settings.fieldRules field.descriptor field.access).map (·.name) := by
  have hslot : (source, field) ∈ declaredFields run.ordered :=
    mem_declaredFields.mpr ⟨hsource, hfield⟩
  have hdistinct := hfields source (Progress.mem_classesInOrder.mp hsource).1
  rw [ruleName?, findSome?_eq_of_unique (List.mem_reverse.mpr hslot), ruleNameAt?,
    if_pos ⟨rfl, rfl⟩]
  intro slot hother hnamed
  obtain ⟨hsame, hmember, hname⟩ :=
    of_ruleNameAt? hclasses hsource (List.mem_reverse.mp hother) hnamed
  exact Prod.ext hsame (List.inj_on_of_nodup_map hdistinct hmember hfield hname)

omit hfields

/-- After the first two passes a field has the name that the rules give it, else the name it
    had, else the constant that its class recovers for it. -/
theorem fieldName?_recovered (name : String) :
    run.recovered.renames.fieldName? source.name name =
      ((ruleName? run.settings.fieldRules (declaredFields run.ordered) source.name name).or
        (run.before.fieldName? source.name name)).or (run.recoveredName? source name) := by
  have hruled := Progress.fieldName?_rulesPass run.settings run.ordered
    (Progress.start run.settings run.before) source.name name
  rw [recovered, recoveredName?]
  by_cases hrecover : run.settings.recoverEnumConstants = true
  · rw [Progress.fieldName?_constantsPass hrecover, hruled, if_pos hrecover,
      findSome?_eq_of_unique hsource, if_pos rfl]
    · rfl
    · intro other hother hconstant
      split_ifs at hconstant with hname
      · exact eq_of_name hclasses hsource hother hname.symm
      · cases hconstant
  · rw [Progress.constantsPass, if_neg hrecover, if_neg hrecover, Option.or_none, hruled]
    rfl

include hfields

/-- The definition that names a field under the name of a class is one of that class. -/
theorem definesAs_of_givesField {field : SourceMember} (hfield : field ∈ source.fields)
    {newName : String}
    (h : GivesField run.settings run.ordered run.after source.name field.name newName) :
    run.settings.mapFields = true ∧ DefinesAs run.settings source field run.after newName := by
  obtain ⟨hmap, other, hother, hname, twin, htwin, hsame, hdefines⟩ := h
  obtain rfl := eq_of_name hclasses hsource hother hname
  have hdistinct := hfields other (Progress.mem_classesInOrder.mp hother).1
  obtain rfl := List.inj_on_of_nodup_map hdistinct htwin hfield hsame
  exact ⟨hmap, hdefines⟩

/-- A field that the first two passes leave without a name is spared, is the array of constants
    or gets a number. -/
theorem namesField_of_leaves {field : SourceMember} (hfield : field ∈ source.fields)
    (hleft : run.LeavesToDefinition source field)
    (hnone : run.recovered.renames.fieldName? source.name field.name = none) :
    run.NamesField source field (run.after.renames.fieldName? source.name field.name) := by
  cases hname : run.after.renames.fieldName? source.name field.name with
  | none =>
    -- The definition pass names every field that it may.
    refine .spared hleft ?_
    by_contra hdefined
    obtain ⟨hmap, hspared⟩ := not_or.mp hdefined
    rw [Bool.not_eq_false] at hmap
    rw [← Progress.keepsFieldName_iff, Bool.not_eq_true] at hspared
    exact run.not_isOpen (Progress.mem_slots_field.mpr ⟨hmap, hsource, hfield⟩) ⟨hname, hspared⟩
  | some newName =>
    have hgives := (run.definesFields.names hname).resolve_left (by rw [hnone]; rintro ⟨⟩)
    obtain ⟨hmap, hspared, ⟨hflag, harray, rfl⟩ | ⟨hother, id, rfl, hreported⟩⟩ :=
      definesAs_of_givesField hclasses hfields hsource hfield hgives
    · exact .constants hleft hmap hspared hflag harray
    · exact .numbered hleft hmap hspared hother (run.numbersField_of_mem hreported)

/-- The passes together decide by the first case that fits. -/
theorem namesField {field : SourceMember} (hfield : field ∈ source.fields) :
    run.NamesField source field (run.after.renames.fieldName? source.name field.name) := by
  have hrecovered := fieldName?_recovered hclasses hsource field.name
  rw [ruleName?_declared hclasses hfields hsource hfield] at hrecovered
  have hkeeps := run.recovered_keepsNames.fieldName source.name field.name
  cases hlast : FieldRule.last? run.settings.fieldRules field.descriptor field.access with
  | some rule =>
    rw [hlast, Option.map_some, Option.some_or, Option.some_or] at hrecovered
    rw [hkeeps rule.name hrecovered]
    exact .ruled (FieldRule.isLastFor_of_last? hlast)
  | none =>
    have hunruled := FieldRule.last?_eq_none_iff.mp hlast
    rw [hlast, Option.map_none, Option.none_or] at hrecovered
    cases hprior : run.before.fieldName? source.name field.name with
    | some name =>
      rw [hprior, Option.some_or] at hrecovered
      rw [hkeeps name hrecovered]
      exact .kept hunruled hprior
    | none =>
      rw [hprior, Option.none_or] at hrecovered
      cases hconstant : run.recoveredName? source field.name with
      | some constant =>
        obtain ⟨hflag, hrecovers⟩ := run.recoveredName?_eq_some_iff.mp hconstant
        rw [hkeeps constant (hrecovered.trans hconstant)]
        exact .recovered hunruled hprior hflag hrecovers
      | none =>
        refine namesField_of_leaves hclasses hfields hsource hfield
          ⟨hunruled, hprior, fun hflag constant hrecovers => ?_⟩ (hrecovered.trans hconstant)
        rw [run.recoveredName?_eq_some_iff.mpr ⟨hflag, hrecovers⟩] at hconstant
        cases hconstant

omit hfields

/-- A field that the class does not declare keeps the name it had, and else it has the constant
    that is recovered for it: rules and definitions are for declared fields. -/
theorem fieldName?_undeclared {name : String}
    (hname : ∀ field ∈ source.fields, field.name ≠ name) :
    run.after.renames.fieldName? source.name name =
      (run.before.fieldName? source.name name).or (run.recoveredName? source name) := by
  have hrecovered := fieldName?_recovered hclasses hsource name
  rw [ruleName?_undeclared hclasses hsource hname, Option.none_or] at hrecovered
  rw [← hrecovered]
  cases hafter : run.after.renames.fieldName? source.name name with
  | none =>
    cases hbefore : run.recovered.renames.fieldName? source.name name with
    | none => rfl
    | some newName =>
      rw [run.recovered_keepsNames.fieldName _ _ _ hbefore] at hafter
      cases hafter
  | some newName =>
    rcases run.definesFields.names hafter with hbefore | hgives
    · exact hbefore.symm
    · obtain ⟨-, other, hother, howner, field, hfield, hfieldName, -⟩ := hgives
      rw [eq_of_name hclasses hsource hother howner] at hfield
      exact absurd hfieldName (hname field hfield)

/-- Under the name of a class only recovery names what the class does not declare. -/
theorem recovers_of_undeclared {name : String} (hname : ∀ field ∈ source.fields, field.name ≠ name)
    (hchanged : run.after.renames.fieldName? source.name name ≠
      run.before.fieldName? source.name name) :
    run.settings.recoverEnumConstants = true ∧ run.before.fieldName? source.name name = none ∧
      ∃ constant, source.Recovers name constant ∧
        run.after.renames.fieldName? source.name name = some constant := by
  rw [fieldName?_undeclared hclasses hsource hname] at hchanged ⊢
  cases hbefore : run.before.fieldName? source.name name with
  | some prior =>
    rw [hbefore, Option.some_or] at hchanged
    exact absurd rfl hchanged
  | none =>
    rw [hbefore, Option.none_or] at hchanged
    obtain ⟨constant, hconstant⟩ := Option.ne_none_iff_exists'.mp hchanged
    obtain ⟨hflag, hrecovers⟩ := run.recoveredName?_eq_some_iff.mp hconstant
    exact ⟨hflag, rfl, constant, hrecovers, hconstant⟩

end Distinct

/-- If no two classes have the same name, and no two fields of a class, the name of each field
    that a class declares is decided by the first case that fits: the last rule that covers it,
    the name it had, the constant that is recovered for it, that it is spared, that it is the
    array of constants, and else a number of its own. Under the name of the class nothing else
    gets a name but the fields that recovery binds. -/
theorem field_precedence (hclasses : (run.classes.map (·.name)).Nodup)
    (hfields : ∀ source ∈ run.classes, (source.fields.map (·.name)).Nodup)
    {source : SourceClass} (hsource : source ∈ run.classes)
    (hpart : run.settings.excludes source.name = false) :
    (∀ field ∈ source.fields,
      run.NamesField source field (run.after.renames.fieldName? source.name field.name)) ∧
    ∀ name, run.after.renames.fieldName? source.name name ≠
        run.before.fieldName? source.name name →
      (∃ field ∈ source.fields, field.name = name) ∨
      run.settings.recoverEnumConstants = true ∧ run.before.fieldName? source.name name = none ∧
        ∃ constant, source.Recovers name constant ∧
          run.after.renames.fieldName? source.name name = some constant := by
  have hordered : source ∈ run.ordered := Progress.mem_classesInOrder.mpr ⟨hsource, hpart⟩
  refine ⟨fun field hfield => namesField hclasses hfields hordered hfield, fun name hchanged => ?_⟩
  by_cases hdeclared : ∃ field ∈ source.fields, field.name = name
  · exact Or.inl hdeclared
  · refine Or.inr (recovers_of_undeclared hclasses hordered (fun field hfield hname => ?_) hchanged)
    exact hdeclared ⟨field, hfield, hname⟩

/-- An enumeration with a field for each case, and a constant that it does not declare. -/
def mixedEnum : SourceClass :=
  SourceClass.new "e" (some "java/lang/Enum")
    |>.addField 0x4019 "a" "Le;"
    |>.addField 0x101a "b" "[Le;"
    |>.addField 0 "kept" "I"
    |>.addField 0 "plain" "I"
    |>.addField 0 "ruled" "J"
    |>.addField 0 "this$0" "I"
    |>.setStaticInit
      [.new "e", .loadString "RED", EnumConstants.store "e" "a",
       .new "e", .loadString "BLUE", EnumConstants.store "e" "hidden"]

/-- Only fields are named, and there are two rules for those of type `J`. -/
def mixedSettings : Settings :=
  { nextMember := 7, mapMethods := false,
    fieldRules := [⟨"J", "first", {}⟩, ⟨"J", "second", {}⟩] }

/-- Two fields have names already. -/
def mixedRenames : Renames :=
  (Renames.setFieldName {} "e" "kept" none "mine").setFieldName "e" "ruled" none "old"

theorem mixedEnum_ordered :
    Progress.classesInOrder .standard mixedSettings [mixedEnum] = [mixedEnum] :=
  Progress.classesInOrder_eq_self (by decide) (by decide)

theorem mixedEnum_slots :
    slots .standard mixedSettings [mixedEnum] = mixedEnum.fields.map (.field mixedEnum) :=
  (Progress.slots_eq_declared (by decide +kernel)).trans rfl

theorem field_precedence_mixed :
    ∃ run : FinishedRun, run.classes = [mixedEnum] ∧ run.settings = mixedSettings ∧
      run.before = mixedRenames ∧
      (∀ field ∈ mixedEnum.fields,
        run.NamesField mixedEnum field (run.after.renames.fieldName? "e" field.name)) ∧
      mixedEnum.fields.map (fun field => run.after.renames.fieldName? "e" field.name) =
        [some "RED", some "$VALUES", some "mine", some "field_7_plain", some "second", none] ∧
      run.after.renames.fieldName? "e" "hidden" = some "BLUE" := by
  have hrun : (synthesizeWith Hierarchy.empty mixedSettings [mixedEnum] mixedRenames).map
      (fun p => (mixedEnum.fields.map (fun field => p.renames.fieldName? "e" field.name),
        p.renames.fieldName? "e" "hidden")) =
      some ([some "RED", some "$VALUES", some "mine", some "field_7_plain", some "second", none],
        some "BLUE") := by
    unfold synthesizeWith Progress.run
    simp only [mixedEnum_ordered, Progress.definitionPass, Progress.foldlM_defineClass_eq,
      mixedEnum_slots]
    decide +kernel
  obtain ⟨after, hafter, hnames⟩ := Option.map_eq_some_iff.mp hrun
  obtain ⟨hfields, hhidden⟩ := Prod.mk.inj hnames
  let run : FinishedRun := ⟨_, _, _, _, after, hafter⟩
  have hprecedence := run.field_precedence (by decide : ([mixedEnum].map (·.name)).Nodup)
    (by decide : ∀ source ∈ [mixedEnum], (source.fields.map (·.name)).Nodup)
    (List.mem_singleton_self mixedEnum) (rfl : mixedSettings.excludes "e" = false)
  exact ⟨run, rfl, rfl, rfl, hprecedence.1, hfields, hhidden⟩

end FinishedRun

end Nomenclator

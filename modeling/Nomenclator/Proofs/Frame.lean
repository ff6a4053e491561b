import Nomenclator.Proofs.Counters

/-!
# What a run leaves alone

Only field rules replace a name that is set. Every other step enters something
or names what has no name, and each step writes to the entry of one class that
takes part in the run.

Results:
* `run_adds`: everything after the field rules keeps all names and all classes
  that take no part.
* `fieldName?_rulesPass`: after the field rules a field has the name of the last
  rule that was applied to it, or the name it had.
* `synthesizeWith_frame`: what a whole run may change.
-/

namespace Nomenclator

/-! ## Changes within some classes -/

/-- A change that leaves the entries of classes outside `owners` alone. -/
def Renames.ChangesOnly (owners : String → Prop) (before after : Renames) : Prop :=
  ∀ c, ¬owners c → after.class? c = before.class? c

namespace Renames.ChangesOnly

variable {owners : String → Prop} {a b c : Renames}

theorem refl (renames : Renames) : ChangesOnly owners renames renames := fun _ _ => rfl

theorem trans (hab : ChangesOnly owners a b) (hbc : ChangesOnly owners b c) :
    ChangesOnly owners a c := by
  intro name hname
  rw [hbc name hname, hab name hname]

theorem editClass (renames : Renames) {owner : String} (howner : owners owner)
    (f : ClassRename → ClassRename) : ChangesOnly owners renames (renames.editClass owner f) := by
  intro name hname
  rw [class?_editClass, if_neg]
  rintro rfl
  exact hname howner

end Renames.ChangesOnly

/-- A change that keeps all names and leaves classes outside `owners` alone. -/
structure Renames.Adds (owners : String → Prop) (before after : Renames) : Prop where
  keepsNames : KeepsNames before after
  changesOnly : ChangesOnly owners before after

namespace Renames.Adds

variable {owners : String → Prop}

theorem refl (renames : Renames) : Adds owners renames renames :=
  ⟨KeepsNames.refl renames, ChangesOnly.refl renames⟩

theorem trans {a b c : Renames} (hab : Adds owners a b) (hbc : Adds owners b c) :
    Adds owners a c :=
  ⟨hab.keepsNames.trans hbc.keepsNames, hab.changesOnly.trans hbc.changesOnly⟩

end Renames.Adds

namespace FieldRule

theorem mem_of_last? {rules : List FieldRule} {descriptor : String}
    {flags : AccessFlags} {rule : FieldRule}
    (h : last? rules descriptor flags = some rule) :
    rule ∈ rules ∧ rule.appliesTo descriptor flags = true :=
  ⟨List.mem_reverse.mp (List.mem_of_find?_eq_some h), by simpa using List.find?_some h⟩

theorem last?_isSome {rules : List FieldRule} {descriptor : String}
    {flags : AccessFlags} {rule : FieldRule} (hmem : rule ∈ rules)
    (happlies : rule.appliesTo descriptor flags = true) :
    (last? rules descriptor flags).isSome := by
  unfold last?
  rw [List.find?_isSome]
  exact ⟨rule, List.mem_reverse.mpr hmem, happlies⟩

end FieldRule

namespace Progress

open Renames (Keeps KeepsNames ChangesOnly Adds)

variable {owners : String → Prop}

/-! ## Steps other than rules -/

theorem bindConstant_adds {className : String} (howner : owners className) (p : Progress)
    (field constant : String) :
    Adds owners p.renames (bindConstant className p (field, constant)).renames := by
  rcases bindConstant_cases className p field constant with ⟨-, heq⟩ | ⟨hnone, heq⟩
  · rw [heq]
    exact ⟨KeepsNames.enterField _ _ _ _, ChangesOnly.editClass _ howner _⟩
  · rw [heq]
    exact ⟨KeepsNames.setFieldName hnone _ _, ChangesOnly.editClass _ howner _⟩

theorem nameClass_adds {conventions : Conventions} {naming : ClassNaming} {p p' : Progress}
    {source : SourceClass} (howner : owners source.name)
    (h : nameClass conventions naming p source = some p') : Adds owners p.renames p'.renames := by
  rcases nameClass_cases h with ⟨-, rfl⟩ | ⟨hnone, id, -, rfl⟩
  · exact Adds.refl _
  · exact ⟨KeepsNames.setClassName hnone _, ChangesOnly.editClass _ howner _⟩

theorem defineSlot_adds {conventions : Conventions} {hierarchy : Hierarchy} {settings : Settings}
    {p p' : Progress} {slot : Slot} (howner : owners slot.source.name)
    (h : defineSlot conventions hierarchy settings p slot = some p') :
    Adds owners p.renames p'.renames := by
  cases slot with
  | field source field =>
    rcases defineField_cases h with ⟨-, rfl⟩ | ⟨hopen, -, rfl⟩ | ⟨hopen, -, next, -, rfl⟩
    · exact Adds.refl _
    · exact ⟨KeepsNames.setFieldName hopen.1 _ _, ChangesOnly.editClass _ howner _⟩
    · exact ⟨KeepsNames.setFieldName hopen.1 _ _, ChangesOnly.editClass _ howner _⟩
  | method source method =>
    rcases defineMethod_cases h with ⟨-, rfl⟩ | ⟨hopen, next, -, rfl⟩
    · exact Adds.refl _
    · exact ⟨KeepsNames.setMethodName hopen.2.1 _, ChangesOnly.editClass _ howner _⟩

theorem propagateMethod_adds {hierarchy : Hierarchy} {source : SourceClass}
    (howner : owners source.name) (p : Progress) (method : SourceMember) :
    Adds owners p.renames (propagateMethod hierarchy source p method).renames := by
  obtain ⟨asked, ⟨-, heq⟩ | ⟨hmay, newName, -, heq⟩⟩ :=
    propagateMethod_cases hierarchy source p method
  · rw [heq]
    exact Adds.refl _
  · rw [heq]
    exact ⟨KeepsNames.setMethodName hmay.2 _, ChangesOnly.editClass _ howner _⟩

/-! ## Passes other than rules -/

section Passes

variable {classes : List SourceClass} (howners : ∀ source ∈ classes, owners source.name)

include howners

theorem constantsPass_adds (settings : Settings) (p : Progress) :
    Adds owners p.renames (constantsPass settings classes p).renames := by
  apply constantsPass_rel (R := fun p q => Adds owners p.renames q.renames)
  · exact fun p => Adds.refl p.renames
  · exact fun hpq hqr => hpq.trans hqr
  · exact fun _ p source hsource _ _ binding _ =>
      bindConstant_adds (howners source hsource) p _ _
  · exact fun p source _ cause => Adds.refl p.renames

theorem classesPass_adds {conventions : Conventions} {settings : Settings} {p p' : Progress}
    (h : classesPass conventions settings classes p = some p') :
    Adds owners p.renames p'.renames := by
  apply classesPass_rel (R := fun p q => Adds owners p.renames q.renames) _ _ _ h
  · exact fun p => Adds.refl p.renames
  · exact fun hpq hqr => hpq.trans hqr
  · exact fun naming _ p p' source hsource => nameClass_adds (howners source hsource)

theorem definitionPass_adds {conventions : Conventions} {hierarchy : Hierarchy}
    {settings : Settings} {p p' : Progress}
    (h : definitionPass conventions hierarchy settings classes p = some p') :
    Adds owners p.renames p'.renames := by
  apply definitionPass_rel (R := fun p q => Adds owners p.renames q.renames) _ _ _ _ h
  · exact fun p => Adds.refl p.renames
  · exact fun hpq hqr => hpq.trans hqr
  · exact fun p p' slot hslot =>
      defineSlot_adds (howners slot.source (source_mem_of_mem_slots hslot))
  · exact fun p _ _ _ => Adds.refl p.renames

theorem propagationPass_adds (hierarchy : Hierarchy) (settings : Settings) (p : Progress) :
    Adds owners p.renames (propagationPass hierarchy settings classes p).renames := by
  apply propagationPass_rel (R := fun p q => Adds owners p.renames q.renames)
  · exact fun p => Adds.refl p.renames
  · exact fun hpq hqr => hpq.trans hqr
  · exact fun p source hsource method _ => propagateMethod_adds (howners source hsource) p method
  · exact fun p _ => Adds.refl p.renames

end Passes

/-- The classes that take part in a run. -/
def TakesPart (settings : Settings) (classes : List SourceClass) (name : String) : Prop :=
  name ∈ classes.map (·.name) ∧ settings.excludes name = false

theorem takesPart_of_mem {conventions : Conventions} {settings : Settings}
    {classes : List SourceClass} {source : SourceClass}
    (h : source ∈ classesInOrder conventions settings classes) :
    TakesPart settings classes source.name := by
  obtain ⟨hmem, hexcludes⟩ := mem_classesInOrder.mp h
  exact ⟨List.mem_map_of_mem hmem, hexcludes⟩

/-- What comes after the field rules only adds names, and only to classes that
    take part. -/
theorem run_adds {conventions : Conventions} {hierarchy : Hierarchy} {settings : Settings}
    {classes : List SourceClass} {renames : Renames} {p : Progress}
    (h : run conventions hierarchy settings classes renames = some p) :
    Adds (TakesPart settings classes)
      (rulesPass settings (classesInOrder conventions settings classes)
        (start settings renames)).renames p.renames := by
  have howners : ∀ source ∈ classesInOrder conventions settings classes,
      TakesPart settings classes source.name := fun source hsource => takesPart_of_mem hsource
  obtain ⟨named, defined, hnamed, hdefined, rfl⟩ := run_eq_some_iff.mp h
  have hconstants := constantsPass_adds howners settings (rulesPass settings
    (classesInOrder conventions settings classes) (start settings renames))
  have hclasses := classesPass_adds howners hnamed
  have hmembers := definitionPass_adds howners hdefined
  have hoverriding := propagationPass_adds howners hierarchy settings defined
  exact ((hconstants.trans hclasses).trans hmembers).trans hoverriding

/-! ## Field rules -/

theorem applyRules_keeps (rules : List FieldRule) (source : SourceClass) (p : Progress)
    (field : SourceMember) : Keeps p.renames (applyRules rules source p field).renames := by
  unfold applyRules
  split
  · exact Keeps.setFieldName _ _ _ _ _
  · exact Keeps.refl _

theorem applyRules_changesOnly (rules : List FieldRule) {source : SourceClass}
    (howner : owners source.name) (p : Progress) (field : SourceMember) :
    ChangesOnly owners p.renames (applyRules rules source p field).renames := by
  unfold applyRules
  split
  · exact ChangesOnly.editClass _ howner _
  · exact ChangesOnly.refl _

theorem rulesPass_keeps (settings : Settings) (classes : List SourceClass) (p : Progress) :
    Keeps p.renames (rulesPass settings classes p).renames := by
  apply rulesPass_rel (R := fun p q => Keeps p.renames q.renames)
  · exact fun p => Keeps.refl p.renames
  · exact fun hpq hqr => hpq.trans hqr
  · exact fun p source _ field _ => applyRules_keeps _ source p field

theorem rulesPass_changesOnly {classes : List SourceClass}
    (howners : ∀ source ∈ classes, owners source.name) (settings : Settings) (p : Progress) :
    ChangesOnly owners p.renames (rulesPass settings classes p).renames := by
  apply rulesPass_rel (R := fun p q => ChangesOnly owners p.renames q.renames)
  · exact fun p => ChangesOnly.refl p.renames
  · exact fun hpq hqr => hpq.trans hqr
  · exact fun p source hsource field _ => applyRules_changesOnly _ (howners source hsource) p field

/-- The name that the rules give to a field when a declared member is looked at:
    none unless the member is that field and a rule applies to it. -/
def ruleNameAt? (rules : List FieldRule) (owner field : String)
    (slot : SourceClass × SourceMember) : Option String :=
  if owner = slot.1.name ∧ field = slot.2.name then
    (FieldRule.last? rules slot.2.descriptor slot.2.access).map (·.name)
  else none

/-- The name that the rules give to a field when all declared members have been
    looked at: the last one wins. -/
def ruleName? (rules : List FieldRule) (members : List (SourceClass × SourceMember))
    (owner field : String) : Option String :=
  members.reverse.findSome? (ruleNameAt? rules owner field)

theorem fieldName?_applyRules (rules : List FieldRule) (p : Progress)
    (slot : SourceClass × SourceMember) (owner field : String) :
    (applyRules rules slot.1 p slot.2).renames.fieldName? owner field =
      (ruleNameAt? rules owner field slot).or (p.renames.fieldName? owner field) := by
  unfold applyRules ruleNameAt?
  cases FieldRule.last? rules slot.2.descriptor slot.2.access with
  | none => simp
  | some rule =>
    show (p.renames.setFieldName _ _ _ _).fieldName? owner field = _
    rw [Renames.fieldName?_setFieldName]
    split_ifs <;> rfl

/-- After the field rules a field has the name that the last of them gave it, or
    else the name it had. -/
theorem fieldName?_rulesPass (settings : Settings) (classes : List SourceClass) (p : Progress)
    (owner field : String) :
    (rulesPass settings classes p).renames.fieldName? owner field =
      (ruleName? settings.fieldRules (declaredFields classes) owner field).or
        (p.renames.fieldName? owner field) := by
  rw [rulesPass_eq]
  generalize declaredFields classes = members
  induction members generalizing p with
  | nil => rfl
  | cons slot members ih =>
    rw [List.foldl_cons, ih, fieldName?_applyRules, ruleName?, ruleName?, List.reverse_cons,
      List.findSome?_append, Option.or_assoc]
    simp

/-- A rule gives a field this name: a class of the owner's name takes part in the
    run and declares a field of that name to which the rule applies. -/
def RuleGives (settings : Settings) (classes : List SourceClass)
    (owner field newName : String) : Prop :=
  ∃ source ∈ classes, source.name = owner ∧ settings.excludes owner = false ∧
    ∃ member ∈ source.fields, member.name = field ∧
      ∃ rule ∈ settings.fieldRules,
        rule.appliesTo member.descriptor member.access = true ∧ rule.name = newName

/-- A name that the rules give in a run is the name of a rule that applies. -/
theorem ruleGives_of_ruleName? {conventions : Conventions} {settings : Settings}
    {classes : List SourceClass} {owner field newName : String}
    (h : ruleName? settings.fieldRules
      (declaredFields (classesInOrder conventions settings classes)) owner field =
        some newName) : RuleGives settings classes owner field newName := by
  obtain ⟨⟨source, member⟩, hslot, hat⟩ := List.exists_of_findSome?_eq_some h
  obtain ⟨hsource, hmember⟩ := mem_declaredFields.mp (List.mem_reverse.mp hslot)
  obtain ⟨hlisted, hexcludes⟩ := mem_classesInOrder.mp hsource
  unfold ruleNameAt? at hat
  split_ifs at hat with hkey
  obtain ⟨rfl, rfl⟩ := hkey
  obtain ⟨rule, hlast, rfl⟩ := Option.map_eq_some_iff.mp hat
  obtain ⟨hrule, happlies⟩ := FieldRule.mem_of_last? hlast
  exact ⟨source, hlisted, rfl, hexcludes, member, hmember, rfl, rule, hrule, happlies, rfl⟩

/-- Where a rule applies to a declared member, the rules give a name. -/
theorem isSome_ruleName? {rules : List FieldRule} {members : List (SourceClass × SourceMember)}
    {slot : SourceClass × SourceMember} (hslot : slot ∈ members)
    (hlast : (FieldRule.last? rules slot.2.descriptor slot.2.access).isSome) :
    (ruleName? rules members slot.1.name slot.2.name).isSome := by
  unfold ruleName?
  rw [List.findSome?_isSome_iff]
  refine ⟨slot, List.mem_reverse.mpr hslot, ?_⟩
  unfold ruleNameAt?
  rw [if_pos ⟨rfl, rfl⟩, Option.isSome_map]
  exact hlast

theorem isSome_ruleName?_of_ruleGives {settings : Settings} {classes : List SourceClass}
    {owner field newName : String} (conventions : Conventions)
    (h : RuleGives settings classes owner field newName) :
    (ruleName? settings.fieldRules
      (declaredFields (classesInOrder conventions settings classes)) owner field).isSome := by
  obtain ⟨source, hlisted, rfl, hexcludes, member, hmember, rfl, rule, hrule, happlies, -⟩ := h
  have hslot : (source, member) ∈ declaredFields (classesInOrder conventions settings classes) :=
    mem_declaredFields.mpr ⟨mem_classesInOrder.mpr ⟨hlisted, hexcludes⟩, hmember⟩
  exact isSome_ruleName? hslot (FieldRule.last?_isSome hrule happlies)

end Progress

open Progress (RuleGives) in
/-- A run never changes a name that is set, except that of a field to which a
    rule applies, which gets the name of such a rule. It loses no entry and no
    descriptor. Classes that are excluded or not listed stay exactly as they
    were. -/
theorem synthesizeWith_frame {hierarchy : Hierarchy} {settings : Settings}
    {classes : List SourceClass} {before : Renames} {after : Progress}
    (h : synthesizeWith hierarchy settings classes before = some after) :
    Renames.Keeps before after.renames ∧
    (∀ owner field oldName, before.fieldName? owner field = some oldName →
      ((¬∃ newName, RuleGives settings classes owner field newName) →
        after.renames.fieldName? owner field = some oldName) ∧
      ((∃ newName, RuleGives settings classes owner field newName) →
        ∃ newName, RuleGives settings classes owner field newName ∧
          after.renames.fieldName? owner field = some newName)) ∧
    (∀ name, settings.excludes name = true ∨ name ∉ classes.map (·.name) →
      after.renames.class? name = before.class? name) := by
  have hadds := Progress.run_adds h
  have hrules := Progress.rulesPass_keeps settings
    (Progress.classesInOrder .standard settings classes) (Progress.start settings before)
  have hfields := Progress.fieldName?_rulesPass settings
    (Progress.classesInOrder .standard settings classes) (Progress.start settings before)
  refine ⟨hrules.trans hadds.keepsNames.toKeeps, ?_, ?_⟩
  · intro owner field oldName hold
    refine ⟨fun hno => ?_, fun ⟨newName, hgives⟩ => ?_⟩
    · apply hadds.keepsNames.fieldName
      rw [hfields, Option.eq_none_iff_forall_ne_some.mpr fun newName hgiven =>
        hno ⟨newName, Progress.ruleGives_of_ruleName? hgiven⟩]
      exact hold
    · obtain ⟨given, hgiven⟩ := Option.isSome_iff_exists.mp
        (Progress.isSome_ruleName?_of_ruleGives .standard hgives)
      refine ⟨given, Progress.ruleGives_of_ruleName? hgiven, ?_⟩
      apply hadds.keepsNames.fieldName
      rw [hfields, hgiven]
      rfl
  · intro name hname
    have hout : ¬Progress.TakesPart settings classes name := by
      rintro ⟨hlisted, hexcludes⟩
      rcases hname with hname | hname
      · rw [hname] at hexcludes
        cases hexcludes
      · exact hname hlisted
    rw [hadds.changesOnly name hout]
    exact Progress.rulesPass_changesOnly
      (fun source hsource => Progress.takesPart_of_mem hsource) settings _ name hout

/-- A class whose field falls under a rule, and a class of an excluded package. -/
def ruledClasses : List SourceClass :=
  [(SourceClass.new "a" none).addField 0 "f" "I", (SourceClass.new "lib/b" none).addField 0 "g" "I"]

/-- A package left alone, and a rule for all fields of type `I`. -/
def ruledSettings : Settings :=
  { excludedPackages := ["lib."], fieldRules := [⟨"I", "count", {}⟩] }

theorem synthesizeWith_frame_ruled_field :
    ∃ after, synthesizeWith Hierarchy.empty ruledSettings ruledClasses
        (Renames.setFieldName {} "a" "f" none "old") = some after ∧
      after.renames.fieldName? "a" "f" = some "count" ∧
      after.renames.class? "lib/b" = none := by
  have hmembers : ruledSettings.nextMember.toNat + Progress.memberCount ruledClasses ≤ 4294967295 :=
    by decide
  have hclasses : ruledSettings.nextClass.toNat + ruledClasses.length ≤ 4294967295 := by decide
  obtain ⟨after, h⟩ := Progress.run_ends Hierarchy.empty ruledSettings ruledClasses
    (Renames.setFieldName {} "a" "f" none "old") hmembers hclasses
  obtain ⟨-, hfields, hother⟩ := synthesizeWith_frame h
  refine ⟨after, h, ?_, hother "lib/b" (Or.inl (by decide +kernel))⟩
  obtain ⟨newName, ⟨_, _, _, _, _, _, _, rule, hrule, _, rfl⟩, hname⟩ :=
    (hfields "a" "f" "old" (by decide)).2
      ⟨"count", _, List.mem_cons_self, rfl, by decide +kernel, _, List.mem_cons_self, rfl, _,
        List.mem_cons_self, by decide, rfl⟩
  rw [List.mem_singleton.mp hrule] at hname
  exact hname

end Nomenclator

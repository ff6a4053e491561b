import Nomenclator.Proofs.CounterLimits
import Nomenclator.Proofs.FieldPrecedence
import Nomenclator.Proofs.NameCounts

/-!
# Tallies against the names that there are

What a run says it has named is what it has named. Each step after the field rules names only
what has no name and adds one to one tally, whether or not several members share an entry and
however often a class occurs. Field rules may give a new name to what has one, so fields are
counted from where the rules end.

The numbers of members go to the fields and methods that the definitions name, except that the
array of an enumeration's constants gets a fixed name.

Results:
* `Accounts`: names and tallies grow alike. `bindConstant_accounts` and its siblings say so of
  the steps.
* `NamesArrays`, `AccountsMembers`: which fields got the fixed name, and how the counter of
  members grows with the tallies but for them.
* `FinishedRun.tallies_account`: the account of a whole run.
-/

namespace Nomenclator

namespace Progress

/-! ## Names and tallies -/

/-- From one state to the other, as many names have been added of each kind as the tallies say,
    and as many classes have got a number as have been named. -/
structure Accounts (p q : Progress) : Prop where
  classes : q.renames.nameCounts.classes + p.tally.namedClasses =
    p.renames.nameCounts.classes + q.tally.namedClasses
  fields : q.renames.nameCounts.fields + (p.tally.recoveredConstants + p.tally.namedFields) =
    p.renames.nameCounts.fields + (q.tally.recoveredConstants + q.tally.namedFields)
  methods : q.renames.nameCounts.methods + (p.tally.namedMethods + p.tally.propagatedMethods) =
    p.renames.nameCounts.methods + (q.tally.namedMethods + q.tally.propagatedMethods)
  nextClass : q.nextClass + p.tally.namedClasses = p.nextClass + q.tally.namedClasses

namespace Accounts

theorem refl (p : Progress) : Accounts p p := ⟨rfl, rfl, rfl, rfl⟩

theorem trans {p q r : Progress} (hpq : Accounts p q) (hqr : Accounts q r) : Accounts p r where
  classes := by have := hpq.classes; have := hqr.classes; omega
  fields := by have := hpq.fields; have := hqr.fields; omega
  methods := by have := hpq.methods; have := hqr.methods; omega
  nextClass := by have := hpq.nextClass; have := hqr.nextClass; omega

theorem of_nameCounts {p q : Progress} (h : q.renames.nameCounts = p.renames.nameCounts)
    (htally : q.tally = p.tally) (hclass : q.nextClass = p.nextClass) : Accounts p q where
  classes := by rw [h, htally]
  fields := by rw [h, htally]
  methods := by rw [h, htally]
  nextClass := by rw [hclass, htally]

end Accounts

theorem bindConstant_accounts (className : String) (p : Progress) (field constant : String) :
    Accounts p (bindConstant className p (field, constant)) := by
  rcases bindConstant_cases className p field constant with ⟨-, heq⟩ | ⟨hnone, heq⟩
  · rw [heq]
    exact .of_nameCounts (Renames.nameCounts_enterField _ _ _ _) rfl rfl
  · have hcounts := Renames.nameCounts_setFieldName hnone
      (some (EnumConstants.descriptor className)) constant
    rw [heq]
    constructor <;> simp only [note, hcounts]
    omega

theorem nameClass_accounts {naming : ClassNaming} {p p' : Progress} {source : SourceClass}
    (h : nameClass .standard naming p source = some p') : Accounts p p' := by
  rcases nameClass_cases h with ⟨-, rfl⟩ | ⟨hnone, id, hid, rfl⟩
  · exact Accounts.refl _
  · have hcounts := Renames.nameCounts_setClassName hnone (newClassName naming id source.name)
    obtain ⟨-, rfl⟩ := advance32_eq_some hid
    constructor <;> simp only [note, hcounts] <;> omega

theorem defineSlot_accounts {conventions : Conventions} {hierarchy : Hierarchy}
    {settings : Settings} {p p' : Progress} {slot : Slot}
    (h : defineSlot conventions hierarchy settings p slot = some p') : Accounts p p' := by
  cases slot with
  | field source field =>
    rcases defineField_cases h with ⟨-, rfl⟩ | ⟨hopen, -, rfl⟩ | ⟨hopen, -, next, -, rfl⟩
    · exact Accounts.refl _
    · have hcounts := Renames.nameCounts_setFieldName hopen.1 (some field.descriptor) valuesName
      constructor <;> simp only [setField, note, hcounts]
      omega
    · have hcounts := Renames.nameCounts_setFieldName hopen.1 (some field.descriptor)
        (numberedName settings.fieldPrefix p.nextMember field.name)
      constructor <;> simp only [setField, note, hcounts]
      omega
  | method source method =>
    rcases defineMethod_cases h with ⟨-, rfl⟩ | ⟨hopen, next, -, rfl⟩
    · exact .of_nameCounts rfl rfl rfl
    · have hcounts := Renames.nameCounts_setMethodName hopen.2.1
        (numberedName settings.methodPrefix p.nextMember method.name)
      constructor <;> simp only [setMethod, note, noteAsked, hcounts]
      omega

theorem propagateMethod_accounts (hierarchy : Hierarchy) (source : SourceClass) (p : Progress)
    (method : SourceMember) : Accounts p (propagateMethod hierarchy source p method) := by
  obtain ⟨asked, ⟨-, heq⟩ | ⟨hmay, newName, -, heq⟩⟩ :=
    propagateMethod_cases hierarchy source p method
  · rw [heq]
    exact .of_nameCounts rfl rfl rfl
  · have hcounts := Renames.nameCounts_setMethodName hmay.2 newName
    rw [heq]
    constructor <;> simp only [setInherited, note, noteAsked, hcounts]
    omega

/-! ## Numbers of members -/

/-- From one state to the other, these are the fields that got the fixed name of the array of
    constants: each of them had no name and is declared as such an array. -/
structure NamesArrays (settings : Settings) (classes : List SourceClass) (p q : Progress)
    (arrays : List (String × String)) : Prop where
  nodup : arrays.Nodup
  mem_iff : ∀ {owner name}, (owner, name) ∈ arrays ↔
    p.renames.fieldName? owner name = none ∧
      q.renames.fieldName? owner name = some valuesName
  declared : ∀ {owner name}, (owner, name) ∈ arrays → settings.mapSyntheticValues = true ∧
    ∃ source ∈ classes, source.name = owner ∧
      ∃ field ∈ source.fields, field.name = name ∧ source.KeepsConstantsIn field

/-- From one state to the other, no field has lost its name, and the counter of members has gone
    on for each field and method that the definitions have named, but for the arrays. -/
structure AccountsMembers (settings : Settings) (classes : List SourceClass)
    (p q : Progress) : Prop where
  keeps : ∀ {owner name newName}, p.renames.fieldName? owner name = some newName →
    q.renames.fieldName? owner name = some newName
  account : ∃ arrays, NamesArrays settings classes p q arrays ∧
    q.nextMember + arrays.length + (p.tally.namedFields + p.tally.namedMethods) =
      p.nextMember + (q.tally.namedFields + q.tally.namedMethods)

section Members

variable {settings : Settings} {classes : List SourceClass} {p q r : Progress}

theorem NamesArrays.trans {arrays others : List (String × String)}
    (hpq : NamesArrays settings classes p q arrays) (hqr : NamesArrays settings classes q r others)
    (hfirst : ∀ {owner name newName}, p.renames.fieldName? owner name = some newName →
      q.renames.fieldName? owner name = some newName)
    (hsecond : ∀ {owner name newName}, q.renames.fieldName? owner name = some newName →
      r.renames.fieldName? owner name = some newName) :
    NamesArrays settings classes p r (arrays ++ others) where
  nodup := by
    -- A field of the first list has a name when the second one begins.
    refine List.nodup_append.mpr ⟨hpq.nodup, hqr.nodup, ?_⟩
    rintro ⟨owner, name⟩ hmem other hother rfl
    have hnamed := (hpq.mem_iff.mp hmem).2
    rw [(hqr.mem_iff.mp hother).1] at hnamed
    cases hnamed
  mem_iff := by
    intro owner name
    rw [List.mem_append, hpq.mem_iff, hqr.mem_iff]
    constructor
    · rintro (⟨hnone, hnamed⟩ | ⟨hnone, hnamed⟩)
      · exact ⟨hnone, hsecond hnamed⟩
      · refine ⟨?_, hnamed⟩
        cases hbefore : p.renames.fieldName? owner name with
        | none => rfl
        | some newName =>
          rw [hfirst hbefore] at hnone
          cases hnone
    · rintro ⟨hnone, hnamed⟩
      cases hbetween : q.renames.fieldName? owner name with
      | none => exact Or.inr ⟨rfl, hnamed⟩
      | some newName =>
        rw [hsecond hbetween] at hnamed
        exact Or.inl ⟨hnone, hnamed⟩
  declared h := (List.mem_append.mp h).elim hpq.declared hqr.declared

namespace AccountsMembers

theorem trans (hpq : AccountsMembers settings classes p q)
    (hqr : AccountsMembers settings classes q r) : AccountsMembers settings classes p r where
  keeps h := hqr.keeps (hpq.keeps h)
  account := by
    obtain ⟨arrays, harrays, hcount⟩ := hpq.account
    obtain ⟨others, hothers, hcount'⟩ := hqr.account
    refine ⟨arrays ++ others, harrays.trans hothers hpq.keeps hqr.keeps, ?_⟩
    rw [List.length_append]
    omega

/-- A step after which the same fields, if any, are named the array of constants. -/
theorem of_valuesName_iff
    (hkeeps : ∀ {owner name newName}, p.renames.fieldName? owner name = some newName →
      q.renames.fieldName? owner name = some newName)
    (hvalues : ∀ {owner name}, q.renames.fieldName? owner name = some valuesName →
      p.renames.fieldName? owner name = some valuesName)
    (hcount : q.nextMember + (p.tally.namedFields + p.tally.namedMethods) =
      p.nextMember + (q.tally.namedFields + q.tally.namedMethods)) :
    AccountsMembers settings classes p q where
  keeps := hkeeps
  account := by
    refine ⟨[], ⟨List.nodup_nil, ?_, fun h => absurd h List.not_mem_nil⟩, hcount⟩
    intro owner name
    refine iff_of_false List.not_mem_nil ?_
    rintro ⟨hnone, hnamed⟩
    rw [hvalues hnamed] at hnone
    cases hnone

/-- A step that names no field. -/
theorem of_keepsFieldNames (hnames : KeepsFieldNames p q)
    (hcount : q.nextMember + (p.tally.namedFields + p.tally.namedMethods) =
      p.nextMember + (q.tally.namedFields + q.tally.namedMethods)) :
    AccountsMembers settings classes p q :=
  of_valuesName_iff (fun h => (hnames _ _).trans h) (fun h => (hnames _ _).symm.trans h) hcount

theorem refl (p : Progress) : AccountsMembers settings classes p p :=
  of_keepsFieldNames (KeepsFieldNames.refl p) rfl

end AccountsMembers

theorem setField_keeps {source : SourceClass} {field : SourceMember} {given : String}
    (hnone : p.renames.fieldName? source.name field.name = none)
    (hrenames : q.renames =
      p.renames.setFieldName source.name field.name (some field.descriptor) given)
    {owner name newName : String} (h : p.renames.fieldName? owner name = some newName) :
    q.renames.fieldName? owner name = some newName := by
  rw [hrenames, Renames.fieldName?_setFieldName]
  split_ifs with hkey
  · rw [hkey.1, hkey.2, hnone] at h
    cases h
  · exact h

/-- A field that gets a number does not get the fixed name. -/
theorem setField_numbered {source : SourceClass} {field : SourceMember} {lead : String} {id : Nat}
    (hnone : p.renames.fieldName? source.name field.name = none)
    (hrenames : q.renames = p.renames.setFieldName source.name field.name (some field.descriptor)
      (numberedName lead id field.name))
    (hcount : q.nextMember + (p.tally.namedFields + p.tally.namedMethods) =
      p.nextMember + (q.tally.namedFields + q.tally.namedMethods)) :
    AccountsMembers settings classes p q := by
  refine .of_valuesName_iff (setField_keeps hnone hrenames) ?_ hcount
  intro owner name h
  rw [hrenames, Renames.fieldName?_setFieldName] at h
  split_ifs at h with hkey
  · exact absurd (Option.some.inj h) (numberedName_ne_valuesName lead id field.name)
  · exact h

/-- The array of constants gets the fixed name and no number. -/
theorem setField_array {source : SourceClass} {field : SourceMember} (hsource : source ∈ classes)
    (hfield : field ∈ source.fields) (hflag : settings.mapSyntheticValues = true)
    (harray : source.KeepsConstantsIn field)
    (hnone : p.renames.fieldName? source.name field.name = none)
    (hrenames : q.renames =
      p.renames.setFieldName source.name field.name (some field.descriptor) valuesName)
    (hcount : q.nextMember + 1 + (p.tally.namedFields + p.tally.namedMethods) =
      p.nextMember + (q.tally.namedFields + q.tally.namedMethods)) :
    AccountsMembers settings classes p q where
  keeps := setField_keeps hnone hrenames
  account := by
    refine ⟨[(source.name, field.name)], ⟨List.nodup_singleton _, ?_, ?_⟩, hcount⟩
    · intro owner name
      rw [List.mem_singleton, Prod.mk.injEq, hrenames, Renames.fieldName?_setFieldName]
      split_ifs with hkey
      · obtain ⟨rfl, rfl⟩ := hkey
        exact iff_of_true ⟨rfl, rfl⟩ ⟨hnone, rfl⟩
      · refine iff_of_false hkey ?_
        rintro ⟨hunnamed, hnamed⟩
        rw [hunnamed] at hnamed
        cases hnamed
    · intro owner name hmem
      obtain ⟨rfl, rfl⟩ := Prod.mk.inj (List.mem_singleton.mp hmem)
      exact ⟨hflag, source, hsource, rfl, field, hfield, rfl, harray⟩

theorem nameClass_accountsMembers {conventions : Conventions} {naming : ClassNaming}
    {source : SourceClass} (h : nameClass conventions naming p source = some q) :
    AccountsMembers settings classes p q := by
  refine .of_keepsFieldNames (nameClass_keepsFieldNames h) ?_
  rcases nameClass_cases h with ⟨-, rfl⟩ | ⟨-, id, -, rfl⟩ <;> rfl

theorem defineSlot_accountsMembers {hierarchy : Hierarchy} {slot : Slot}
    (hslot : slot ∈ slots .standard settings classes)
    (h : defineSlot .standard hierarchy settings p slot = some q) :
    AccountsMembers settings classes p q := by
  cases slot with
  | field source field =>
    obtain ⟨-, hsource, hfield⟩ := mem_slots_field.mp hslot
    rcases defineField_cases h with
      ⟨-, rfl⟩ | ⟨hopen, hvalues, rfl⟩ | ⟨hopen, -, next, hnext, rfl⟩
    · exact AccountsMembers.refl _
    · obtain ⟨hflag, harray⟩ := Bool.and_eq_true_iff.mp hvalues
      refine setField_array hsource hfield hflag (isValuesArray_iff.mp harray) hopen.1 rfl ?_
      simp only [setField, note]
      omega
    · obtain ⟨-, rfl⟩ := advance32_eq_some hnext
      refine setField_numbered hopen.1 rfl ?_
      simp only [setField, note]
      omega
  | method source method =>
    rcases defineMethod_cases h with ⟨-, rfl⟩ | ⟨-, next, hnext, rfl⟩
    · exact .of_keepsFieldNames (KeepsFieldNames.refl p) rfl
    · obtain ⟨-, rfl⟩ := advance32_eq_some hnext
      refine .of_keepsFieldNames (KeepsFieldNames.setMethodName (p := p) rfl) ?_
      simp only [setMethod, note, noteAsked]
      omega

theorem propagateMethod_accountsMembers (hierarchy : Hierarchy) (source : SourceClass)
    (p : Progress) (method : SourceMember) :
    AccountsMembers settings classes p (propagateMethod hierarchy source p method) := by
  obtain ⟨asked, ⟨-, heq⟩ | ⟨-, newName, -, heq⟩⟩ :=
    propagateMethod_cases hierarchy source p method
  · rw [heq]
    exact .of_keepsFieldNames (KeepsFieldNames.refl p) rfl
  · rw [heq]
    exact .of_keepsFieldNames (KeepsFieldNames.setMethodName rfl) rfl

end Members

/-! ## Passes before the definitions -/

/-- Nothing but fields has been named, and nothing but rules has been counted. -/
structure RulesOnly (p q : Progress) : Prop where
  classes : q.renames.nameCounts.classes = p.renames.nameCounts.classes
  methods : q.renames.nameCounts.methods = p.renames.nameCounts.methods
  tally : q.tally = { p.tally with ruleFields := q.tally.ruleFields }

theorem RulesOnly.refl (p : Progress) : RulesOnly p p := ⟨rfl, rfl, rfl⟩

theorem RulesOnly.trans {p q r : Progress} (hpq : RulesOnly p q) (hqr : RulesOnly q r) :
    RulesOnly p r where
  classes := hqr.classes.trans hpq.classes
  methods := hqr.methods.trans hpq.methods
  tally := by rw [hqr.tally, hpq.tally]

theorem applyRules_rulesOnly (rules : List FieldRule) (source : SourceClass) (p : Progress)
    (field : SourceMember) : RulesOnly p (applyRules rules source p field) := by
  unfold applyRules
  split
  · next rule _ =>
    have hcounts := p.renames.nameCounts_editField source.name field.name
      (some field.descriptor) fun entry => { entry with newName := some rule.name }
    have hclasses := congrArg NameCounts.classes hcounts
    have hmethods := congrArg NameCounts.methods hcounts
    exact ⟨hclasses, hmethods, rfl⟩
  · exact RulesOnly.refl p

theorem rulesPass_rulesOnly (settings : Settings) (classes : List SourceClass) (p : Progress) :
    RulesOnly p (rulesPass settings classes p) :=
  rulesPass_rel RulesOnly.refl RulesOnly.trans
    (fun q source _ field _ => applyRules_rulesOnly _ source q field) p

theorem constantsPass_accounts (settings : Settings) (classes : List SourceClass)
    (p : Progress) : Accounts p (constantsPass settings classes p) :=
  constantsPass_rel Accounts.refl Accounts.trans
    (fun _ q source _ _ _ _ _ => bindConstant_accounts source.name q _ _)
    (fun _ _ _ _ => .of_nameCounts rfl rfl rfl) p

/-- Recovering constants is counted apart from the definitions. -/
theorem constantsPass_definitions (settings : Settings) (classes : List SourceClass)
    (p : Progress) :
    (constantsPass settings classes p).tally.namedFields = p.tally.namedFields ∧
      (constantsPass settings classes p).tally.namedMethods = p.tally.namedMethods := by
  refine constantsPass_rel (R := fun p q => q.tally.namedFields = p.tally.namedFields ∧
    q.tally.namedMethods = p.tally.namedMethods) (fun _ => ⟨rfl, rfl⟩)
    (fun hpq hqr => ⟨hqr.1.trans hpq.1, hqr.2.trans hpq.2⟩) ?_ (fun _ _ _ _ => ⟨rfl, rfl⟩) p
  intro _ q source _ bindings _ binding _
  rcases bindConstant_cases source.name q binding.1 binding.2 with ⟨-, heq⟩ | ⟨-, heq⟩
  · exact heq ▸ ⟨rfl, rfl⟩
  · exact heq ▸ ⟨rfl, rfl⟩

end Progress

/-! ## Runs -/

namespace FinishedRun

open Progress (Accounts AccountsMembers NamesArrays)

/-- What has been done when the field rules have been applied. -/
def ruled (run : FinishedRun) : Progress :=
  Progress.rulesPass run.settings run.ordered (Progress.start run.settings run.before)

theorem ruled_accounts (run : FinishedRun) : Accounts run.ruled run.after := by
  obtain ⟨named, defined, hnamed, hdefined, hafter⟩ := run.passes
  have hrecovered : Accounts run.ruled run.recovered := Progress.constantsPass_accounts _ _ _
  have hclasses : Accounts run.recovered named :=
    Progress.classesPass_rel Accounts.refl Accounts.trans
      (fun _ _ _ _ _ _ => Progress.nameClass_accounts) hnamed
  have hmembers : Accounts named defined :=
    Progress.definitionPass_rel Accounts.refl Accounts.trans
      (fun _ _ _ _ => Progress.defineSlot_accounts)
      (fun _ _ _ _ => .of_nameCounts rfl rfl rfl) hdefined
  have hlast : Accounts defined run.after := by
    rw [hafter]
    exact Progress.propagationPass_rel Accounts.refl Accounts.trans
      (fun q source _ method _ => Progress.propagateMethod_accounts _ source q method)
      (fun _ _ => .of_nameCounts rfl rfl rfl) _
  exact ((hrecovered.trans hclasses).trans hmembers).trans hlast

theorem recovered_accountsMembers (run : FinishedRun) :
    AccountsMembers run.settings run.ordered run.recovered run.after := by
  obtain ⟨named, defined, hnamed, hdefined, hafter⟩ := run.passes
  have hclasses : AccountsMembers run.settings run.ordered run.recovered named :=
    Progress.classesPass_rel AccountsMembers.refl AccountsMembers.trans
      (fun _ _ _ _ _ _ => Progress.nameClass_accountsMembers) hnamed
  have hmembers : AccountsMembers run.settings run.ordered named defined :=
    Progress.definitionPass_rel AccountsMembers.refl AccountsMembers.trans
      (fun _ _ _ hslot => Progress.defineSlot_accountsMembers hslot)
      (fun q _ _ _ => .of_keepsFieldNames (Progress.KeepsFieldNames.refl q) rfl) hdefined
  have hlast : AccountsMembers run.settings run.ordered defined run.after := by
    rw [hafter]
    exact Progress.propagationPass_rel AccountsMembers.refl AccountsMembers.trans
      (fun q source _ method _ => Progress.propagateMethod_accountsMembers _ source q method)
      (fun q _ => .of_keepsFieldNames (Progress.KeepsFieldNames.refl q) rfl) _
  exact (hclasses.trans hmembers).trans hlast

theorem ruled_rulesOnly (run : FinishedRun) :
    Progress.RulesOnly (Progress.start run.settings run.before) run.ruled :=
  Progress.rulesPass_rulesOnly _ _ _

/-- Rules are all that is counted when they end. -/
theorem ruled_tally (run : FinishedRun) :
    run.ruled.tally = { ruleFields := run.ruled.tally.ruleFields } :=
  run.ruled_rulesOnly.tally

/-- The definitions begin with nothing counted. -/
theorem recovered_definitions (run : FinishedRun) :
    run.recovered.tally.namedFields = 0 ∧ run.recovered.tally.namedMethods = 0 := by
  have hsame := Progress.constantsPass_definitions run.settings run.ordered run.ruled
  rwa [run.ruled_tally] at hsame

/-- The counters of a run that ended fit into 32 bits. -/
theorem toNat_outcome (run : FinishedRun) :
    run.after.outcome.nextMember.toNat = run.after.nextMember ∧
      run.after.outcome.nextClass.toNat = run.after.nextClass := by
  obtain ⟨ideal, -, hchecked⟩ :=
    Progress.run_checked run.hierarchy run.settings run.classes run.before
  have hended := hchecked.symm.trans run.ended
  split_ifs at hended with hfits
  obtain rfl := Option.some.inj hended
  exact ⟨toNat_ofNat_of_le hfits.1, toNat_ofNat_of_le hfits.2⟩

/-- The tallies of a run account for all names that it has given. As many more classes have a
    name as are tallied, which is how far the counter of classes has gone on, and as many more
    methods. The fields with a name are those that had one when the rules ended and those that
    are tallied. The counter of members has gone on for every field and method that the
    definitions have named but for the arrays of constants. -/
theorem tallies_account (run : FinishedRun) :
    let counts := run.after.renames.nameCounts
    let outcome := run.after.outcome
    counts.classes = run.before.nameCounts.classes + outcome.tally.namedClasses ∧
    outcome.nextClass.toNat = run.settings.nextClass.toNat + outcome.tally.namedClasses ∧
    counts.methods = run.before.nameCounts.methods +
      (outcome.tally.namedMethods + outcome.tally.propagatedMethods) ∧
    counts.fields = run.ruled.renames.nameCounts.fields +
      (outcome.tally.recoveredConstants + outcome.tally.namedFields) ∧
    ∃ arrays, NamesArrays run.settings run.ordered run.recovered run.after arrays ∧
      outcome.nextMember.toNat + arrays.length =
        run.settings.nextMember.toNat + (outcome.tally.namedFields + outcome.tally.namedMethods) := by
  intro counts outcome
  have hrules := run.ruled_rulesOnly
  have hclasses : run.ruled.renames.nameCounts.classes = run.before.nameCounts.classes :=
    hrules.classes
  have hmethods : run.ruled.renames.nameCounts.methods = run.before.nameCounts.methods :=
    hrules.methods
  have hnextClass : run.ruled.nextClass = run.settings.nextClass.toNat :=
    (Progress.rulesPass_keepsNumbers run.settings run.ordered
      (Progress.start run.settings run.before)).2.next
  have hnextMember : run.recovered.nextMember = run.settings.nextMember.toNat :=
    run.recovered_keepsNumbers.1.next
  have haccounts := run.ruled_accounts
  obtain ⟨arrays, harrays, hcount⟩ := run.recovered_accountsMembers.account
  obtain ⟨hmember, hclass⟩ := run.toNat_outcome
  refine ⟨?_, ?_, ?_, ?_, arrays, harrays, ?_⟩
  · have h := haccounts.classes
    rwa [run.ruled_tally, hclasses] at h
  · have h := haccounts.nextClass
    rw [run.ruled_tally, hnextClass] at h
    exact hclass.trans h
  · have h := haccounts.methods
    rwa [run.ruled_tally, hmethods] at h
  · have h := haccounts.fields
    rwa [run.ruled_tally] at h
  · rw [hmember]
    rw [hnextMember, run.recovered_definitions.1, run.recovered_definitions.2] at hcount
    exact hcount

/-- An enumeration with two fields of the same name, beside a constant and the array of its
    constants. -/
def sharedEnum : SourceClass :=
  SourceClass.new "e" (some "java/lang/Enum")
    |>.addField 0x4019 "a" "Le;"
    |>.addField 0x101a "b" "[Le;"
    |>.addField 0 "c" "I"
    |>.addField 0 "c" "J"
    |>.setStaticInit [.new "e", .loadString "RED", EnumConstants.store "e" "a"]

/-- Classes and fields are named. -/
def sharedSettings : Settings := { classes := some {}, mapMethods := false, nextMember := 7 }

theorem sharedEnum_ordered :
    Progress.classesInOrder .standard sharedSettings [sharedEnum, sharedEnum] =
      [sharedEnum, sharedEnum] :=
  Progress.classesInOrder_eq_self (by decide) (by decide +kernel)

theorem sharedEnum_slots :
    Progress.slots .standard sharedSettings [sharedEnum, sharedEnum] =
      [sharedEnum, sharedEnum].flatMap fun source => source.fields.map (.field source) :=
  (Progress.slots_eq_declared (by decide +kernel)).trans rfl

/-- The enumeration is listed twice, and the second time there is nothing left to name. Of the
    fields with the same name the first gets the number, and the array of constants gets none. -/
theorem tallies_account_shared :
    ∃ run : FinishedRun, run.classes = [sharedEnum, sharedEnum] ∧ run.before = {} ∧
      run.after.outcome.tally =
        { recoveredConstants := 1, namedClasses := 1, namedFields := 2 } ∧
      run.after.renames.nameCounts = ⟨1, 3, 0⟩ ∧ run.after.outcome.nextMember.toNat = 8 ∧
      ∃ arrays, NamesArrays run.settings run.ordered run.recovered run.after arrays ∧
        arrays.length = 1 := by
  have hrun : (synthesizeWith Hierarchy.empty sharedSettings [sharedEnum, sharedEnum] {}).map
      (fun p => (p.outcome.tally, p.outcome.nextMember)) =
      some ({ recoveredConstants := 1, namedClasses := 1, namedFields := 2 }, 8) := by
    unfold synthesizeWith Progress.run
    simp only [sharedEnum_ordered, Progress.definitionPass, Progress.foldlM_defineClass_eq,
      sharedEnum_slots]
    decide +kernel
  obtain ⟨after, hafter, hresult⟩ := Option.map_eq_some_iff.mp hrun
  obtain ⟨htally, hnext⟩ := Prod.mk.inj hresult
  let run : FinishedRun := ⟨_, _, _, _, after, hafter⟩
  have hruled : run.ruled.renames = {} := by
    have hordered : run.ordered = [sharedEnum, sharedEnum] := sharedEnum_ordered
    rw [ruled, hordered]
    rfl
  obtain ⟨hclasses, -, hmethods, hfields, arrays, harrays, hcount⟩ := run.tallies_account
  have houtcome : run.after.outcome.tally =
      { recoveredConstants := 1, namedClasses := 1, namedFields := 2 } := htally
  have hmember : run.after.outcome.nextMember.toNat = 8 := congrArg UInt32.toNat hnext
  rw [houtcome] at hclasses hmethods hfields hcount
  rw [hmember] at hcount
  rw [hruled] at hfields
  refine ⟨run, rfl, rfl, houtcome, ?_, hmember, arrays, harrays, ?_⟩
  · exact NameCounts.mk.injEq .. ▸ ⟨hclasses, hfields, hmethods⟩
  · have hstart : 8 + arrays.length = 7 + 2 := hcount
    omega

end FinishedRun

end Nomenclator

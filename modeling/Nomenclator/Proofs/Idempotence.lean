import Nomenclator.Proofs.BuiltHierarchy
import Nomenclator.Proofs.Settled

/-!
# A second run changes nothing

Results:
* `rulesPass_quiet`, …, `propagationPass_quiet`: over settled renames each pass leaves
  the renames, both counters and all tallies but that of the rules alone.
* `synthesizeWith_idempotent`: a run after a run over the same classes does nothing,
  whatever its counters.
-/

namespace Nomenclator

namespace Progress

open Renames (RenamesFields)

/-! ## Quiet passes -/

/-- Neither counter and none of the tallies has changed, except for that of the
    rules. -/
structure SameCounts (p q : Progress) : Prop where
  nextMember : q.nextMember = p.nextMember
  nextClass : q.nextClass = p.nextClass
  tally : q.tally = { p.tally with ruleFields := q.tally.ruleFields }

theorem SameCounts.refl (p : Progress) : SameCounts p p := ⟨rfl, rfl, rfl⟩

theorem SameCounts.trans {p q r : Progress} (hpq : SameCounts p q) (hqr : SameCounts q r) :
    SameCounts p r where
  nextMember := hqr.nextMember.trans hpq.nextMember
  nextClass := hqr.nextClass.trans hpq.nextClass
  tally := by
    have h := hqr.tally
    rw [hpq.tally] at h
    exact h

/-- Nothing that a run leaves to the next one has changed, and nothing was named
    except by rules. -/
structure Quiet (p q : Progress) : Prop where
  renames : q.renames = p.renames
  counts : SameCounts p q

theorem Quiet.refl (p : Progress) : Quiet p p := ⟨rfl, SameCounts.refl p⟩

theorem Quiet.trans {p q r : Progress} (hpq : Quiet p q) (hqr : Quiet q r) : Quiet p r :=
  ⟨hqr.renames.trans hpq.renames, hpq.counts.trans hqr.counts⟩

theorem Quiet.note (p : Progress) (event : Event) : Quiet p (p.note event) :=
  ⟨rfl, ⟨rfl, rfl, rfl⟩⟩

theorem Quiet.noteAsked (p : Progress) (names : List String) : Quiet p (p.noteAsked names) :=
  ⟨rfl, ⟨rfl, rfl, rfl⟩⟩

section Passes

variable {conventions : Conventions} {hierarchy : Hierarchy} {settings : Settings}
  {classes : List SourceClass} {p : Progress}
  (h : Settled conventions hierarchy settings classes p.renames)

include h

/-- Rules may replace names on the way, but in the end each field has the name that
    the last of them gave it before. -/
theorem rulesPass_quiet : Quiet p (rulesPass settings classes p) := by
  have hfields : RenamesFields p.renames (rulesPass settings classes p).renames := by
    refine rulesPass_rel (R := fun q r => RenamesFields p.renames q.renames →
      RenamesFields p.renames r.renames) (fun _ => id) (fun hpq hqr => hqr ∘ hpq) ?_ p
      (RenamesFields.refl _)
    intro q source hsource field hfield hq
    unfold applyRules
    split
    · next rule hrule =>
      have hgiven : (ruleName? settings.fieldRules (declaredFields classes) source.name
          field.name).isSome :=
        isSome_ruleName? (mem_declaredFields.mpr ⟨hsource, hfield⟩)
          (Option.isSome_of_eq_some hrule)
      obtain ⟨newName, hnewName⟩ := Option.isSome_iff_exists.mp hgiven
      have hdescriptor := (h.ruled _ _ _ hnewName).2.descriptor
      rw [← hq.fieldDescriptor] at hdescriptor
      exact hq.trans (RenamesFields.setFieldName _ _ hdescriptor)
    · exact hq
  refine ⟨hfields.eq_of_fieldName fun owner field => ?_, ?_⟩
  · rw [fieldName?_rulesPass]
    cases hrule : ruleName? settings.fieldRules (declaredFields classes) owner field with
    | none => rfl
    | some newName => exact (h.ruled owner field newName hrule).1.symm
  · apply rulesPass_rel SameCounts.refl SameCounts.trans
    intro q source _ field _
    unfold applyRules
    split
    · exact ⟨rfl, rfl, rfl⟩
    · exact SameCounts.refl q

theorem constantsPass_quiet : Quiet p (constantsPass settings classes p) := by
  refine constantsPass_rel (R := fun q r => q.renames = p.renames → Quiet q r)
    (fun q _ => Quiet.refl q)
    (fun hpq hqr hp => (hpq hp).trans (hqr ((hpq hp).renames.trans hp))) ?_ ?_ p rfl
  · intro hrecover q source hsource bindings hbindings binding hbinding hq
    have hcomplete := h.constants hrecover source hsource bindings hbindings binding hbinding
    rw [← hq] at hcomplete
    rcases bindConstant_cases source.name q binding.1 binding.2 with ⟨-, heq⟩ | ⟨hnone, -⟩
    · rw [heq]
      exact ⟨Renames.enterField_eq_self _ hcomplete.descriptor, ⟨rfl, rfl, rfl⟩⟩
    · have hname := hcomplete.name
      rw [hnone] at hname
      cases hname
  · exact fun q source _ cause _ => Quiet.note q _

theorem classesPass_quiet :
    ∃ p', classesPass conventions settings classes p = some p' ∧ Quiet p p' := by
  unfold classesPass
  cases hclasses : settings.classes with
  | none => exact ⟨p, rfl, Quiet.refl p⟩
  | some naming =>
    apply foldlM_exists_rel Quiet.refl Quiet.trans
    intro q hq source hsource
    have hname := h.classNames (Option.isSome_of_eq_some hclasses) source hsource
    rw [← hq.renames] at hname
    exact ⟨q, if_pos hname, Quiet.refl q⟩

theorem definitionPass_quiet :
    ∃ p', definitionPass conventions hierarchy settings classes p = some p' ∧ Quiet p p' := by
  obtain ⟨q, hq, hquiet⟩ := foldlM_exists_rel Quiet.refl Quiet.trans
    (f := defineSlot conventions hierarchy settings) (l := slots conventions settings classes)
    (p := p) (by
      intro q hq slot hslot
      have hclosed := h.members slot hslot
      rw [← hq.renames] at hclosed
      cases slot with
      | field source field =>
        exact ⟨q, defineField_of_not_open conventions hclosed, Quiet.refl q⟩
      | method source method =>
        exact ⟨_, defineMethod_of_not_open conventions hclosed, Quiet.noteAsked q _⟩)
  unfold definitionPass
  rw [foldlM_defineClass_eq, hq]
  exact ⟨_, rfl, hquiet.trans (Quiet.note q _)⟩

theorem propagationPass_quiet : Quiet p (propagationPass hierarchy settings classes p) := by
  unfold propagationPass
  split_ifs with hmethods
  · have hfold : Quiet p (classes.foldl (propagateClass hierarchy) p) := by
      refine foldl_propagateClass_rel (R := fun q r => q.renames = p.renames → Quiet q r)
        (fun q _ => Quiet.refl q)
        (fun hpq hqr hp => (hpq hp).trans (hqr ((hpq hp).renames.trans hp))) ?_ p rfl
      intro q source hsource method hmethod hq
      obtain ⟨asked, ⟨-, heq⟩ | ⟨hmay, newName, hfound, -⟩⟩ :=
        propagateMethod_cases hierarchy source q method
      · rw [heq]
        exact Quiet.noteAsked q asked
      · rw [hq] at hmay hfound
        rw [h.overriding hmethods source hsource method hmethod hmay] at hfound
        cases hfound
    exact hfold.trans (Quiet.note _ _)
  · exact Quiet.note p _

end Passes

theorem Settled.of_quiet {conventions : Conventions} {hierarchy : Hierarchy}
    {settings : Settings} {classes : List SourceClass} {p q : Progress}
    (h : Settled conventions hierarchy settings classes p.renames) (hquiet : Quiet p q) :
    Settled conventions hierarchy settings classes q.renames := by
  rw [hquiet.renames]
  exact h

/-- Over settled renames a run ends and does nothing. -/
theorem run_quiet {conventions : Conventions} {hierarchy : Hierarchy} {settings : Settings}
    {classes : List SourceClass} {renames : Renames}
    (h : Settled conventions hierarchy settings (classesInOrder conventions settings classes)
      (start settings renames).renames) :
    ∃ p, run conventions hierarchy settings classes renames = some p ∧
      Quiet (start settings renames) p := by
  have hruled := rulesPass_quiet h
  have hrecovered := hruled.trans (constantsPass_quiet (h.of_quiet hruled))
  obtain ⟨named, hnamed, hclasses⟩ := classesPass_quiet (h.of_quiet hrecovered)
  obtain ⟨defined, hdefined, hmembers⟩ :=
    definitionPass_quiet (h.of_quiet (hrecovered.trans hclasses))
  have hbefore := (hrecovered.trans hclasses).trans hmembers
  exact ⟨_, run_eq_some_iff.mpr ⟨named, defined, hnamed, hdefined, rfl⟩,
    hbefore.trans (propagationPass_quiet (h.of_quiet hbefore))⟩

/-- What is settled does not depend on the counters. -/
theorem Settled.withCounters {conventions : Conventions} {hierarchy : Hierarchy}
    {settings : Settings} {classes : List SourceClass} {renames : Renames}
    (h : Settled conventions hierarchy settings classes renames) (nextMember nextClass : UInt32) :
    Settled conventions hierarchy { settings with nextMember, nextClass } classes renames where
  ruled := h.ruled
  constants := h.constants
  classNames := h.classNames
  members := by
    intro slot hslot hopen
    refine h.members slot hslot ?_
    cases slot with
    | field source field => exact hopen
    | method source method => exact hopen
  overriding := h.overriding

end Progress

/-- A second run over the same classes, with the counters set to any values, ends. It
    leaves the renames and its counters as they are and names nothing except by
    rules, which give the names they gave before. -/
theorem synthesizeWith_idempotent {hierarchy : Hierarchy} {settings : Settings}
    {classes : List SourceClass} {before : Renames} {first : Progress}
    (hdescribes : hierarchy.Describes classes)
    (h : synthesizeWith hierarchy settings classes before = some first)
    (nextMember nextClass : UInt32) :
    ∃ second,
      synthesizeWith hierarchy { settings with nextMember, nextClass } classes first.renames =
        some second ∧
      second.renames = first.renames ∧
      second.outcome.nextMember = nextMember ∧ second.outcome.nextClass = nextClass ∧
      second.outcome.tally.namedClasses = 0 ∧ second.outcome.tally.recoveredConstants = 0 ∧
      second.outcome.tally.namedFields = 0 ∧ second.outcome.tally.namedMethods = 0 ∧
      second.outcome.tally.propagatedMethods = 0 := by
  have hordered : hierarchy.Describes (Progress.classesInOrder .standard settings classes) :=
    hdescribes.mono fun source hsource => (Progress.mem_classesInOrder.mp hsource).1
  have hsettled := (Progress.run_settled hordered h).withCounters nextMember nextClass
  obtain ⟨second, hsecond, hquiet⟩ := Progress.run_quiet hsettled
  refine ⟨second, hsecond, hquiet.renames, ?_⟩
  rw [Progress.outcome, hquiet.counts.nextMember, hquiet.counts.nextClass, hquiet.counts.tally]
  simp [Progress.start]

/-- Two classes that extend each other and share a method. -/
def mutualClasses : List SourceClass :=
  [((SourceClass.new "a" (some "b")).addField 0 "f" "I").addMethod 0 "m" "()V",
    (SourceClass.new "b" (some "a")).addMethod 0 "m" "()V"]

theorem synthesizeWith_idempotent_mutual :
    ∃ first second, synthesize {} mutualClasses {} = some first ∧
      synthesize { nextMember := 7 } mutualClasses first.renames = some second ∧
      second.renames = first.renames ∧ second.outcome.nextMember = 7 := by
  have hdescribes : (hierarchyOf mutualClasses).Describes mutualClasses :=
    describes_hierarchyOf (by decide) (by decide)
  obtain ⟨first, hfirst⟩ := Progress.run_ends (hierarchyOf mutualClasses) {} mutualClasses {}
    (by decide) (by decide)
  obtain ⟨second, hsecond, hrenames, hnext, -⟩ := synthesizeWith_idempotent hdescribes hfirst 7 0
  exact ⟨first, second, hfirst, hsecond, hrenames, hnext⟩

end Nomenclator

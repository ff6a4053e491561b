import Nomenclator.Proofs.OverrideConsistency

/-!
# Which methods runs can name

Two passes name methods. One numbers the methods that classes define, the other copies the
name of a method onto those that override it. So a run names only methods that satisfy a
condition if all definitions do and if a method that takes a name does, provided that the
names before the run satisfied it. Methods that are protected by their own name are a case of
this: none is numbered, and an overriding method takes only the name of a method with the same
name and descriptor.

Results:
* `defineSlot_namesOnly`, `propagateMethod_namesOnly`: what one step keeps.
* `run_namesOnly`: what a run keeps.
* `isProtected_iff`: the methods that are protected by their own name.
* `protected_never_named`: no chain of runs names one of them.
-/

namespace Nomenclator

open Relation (ReflTransGen)

/-- Only methods that are allowed to have names have them. -/
def Renames.NamesOnly (allowed : String → MethodKey → Prop) (renames : Renames) : Prop :=
  ∀ owner key, (renames.methodName? owner key).isSome → allowed owner key

theorem Renames.NamesOnly.setMethodName {allowed : String → MethodKey → Prop} {renames : Renames}
    (h : renames.NamesOnly allowed) {owner : String} {key : MethodKey}
    (hallowed : allowed owner key) (newName : String) :
    (renames.setMethodName owner key newName).NamesOnly allowed := by
  intro other otherKey hnamed
  rw [methodName?_setMethodName] at hnamed
  split_ifs at hnamed with hset
  · rw [hset.1, hset.2]
    exact hallowed
  · exact h other otherKey hnamed

namespace Progress

open Renames (NamesOnly)

variable {hierarchy : Hierarchy} {settings : Settings} {classes : List SourceClass}
  {allowed : String → MethodKey → Prop}

theorem KeepsMethodNames.namesOnly {p q : Progress} (hkeeps : KeepsMethodNames p q)
    (h : p.renames.NamesOnly allowed) : q.renames.NamesOnly allowed := by
  intro owner key hnamed
  rw [hkeeps owner key] at hnamed
  exact h owner key hnamed

/-- A run names no method that is not allowed: definitions are allowed, and so is a method that
    takes the name of another while only allowed methods have names. -/
structure Admits (hierarchy : Hierarchy) (settings : Settings) (classes : List SourceClass)
    (allowed : String → MethodKey → Prop) : Prop where
  defines : ∀ owner key, settings.mapMethods = true →
    Defines hierarchy settings classes owner key → allowed owner key
  inherits : ∀ renames : Renames, renames.NamesOnly allowed → settings.mapMethods = true →
    ∀ source ∈ classes, ∀ method ∈ source.methods,
      MethodMayInherit hierarchy source renames method →
      ∀ newName, (findInherited hierarchy renames source method.key).found = some newName →
        allowed source.name method.key

/-! ## Steps and runs -/

theorem defineSlot_namesOnly (hadmits : Admits hierarchy settings classes allowed)
    {p p' : Progress} {slot : Slot}
    (hslot : slot ∈ slots .standard settings (classesInOrder .standard settings classes))
    (hstep : defineSlot .standard hierarchy settings p slot = some p')
    (h : p.renames.NamesOnly allowed) : p'.renames.NamesOnly allowed := by
  cases slot with
  | field source field =>
    rcases defineField_cases hstep with ⟨-, rfl⟩ | ⟨-, -, rfl⟩ | ⟨-, -, next, -, rfl⟩
    · exact h
    · exact (KeepsMethodNames.setFieldName rfl).namesOnly h
    · exact (KeepsMethodNames.setFieldName (p := p) rfl).namesOnly h
  | method source method =>
    rcases defineMethod_cases hstep with ⟨-, rfl⟩ | ⟨hopen, next, -, rfl⟩
    · exact h
    · obtain ⟨hmethods, hsource, hmethod⟩ := mem_slots_method.mp hslot
      obtain ⟨hlisted, hexcludes⟩ := mem_classesInOrder.mp hsource
      exact h.setMethodName (hadmits.defines _ _ hmethods
        ⟨source, hlisted, rfl, hexcludes, hopen.1, method, hmethod, rfl, hopen.2.2⟩) _

theorem propagateMethod_namesOnly (hadmits : Admits hierarchy settings classes allowed)
    (hmethods : settings.mapMethods = true) {source : SourceClass} (hsource : source ∈ classes)
    {method : SourceMember} (hmethod : method ∈ source.methods) (p : Progress)
    (h : p.renames.NamesOnly allowed) :
    (propagateMethod hierarchy source p method).renames.NamesOnly allowed := by
  obtain ⟨asked, ⟨-, heq⟩ | ⟨hmay, newName, hfound, heq⟩⟩ :=
    propagateMethod_cases hierarchy source p method
  · rw [heq]
    exact h
  · rw [heq]
    exact h.setMethodName
      (hadmits.inherits p.renames h hmethods source hsource method hmethod hmay newName hfound) _

/-- A run names only methods that are allowed, if only such methods had names before it. -/
theorem run_namesOnly (hadmits : Admits hierarchy settings classes allowed) {renames : Renames}
    {p : Progress} (h : run .standard hierarchy settings classes renames = some p)
    (hbefore : renames.NamesOnly allowed) : p.renames.NamesOnly allowed := by
  obtain ⟨named, defined, hnamed, hdefined, rfl⟩ := run_eq_some_iff.mp h
  have hstart : named.renames.NamesOnly allowed :=
    (classesPass_keepsMethodNames (p := start settings renames) hnamed).namesOnly hbefore
  have hmiddle : defined.renames.NamesOnly allowed := by
    refine definitionPass_rel (R := fun p q => p.renames.NamesOnly allowed →
      q.renames.NamesOnly allowed) (fun _ => id) (fun hpq hqr => hqr ∘ hpq)
      (fun p p' slot hslot => defineSlot_namesOnly hadmits hslot) ?_ hdefined hstart
    exact fun q _ _ _ hq => hq
  by_cases hmethods : settings.mapMethods = true
  · refine propagationPass_rel (R := fun p q => p.renames.NamesOnly allowed →
      q.renames.NamesOnly allowed) (fun _ => id) (fun hpq hqr => hqr ∘ hpq) ?_
      (fun q _ hq => hq) defined hmiddle
    intro q source hsource method hmethod
    exact propagateMethod_namesOnly hadmits hmethods (mem_classesInOrder.mp hsource).1 hmethod q
  · rw [propagationPass, if_neg hmethods]
    exact hmiddle

end Progress

/-! ## Methods protected by their own name -/

/-- Constructors and initializers in any case of the letters, what compilers make up for
    lambdas and for access to private members, and the method at which programs start. -/
def ProtectedByName (key : MethodKey) : Prop :=
  Text.equalsIgnoringAsciiCase key.name "<init>" = true ∨
  Text.equalsIgnoringAsciiCase key.name "<clinit>" = true ∨
  (∃ rest, key.name = "lambda$" ++ rest) ∨ (∃ rest, key.name = "access$" ++ rest) ∨
  (key.name = "main" ∧ key.descriptor = "([Ljava/lang/String;)V")

theorem Text.startsWith_eq_true_iff {s lead : String} :
    startsWith s lead = true ↔ ∃ rest, s = lead ++ rest := by
  rw [startsWith, List.isPrefixOf_iff_prefix]
  constructor
  · rintro ⟨rest, hrest⟩
    exact ⟨String.ofList rest, String.toList_inj.mp (by simp [hrest])⟩
  · rintro ⟨rest, rfl⟩
    exact ⟨rest.toList, by simp⟩

theorem Progress.isProtected_iff {key : MethodKey} :
    isProtected key = true ↔ ProtectedByName key := by
  obtain ⟨name, descriptor⟩ := key
  simp only [isProtected, ProtectedByName, mainDescriptor, Bool.or_eq_true, decide_eq_true_eq,
    Text.startsWith_eq_true_iff, MethodKey.mk.injEq, or_assoc]

/-- No run numbers a protected method, and a method takes only the name of one with the same
    name and descriptor. -/
theorem Progress.admits_unprotected (hierarchy : Hierarchy) (settings : Settings)
    (classes : List SourceClass) :
    Admits hierarchy settings classes fun _ key => ¬ProtectedByName key where
  defines owner key _ hdefines hprotected := by
    obtain ⟨source, -, -, -, -, method, -, rfl, hkeeps⟩ := hdefines
    rw [keepsMethodName, isProtected_iff.mpr hprotected] at hkeeps
    simp at hkeeps
  inherits renames hnames _ source _ method _ _ newName hfound := by
    obtain ⟨name, -, htest⟩ := Graph.exists_reaches_of_walk_found hfound
    obtain ⟨ancestor, -, hname⟩ := Option.bind_eq_some_iff.mp htest
    exact hnames ancestor.name method.key (Option.isSome_of_eq_some hname)

/-- A run over some classes, with some hierarchy and settings, leads from the one to the
    other. -/
def Renames.RunsTo (before after : Renames) : Prop :=
  ∃ hierarchy settings classes p,
    synthesizeWith hierarchy settings classes before = some p ∧ p.renames = after

/-- If no protected method has a name, none has one after any chain of runs, whatever the
    classes, hierarchies and settings of each. -/
theorem protected_never_named {first last : Renames}
    (hruns : ReflTransGen Renames.RunsTo first last)
    (hfirst : ∀ owner key, ProtectedByName key → first.methodName? owner key = none) :
    ∀ owner key, ProtectedByName key → last.methodName? owner key = none := by
  have hnames : first.NamesOnly fun _ key => ¬ProtectedByName key := by
    intro owner key hnamed hprotected
    rw [hfirst owner key hprotected] at hnamed
    cases hnamed
  have hkept : last.NamesOnly fun _ key => ¬ProtectedByName key := by
    induction hruns with
    | refl => exact hnames
    | tail _ hrun ih =>
      obtain ⟨hierarchy, settings, classes, p, hp, rfl⟩ := hrun
      exact Progress.run_namesOnly (Progress.admits_unprotected hierarchy settings classes) hp ih
  intro owner key hprotected
  rw [← Option.not_isSome_iff_eq_none]
  exact fun hnamed => hkept owner key hnamed hprotected

/-! ### Constructors that look inherited -/

/-- A class and one that extends it, each with a constructor and a method. -/
def constructorClasses : List SourceClass :=
  [((SourceClass.new "a" none).addMethod 1 "<init>" "()V").addMethod 1 "m" "()V",
    ((SourceClass.new "b" (some "a")).addMethod 1 "<init>" "()V").addMethod 1 "m" "()V"]

theorem constructorClasses_ordered :
    Progress.classesInOrder .standard {} constructorClasses = constructorClasses :=
  Progress.classesInOrder_eq_self (by decide) (by decide +kernel)

theorem constructorClasses_slots :
    Progress.slots .standard {} constructorClasses =
      constructorClasses.flatMap fun source => source.methods.map (.method source) :=
  (Progress.slots_eq_declared (by decide +kernel)).trans rfl

/-- The class that extends the other takes the name of its method but not of its constructor,
    also when it is named once more, alone and with other settings. -/
theorem protected_never_named_constructor :
    ∃ first second, synthesizeWith (SourceSet.ofList (constructorClasses.map (·.shape))).hierarchy
        {} constructorClasses {} = some first ∧
      synthesize { methodPrefix := "<" } constructorClasses.tail first.renames = some second ∧
      first.renames.methodName? "b" ⟨"m", "()V"⟩ = some "func_0_m" ∧
      second.renames.methodName? "b" ⟨"<init>", "()V"⟩ = none := by
  have hrun : (synthesizeWith (SourceSet.ofList (constructorClasses.map (·.shape))).hierarchy
      {} constructorClasses {}).map (·.renames.methodName? "b" ⟨"m", "()V"⟩) =
        some (some "func_0_m") := by
    unfold synthesizeWith Progress.run
    simp only [constructorClasses_ordered, Progress.definitionPass,
      Progress.foldlM_defineClass_eq, constructorClasses_slots]
    delta Progress.defineSlot Progress.defineMethod Progress.propagationPass
      Progress.propagateClass Progress.propagateMethod Progress.findInherited
      Hierarchy.findDeclaring Hierarchy.findAncestor
    simp only [Graph.walk_eq_walkUnrolled 2]
    decide +kernel
  obtain ⟨first, hfirst, hname⟩ := Option.map_eq_some_iff.mp hrun
  obtain ⟨second, hsecond⟩ := Progress.run_ends (hierarchyOf constructorClasses.tail)
    { methodPrefix := "<" } constructorClasses.tail first.renames (by decide) (by decide)
  have hruns : ReflTransGen Renames.RunsTo {} second.renames :=
    (ReflTransGen.single ⟨_, _, _, first, hfirst, rfl⟩).tail ⟨_, _, _, second, hsecond, rfl⟩
  refine ⟨first, second, hfirst, hsecond, hname, ?_⟩
  exact protected_never_named hruns (fun _ _ _ => rfl) "b" _ (Or.inl (by decide))

end Nomenclator

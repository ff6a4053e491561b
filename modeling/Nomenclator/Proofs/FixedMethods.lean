import Nomenclator.Proofs.NamedMethods

/-!
# Methods whose names are fixed

The code of a native method is found by its name, and an enumeration has two methods that
compilers refer to by name. A run never numbers such a method, but the pass over overriding
methods does not look at this: a method of these kinds that overrides another takes the name
of that one.

Results:
* `admits_overriding`, `admits_inherited`: a run names nothing but definitions and methods that
  override, and of these only the ones below a definition.
* `run_names`: a run names all of them.
* `fixedMethod_named_iff`: after any number of runs, which methods with a fixed name have got
  another name all the same.
-/

namespace Nomenclator

open Relation (TransGen ReflTransGen)

/-- The method is native, or it is one of the two that every enumeration has. -/
def NameIsFixed (source : SourceClass) (method : SourceMember) : Prop :=
  method.access &&& 0x0100 ≠ 0 ∨
  source.superName = some "java/lang/Enum" ∧
    (method.key = ⟨"valueOf", "(Ljava/lang/String;)L" ++ source.name ++ ";"⟩ ∨
      method.key = ⟨"values", "()[L" ++ source.name ++ ";"⟩)

namespace Progress

open Renames (NamesOnly)

variable {hierarchy : Hierarchy} {settings : Settings} {classes : List SourceClass}

theorem keepsMethodName_of_fixed (settings : Settings) {source : SourceClass}
    {method : SourceMember} (h : NameIsFixed source method) :
    keepsMethodName settings source method = true := by
  rcases h with hnative | ⟨hsuper, hkey⟩
  · have hflag : AccessFlags.areNative method.access = true := by
      simpa [AccessFlags.areNative] using hnative
    simp [keepsMethodName, hflag]
  · have henum : isEnumMethod source method.key = true := by
      simpa [isEnumMethod, hsuper, EnumConstants.superName] using hkey
    simp [keepsMethodName, henum]

/-! ## What a run names -/

/-- The method overrides one of an ancestor, and a known ancestor defines it. -/
def InheritsDefinition (hierarchy : Hierarchy) (settings : Settings) (classes : List SourceClass)
    (owner : String) (key : MethodKey) : Prop :=
  Overrides hierarchy classes owner key ∧
    ∃ definition, hierarchy.KnownAncestor owner definition ∧
      Defines hierarchy settings classes definition key

/-- Whatever the hierarchy, a run names only definitions and methods that override. -/
theorem admits_overriding (hierarchy : Hierarchy) (settings : Settings)
    (classes : List SourceClass) :
    Admits hierarchy settings classes fun owner key => settings.mapMethods = true ∧
      (Defines hierarchy settings classes owner key ∨ Overrides hierarchy classes owner key) where
  defines _ _ hmethods hdefines := ⟨hmethods, Or.inl hdefines⟩
  inherits _ _ hmethods source hsource method hmethod hmay _ _ :=
    ⟨hmethods, Or.inr ⟨source, hsource, rfl, hmay.1, method, hmethod, rfl⟩⟩

/-- A method that overrides takes its name from a definition above it, in one step or in
    several: the ancestor whose name it takes is a definition or took the name of one. -/
theorem admits_inherited (hdescribes : hierarchy.Describes classes) :
    Admits hierarchy settings classes fun owner key => settings.mapMethods = true ∧
      (Defines hierarchy settings classes owner key ∨
        InheritsDefinition hierarchy settings classes owner key) where
  defines _ _ hmethods hdefines := ⟨hmethods, Or.inl hdefines⟩
  inherits renames hnames hmethods source hsource method hmethod hmay newName hfound := by
    have hoverrides : Overrides hierarchy classes source.name method.key :=
      ⟨source, hsource, rfl, hmay.1, method, hmethod, rfl⟩
    obtain ⟨ancestor, habove, hname⟩ := exists_ancestor_of_findInherited hdescribes hsource hfound
    refine ⟨hmethods, Or.inr ⟨hoverrides, ?_⟩⟩
    rcases (hnames ancestor _ (Option.isSome_of_eq_some hname)).2 with
      hdefines | ⟨-, definition, hhigher, hdefines⟩
    · exact ⟨ancestor, habove, hdefines⟩
    · refine ⟨definition, ⟨habove.below.trans hhigher.below, ?_, hhigher.known⟩, hdefines⟩
      -- On a cycle the definition might be the class itself, but the class overrides.
      rintro rfl
      obtain ⟨other, hother, hsame, -, hnot, -⟩ := hdefines
      have hshape := hdescribes.shape_eq other hother
      rw [hsame, hdescribes.shape_eq source hsource] at hshape
      rw [← Option.some.inj hshape, hmay.1] at hnot
      cases hnot

/-- A run names every definition and every method that overrides below one. -/
theorem run_names (hdescribes : hierarchy.Describes classes) {renames : Renames} {p : Progress}
    (h : run .standard hierarchy settings classes renames = some p)
    (hmethods : settings.mapMethods = true) {owner : String} {key : MethodKey}
    (hpart : settings.excludes owner = false)
    (hnamed : Defines hierarchy settings classes owner key ∨
      InheritsDefinition hierarchy settings classes owner key) :
    (p.renames.methodName? owner key).isSome := by
  have hordered : ∀ source ∈ classes, settings.excludes source.name = false →
      source ∈ classesInOrder .standard settings classes := fun source hsource hexcludes =>
    mem_classesInOrder.mpr ⟨hsource, hexcludes⟩
  have hsettled := run_settled
    (hdescribes.mono fun source hsource => (mem_classesInOrder.mp hsource).1) h
  have hdefinition : ∀ name, Defines hierarchy settings classes name key →
      (p.renames.methodName? name key).isSome := by
    rintro name ⟨source, hsource, rfl, hexcludes, hinherits, method, hmethod, rfl, hkeeps⟩
    by_contra hname
    exact hsettled.members _
      (mem_slots_method.mpr ⟨hmethods, hordered source hsource hexcludes, hmethod⟩)
      ⟨hinherits, Option.not_isSome_iff_eq_none.mp hname, hkeeps⟩
  rcases hnamed with hdefines | ⟨hoverrides, definition, habove, hdefines⟩
  · exact hdefinition owner hdefines
  · obtain ⟨source, hsource, rfl, hinherits, method, hmethod, rfl⟩ := hoverrides
    by_contra hname
    have hfound := hsettled.overriding hmethods source (hordered source hsource hpart) method
      hmethod ⟨hinherits, Option.not_isSome_iff_eq_none.mp hname⟩
    have hnone := (findInherited_eq_none_iff hdescribes hsource _ _).mp hfound definition habove
    have hsome := hdefinition definition hdefines
    rw [hnone] at hsome
    cases hsome

/-- What a run may name does not depend on the counters. -/
theorem Admits.withCounters {allowed : String → MethodKey → Prop}
    (h : Admits hierarchy settings classes allowed) (nextMember nextClass : UInt32) :
    Admits hierarchy { settings with nextMember, nextClass } classes allowed :=
  ⟨h.defines, h.inherits⟩

end Progress

open Progress (Admits Defines InheritsDefinition Overrides)

/-! ## Runs over the same classes -/

/-- A run over the same classes goes on with the counters and the names that are there. -/
def Rerun (hierarchy : Hierarchy) (classes : List SourceClass)
    (before after : Settings × Renames) : Prop :=
  ∃ p, synthesizeWith hierarchy before.1 classes before.2 = some p ∧
    after = (before.1.record p.outcome, p.renames)

/-- Runs over the same classes change nothing in the settings but the counters, and they name
    only what a single run may name. -/
theorem reruns_namesOnly {hierarchy : Hierarchy} {settings : Settings}
    {classes : List SourceClass} {renames : Renames} {after : Settings × Renames}
    {allowed : String → MethodKey → Prop} (hadmits : Admits hierarchy settings classes allowed)
    (hbefore : renames.NamesOnly allowed)
    (hruns : ReflTransGen (Rerun hierarchy classes) (settings, renames) after) :
    (∃ nextMember nextClass, after.1 = { settings with nextMember, nextClass }) ∧
      after.2.NamesOnly allowed := by
  induction hruns with
  | refl => exact ⟨⟨settings.nextMember, settings.nextClass, rfl⟩, hbefore⟩
  | tail _ hrun ih =>
    obtain ⟨p, hp, rfl⟩ := hrun
    obtain ⟨⟨nextMember, nextClass, hsettings⟩, hnames⟩ := ih
    rw [hsettings] at hp ⊢
    exact ⟨⟨_, _, rfl⟩,
      Progress.run_namesOnly (hadmits.withCounters nextMember nextClass) hp hnames⟩

/-- Another declaration of the same method under the same class name, by the class itself or by
    another of that name, may be numbered. No two such declarations belong to one program. -/
def DefinedBeside (hierarchy : Hierarchy) (settings : Settings) (classes : List SourceClass)
    (source : SourceClass) (method : SourceMember) : Prop :=
  ∃ other ∈ classes, other.name = source.name ∧
    hierarchy.inherits other.shape method.key = false ∧
    ∃ twin ∈ other.methods, twin.key = method.key ∧
      Progress.keepsMethodName settings other twin = false ∧ (other = source → twin ≠ method)

/-- A method whose name is fixed defines nothing; another declaration of it may. -/
theorem defines_iff_definedBeside {hierarchy : Hierarchy} {settings : Settings}
    {classes : List SourceClass} {source : SourceClass} {method : SourceMember}
    (hpart : settings.excludes source.name = false) (hfixed : NameIsFixed source method) :
    Defines hierarchy settings classes source.name method.key ↔
      DefinedBeside hierarchy settings classes source method := by
  constructor
  · rintro ⟨other, hother, hname, -, hinherits, twin, htwin, hkey, hkeeps⟩
    refine ⟨other, hother, hname, hinherits, twin, htwin, hkey, hkeeps, ?_⟩
    rintro rfl rfl
    rw [Progress.keepsMethodName_of_fixed settings hfixed] at hkeeps
    cases hkeeps
  · rintro ⟨other, hother, hname, hinherits, twin, htwin, hkey, hkeeps, -⟩
    exact ⟨other, hother, hname, hpart, hinherits, twin, htwin, hkey, hkeeps⟩

/-- Let no method have a name at first, and let any number of runs over the same classes follow,
    at least one, each with the counters that the one before left. A native method, or one of
    the two of an enumeration, of a class that takes part has a name then only if it overrides
    another or is declared once more without being fixed. If the hierarchy describes the
    classes, it has a name exactly if it is declared once more in that way, or it overrides
    another and a known ancestor of its class defines it. -/
theorem fixedMethod_named_iff {hierarchy : Hierarchy} {settings : Settings}
    {classes : List SourceClass} {renames : Renames} {after : Settings × Renames}
    (hnone : ∀ owner key, renames.methodName? owner key = none)
    (hruns : TransGen (Rerun hierarchy classes) (settings, renames) after)
    {source : SourceClass} (hsource : source ∈ classes)
    (hpart : settings.excludes source.name = false) {method : SourceMember}
    (hmethod : method ∈ source.methods) (hfixed : NameIsFixed source method) :
    ((after.2.methodName? source.name method.key).isSome → settings.mapMethods = true ∧
      (DefinedBeside hierarchy settings classes source method ∨
        Overrides hierarchy classes source.name method.key)) ∧
    (hierarchy.Describes classes → ((after.2.methodName? source.name method.key).isSome ↔
      settings.mapMethods = true ∧
      (DefinedBeside hierarchy settings classes source method ∨
        hierarchy.inherits source.shape method.key = true ∧
          ∃ definition, hierarchy.KnownAncestor source.name definition ∧
            Defines hierarchy settings classes definition method.key))) := by
  have hbefore : ∀ allowed, renames.NamesOnly allowed := by
    intro allowed owner key hnamed
    rw [hnone owner key] at hnamed
    cases hnamed
  rw [← defines_iff_definedBeside hpart hfixed]
  refine ⟨fun hnamed => ?_, fun hdescribes => ⟨fun hnamed => ?_, fun hcondition => ?_⟩⟩
  · exact (reruns_namesOnly (Progress.admits_overriding hierarchy settings classes)
      (hbefore _) hruns.to_reflTransGen).2 _ _ hnamed
  · obtain ⟨hmethods, hdefines | ⟨⟨other, hother, hname, hinherits, -⟩, hdefinition⟩⟩ :=
      (reruns_namesOnly (Progress.admits_inherited hdescribes) (hbefore _)
        hruns.to_reflTransGen).2 _ _ hnamed
    · exact ⟨hmethods, Or.inl hdefines⟩
    · have hshape := hdescribes.shape_eq other hother
      rw [hname, hdescribes.shape_eq source hsource] at hshape
      rw [← Option.some.inj hshape] at hinherits
      exact ⟨hmethods, Or.inr ⟨hinherits, hdefinition⟩⟩
  · -- The last run alone names what there is to name.
    obtain ⟨middle, hearlier, p, hp, rfl⟩ := TransGen.tail'_iff.mp hruns
    obtain ⟨⟨nextMember, nextClass, hsettings⟩, -⟩ :=
      reruns_namesOnly (Progress.admits_overriding hierarchy settings classes) (hbefore _) hearlier
    rw [hsettings] at hp
    obtain ⟨hmethods, hcondition⟩ := hcondition
    refine Progress.run_names hdescribes hp hmethods hpart
      (hcondition.imp id fun ⟨hinherits, hdefinition⟩ => ?_)
    exact ⟨⟨source, hsource, rfl, hinherits, method, hmethod, rfl⟩, hdefinition⟩

/-! ### Fixed methods that override -/

/-- A class with a method of its own. -/
def plainClass : SourceClass := (SourceClass.new "a" none).addMethod 1 "m" "()V"

/-- A class with two native methods, of which one overrides. -/
def nativeClass : SourceClass :=
  ((SourceClass.new "b" (some "a")).addMethod 257 "m" "()V").addMethod 257 "n" "()V"

/-- An enumeration, one of whose own methods an interface of it declares too. -/
def enumClass : SourceClass :=
  ((SourceClass.new "e" (some "java/lang/Enum")).addInterface "i").addMethod 9 "valueOf"
    "(Ljava/lang/String;)Le;"

/-- The interface. -/
def lookupInterface : SourceClass :=
  (SourceClass.new "i" none).addMethod 1025 "valueOf" "(Ljava/lang/String;)Le;"

/-- The four classes. -/
def fixedClasses : List SourceClass := [plainClass, nativeClass, enumClass, lookupInterface]

/-- The four classes and no other. -/
def fixedHierarchy : Hierarchy := (SourceSet.ofList (fixedClasses.map (·.shape))).hierarchy

theorem describes_fixed : fixedHierarchy.Describes fixedClasses := describes_sourceSet (by decide)

theorem fixedClasses_ordered :
    Progress.classesInOrder .standard {} fixedClasses = fixedClasses :=
  Progress.classesInOrder_eq_self (by decide) (by decide +kernel)

theorem fixedClasses_slots :
    Progress.slots .standard {} fixedClasses =
      fixedClasses.flatMap fun source => source.methods.map (.method source) :=
  (Progress.slots_eq_declared (by decide +kernel)).trans rfl

/-- Which of the methods above are inherited. -/
theorem inherits_fixed :
    fixedHierarchy.inherits plainClass.shape ⟨"m", "()V"⟩ = false ∧
      fixedHierarchy.inherits nativeClass.shape ⟨"m", "()V"⟩ = true ∧
      fixedHierarchy.inherits nativeClass.shape ⟨"n", "()V"⟩ = false := by
  delta Hierarchy.inherits Hierarchy.findDeclaring Hierarchy.findAncestor
  simp only [Graph.walk_eq_walkUnrolled 2]
  decide +kernel

theorem eq_nativeClass {source : SourceClass} (hsource : source ∈ fixedClasses)
    (hname : source.name = "b") : source = nativeClass := by
  simp only [fixedClasses, List.mem_cons, List.not_mem_nil, or_false] at hsource
  rcases hsource with rfl | rfl | rfl | rfl
  · exact absurd hname (by decide)
  · rfl
  · exact absurd hname (by decide)
  · exact absurd hname (by decide)

/-- Of the two native methods the one that overrides gets a name and the other does not. -/
theorem fixedMethod_named_iff_native :
    ∃ p, synthesizeWith fixedHierarchy {} fixedClasses {} = some p ∧
      (p.renames.methodName? "b" ⟨"m", "()V"⟩).isSome ∧
      p.renames.methodName? "b" ⟨"n", "()V"⟩ = none := by
  obtain ⟨p, hp⟩ := Progress.run_ends fixedHierarchy {} fixedClasses {} (by decide) (by decide)
  have hruns : TransGen (Rerun fixedHierarchy fixedClasses) ({}, {}) (_, p.renames) :=
    .single ⟨p, hp, rfl⟩
  have hlisted : nativeClass ∈ fixedClasses := by simp [fixedClasses]
  have hfixed : ∀ method ∈ nativeClass.methods, NameIsFixed nativeClass method := by
    have hflags : ∀ method ∈ nativeClass.methods, method.access &&& 0x0100 ≠ 0 := by decide
    exact fun method hmethod => Or.inl (hflags method hmethod)
  have hnamed : ∀ method ∈ nativeClass.methods, _ := fun method hmethod =>
    fixedMethod_named_iff (fun _ _ => rfl) hruns hlisted rfl hmethod (hfixed method hmethod)
  refine ⟨p, hp, ?_, ?_⟩
  · have habove : fixedHierarchy.KnownAncestor "b" "a" :=
      ⟨.single (by decide : "a" ∈ fixedHierarchy.parents "b"), by decide, by decide⟩
    have hdefines : Defines fixedHierarchy {} fixedClasses "a" ⟨"m", "()V"⟩ :=
      ⟨plainClass, by simp [fixedClasses], rfl, rfl, inherits_fixed.1, ⟨"m", "()V", 1⟩, by decide,
        rfl, by decide⟩
    exact ((hnamed ⟨"m", "()V", 257⟩ (by decide)).2 describes_fixed).mpr
      ⟨rfl, Or.inr ⟨inherits_fixed.2.1, "a", habove, hdefines⟩⟩
  · rw [← Option.not_isSome_iff_eq_none]
    intro hname
    rcases ((hnamed ⟨"n", "()V", 257⟩ (by decide)).1 hname).2 with
      ⟨other, hother, hsame, -, twin, htwin, -, hkeeps, -⟩ | ⟨other, hother, hsame, hinherits, -⟩
    · rw [eq_nativeClass hother hsame] at htwin hkeeps
      rw [Progress.keepsMethodName_of_fixed _ (hfixed twin htwin)] at hkeeps
      cases hkeeps
    · rw [eq_nativeClass hother hsame] at hinherits
      exact Bool.false_ne_true (inherits_fixed.2.2.symm.trans hinherits)

/-- A native method and one that every enumeration has, both of which get other names. -/
theorem fixedMethods_renamed :
    (fixedClasses.map (·.name)).Nodup ∧ fixedHierarchy.Describes fixedClasses ∧
    nativeClass ∈ fixedClasses ∧ ⟨"m", "()V", 257⟩ ∈ nativeClass.methods ∧
    NameIsFixed nativeClass ⟨"m", "()V", 257⟩ ∧
    enumClass ∈ fixedClasses ∧ ⟨"valueOf", "(Ljava/lang/String;)Le;", 9⟩ ∈ enumClass.methods ∧
    NameIsFixed enumClass ⟨"valueOf", "(Ljava/lang/String;)Le;", 9⟩ ∧
    ∃ p, synthesizeWith fixedHierarchy {} fixedClasses {} = some p ∧
      p.renames.methodName? "b" ⟨"m", "()V"⟩ = some "func_0_m" ∧
      p.renames.methodName? "e" ⟨"valueOf", "(Ljava/lang/String;)Le;"⟩ =
        some "func_1_valueOf" := by
  have hrun : (synthesizeWith fixedHierarchy {} fixedClasses {}).map (fun p =>
      (p.renames.methodName? "b" ⟨"m", "()V"⟩,
        p.renames.methodName? "e" ⟨"valueOf", "(Ljava/lang/String;)Le;"⟩)) =
        some (some "func_0_m", some "func_1_valueOf") := by
    unfold synthesizeWith Progress.run
    simp only [fixedClasses_ordered, Progress.definitionPass, Progress.foldlM_defineClass_eq,
      fixedClasses_slots]
    delta Progress.defineSlot Progress.defineMethod Progress.propagationPass
      Progress.propagateClass Progress.propagateMethod Progress.findInherited
      Hierarchy.findDeclaring Hierarchy.findAncestor
    simp only [Graph.walk_eq_walkUnrolled 2]
    decide +kernel
  obtain ⟨p, hp, hnames⟩ := Option.map_eq_some_iff.mp hrun
  obtain ⟨hnative, henum⟩ := Prod.mk.inj hnames
  refine ⟨by decide, describes_fixed, by simp [fixedClasses], by decide, Or.inl (by decide),
    by simp [fixedClasses], by decide, Or.inr ⟨rfl, Or.inl (by decide)⟩, p, hp, hnative, henum⟩

end Nomenclator

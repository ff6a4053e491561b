import Nomenclator.Proofs.NameOrder
import Nomenclator.Proofs.Numbering
import Nomenclator.Proofs.Settled

/-!
# How classes are named and how their names are resolved

A run looks at the simple name of a class, behind the last `/`, to tell whether the class is
inside another. Resolution looks at the whole name. Both cut at the last `$` with text on
both sides of it, so they disagree where that `$` has text before it in the whole name but
not in the simple name.

Results:
* `enclosing?_eq_some_iff`: what it means to be inside another class.
* `misreadAsInner_iff`: which classes only resolution takes for inner ones.
* `classNames_resolved`: a class that a run names as an inner one is resolved to its name
  behind that of the enclosing class; one that it names as a class of its own is resolved to
  its name unless resolution takes it for an inner one.
-/

namespace Nomenclator

/-! ## Cutting at the last occurrence -/

namespace Text

theorem cutLast_of_not_mem {c : Char} {s : List Char} (h : c ∉ s) : cutLast c s = none := by
  cases hcut : cutLast c s with
  | none => rfl
  | some parts =>
    obtain ⟨heq, -⟩ := cutLast_eq_some hcut
    exact absurd (heq ▸ List.mem_append_right _ List.mem_cons_self) h

theorem cutLast_append {c : Char} {after : List Char} (h : c ∉ after) (before : List Char) :
    cutLast c (before ++ c :: after) = some (before, after) := by
  induction before with
  | nil => rw [List.nil_append, cutLast, cutLast_of_not_mem h, if_pos rfl]
  | cons d before ih => rw [List.cons_append, cutLast, ih]

theorem cutAtLast?_eq_none_iff {c : Char} {s : String} :
    cutAtLast? c s = none ↔ c ∉ s.toList := by
  rw [cutAtLast?, Option.map_eq_none_iff]
  exact ⟨cutLast_eq_none, cutLast_of_not_mem⟩

theorem cutAtLast?_eq_some_iff {c : Char} {s before after : String} :
    cutAtLast? c s = some (before, after) ↔
      s = before ++ String.singleton c ++ after ∧ c ∉ after.toList := by
  rw [cutAtLast?, Option.map_eq_some_iff]
  constructor
  · rintro ⟨⟨front, back⟩, hcut, heq⟩
    cases heq
    obtain ⟨hs, hback⟩ := cutLast_eq_some hcut
    refine ⟨String.toList_inj.mp ?_, by rwa [String.toList_ofList]⟩
    simp [hs]
  · rintro ⟨rfl, hafter⟩
    refine ⟨(before.toList, after.toList), ?_, by simp⟩
    simpa using cutLast_append hafter before.toList

theorem afterLast_of_cut {c : Char} {before after : String} (h : c ∉ after.toList) :
    afterLast c (before ++ String.singleton c ++ after) = after := by
  rw [afterLast, cutAtLast?_eq_some_iff.mpr ⟨rfl, h⟩]

theorem afterLast_of_not_mem {c : Char} {s : String} (h : c ∉ s.toList) : afterLast c s = s := by
  rw [afterLast, cutAtLast?_eq_none_iff.mpr h]

/-- What follows the last `c` is the end of the text, without a `c`. -/
theorem exists_before_afterLast (c : Char) (s : String) :
    ∃ before, s = before ++ afterLast c s ∧ c ∉ (afterLast c s).toList := by
  cases hcut : cutAtLast? c s with
  | none =>
    have hnone := cutAtLast?_eq_none_iff.mp hcut
    rw [afterLast_of_not_mem hnone]
    exact ⟨"", by simp, hnone⟩
  | some parts =>
    obtain ⟨before, after⟩ := parts
    obtain ⟨rfl, hafter⟩ := cutAtLast?_eq_some_iff.mp hcut
    rw [afterLast_of_cut hafter]
    exact ⟨before ++ String.singleton c, rfl, hafter⟩

end Text

/-! ## Inner classes -/

/-- A class is inside another if its name has text before and after its last `$`. -/
theorem enclosing?_eq_some_iff {name outer inner : String} :
    enclosing? name = some (outer, inner) ↔
      name = outer ++ "$" ++ inner ∧ '$' ∉ inner.toList ∧ outer ≠ "" ∧ inner ≠ "" := by
  have hcut : Text.cutAtLast? '$' name = some (outer, inner) ↔
      name = outer ++ "$" ++ inner ∧ '$' ∉ inner.toList := Text.cutAtLast?_eq_some_iff
  rw [← and_assoc, ← hcut, enclosing?]
  constructor
  · intro h
    split at h
    · next front back hfound =>
      split_ifs at h with hempty
      cases h
      exact ⟨hfound, not_or.mp hempty⟩
    · cases h
  · rintro ⟨hfound, houter, hinner⟩
    rw [hfound]
    exact if_neg (not_or.mpr ⟨houter, hinner⟩)

/-- The last `$` of the name has text on both sides, but it stands in the package or right
    at the start of the simple name. -/
def MisreadAsInner (name : String) : Prop :=
  ∃ outer inner, name = outer ++ "$" ++ inner ∧ '$' ∉ inner.toList ∧ outer ≠ "" ∧ inner ≠ "" ∧
    ('/' ∈ inner.toList ∨ ∃ package, outer = package ++ "/")

/-- A class whose simple name is that of an inner class is an inner class by its whole name
    too, with the same last segment. -/
theorem enclosing?_of_simple {name outer inner : String}
    (h : enclosing? (Text.afterLast '/' name) = some (outer, inner)) :
    ∃ package, enclosing? name = some (package ++ outer, inner) := by
  obtain ⟨package, hname, -⟩ := Text.exists_before_afterLast '/' name
  obtain ⟨hsimple, hinner, houter, hne⟩ := enclosing?_eq_some_iff.mp h
  refine ⟨package, enclosing?_eq_some_iff.mpr ⟨?_, hinner, ?_, hne⟩⟩
  · rw [hsimple] at hname
    rw [hname]
    simp [String.append_assoc]
  · intro hempty
    exact houter (String.append_eq_empty_iff.mp hempty).2

/-- A text that ends in `/` has that `/` in any last part of it. -/
theorem slash_mem_of_append {a b lead : String} (h : a ++ b = lead ++ "/") (hb : b ≠ "") :
    '/' ∈ b.toList := by
  have hlists : a.toList ++ b.toList = lead.toList ++ ['/'] := by
    simpa using congrArg String.toList h
  have hlast := congrArg List.getLast? hlists
  have hne : b.toList ≠ [] := by simpa using hb
  rw [List.getLast?_append_of_ne_nil _ hne, List.getLast?_concat] at hlast
  exact List.mem_of_getLast? hlast

/-- The classes that are inside another by their whole name, but not by their simple name. -/
theorem misreadAsInner_iff {name : String} :
    MisreadAsInner name ↔
      (enclosing? name).isSome ∧ enclosing? (Text.afterLast '/' name) = none := by
  constructor
  · rintro ⟨outer, inner, hname, hinner, houter, hne, hplace⟩
    have hwhole := enclosing?_eq_some_iff.mpr ⟨hname, hinner, houter, hne⟩
    refine ⟨Option.isSome_of_eq_some hwhole, ?_⟩
    by_contra hsome
    obtain ⟨⟨front, back⟩, hsimple⟩ := Option.ne_none_iff_exists'.mp hsome
    -- Both cut at the same `$`, and the simple name has no `/`.
    obtain ⟨package, hagain⟩ := enclosing?_of_simple hsimple
    obtain ⟨rfl, rfl⟩ := Prod.mk.inj (Option.some.inj (hwhole.symm.trans hagain))
    obtain ⟨-, -, hslash⟩ := Text.exists_before_afterLast '/' name
    obtain ⟨heq, -, hfront, -⟩ := enclosing?_eq_some_iff.mp hsimple
    simp only [heq, String.toList_append, List.mem_append, not_or] at hslash
    rcases hplace with hback | ⟨lead, hlead⟩
    · exact hslash.2 hback
    · exact hslash.1.1 (slash_mem_of_append hlead hfront)
  · rintro ⟨hwhole, hsimple⟩
    obtain ⟨⟨outer, inner⟩, hwhole⟩ := Option.isSome_iff_exists.mp hwhole
    obtain ⟨hname, hinner, houter, hne⟩ := enclosing?_eq_some_iff.mp hwhole
    refine ⟨outer, inner, hname, hinner, houter, hne, ?_⟩
    by_contra hplace
    obtain ⟨hback, hfront⟩ := not_or.mp hplace
    cases hcut : Text.cutAtLast? '/' outer with
    | none =>
      -- Without a `/` the simple name is the whole name.
      have houterSlash := Text.cutAtLast?_eq_none_iff.mp hcut
      have hnone : '/' ∉ name.toList := by
        rw [hname]
        simp [houterSlash, hback]
      rw [Text.afterLast_of_not_mem hnone, hwhole] at hsimple
      cases hsimple
    | some parts =>
      obtain ⟨package, front⟩ := parts
      obtain ⟨rfl, hslash⟩ := Text.cutAtLast?_eq_some_iff.mp hcut
      have hafter : Text.afterLast '/' name = front ++ "$" ++ inner := by
        have hnone : '/' ∉ (front ++ "$" ++ inner).toList := by simp [hslash, hback]
        have hparts : name = package ++ String.singleton '/' ++ (front ++ "$" ++ inner) := by
          rw [hname]
          simp [String.append_assoc]
        rw [hparts, Text.afterLast_of_cut hnone]
      by_cases hempty : front = ""
      · exact hfront ⟨package, by rw [hempty]; simp⟩
      · rw [hafter, enclosing?_eq_some_iff.mpr ⟨rfl, hinner, hempty, hne⟩] at hsimple
        cases hsimple

/-! ## Names that runs give to classes -/

theorem Progress.className?_rulesPass (settings : Settings) (classes : List SourceClass)
    (p : Progress) (name : String) :
    (rulesPass settings classes p).renames.className? name = p.renames.className? name := by
  apply rulesPass_rel (R := fun p q => q.renames.className? name = p.renames.className? name)
  · exact fun p => rfl
  · exact fun hpq hqr => hqr.trans hpq
  · intro p source _ field _
    unfold applyRules
    split
    · exact Renames.className?_editField _ _ _ _ _ _
    · rfl

theorem Event.named?_eq_class_iff {event : Event} {name assigned : String} :
    event.named? = some (.ofClass name, assigned) ↔ event = .classNamed name assigned := by
  cases event <;> simp [named?]

/-- A class that had no name before the run and has one after it was named by the run. -/
theorem FinishedRun.classNamed_mem_log (run : FinishedRun) {name assigned : String}
    (hnone : run.before.className? name = none)
    (h : run.after.renames.className? name = some assigned) :
    Event.classNamed name assigned ∈ run.after.log := by
  rcases (run.reportsNames (.ofClass name) assigned).mp h with hbase | ⟨event, hmem, hevent⟩
  · have hruled := Progress.className?_rulesPass run.settings run.ordered
      (Progress.start run.settings run.before) name
    have hstart : run.before.className? name = some assigned := hruled.symm.trans hbase
    rw [hnone] at hstart
    cases hstart
  · rwa [Event.named?_eq_class_iff.mp hevent] at hmem

/-- A class that had no name before the run has one from the format, with some number. -/
theorem FinishedRun.className_formatted (run : FinishedRun) {naming : ClassNaming}
    (hnaming : run.settings.classes = some naming) {name assigned : String}
    (hnone : run.before.className? name = none)
    (h : run.after.renames.className? name = some assigned) :
    ∃ id, assigned = Progress.newClassName naming id name := by
  obtain ⟨id, -, hid⟩ := run.exists_numbersClass hnaming (run.classNamed_mem_log hnone h)
  exact ⟨id, hid⟩

/-- Every class that takes part has a name after the run. -/
theorem FinishedRun.isSome_className? (run : FinishedRun) (hclasses : run.settings.classes.isSome)
    {source : SourceClass} (hsource : source ∈ run.classes)
    (hexcludes : run.settings.excludes source.name = false) :
    (run.after.renames.className? source.name).isSome := by
  obtain ⟨named, defined, hnamed, hdefined, hafter⟩ := run.passes
  have hmem : source ∈ run.ordered := Progress.mem_classesInOrder.mpr ⟨hsource, hexcludes⟩
  have hall : ∀ other ∈ run.ordered, True := fun _ _ => trivial
  have hdefines : Renames.Adds (fun _ => True) named.renames defined.renames :=
    Progress.definitionPass_adds hall hdefined
  have hpropagates : Renames.Adds (fun _ => True) defined.renames _ :=
    Progress.propagationPass_adds hall run.hierarchy run.settings defined
  rw [hafter]
  exact (hdefines.trans hpropagates).keepsNames.isSome_className?
    (Progress.classesPass_names hnamed hclasses hmem)

/-! ## Resolution of these names -/

/-- The name of an inner class is that of the enclosing class and its own last part. -/
theorem Renames.mapClassName_eq_of_enclosing (renames : Renames) {name outer inner : String}
    (h : enclosing? name = some (outer, inner)) :
    renames.mapClassName name =
      renames.mapClassName outer ++ "$" ++ (renames.className? name).getD inner := by
  rw [mapClassName]
  split
  · next front back hfound =>
    obtain ⟨rfl, rfl⟩ := Prod.mk.inj (Option.some.inj (hfound.symm.trans h))
    rfl
  · next hfound =>
    rw [h] at hfound
    cases hfound

theorem Renames.mapClassName_of_enclosing {renames : Renames} {name outer inner assigned : String}
    (h : enclosing? name = some (outer, inner)) (hname : renames.className? name = some assigned) :
    renames.mapClassName name = renames.mapClassName outer ++ "$" ++ assigned := by
  rw [renames.mapClassName_eq_of_enclosing h, hname, Option.getD_some]

/-- A class is resolved to exactly its own new name if it is not inside another. -/
theorem Renames.mapClassName_eq_iff {renames : Renames} {name assigned : String}
    (hname : renames.className? name = some assigned) :
    renames.mapClassName name = assigned ↔ enclosing? name = none := by
  constructor
  · intro h
    by_contra hsome
    obtain ⟨⟨outer, inner⟩, hsome⟩ := Option.ne_none_iff_exists'.mp hsome
    rw [mapClassName_of_enclosing hsome hname] at h
    have hlength := congrArg (·.toList.length) h
    simp only [String.toList_append, List.length_append] at hlength
    have hdollar : "$".toList.length = 1 := by decide
    omega
  · intro h
    rw [mapClassName]
    split
    · next hfound =>
      rw [h] at hfound
      cases hfound
    · rw [hname]
      rfl

/-- Let a run name classes, none of which had a name. Then all classes that take part have
    names. One whose simple name has text before and after its last `$` got the filled-in
    format, and is resolved to it behind the resolved name of its enclosing class. Any other
    got the package and the filled-in format, and is resolved to exactly that unless its whole
    name is misread as that of an inner class. -/
theorem classNames_resolved {hierarchy : Hierarchy} {settings : Settings}
    {classes : List SourceClass} {renames : Renames} {p : Progress} {naming : ClassNaming}
    (hnaming : settings.classes = some naming) (hnone : ∀ name, renames.className? name = none)
    (h : synthesizeWith hierarchy settings classes renames = some p) :
    (∀ source ∈ classes, settings.excludes source.name = false →
      (p.renames.className? source.name).isSome) ∧
    ∀ name assigned, p.renames.className? name = some assigned →
      (∀ outer inner, enclosing? (Text.afterLast '/' name) = some (outer, inner) →
        (∃ id, assigned = naming.formatName id inner) ∧
        ∃ enclosing, Text.cutAtLast? '$' name = some (enclosing, inner) ∧
          p.renames.mapClassName name = p.renames.mapClassName enclosing ++ "$" ++ assigned) ∧
      (enclosing? (Text.afterLast '/' name) = none →
        (∃ id, assigned = naming.packageLead ++ naming.formatName id (Text.afterLast '/' name)) ∧
        (p.renames.mapClassName name = assigned ↔ ¬MisreadAsInner name)) := by
  let run : FinishedRun := ⟨hierarchy, settings, classes, renames, p, h⟩
  refine ⟨fun source hsource hexcludes => ?_, fun name assigned hassigned => ⟨?_, ?_⟩⟩
  · exact run.isSome_className? (Option.isSome_of_eq_some hnaming) hsource hexcludes
  · intro outer inner hsimple
    obtain ⟨id, hid⟩ := run.className_formatted hnaming (hnone name) hassigned
    obtain ⟨package, hwhole⟩ := enclosing?_of_simple hsimple
    obtain ⟨hname, hdollar, -⟩ := enclosing?_eq_some_iff.mp hwhole
    refine ⟨⟨id, ?_⟩, package ++ outer, Text.cutAtLast?_eq_some_iff.mpr ⟨hname, hdollar⟩,
      Renames.mapClassName_of_enclosing hwhole hassigned⟩
    rw [hid, Progress.newClassName, hsimple]
  · intro hsimple
    obtain ⟨id, hid⟩ := run.className_formatted hnaming (hnone name) hassigned
    refine ⟨⟨id, ?_⟩, ?_⟩
    · rw [hid, Progress.newClassName, hsimple]
    · rw [Renames.mapClassName_eq_iff hassigned, misreadAsInner_iff, not_and]
      simp [hsimple]

/-! ### Classes with a `$` in unusual places -/

/-- Settings that name classes by the usual format, in a package of their own. -/
def packagedSettings : Settings := { classes := some { package := "out" } }

/-- A class whose simple name starts with `$`, a class and its inner class, and one in a
    package with a `$`. -/
def dollarClasses : List SourceClass :=
  ["p/$C", "p/A", "p/A$B", "q$r/D"].map (SourceClass.new · none)

theorem dollarClasses_ordered :
    Progress.classesInOrder .standard packagedSettings dollarClasses = dollarClasses :=
  Progress.classesInOrder_eq_self (by decide) (by decide +kernel)

theorem classNames_resolved_dollars :
    ∃ p, synthesize packagedSettings dollarClasses {} = some p ∧
      p.renames.className? "p/A" = some "out/Class2_A" ∧
      p.renames.mapClassName "p/A" = "out/Class2_A" ∧
      p.renames.className? "p/A$B" = some "Class3_B" ∧
      p.renames.mapClassName "p/A$B" = "out/Class2_A$Class3_B" := by
  have hrun : (synthesize packagedSettings dollarClasses {}).map
      (fun p => (p.renames.className? "p/A", p.renames.className? "p/A$B")) =
        some (some "out/Class2_A", some "Class3_B") := by
    unfold synthesize synthesizeWith Progress.run
    rw [dollarClasses_ordered]
    decide +kernel
  obtain ⟨p, hp, hnames⟩ := Option.map_eq_some_iff.mp hrun
  obtain ⟨houter, hinner⟩ := Prod.mk.inj hnames
  obtain ⟨-, hresolved⟩ := classNames_resolved rfl (fun _ => rfl) hp
  have hmisread : ¬MisreadAsInner "p/A" := by
    rw [misreadAsInner_iff]
    decide
  have hmapped := ((hresolved _ _ houter).2 (by decide)).2.mpr hmisread
  obtain ⟨-, enclosing, hcut, hbehind⟩ := (hresolved _ _ hinner).1 "A" "B" (by decide)
  have hparts : Text.cutAtLast? '$' "p/A$B" = some ("p/A", "B") := by decide
  obtain ⟨rfl, -⟩ := Prod.mk.inj (Option.some.inj (hcut.symm.trans hparts))
  rw [hmapped] at hbehind
  exact ⟨p, hp, houter, hmapped, hinner, hbehind⟩

/-- Named as a class of its own, and resolved as one inside a class that does not exist. -/
theorem mapClassName_ne_assigned :
    packagedSettings.validated = .ok packagedSettings ∧ (dollarClasses.map (·.name)).Nodup ∧
    ∃ p, synthesize packagedSettings dollarClasses {} = some p ∧
      (enclosing? (Text.afterLast '/' "p/$C") = none ∧
        p.renames.className? "p/$C" = some "out/Class1_$C" ∧
        p.renames.mapClassName "p/$C" = "p/$out/Class1_$C") ∧
      (enclosing? (Text.afterLast '/' "q$r/D") = none ∧
        p.renames.className? "q$r/D" = some "out/Class4_D" ∧
        p.renames.mapClassName "q$r/D" = "q$out/Class4_D") := by
  refine ⟨by decide, by decide, ?_⟩
  have hrun : (synthesize packagedSettings dollarClasses {}).map (fun p =>
      ["p/$C", "q$r/D"].map fun name => (p.renames.className? name, p.renames.mapClassName name)) =
        some [(some "out/Class1_$C", "p/$out/Class1_$C"),
          (some "out/Class4_D", "q$out/Class4_D")] := by
    unfold synthesize synthesizeWith Progress.run
    rw [dollarClasses_ordered]
    decide +kernel
  obtain ⟨p, hp, hnames⟩ := Option.map_eq_some_iff.mp hrun
  simp only [List.map_cons, List.map_nil, List.cons.injEq, Prod.mk.injEq, and_true] at hnames
  exact ⟨p, hp, ⟨by decide, hnames.1⟩, by decide, hnames.2⟩

end Nomenclator

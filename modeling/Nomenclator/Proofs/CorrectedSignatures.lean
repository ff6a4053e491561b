import Nomenclator.Proofs.UnrenamedSignatures

/-!
# What correction changes

Correction keeps a signature a signature: nothing but names of inner classes is touched, and a
name that repeats the class that encloses it becomes what follows the repetition. Since this
may itself repeat the enclosing class, as in `La.a$a$b;`, a corrected text is not always one
that a second correction leaves alone.

Results:
* `ClassType.renamedBy_correct`: which names a class type has after correction.
* `Signature.related_correct`: correction keeps the shape of a signature.
* `correctSignature_keeps_shape`: the text after correction stands for that signature, and what
  is no signature stays as it is.
* `Signature.Related.forall₂_classTypes`: signatures of the same shape have their class types
  in the same places.
* `correctSignature_eq_self_iff`: the texts that correction leaves alone.
* `correctSignature_idempotent_iff`: the texts that one correction is enough for.
-/

namespace Nomenclator

/-! ## Names before and after correction -/

/-- The names of inner classes before and after correction, given the names around the first.
    A name that repeats what encloses it loses the repetition, and no other name changes. What
    encloses a name is told by the names after correction. -/
inductive CorrectedInside : List String → List String → List String → Prop
  | nil {around : List String} : CorrectedInside around [] []
  | dropped {around names others : List String} {simple : String} :
      simple ≠ "" → CorrectedInside (around ++ [simple]) names others →
      CorrectedInside around (qualifiedName around simple :: names) (simple :: others)
  | kept {around names others : List String} {name : String} :
      ¬ RepeatsEnclosing around name → CorrectedInside (around ++ [name]) names others →
      CorrectedInside around (name :: names) (name :: others)

/-- The names of a class type before and after correction; the outermost stays. -/
inductive CorrectedNames : NamesRelation
  | mk {outer : String} {inner others : List String} :
      CorrectedInside [outer] inner others → CorrectedNames (outer :: inner) (outer :: others)

theorem qualifiedName_injective {around : List String} {a b : String}
    (h : qualifiedName around a = qualifiedName around b) : a = b := by
  have hchars := congrArg String.toList h
  simp only [qualifiedName, String.toList_append] at hchars
  exact String.toList_inj.mp (List.append_cancel_left hchars)

theorem qualifiedName_ne_self (around : List String) (name : String) :
    qualifiedName around name ≠ name := by
  intro h
  have hlength := congrArg (fun s => s.toList.length) h
  simp only [qualifiedName, String.toList_append, List.length_append] at hlength
  have hdollar : "$".toList.length = 1 := rfl
  omega

namespace ClassSegment

theorem correctedName_qualifiedName {around : List String} {simple : String} (h : simple ≠ "") :
    correctedName (Text.joined "$" around) (qualifiedName around simple) = simple := by
  rw [correctedName, simpleName?_eq_some_iff.mpr ⟨h, rfl⟩, Option.getD_some]

theorem correctedName_of_not_repeats {around : List String} {name : String}
    (h : ¬ RepeatsEnclosing around name) :
    correctedName (Text.joined "$" around) name = name := by
  rw [correctedName]
  cases hsimple : simpleName? (Text.joined "$" around) name with
  | none => rfl
  | some simple => exact absurd ⟨simple, simpleName?_eq_some_iff.mp hsimple⟩ h

/-- Correction of inner segments gives them the corrected names. Each corrected name is among
    those around the next, which carries the induction. -/
theorem correctedInside_correctInner {around : List String} (haround : around ≠ [])
    (segments : List ClassSegment) :
    CorrectedInside around (segments.map name)
      ((correctInner (Text.joined "$" around) segments).map name) := by
  induction segments generalizing around with
  | nil => exact .nil
  | cons segment segments ih =>
    obtain ⟨name, arguments⟩ := segment
    have hnext : ∀ corrected, CorrectedInside (around ++ [corrected])
        (segments.map ClassSegment.name)
        ((correctInner (Text.joined "$" around ++ "$" ++ corrected) segments).map
          ClassSegment.name) := by
      intro corrected
      have hjoined := joined_append_singleton haround corrected
      rw [qualifiedName] at hjoined
      rw [← hjoined]
      exact ih (by simp)
    simp only [correctInner, List.map_cons, ClassSegment.name]
    by_cases hrepeats : RepeatsEnclosing around name
    · obtain ⟨simple, hsimple, rfl⟩ := hrepeats
      rw [correctedName_qualifiedName hsimple]
      exact .dropped hsimple (hnext simple)
    · rw [correctedName_of_not_repeats hrepeats]
      exact .kept hrepeats (hnext name)

theorem map_arguments_correctInner (enclosing : String) (segments : List ClassSegment) :
    (correctInner enclosing segments).map arguments = segments.map arguments := by
  induction segments generalizing enclosing with
  | nil => rfl
  | cons segment segments ih =>
    obtain ⟨name, arguments⟩ := segment
    rw [correctInner, List.map_cons, List.map_cons, ih]
    rfl

end ClassSegment

/-- Correction gives a class type its corrected names and leaves the arguments alone. -/
theorem ClassType.renamedBy_correct (type : ClassType) :
    type.RenamedBy ClassType.correct CorrectedNames := by
  rintro ⟨outer, inner⟩ hnames
  rw [← hnames]
  refine ⟨?_, ?_⟩
  · exact .mk (ClassSegment.correctedInside_correctInner (List.cons_ne_nil outer.name []) inner)
  · exact congrArg (outer.arguments :: ·)
      (ClassSegment.map_arguments_correctInner outer.name inner)

/-- Correction keeps the shape of a signature and changes the names of its class types as it
    does for one alone. -/
theorem Signature.related_correct (signature : Signature) :
    signature.Related CorrectedNames signature.correct :=
  signature.related_mapClassTypes fun type _ => type.renamedBy_correct

/-! ## Correction stays inside the grammar -/

theorem CorrectedInside.isName {around names others : List String}
    (h : CorrectedInside around names others)
    (hnames : ∀ name ∈ names, IsName ['<', '.', ';'] name) :
    ∀ name ∈ others, IsName ['<', '.', ';'] name := by
  induction h with
  | nil => exact hnames
  | dropped hsimple _ ih =>
    rw [List.forall_mem_cons] at hnames ⊢
    refine ⟨⟨hsimple, fun c hc => hnames.1.no_stop c ?_⟩, ih hnames.2⟩
    rw [qualifiedName, String.toList_append]
    exact List.mem_append_right _ hc
  | kept _ _ ih =>
    rw [List.forall_mem_cons] at hnames ⊢
    exact ⟨hnames.1, ih hnames.2⟩

theorem keepsNamesValid_correctedNames : KeepsNamesValid CorrectedNames := by
  rintro _ _ ⟨h⟩ hnames
  rw [List.forall_mem_cons] at hnames ⊢
  exact ⟨hnames.1, h.isName hnames.2⟩

/-- The corrected text of a signature stands for the corrected signature. -/
theorem parse_correctSignature {s : String} {signature : Signature}
    (h : Signature.parse s = .ok signature) :
    Signature.parse (correctSignature s) = .ok signature.correct := by
  obtain ⟨-, hformed⟩ := Signature.wellFormed_of_parse h
  rw [correctSignature, h]
  exact Signature.parse_text
    (signature.related_correct.wellFormed keepsNamesValid_correctedNames hformed)

theorem correctSignature_of_error {s : String} {cause : Malformed}
    (h : Signature.parse s = .error cause) : correctSignature s = s := by
  rw [correctSignature, h]

/-- Correction leaves a text alone that is no signature. The corrected text of a signature
    stands for one of the same shape, in which nothing but names of inner classes is different:
    those that repeated what encloses them have lost the repetition. So remapping finds a
    corrected text to be no signature only if the text was none to begin with, which it then
    gives back. -/
theorem correctSignature_keeps_shape (s : String) :
    (∀ cause, Signature.parse s = .error cause → correctSignature s = s) ∧
    (∀ signature, Signature.parse s = .ok signature →
      ∃ corrected, Signature.parse (correctSignature s) = .ok corrected ∧
        signature.Related CorrectedNames corrected) ∧
    ∀ (renames : Renames) (cause : Malformed),
      Signature.parse (correctSignature s) = .error cause →
        Signature.parse s = .error cause ∧ renames.remapSignature s = s := by
  refine ⟨fun cause h => correctSignature_of_error h, fun signature h => ?_, ?_⟩
  · exact ⟨signature.correct, parse_correctSignature h, signature.related_correct⟩
  · intro renames cause hcause
    cases h : Signature.parse s with
    | ok signature =>
      rw [parse_correctSignature h] at hcause
      cases hcause
    | error other =>
      have hsame := correctSignature_of_error h
      rw [hsame, h] at hcause
      refine ⟨hcause, ?_⟩
      unfold Renames.remapSignature
      dsimp only
      rw [hsame, h]

/-- An inner class of `a` written with its qualified name, one inside it and one among the
    type arguments. -/
theorem correctSignature_keeps_shape_nested :
    let s := "(TK;)La<TT;>.a$b<+Lx.x$y;>.c;"
    Signature.parse s = .ok (nestedResult "a$b" "x$y") ∧
      Signature.parse (correctSignature s) = .ok (nestedResult "b" "y") ∧
      ∃ corrected, Signature.parse (correctSignature s) = .ok corrected ∧
        (nestedResult "a$b" "x$y").Related CorrectedNames corrected := by
  intro s
  have hparse : Signature.parse s = .ok (nestedResult "a$b" "x$y") := parse_nestedResult_qualified
  exact ⟨hparse, parse_nestedResult_corrected, (correctSignature_keeps_shape s).2.1 _ hparse⟩

/-! ## Class types of related signatures -/

section ClassTypes

variable {R : NamesRelation}

/-- Class types with related names. -/
abbrev ClassType.NamesRelated (R : NamesRelation) (type other : ClassType) : Prop :=
  R type.names other.names

-- The recursion is on the first signature; the relation is taken apart beside it.
mutual

theorem GenericType.Related.forall₂_classTypes : ∀ (type : GenericType) {other : GenericType},
    type.Related R other →
      List.Forall₂ (ClassType.NamesRelated R) type.classTypes other.classTypes
  | .base _, _, .base _ => .nil
  | .reference type, _, .reference h => by
    rw [GenericType.classTypes, GenericType.classTypes]
    exact ReferenceType.Related.forall₂_classTypes type h

theorem ReferenceType.Related.forall₂_classTypes : ∀ (type : ReferenceType)
    {other : ReferenceType}, type.Related R other →
      List.Forall₂ (ClassType.NamesRelated R) type.classTypes other.classTypes
  | .classType type, _, .classType h => by
    rw [ReferenceType.classTypes, ReferenceType.classTypes]
    exact ClassType.Related.forall₂_classTypes type h
  | .typeVariable _, _, .typeVariable _ => .nil
  | .array component, _, .array h => by
    rw [ReferenceType.classTypes, ReferenceType.classTypes]
    exact GenericType.Related.forall₂_classTypes component h

theorem ClassType.Related.forall₂_classTypes : ∀ (type : ClassType) {other : ClassType},
    type.Related R other →
      List.Forall₂ (ClassType.NamesRelated R) type.classTypes other.classTypes
  | .mk outer inner, .mk _ _, .mk hnames hsegments => by
    obtain ⟨hfirst, hrest⟩ := List.forall₂_cons.mp hsegments
    rw [ClassType.classTypes, ClassType.classTypes]
    exact .cons hnames (List.rel_append (ClassSegment.Related.forall₂_classTypes outer hfirst)
      (ClassSegment.forall₂_innerClassTypes inner hrest))

theorem ClassSegment.forall₂_innerClassTypes : ∀ (segments : List ClassSegment)
    {others : List ClassSegment}, List.Forall₂ (ClassSegment.Related R) segments others →
      List.Forall₂ (ClassType.NamesRelated R) (ClassSegment.innerClassTypes segments)
        (ClassSegment.innerClassTypes others)
  | [], _, .nil => .nil
  | segment :: segments, _, .cons h hrest => by
    rw [ClassSegment.innerClassTypes, ClassSegment.innerClassTypes]
    exact List.rel_append (ClassSegment.Related.forall₂_classTypes segment h)
      (ClassSegment.forall₂_innerClassTypes segments hrest)

theorem ClassSegment.Related.forall₂_classTypes : ∀ (segment : ClassSegment)
    {other : ClassSegment}, segment.Related R other →
      List.Forall₂ (ClassType.NamesRelated R) segment.classTypes other.classTypes
  | .mk _ arguments, .mk _ _, .mk h => by
    rw [ClassSegment.classTypes, ClassSegment.classTypes]
    exact TypeArgument.forall₂_listClassTypes arguments h

theorem TypeArgument.forall₂_listClassTypes : ∀ (arguments : List TypeArgument)
    {others : List TypeArgument}, List.Forall₂ (TypeArgument.Related R) arguments others →
      List.Forall₂ (ClassType.NamesRelated R) (TypeArgument.listClassTypes arguments)
        (TypeArgument.listClassTypes others)
  | [], _, .nil => .nil
  | argument :: arguments, _, .cons h hrest => by
    rw [TypeArgument.listClassTypes, TypeArgument.listClassTypes]
    exact List.rel_append (TypeArgument.Related.forall₂_classTypes argument h)
      (TypeArgument.forall₂_listClassTypes arguments hrest)

theorem TypeArgument.Related.forall₂_classTypes : ∀ (argument : TypeArgument)
    {other : TypeArgument}, argument.Related R other →
      List.Forall₂ (ClassType.NamesRelated R) argument.classTypes other.classTypes
  | .any, _, .any => .nil
  | .bounded _ bound, _, .bounded _ h => by
    rw [TypeArgument.classTypes, TypeArgument.classTypes]
    exact ReferenceType.Related.forall₂_classTypes bound h

end

theorem forall₂_flatMap_classTypes {α : Type} {S : α → α → Prop} {T : ClassType → ClassType → Prop}
    {classTypes : α → List ClassType} {items others : List α}
    (hstep : ∀ a b, S a b → List.Forall₂ T (classTypes a) (classTypes b))
    (h : List.Forall₂ S items others) :
    List.Forall₂ T (items.flatMap classTypes) (others.flatMap classTypes) := by
  induction h with
  | nil => exact .nil
  | cons hab _ ih =>
    rw [List.flatMap_cons, List.flatMap_cons]
    exact List.rel_append (hstep _ _ hab) ih

theorem forall₂_toList {α : Type} {S : α → α → Prop} {item other : Option α}
    (h : Option.Rel S item other) : List.Forall₂ S item.toList other.toList := by
  cases h with
  | none => exact .nil
  | some hab => exact .cons hab .nil

theorem TypeParameter.Related.forall₂_classTypes {parameter other : TypeParameter}
    (h : parameter.Related R other) :
    List.Forall₂ (ClassType.NamesRelated R) parameter.classTypes other.classTypes := by
  have hbound : ∀ a b : ReferenceType, a.Related R b →
      List.Forall₂ (ClassType.NamesRelated R) a.classTypes b.classTypes :=
    fun a _ => ReferenceType.Related.forall₂_classTypes a
  exact List.rel_append (forall₂_flatMap_classTypes hbound (forall₂_toList h.classBound))
    (forall₂_flatMap_classTypes hbound h.interfaceBounds)

/-- Signatures of the same shape have as many class types, in the same places, and those in
    the same place have related names. -/
theorem Signature.Related.forall₂_classTypes {signature other : Signature}
    (h : signature.Related R other) :
    List.Forall₂ (ClassType.NamesRelated R) signature.classTypes other.classTypes := by
  have hparameter : ∀ a b : TypeParameter, a.Related R b →
      List.Forall₂ (ClassType.NamesRelated R) a.classTypes b.classTypes :=
    fun _ _ => TypeParameter.Related.forall₂_classTypes
  have htype : ∀ a b : GenericType, a.Related R b →
      List.Forall₂ (ClassType.NamesRelated R) a.classTypes b.classTypes :=
    fun a _ => GenericType.Related.forall₂_classTypes a
  have hreference : ∀ a b : ReferenceType, a.Related R b →
      List.Forall₂ (ClassType.NamesRelated R) a.classTypes b.classTypes :=
    fun a _ => ReferenceType.Related.forall₂_classTypes a
  have hclass : ∀ a b : ClassType, a.Related R b →
      List.Forall₂ (ClassType.NamesRelated R) a.classTypes b.classTypes :=
    fun a _ => ClassType.Related.forall₂_classTypes a
  cases h with
  | ofClass h =>
    exact List.rel_append (List.rel_append (forall₂_flatMap_classTypes hparameter h.parameters)
      (hclass _ _ h.superclass)) (forall₂_flatMap_classTypes hclass h.interfaces)
  | ofMethod h =>
    exact List.rel_append (List.rel_append
      (List.rel_append (forall₂_flatMap_classTypes hparameter h.typeParameters)
        (forall₂_flatMap_classTypes htype h.parameters))
      (forall₂_flatMap_classTypes htype (forall₂_toList h.result)))
      (forall₂_flatMap_classTypes hreference h.thrown)
  | ofField h => exact hreference _ _ h

end ClassTypes

/-! ## When one correction is enough -/

/-- Names that correction leaves as they are repeat nothing. -/
theorem CorrectedInside.unrepeated {around names others : List String}
    (h : CorrectedInside around names others) (hsame : others = names) :
    Unrepeated around names := by
  induction h with
  | nil => trivial
  | dropped _ _ _ => exact absurd (List.cons.inj hsame).1.symm (qualifiedName_ne_self _ _)
  | kept hname _ ih => exact ⟨hname, ih (List.cons.inj hsame).2⟩

theorem ClassSegment.correctInner_eq_self {around : List String} (haround : around ≠ [])
    {segments : List ClassSegment} (h : Unrepeated around (segments.map name)) :
    correctInner (Text.joined "$" around) segments = segments := by
  induction segments generalizing around with
  | nil => rfl
  | cons segment segments ih =>
    obtain ⟨name, arguments⟩ := segment
    obtain ⟨hname, hrest⟩ := h
    have hjoined := joined_append_singleton haround name
    rw [qualifiedName] at hjoined
    have hinner := ih (by simp) hrest
    simp only [ClassSegment.name] at hname hinner
    rw [correctInner, correctedName_of_not_repeats hname, ← hjoined, hinner]

/-- Correction leaves a class type as it is if no inner name repeats what encloses it. -/
theorem ClassType.correct_eq_self {type : ClassType} (h : type.Unrepeated) :
    type.correct = type := by
  obtain ⟨outer, inner⟩ := type
  exact congrArg (ClassType.mk outer)
    (ClassSegment.correctInner_eq_self (List.cons_ne_nil outer.name []) h)

theorem CorrectedNames.inside {outer outer' : String} {inner others : List String}
    (h : CorrectedNames (outer :: inner) (outer' :: others)) :
    outer' = outer ∧ CorrectedInside [outer] inner others := by
  cases h with
  | mk h => exact ⟨rfl, h⟩

/-- Correction leaves a text alone exactly if it is no signature or no name of an inner class
    in it repeats the class that encloses it. -/
theorem correctSignature_eq_self_iff (s : String) :
    correctSignature s = s ↔ ∀ signature, Signature.parse s = .ok signature →
      ∀ type ∈ signature.classTypes, type.Unrepeated := by
  constructor
  · intro hfixed signature hparse type htype
    have hsame : signature.correct = signature := by
      have hcorrected := parse_correctSignature hparse
      rw [hfixed, hparse] at hcorrected
      exact (Except.ok.inj hcorrected).symm
    -- Every class type of the signature stands in the place of its own correction.
    have hrelated := signature.related_correct.forall₂_classTypes
    rw [hsame, List.forall₂_same] at hrelated
    exact (CorrectedNames.inside (hrelated type htype)).2.unrepeated rfl
  · intro hunrepeated
    cases hparse : Signature.parse s with
    | error cause => exact correctSignature_of_error hparse
    | ok signature =>
      obtain ⟨htext, -⟩ := Signature.wellFormed_of_parse hparse
      have hsame : signature.correct = signature :=
        signature.mapClassTypes_eq_self fun type htype =>
          ClassType.correct_eq_self (hunrepeated signature hparse type htype)
      rw [correctSignature, hparse]
      dsimp only
      rw [hsame, htext]

/-- The name repeats the qualified name of the class that encloses it at least twice. -/
def RepeatsTwice (around : List String) (name : String) : Prop :=
  ∃ simple, RepeatsEnclosing around simple ∧ name = qualifiedName around simple

/-- No name of an inner class repeats the class that encloses it more than once, given the
    names around the first. What encloses a name is told by the names after correction. -/
def RepeatedOnce (around : List String) : List String → Prop
  | [] => True
  | name :: names =>
    ¬ RepeatsTwice around name ∧
      RepeatedOnce (around ++ [ClassSegment.correctedName (Text.joined "$" around) name]) names

/-- No inner class of the class type has a name that repeats the class that encloses it more
    than once. -/
def ClassType.RepeatedOnce (type : ClassType) : Prop :=
  Nomenclator.RepeatedOnce [type.outer.name] (type.inner.map ClassSegment.name)

theorem repeatsTwice_qualifiedName_iff {around : List String} {simple : String} :
    RepeatsTwice around (qualifiedName around simple) ↔ RepeatsEnclosing around simple := by
  constructor
  · rintro ⟨other, hother, hname⟩
    rwa [qualifiedName_injective hname]
  · exact fun h => ⟨simple, h, rfl⟩

theorem RepeatsTwice.repeatsEnclosing {around : List String} {name : String}
    (h : RepeatsTwice around name) : RepeatsEnclosing around name := by
  obtain ⟨_, ⟨simple, -, rfl⟩, rfl⟩ := h
  refine ⟨_, fun hempty => ?_, rfl⟩
  have hchars := congrArg String.toList hempty
  simp [qualifiedName] at hchars

/-- Corrected names repeat nothing exactly if the names before repeated nothing twice. -/
theorem CorrectedInside.unrepeated_iff {around names others : List String}
    (h : CorrectedInside around names others) :
    Unrepeated around others ↔ RepeatedOnce around names := by
  induction h with
  | nil => exact Iff.rfl
  | dropped hsimple _ ih =>
    rw [Unrepeated, RepeatedOnce, repeatsTwice_qualifiedName_iff,
      ClassSegment.correctedName_qualifiedName hsimple, ih]
  | kept hname _ ih =>
    rw [Unrepeated, RepeatedOnce, ClassSegment.correctedName_of_not_repeats hname, ih]
    exact and_congr_left fun _ => ⟨fun _ htwice => hname htwice.repeatsEnclosing, fun _ => hname⟩

theorem ClassType.unrepeated_iff_of_correctedNames {type other : ClassType}
    (h : CorrectedNames type.names other.names) : other.Unrepeated ↔ type.RepeatedOnce := by
  obtain ⟨houter, hinner⟩ := CorrectedNames.inside h
  rw [ClassType.Unrepeated, ClassType.RepeatedOnce, houter]
  exact hinner.unrepeated_iff

theorem forall_mem_iff_of_forall₂ {α : Type} {S : α → α → Prop} {P Q : α → Prop}
    {items others : List α} (h : List.Forall₂ S items others) (hstep : ∀ a b, S a b → (Q b ↔ P a)) :
    (∀ b ∈ others, Q b) ↔ ∀ a ∈ items, P a := by
  induction h with
  | nil => simp
  | cons hab _ ih => rw [List.forall_mem_cons, List.forall_mem_cons, hstep _ _ hab, ih]

/-- A second correction changes nothing exactly if the text is no signature or no name of an
    inner class in it repeats the class that encloses it more than once. -/
theorem correctSignature_idempotent_iff (s : String) :
    correctSignature (correctSignature s) = correctSignature s ↔
      ∀ signature, Signature.parse s = .ok signature →
        ∀ type ∈ signature.classTypes, type.RepeatedOnce := by
  cases hparse : Signature.parse s with
  | error cause =>
    rw [correctSignature_of_error hparse, correctSignature_of_error hparse]
    simp
  | ok signature =>
    rw [correctSignature_eq_self_iff, parse_correctSignature hparse]
    have hclassTypes : (∀ type ∈ signature.correct.classTypes, type.Unrepeated) ↔
        ∀ type ∈ signature.classTypes, type.RepeatedOnce :=
      forall_mem_iff_of_forall₂ signature.related_correct.forall₂_classTypes
        fun _ _ => ClassType.unrepeated_iff_of_correctedNames
    simpa using hclassTypes

/-- An inner class whose name repeats the enclosing class twice: each correction drops one
    repetition. -/
theorem correctSignature_not_idempotent :
    correctSignature "La.a$a$b;" = "La.a$b;" ∧
    correctSignature (correctSignature "La.a$a$b;") = "La.b;" ∧
    correctSignature (correctSignature "La.a$a$b;") ≠ correctSignature "La.a$a$b;" := by
  have honce : correctSignature "La.a$a$b;" = "La.a$b;" := by
    have hparse : Signature.parse "La.a$a$b;" = .ok (innerOfA "a$a$b") :=
      parse_innerOfA (by decide +kernel) (by decide +kernel)
    rw [correctSignature, hparse]
    decide +kernel
  have htwice : correctSignature "La.a$b;" = "La.b;" := by
    have hparse : Signature.parse "La.a$b;" = .ok (innerOfA "a$b") :=
      parse_innerOfA (by decide +kernel) (by decide +kernel)
    rw [correctSignature, hparse]
    decide +kernel
  rw [honce, htwice]
  exact ⟨rfl, rfl, by decide⟩

end Nomenclator

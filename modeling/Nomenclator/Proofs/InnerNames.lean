import Nomenclator.Proofs.SignatureShape
import Nomenclator.Proofs.SignatureText
import Nomenclator.Signature.Correction

/-!
# Names of inner classes repeated and restored

A signature may repeat, in front of the name of an inner class, the qualified name of the
class that encloses it. Correction undoes this wherever it was done, at any number of inner
classes of any class types of the signature: if no name repeats its enclosing class to begin
with, then correcting the text gives the text back.

Results:
* `ClassSegment.simpleName?_eq_some_iff`: which names repeat the enclosing class.
* `correctInner_eq_of_qualified`: correction restores the inner classes of one class type.
* `correctSignature_restores`: correction restores the text of a signature.
-/

namespace Nomenclator

/-! ## Qualified names -/

/-- The qualified name of an inner class, given the names of the classes around it from the
    outside in. -/
def qualifiedName (around : List String) (name : String) : String :=
  Text.joined "$" around ++ "$" ++ name

/-- The name repeats the qualified name of the class that encloses it. -/
def RepeatsEnclosing (around : List String) (name : String) : Prop :=
  ∃ simple, simple ≠ "" ∧ name = qualifiedName around simple

/-- No name of an inner class repeats the class that encloses it, given the names around the
    first. -/
def Unrepeated (around : List String) : List String → Prop
  | [] => True
  | name :: names => ¬ RepeatsEnclosing around name ∧ Unrepeated (around ++ [name]) names

/-- No inner class of the class type has a name that repeats the class that encloses it. -/
def ClassType.Unrepeated (type : ClassType) : Prop :=
  Nomenclator.Unrepeated [type.outer.name] (type.inner.map ClassSegment.name)

/-- Some names of inner classes, any of them, are qualified; the others are as they were.
    What encloses a name is told by the names as they were. -/
inductive QualifiedInside : List String → List String → List String → Prop
  | nil {around : List String} : QualifiedInside around [] []
  | cons {around names others : List String} {name other : String} :
      other = name ∨ other = qualifiedName around name →
      QualifiedInside (around ++ [name]) names others →
      QualifiedInside around (name :: names) (other :: others)

/-- Some names of inner classes of a class type are qualified; the outermost is as it was. -/
inductive SomeQualified : NamesRelation
  | mk {outer : String} {inner others : List String} :
      QualifiedInside [outer] inner others → SomeQualified (outer :: inner) (outer :: others)

theorem joined_append_singleton {around : List String} (h : around ≠ []) (name : String) :
    Text.joined "$" (around ++ [name]) = qualifiedName around name := by
  rw [qualifiedName]
  induction around with
  | nil => exact absurd rfl h
  | cons first around ih =>
    cases around with
    | nil => simp [Text.joined]
    | cons second around =>
      have ih := ih (by simp)
      simp only [List.cons_append] at ih
      simp only [List.cons_append, Text.joined, ih, String.append_assoc]

theorem joined_no_stop {names : List String} (h : ∀ name ∈ names, IsName ['<', '.', ';'] name) :
    ∀ c ∈ (Text.joined "$" names).toList, c ∉ ['<', '.', ';'] := by
  induction names with
  | nil => simp [Text.joined]
  | cons first names ih =>
    rw [List.forall_mem_cons] at h
    cases names with
    | nil => exact h.1.no_stop
    | cons second names =>
      rw [Text.joined, String.toList_append, String.toList_append, List.forall_mem_append,
        List.forall_mem_append]
      · exact ⟨⟨h.1.no_stop, by simp⟩, ih h.2⟩
      · exact List.cons_ne_nil _ _

/-- A qualified name has no character that ends a name in a signature. -/
theorem IsName.qualifiedName {around : List String} {name : String}
    (haround : ∀ name ∈ around, IsName ['<', '.', ';'] name)
    (hname : IsName ['<', '.', ';'] name) :
    IsName ['<', '.', ';'] (Nomenclator.qualifiedName around name) where
  ne_empty hempty := by
    have htext := congrArg String.toList hempty
    simp [Nomenclator.qualifiedName] at htext
  no_stop := by
    rw [Nomenclator.qualifiedName, String.toList_append, String.toList_append,
      List.forall_mem_append, List.forall_mem_append]
    exact ⟨⟨joined_no_stop haround, by simp⟩, hname.no_stop⟩

theorem QualifiedInside.isName {around names others : List String}
    (h : QualifiedInside around names others)
    (haround : ∀ name ∈ around, IsName ['<', '.', ';'] name)
    (hnames : ∀ name ∈ names, IsName ['<', '.', ';'] name) :
    ∀ name ∈ others, IsName ['<', '.', ';'] name := by
  induction h with
  | nil => simp
  | cons hname _ ih =>
    rw [List.forall_mem_cons] at hnames ⊢
    refine ⟨?_, ih ?_ hnames.2⟩
    · obtain rfl | rfl := hname
      · exact hnames.1
      · exact hnames.1.qualifiedName haround
    · exact List.forall_mem_append.mpr ⟨haround, List.forall_mem_singleton.mpr hnames.1⟩

theorem keepsNamesValid_someQualified : KeepsNamesValid SomeQualified := by
  rintro _ _ ⟨h⟩ hnames
  rw [List.forall_mem_cons] at hnames ⊢
  exact ⟨hnames.1, h.isName (by simpa using hnames.1) hnames.2⟩

/-! ## Correction of one class type -/

theorem Text.dropLeading?_append (lead rest : List Char) :
    dropLeading? lead (lead ++ rest) = some rest := by
  induction lead with
  | nil => cases rest <;> rfl
  | cons c lead ih => rw [List.cons_append, dropLeading?, if_pos rfl, ih]

/-- The simple name is what follows the qualified name of the enclosing class. -/
theorem ClassSegment.simpleName?_eq_some_iff {around : List String} {name simple : String} :
    simpleName? (Text.joined "$" around) name = some simple ↔
      simple ≠ "" ∧ name = qualifiedName around simple := by
  rw [simpleName?, qualifiedName]
  constructor
  · split
    · next c rest hdrop =>
      intro h
      have hsimple : c :: rest = simple.toList := by
        rw [← Option.some.inj h, String.toList_ofList]
      have hname := Text.dropLeading?_eq_some hdrop
      rw [hsimple] at hname
      refine ⟨?_, ?_⟩
      · rintro rfl
        cases hsimple
      · rw [← String.toList_inj, hname]
        simp
    · intro h
      cases h
  · rintro ⟨hne, rfl⟩
    have hdrop : Text.dropLeading? ((Text.joined "$" around).toList ++ ['$'])
        (Text.joined "$" around ++ "$" ++ simple).toList = some simple.toList := by
      rw [String.toList_append, String.toList_append]
      exact Text.dropLeading?_append _ _
    rw [hdrop]
    cases hsimple : simple.toList with
    | nil => exact absurd (String.toList_inj.mp hsimple) hne
    | cons c rest => simp [← hsimple]

instance (around : List String) (name : String) : Decidable (RepeatsEnclosing around name) :=
  decidable_of_iff (ClassSegment.simpleName? (Text.joined "$" around) name).isSome <| by
    simp only [Option.isSome_iff_exists, ClassSegment.simpleName?_eq_some_iff, RepeatsEnclosing]

instance Unrepeated.decidable : ∀ around names, Decidable (Unrepeated around names)
  | _, [] => inferInstanceAs (Decidable True)
  | around, name :: names =>
    have := Unrepeated.decidable (around ++ [name]) names
    inferInstanceAs (Decidable (¬ RepeatsEnclosing around name ∧ _))

instance (type : ClassType) : Decidable type.Unrepeated :=
  inferInstanceAs (Decidable (Nomenclator.Unrepeated _ _))

/-- A name that repeats nothing is found again, whether it was qualified or not. -/
theorem ClassSegment.correctedName_eq {around : List String} {name other : String}
    (hname : name ≠ "") (hunrepeated : ¬ RepeatsEnclosing around name)
    (h : other = name ∨ other = qualifiedName around name) :
    correctedName (Text.joined "$" around) other = name := by
  rw [correctedName]
  obtain rfl | rfl := h
  · cases hsimple : simpleName? (Text.joined "$" around) other with
    | none => rfl
    | some simple => exact absurd ⟨simple, simpleName?_eq_some_iff.mp hsimple⟩ hunrepeated
  · rw [simpleName?_eq_some_iff.mpr ⟨hname, rfl⟩, Option.getD_some]

/-- Correction restores the inner classes of a class type. The names restored so far are those
    by which the next one was qualified, which keeps the induction going. -/
theorem ClassSegment.correctInner_eq_of_qualified {around names others : List String}
    (h : QualifiedInside around names others) (haround : around ≠ [])
    (hunrepeated : Unrepeated around names) (hne : ∀ name ∈ names, name ≠ "")
    {segments corrupted : List ClassSegment} (hsegments : segments.map name = names)
    (hcorrupted : corrupted.map name = others)
    (harguments : corrupted.map arguments = segments.map arguments) :
    correctInner (Text.joined "$" around) corrupted = segments := by
  induction h generalizing segments corrupted with
  | nil =>
    rw [List.map_eq_nil_iff] at hsegments hcorrupted
    rw [hsegments, hcorrupted, correctInner]
  | @cons around names others name other hname _ ih =>
    obtain ⟨⟨name, arguments⟩, segments, rfl, rfl, hrest⟩ := List.map_eq_cons_iff.mp hsegments
    obtain ⟨⟨other, arguments'⟩, corrupted, rfl, rfl, hrest'⟩ :=
      List.map_eq_cons_iff.mp hcorrupted
    obtain ⟨(rfl : arguments' = arguments), hmore⟩ := List.cons.inj harguments
    rw [List.forall_mem_cons] at hne
    have hcorrected := correctedName_eq hne.1 hunrepeated.1 hname
    have hjoined := joined_append_singleton haround name
    rw [qualifiedName] at hjoined
    have hinner := ih (by simp) hunrepeated.2 hne.2 hrest hrest' hmore
    simp only [ClassSegment.name] at hcorrected hinner hjoined
    rw [correctInner, hcorrected, ← hjoined, hinner]

/-- Correction restores a class type of which some inner names were qualified. -/
theorem ClassType.restoredBy_correct {type : ClassType} (hvalid : type.IsValid)
    (hunrepeated : type.Unrepeated) : type.RestoredBy correct SomeQualified := by
  obtain ⟨⟨name, arguments⟩, inner⟩ := type
  rintro ⟨⟨name', arguments'⟩, inner'⟩ hnames harguments
  obtain ⟨(rfl : arguments' = arguments), hinner⟩ := List.cons.inj harguments
  have hne : ∀ name ∈ inner.map ClassSegment.name, name ≠ "" := by
    rw [ClassType.IsValid, ClassSegment.innerValid_iff] at hvalid
    rw [List.forall_mem_map]
    exact fun segment hs => ((ClassSegment.isValid_iff segment).mp (hvalid.2 segment hs)).1.ne_empty
  change SomeQualified (name :: inner.map ClassSegment.name)
    (name' :: inner'.map ClassSegment.name) at hnames
  cases hnames with
  | mk h =>
    have hrestored := ClassSegment.correctInner_eq_of_qualified h (by simp) hunrepeated hne rfl rfl
      hinner
    rw [correct]
    exact congrArg (ClassType.mk _) hrestored

/-! ## Correction of a signature -/

/-- Correcting the text of a signature undoes the qualification of any of its inner names. -/
theorem correctSignature_restores {text : String} {signature corrupted : Signature}
    (hparse : Signature.parse text = .ok signature)
    (hunrepeated : ∀ type ∈ signature.classTypes, type.Unrepeated)
    (hcorrupted : signature.Related SomeQualified corrupted) :
    correctSignature corrupted.text = signature.text := by
  obtain ⟨-, hformed⟩ := Signature.wellFormed_of_parse hparse
  have hreparse : Signature.parse corrupted.text = .ok corrupted :=
    Signature.parse_text (hcorrupted.wellFormed keepsNamesValid_someQualified hformed)
  have hrestored : ∀ type ∈ signature.classTypes,
      type.RestoredBy ClassType.correct SomeQualified := fun type ht =>
    ClassType.restoredBy_correct (hformed.isValid_of_mem_classTypes type ht) (hunrepeated type ht)
  rw [correctSignature, hreparse]
  exact congrArg Signature.text (signature.mapClassTypes_eq_of_related hcorrupted hrestored)

/-- A method that returns an inner class of an inner class, with another inner class among
    the type arguments; the names of two inner classes are left open. -/
def nestedResult (middle argument : String) : Signature :=
  .ofMethod
    { typeParameters := []
      parameters := [.reference (.typeVariable "K")]
      result := some (.reference (.classType (.mk
        (.mk "a" [.bounded .invariant (.typeVariable "T")])
        [.mk middle [.bounded .covariant (.classType (.mk (.mk "x" []) [.mk argument []]))],
          .mk "c" []])))
      thrown := [] }

theorem nestedResult_wellFormed {middle argument : String}
    (hmiddle : IsName ['<', '.', ';'] middle) (hargument : IsName ['<', '.', ';'] argument) :
    (nestedResult middle argument).WellFormed := by
  refine ⟨⟨by simp, by simp⟩, ?_, ?_, by simp⟩
  · rintro type (_ | ⟨_, ⟨⟩⟩)
    exact ⟨by rw [ReferenceType.IsValid]; decide +kernel, by decide +kernel⟩
  · have hothers : IsName ['<', '.', ';'] "a" ∧ IsName ['<', '.', ';'] "c" ∧
        IsName ['<', '.', ';'] "x" ∧ IsName [';'] "T" := by decide +kernel
    rintro type ⟨⟩
    refine ⟨?_, Nat.le_of_ble_eq_true rfl⟩
    simp [ReferenceType.IsValid, ClassType.IsValid, ClassSegment.IsValid,
      ClassSegment.InnerValid, TypeArgument.ListValid, TypeArgument.IsValid, hmiddle, hargument,
      hothers]

theorem parse_nestedResult {middle argument : String}
    (hmiddle : IsName ['<', '.', ';'] middle) (hargument : IsName ['<', '.', ';'] argument) :
    Signature.parse (nestedResult middle argument).text = .ok (nestedResult middle argument) :=
  Signature.parse_text (nestedResult_wellFormed hmiddle hargument)

theorem parse_nestedResult_qualified :
    Signature.parse "(TK;)La<TT;>.a$b<+Lx.x$y;>.c;" = .ok (nestedResult "a$b" "x$y") := by
  have htext : (nestedResult "a$b" "x$y").text = "(TK;)La<TT;>.a$b<+Lx.x$y;>.c;" := by
    decide +kernel
  rw [← htext]
  exact parse_nestedResult (by decide +kernel) (by decide +kernel)

theorem parse_nestedResult_corrected :
    Signature.parse (correctSignature "(TK;)La<TT;>.a$b<+Lx.x$y;>.c;") =
      .ok (nestedResult "b" "y") := by
  have htext : (nestedResult "a$b" "x$y").correct.text = (nestedResult "b" "y").text := by
    decide +kernel
  rw [correctSignature, parse_nestedResult_qualified]
  dsimp only
  rw [htext]
  exact parse_nestedResult (by decide +kernel) (by decide +kernel)

theorem correctSignature_restores_nested :
    (nestedResult "a$b" "x$y").text = "(TK;)La<TT;>.a$b<+Lx.x$y;>.c;" ∧
    (nestedResult "b" "y").text = "(TK;)La<TT;>.b<+Lx.y;>.c;" ∧
    correctSignature (nestedResult "a$b" "x$y").text = (nestedResult "b" "y").text := by
  have hrelated : (nestedResult "b" "y").Related SomeQualified (nestedResult "a$b" "x$y") := by
    have hargument : ReferenceType.Related SomeQualified
        (.classType (.mk (.mk "x" []) [.mk "y" []]))
        (.classType (.mk (.mk "x" []) [.mk "x$y" []])) :=
      .classType (.mk (.mk (.cons (.inr (by decide)) .nil))
        (.cons (.mk .nil) (.cons (.mk .nil) .nil)))
    refine .ofMethod ⟨.nil, .cons (.reference (.typeVariable _)) .nil,
      .some (.reference (.classType (.mk ?_ ?_))), .nil⟩
    · exact .mk (.cons (.inr (by decide)) (.cons (.inl rfl) .nil))
    · exact .cons (.mk (.cons (.bounded _ (.typeVariable _)) .nil))
        (.cons (.mk (.cons (.bounded _ hargument) .nil)) (.cons (.mk .nil) .nil))
  have hparse := parse_nestedResult (by decide +kernel : IsName ['<', '.', ';'] "b")
    (by decide +kernel : IsName ['<', '.', ';'] "y")
  exact ⟨by decide +kernel, by decide +kernel,
    correctSignature_restores hparse (by decide +kernel) hrelated⟩

end Nomenclator

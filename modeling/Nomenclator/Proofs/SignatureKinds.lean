import Nomenclator.Proofs.SignatureText

/-!
# Signatures of one kind and of any kind

A text may be read as the signature of a class, of a method or of a field where the kind is
known, and as a signature of any kind where it is not. The four readings agree but for one
thing: without type parameters the superclass of a class is first read as a type of objects,
which takes up a level of nesting that it does not take up where the kind is known.

Results:
* `classSignature_eq_some_iff`, `methodSignature_eq_some_iff`, `fieldSignature_eq_some_iff`,
  `anySignature_eq_some_iff`: what each reading accepts.
* `signatureKinds_agree_iff`: which texts of one kind are signatures of any kind, and of which
  kind these are.
* `signatureKinds_disagree`: the signature of a class that is none of any kind.
-/

namespace Nomenclator

open Scanner (startsWith)
open SignatureScanner (maxNesting)

/-- The signature of a class is in order where its kind is known. -/
structure ClassSignature.IsValid (signature : ClassSignature) : Prop where
  parameters : TypeParameter.ListValid signature.parameters
  superclass : signature.superclass.ArgumentsFit maxNesting
  interfaces : ∀ type ∈ signature.interfaces, type.ArgumentsFit maxNesting

theorem ClassSignature.WellFormed.toIsValid {signature : ClassSignature}
    (h : signature.WellFormed) : signature.IsValid :=
  ⟨h.parameters, h.superclass, h.interfaces⟩

namespace SignatureScanner

/-! ## What each reading accepts -/

theorem classSignature_eq_some_iff {text : List Char} {signature : ClassSignature} :
    classSignature text = some signature ↔ text = signature.chars ∧ signature.IsValid := by
  simp only [classSignature, Option.bind_eq_bind, Option.bind_eq_some_iff, Prod.exists,
    typeParameters_reads _ _ _, anyClassType_reads _ _ _, interfaces_eq_some_iff, Option.pure_def,
    Option.some.injEq]
  constructor
  · rintro ⟨parameters, _, ⟨rfl, -, hparameters⟩, superclass, _, ⟨rfl, hsuperclass⟩, types,
      ⟨rfl, htypes⟩, rfl⟩
    exact ⟨(List.append_assoc _ _ _).symm, hparameters, hsuperclass, htypes⟩
  · rintro ⟨rfl, hparameters, hsuperclass, htypes⟩
    refine ⟨signature.parameters, _, ⟨List.append_assoc _ _ _, fun _ => ?_, hparameters⟩,
      signature.superclass, _, ⟨rfl, hsuperclass⟩, signature.interfaces, ⟨rfl, htypes⟩, rfl⟩
    exact signature.superclass.startsWith_chars_of_ne _ (by decide)

theorem methodSignature_eq_some_iff {text : List Char} {signature : MethodSignature} :
    methodSignature text = some signature ↔ text = signature.chars ∧ signature.WellFormed := by
  simp only [methodSignature, Option.bind_eq_bind, Option.bind_eq_some_iff, Prod.exists,
    typeParameters_reads _ _ _, methodAfter_eq_some_iff, methodSignature_chars_eq]
  constructor
  · rintro ⟨_, _, ⟨rfl, -, htypes⟩, rfl, rfl, hparameters, hresult, hthrown⟩
    exact ⟨rfl, htypes, hparameters, hresult, hthrown⟩
  · rintro ⟨rfl, htypes, hparameters, hresult, hthrown⟩
    exact ⟨_, _, ⟨rfl, fun _ => rfl, htypes⟩, rfl, rfl, hparameters, hresult, hthrown⟩

theorem fieldSignature_eq_some_iff {text : List Char} {type : ReferenceType} :
    fieldSignature text = some type ↔ text = type.chars ∧ type.Fits maxNesting := by
  simp only [fieldSignature, Option.bind_eq_bind, Option.bind_eq_some_iff, Prod.exists,
    anyReferenceType_reads _ _ _]
  constructor
  · rintro ⟨_, rest, ⟨rfl, hfits⟩, h⟩
    split_ifs at h with hend
    obtain rfl : rest = [] := by simpa using hend
    cases h
    exact ⟨List.append_nil _, hfits⟩
  · rintro ⟨rfl, hfits⟩
    exact ⟨type, [], ⟨(List.append_nil _).symm, hfits⟩, rfl⟩

theorem anySignature_eq_some_iff {text : List Char} {signature : Signature} :
    anySignature text = some signature ↔ text = signature.chars ∧ signature.WellFormed := by
  constructor
  · exact anySignature_sound
  · rintro ⟨rfl, hformed⟩
    exact anySignature_complete hformed

variable {text : List Char}

theorem anySignature_ofField_iff {type : ReferenceType} :
    anySignature text = some (.ofField type) ↔ fieldSignature text = some type := by
  rw [anySignature_eq_some_iff, fieldSignature_eq_some_iff]
  rfl

theorem anySignature_ofMethod_iff {method : MethodSignature} :
    anySignature text = some (.ofMethod method) ↔ methodSignature text = some method := by
  rw [anySignature_eq_some_iff, methodSignature_eq_some_iff]
  rfl

/-! ## Texts of two kinds -/

/-- Behind the type parameters a class goes on with a letter and a method with a
    parenthesis. -/
theorem methodSignature_eq_none_of_classSignature {signature : ClassSignature}
    (h : classSignature text = some signature) : methodSignature text = none := by
  rw [Option.eq_none_iff_forall_ne_some]
  intro method hmethod
  obtain ⟨rfl, hclass⟩ := classSignature_eq_some_iff.mp h
  obtain ⟨hchars, hformed⟩ := methodSignature_eq_some_iff.mp hmethod
  have hstart (c : Char) (hc : c ≠ 'L') := signature.superclass.startsWith_chars_of_ne
    (signature.interfaces.flatMap ClassType.chars) hc
  have hread := typeParameters_append _ hclass.parameters (hstart '<' (by decide))
  rw [← List.append_assoc, ← ClassSignature.chars, hchars, methodSignature_chars_eq,
    typeParameters_append _ hformed.typeParameters rfl] at hread
  obtain ⟨-, hrest⟩ := Prod.mk.injEq .. ▸ Option.some.inj hread
  have hparenthesis := hstart '(' (by decide)
  rw [← hrest] at hparenthesis
  cases hparenthesis

/-- Where a class without type parameters is also a field, its superclass is the type of the
    field: with one level more both are read as a type of objects. -/
theorem eq_superclass_of_fieldSignature {signature : ClassSignature} {type : ReferenceType}
    (hclass : classSignature text = some signature) (hparameters : signature.parameters = [])
    (hfield : fieldSignature text = some type) : type = .classType signature.superclass := by
  obtain ⟨rfl, hvalid⟩ := classSignature_eq_some_iff.mp hclass
  obtain ⟨hchars, hfits⟩ := fieldSignature_eq_some_iff.mp hfield
  have htype := (referenceType_reads (maxNesting + 1)).read []
    (show type.Fits (maxNesting + 1) from ⟨hfits.isValid, Nat.le_succ_of_le hfits.depth_le⟩)
  have hsuperclass := (referenceType_reads (maxNesting + 1)).read
    (signature.interfaces.flatMap ClassType.chars)
    ((ReferenceType.classType_fits_iff maxNesting signature.superclass).mpr hvalid.superclass)
  have hsame : (ReferenceType.classType signature.superclass).chars ++
      signature.interfaces.flatMap ClassType.chars = type.chars ++ [] := by
    rw [List.append_nil, ← hchars, ClassSignature.chars, hparameters, ReferenceType.chars]
    rfl
  rw [hsame, htype] at hsuperclass
  exact (Prod.mk.injEq .. ▸ Option.some.inj hsuperclass).1

/-! ## Classes among the signatures of any kind -/

theorem anySignature_ofClass_iff {signature : ClassSignature}
    (h : (anySignature text).isSome) :
    anySignature text = some (.ofClass signature) ↔
      classSignature text = some signature ∧ fieldSignature text = none := by
  constructor
  · intro hany
    obtain ⟨rfl, hformed⟩ := anySignature_eq_some_iff.mp hany
    refine ⟨classSignature_eq_some_iff.mpr ⟨rfl, hformed.toIsValid⟩, ?_⟩
    rw [Option.eq_none_iff_forall_ne_some]
    intro type hfield
    rw [anySignature_ofField_iff.mpr hfield] at hany
    cases hany
  · rintro ⟨hclass, hfield⟩
    obtain ⟨found, hany⟩ := Option.isSome_iff_exists.mp h
    cases found with
    | ofClass other =>
      obtain ⟨rfl, hformed⟩ := anySignature_eq_some_iff.mp hany
      have hother := classSignature_eq_some_iff.mpr ⟨rfl, hformed.toIsValid⟩
      rw [hany, Option.some.inj (hother.symm.trans hclass)]
    | ofMethod method =>
      have hmethod := anySignature_ofMethod_iff.mp hany
      rw [methodSignature_eq_none_of_classSignature hclass] at hmethod
      cases hmethod
    | ofField type =>
      rw [anySignature_ofField_iff.mp hany] at hfield
      cases hfield

/-- The signature of a class is one of any kind exactly if it has type parameters or its
    superclass leaves a level of nesting for itself. -/
theorem isSome_anySignature_iff_of_classSignature {signature : ClassSignature}
    (hclass : classSignature text = some signature) :
    (anySignature text).isSome ↔
      (signature.parameters = [] → signature.superclass.depth ≤ maxNesting) := by
  constructor
  · intro h hparameters
    cases hfield : fieldSignature text with
    | none =>
      have hany := (anySignature_ofClass_iff h).mpr ⟨hclass, hfield⟩
      obtain ⟨-, hformed⟩ := anySignature_eq_some_iff.mp hany
      exact (ClassSignature.WellFormed.plain hformed hparameters).1
    | some type =>
      obtain ⟨-, hfits⟩ := fieldSignature_eq_some_iff.mp hfield
      rw [eq_superclass_of_fieldSignature hclass hparameters hfield] at hfits
      exact ((ReferenceType.classType_fits_iff_depth_le _ _).mp hfits).2
  · intro hdepth
    obtain ⟨rfl, hvalid⟩ := classSignature_eq_some_iff.mp hclass
    rw [Option.isSome_iff_exists]
    by_cases halone : signature.parameters = [] ∧ signature.interfaces = []
    · -- Nothing but the superclass: the text is that of a field.
      refine ⟨.ofField (.classType signature.superclass), anySignature_eq_some_iff.mpr ⟨?_, ?_⟩⟩
      · simp [ClassSignature.chars, halone, TypeParameter.listChars, Signature.chars,
          ReferenceType.chars]
      · exact (ReferenceType.classType_fits_iff_depth_le _ _).mpr
          ⟨hvalid.superclass, hdepth halone.1⟩
    · refine ⟨.ofClass signature, anySignature_eq_some_iff.mpr ⟨rfl, ?_⟩⟩
      exact ⟨hvalid.parameters, hvalid.superclass, hvalid.interfaces,
        fun hnone => ⟨hdepth hnone, fun hnil => halone ⟨hnone, hnil⟩⟩⟩

theorem isSome_of_isSome_anySignature (h : (anySignature text).isSome) :
    (classSignature text).isSome ∨ (methodSignature text).isSome ∨
      (fieldSignature text).isSome := by
  obtain ⟨found, hany⟩ := Option.isSome_iff_exists.mp h
  cases found with
  | ofClass signature =>
    exact Or.inl (Option.isSome_of_eq_some ((anySignature_ofClass_iff h).mp hany).1)
  | ofMethod method =>
    exact Or.inr (Or.inl (Option.isSome_of_eq_some (anySignature_ofMethod_iff.mp hany)))
  | ofField type =>
    exact Or.inr (Or.inr (Option.isSome_of_eq_some (anySignature_ofField_iff.mp hany)))

/-- What is a signature of one kind is one of any kind exactly if no class among them has a
    superclass that nests too deep. -/
theorem isSome_anySignature_iff :
    ((anySignature text).isSome ↔ (classSignature text).isSome ∨ (methodSignature text).isSome ∨
        (fieldSignature text).isSome) ↔
      ∀ signature, classSignature text = some signature → signature.parameters = [] →
        signature.superclass.depth ≤ maxNesting := by
  constructor
  · intro hagree signature hclass
    exact (isSome_anySignature_iff_of_classSignature hclass).mp
      (hagree.mpr (Or.inl (Option.isSome_of_eq_some hclass)))
  · refine fun hdepth => ⟨isSome_of_isSome_anySignature, ?_⟩
    rintro (h | h | h)
    · obtain ⟨signature, hclass⟩ := Option.isSome_iff_exists.mp h
      exact (isSome_anySignature_iff_of_classSignature hclass).mpr (hdepth signature hclass)
    · obtain ⟨method, hmethod⟩ := Option.isSome_iff_exists.mp h
      exact Option.isSome_of_eq_some (anySignature_ofMethod_iff.mpr hmethod)
    · obtain ⟨type, hfield⟩ := Option.isSome_iff_exists.mp h
      exact Option.isSome_of_eq_some (anySignature_ofField_iff.mpr hfield)

end SignatureScanner

/-! ## Readings of a text -/

theorem Malformed.isOk_signatureOr {α : Type} (s : String) (scanned : Option α) :
    (Malformed.signatureOr s scanned).isOk = scanned.isSome := by
  cases scanned <;> rfl

/-- The readings of a text agree. As a signature of any kind it is that of a field or of a method
    exactly if it is one where this kind is known, and that of a class exactly if it is one where
    this kind is known and is not that of a field as well. It is a signature of any kind exactly
    if it is one of some kind, unless the text is that of a class without type parameters whose
    superclass nests as deep as its arguments may and so one level deeper than a field. -/
theorem signatureKinds_agree_iff (s : String) :
    (∀ type, Signature.parse s = .ok (.ofField type) ↔ ReferenceType.parse s = .ok type) ∧
    (∀ method, Signature.parse s = .ok (.ofMethod method) ↔
      MethodSignature.parse s = .ok method) ∧
    ((Signature.parse s).isOk → ∀ signature, Signature.parse s = .ok (.ofClass signature) ↔
      ClassSignature.parse s = .ok signature ∧ ¬(ReferenceType.parse s).isOk) ∧
    (((Signature.parse s).isOk ↔ (ClassSignature.parse s).isOk ∨
        (MethodSignature.parse s).isOk ∨ (ReferenceType.parse s).isOk) ↔
      ∀ signature, ClassSignature.parse s = .ok signature → signature.parameters = [] →
        signature.superclass.depth ≤ maxNesting) := by
  simp only [Signature.parse, ClassSignature.parse, MethodSignature.parse, ReferenceType.parse,
    Malformed.signatureOr_eq_ok_iff, Malformed.isOk_signatureOr]
  refine ⟨?_, ?_, ?_, ?_⟩
  · exact fun type => SignatureScanner.anySignature_ofField_iff
  · exact fun method => SignatureScanner.anySignature_ofMethod_iff
  · intro h signature
    rw [SignatureScanner.anySignature_ofClass_iff h, Option.not_isSome_iff_eq_none]
  · exact SignatureScanner.isSome_anySignature_iff

/-! ## A class that nests one level deeper than a field -/

/-- A class with itself as its only argument, and so on inside, `levels` times. -/
def ClassType.nested : (levels : Nat) → ClassType
  | 0 => .mk (.mk "a" []) []
  | levels + 1 => .mk (.mk "a" [.bounded .invariant (.classType (nested levels))]) []

example : String.ofList (ClassType.nested 2).chars = "La<La<La;>;>;" := by decide

namespace ClassType

theorem depth_nested (levels : Nat) : (nested levels).depth = levels + 1 := by
  induction levels with
  | zero => rfl
  | succ levels ih =>
    simp [nested, depth, ClassSegment.argumentDepth, ClassSegment.innerDepth,
      TypeArgument.listDepth, TypeArgument.depth, ReferenceType.depth, ih]

theorem isValid_nested (levels : Nat) : (nested levels).IsValid := by
  have hname : IsName ['<', '.', ';'] "a" := by decide
  induction levels with
  | zero =>
    simp [nested, IsValid, ClassSegment.IsValid, ClassSegment.InnerValid, TypeArgument.ListValid,
      hname]
  | succ levels ih =>
    simp [nested, IsValid, ClassSegment.IsValid, ClassSegment.InnerValid, TypeArgument.ListValid,
      TypeArgument.IsValid, ReferenceType.IsValid, hname, ih]

theorem argumentsFit_nested (levels : Nat) : (nested levels).ArgumentsFit levels :=
  ⟨isValid_nested levels, (depth_le_succ_iff levels _).mp (depth_nested levels).le⟩

end ClassType

/-- The text of a class whose superclass has 128 levels of arguments is the signature of a class,
    but is no signature of any kind. -/
theorem signatureKinds_disagree :
    (ClassSignature.parse (String.ofList (ClassType.nested 128).chars)).isOk ∧
      ¬(Signature.parse (String.ofList (ClassType.nested 128).chars)).isOk := by
  have hclass : SignatureScanner.classSignature (ClassType.nested 128).chars =
      some ⟨[], ClassType.nested 128, []⟩ := by
    refine SignatureScanner.classSignature_eq_some_iff.mpr ⟨?_, ?_⟩
    · simp [ClassSignature.chars, TypeParameter.listChars]
    · exact ⟨⟨by simp, by simp⟩, ClassType.argumentsFit_nested 128, by simp⟩
  simp only [Signature.parse, ClassSignature.parse, Malformed.isOk_signatureOr,
    String.toList_ofList]
  refine ⟨Option.isSome_of_eq_some hclass, ?_⟩
  rw [SignatureScanner.isSome_anySignature_iff_of_classSignature hclass]
  intro hdepth
  have hle := hdepth rfl
  rw [ClassType.depth_nested] at hle
  exact absurd hle (by decide)

end Nomenclator

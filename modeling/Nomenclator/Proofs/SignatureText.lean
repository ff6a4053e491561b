import Nomenclator.Proofs.SignatureTypes

/-!
# Signatures and their texts

Reading signatures and writing them down define the same language: a text stands for a
signature exactly if it is the text of the signature and the signature is well formed.

Results:
* `typeParameters_reads`: type parameters, of which only the last may be without bounds.
* `anySignature_sound`, `anySignature_complete`: what is read as a signature.
* `Signature.parse_eq_ok_iff`: the text of a well-formed signature stands for it, and no
  other text stands for anything.
-/

namespace Nomenclator

open Scanner (Reads AcceptsRow startsWith)

theorem ClassType.startsWith_chars_of_ne (type : ClassType) (rest : List Char) {c : Char}
    (hc : c ≠ 'L') : startsWith c (type.chars ++ rest) = false := by
  obtain ⟨text, htext⟩ := type.chars_eq_cons
  rw [htext, List.cons_append, Scanner.startsWith_cons]
  exact decide_eq_false (Ne.symm hc)

namespace TypeParameter

/-- The text of a class bound, which may be left out. -/
def classBoundChars : Option ReferenceType → List Char
  | some bound => bound.chars
  | none => []

theorem chars_append (parameter : TypeParameter) (rest : List Char) :
    parameter.chars ++ rest =
      parameter.name.toList ++ ':' :: (classBoundChars parameter.classBound ++
        ((parameter.interfaceBounds.flatMap fun bound => ':' :: bound.chars) ++ rest)) := by
  obtain ⟨name, classBound, interfaceBounds⟩ := parameter
  cases classBound with
  | none =>
    simp only [chars, classBoundChars, List.append_assoc, List.cons_append, List.nil_append]
  | some bound =>
    simp only [chars, classBoundChars, List.append_assoc, List.cons_append]

/-- The text of a type parameter starts with its name. -/
theorem startsWith_chars {parameter : TypeParameter} (h : parameter.IsValid) (rest : List Char)
    {c : Char} (hc : c ∈ [':', '>']) : startsWith c (parameter.chars ++ rest) = false := by
  rw [chars_append]
  cases hname : parameter.name.toList with
  | nil => exact absurd (String.toList_eq_nil_iff.mp hname) h.name.ne_empty
  | cons d name =>
    have hd := h.name.no_stop d (by rw [hname]; exact List.mem_cons_self)
    rw [List.cons_append, Scanner.startsWith_cons, decide_eq_false_iff_not]
    rintro rfl
    exact hd hc

theorem chars_ne_nil (parameter : TypeParameter) : parameter.chars ≠ [] := by
  simp [chars]

end TypeParameter

namespace SignatureScanner

/-! ## Type parameters -/

theorem classBound_reads :
    classBound.Reads TypeParameter.classBoundChars fun bound rest =>
      (∀ type ∈ bound, type.Fits maxNesting) ∧
        (bound = none → (startsWith ':' rest || startsWith '>' rest) = true) := by
  intro text bound rest
  unfold classBound
  constructor
  · intro h
    split_ifs at h with hahead
    · obtain ⟨rfl, rfl⟩ := Prod.mk.injEq .. ▸ Option.some.inj h
      exact ⟨rfl, by simp, fun _ => hahead⟩
    · simp only [Option.bind_eq_bind, Option.bind_eq_some_iff, Prod.exists,
        anyReferenceType_reads _ _ _, Option.pure_def, Option.some.injEq, Prod.mk.injEq] at h
      obtain ⟨type, _, ⟨rfl, htype⟩, rfl, rfl⟩ := h
      exact ⟨rfl, by simpa using htype, by simp⟩
  · rintro ⟨rfl, hfits, hahead⟩
    cases bound with
    | none => rw [TypeParameter.classBoundChars, List.nil_append, if_pos (hahead rfl)]
    | some type =>
      rw [TypeParameter.classBoundChars, type.startsWith_chars_of_not_mem rest (by decide),
        type.startsWith_chars_of_not_mem rest (by decide),
        anyReferenceType_reads.read rest (hfits type rfl)]
      rfl

theorem interfaceBound_reads :
    interfaceBound.Reads (fun type => ':' :: type.chars) fun type _ => type.Fits maxNesting :=
  anyReferenceType_reads.behind ':'

/-- A type parameter ends where no colon announces another bound. Without bounds it must be
    the last one. -/
theorem typeParameter_reads :
    typeParameter.Reads TypeParameter.chars fun parameter rest =>
      parameter.IsValid ∧ startsWith ':' rest = false ∧
        (¬parameter.IsBounded → startsWith '>' rest = true) := by
  have hbounds := interfaceBound_reads.repeatWhile_closed (startsWith ':')
    (fun _ _ _ => rfl) (fun _ _ => List.cons_ne_nil _ _)
  intro text parameter rest
  simp only [typeParameter, Option.bind_eq_bind, Option.bind_eq_some_iff, Prod.exists,
    identifier_reads _ _ _ _, Scanner.expect_eq_some_iff, classBound_reads _ _ _, hbounds _ _ _,
    Option.pure_def, Option.some.injEq, Prod.mk.injEq]
  constructor
  · rintro ⟨name, _, ⟨rfl, hname, -⟩, _, rfl, bound, _, ⟨rfl, hbound, hahead⟩, bounds, _,
      ⟨rfl, hfits, hstop⟩, rfl, rfl⟩
    refine ⟨(TypeParameter.chars_append ⟨name, bound, bounds⟩ _).symm, ⟨hname, hbound, hfits⟩,
      hstop, ?_⟩
    intro hbare
    obtain ⟨hnone, hnil⟩ : ¬bound.isSome ∧ ¬bounds ≠ [] := not_or.mp hbare
    rw [not_not] at hnil
    subst hnil
    simpa [hstop] using hahead (by simpa using hnone)
  · rintro ⟨rfl, ⟨hname, hbound, hfits⟩, hstop, hbare⟩
    obtain ⟨name, bound, bounds⟩ := parameter
    refine ⟨name, _, ⟨TypeParameter.chars_append _ _, hname, by simp⟩, _, rfl, bound, _,
      ⟨rfl, hbound, ?_⟩, bounds, rest, ⟨rfl, hfits, hstop⟩, rfl, rfl⟩
    rintro rfl
    cases bounds with
    | nil => simp [hbare (by simp [TypeParameter.IsBounded])]
    | cons first bounds => rfl

/-- In a row of type parameters each but the last is followed by the name of another. -/
theorem acceptsRow_typeParameter_iff (parameters : List TypeParameter) (rest : List Char) :
    AcceptsRow TypeParameter.chars (fun parameter rest => parameter.IsValid ∧
        startsWith ':' rest = false ∧ (¬parameter.IsBounded → startsWith '>' rest = true))
      parameters ('>' :: rest) ↔ TypeParameter.ListValid parameters := by
  induction parameters with
  | nil => exact iff_of_true trivial ⟨by simp, by simp⟩
  | cons parameter parameters ih =>
    rw [AcceptsRow, ih]
    cases parameters with
    | nil =>
      constructor
      · rintro ⟨⟨hvalid, -⟩, -⟩
        exact ⟨by simpa using hvalid, by simp⟩
      · intro h
        exact ⟨⟨h.isValid _ List.mem_cons_self, rfl, fun _ => rfl⟩, ⟨by simp, by simp⟩⟩
    | cons next parameters =>
      have hfollows : ∀ c ∈ [':', '>'], next.IsValid → startsWith c
          ((next :: parameters).flatMap TypeParameter.chars ++ '>' :: rest) = false := by
        intro c hc hnext
        rw [List.flatMap_cons, List.append_assoc]
        exact TypeParameter.startsWith_chars hnext _ hc
      constructor
      · rintro ⟨⟨hvalid, -, hbare⟩, hlist⟩
        have hnext := hlist.isValid next List.mem_cons_self
        refine ⟨List.forall_mem_cons.mpr ⟨hvalid, hlist.isValid⟩, ?_⟩
        rw [List.dropLast_cons_cons, List.forall_mem_cons]
        refine ⟨?_, hlist.isBounded⟩
        by_contra hnot
        have hclose := hbare hnot
        rw [hfollows '>' (by decide) hnext] at hclose
        cases hclose
      · rintro ⟨hvalid, hbounded⟩
        rw [List.forall_mem_cons] at hvalid
        rw [List.dropLast_cons_cons, List.forall_mem_cons] at hbounded
        have hnext := hvalid.2 next List.mem_cons_self
        exact ⟨⟨hvalid.1, hfollows ':' (by decide) hnext, fun hnot => absurd hbounded.1 hnot⟩,
          ⟨hvalid.2, hbounded.2⟩⟩

theorem typeParameters_reads :
    typeParameters.Reads TypeParameter.listChars fun parameters rest =>
      (parameters = [] → startsWith '<' rest = false) ∧ TypeParameter.ListValid parameters := by
  have henclosed := enclosed_reads typeParameter_reads
    (fun parameter rest h => TypeParameter.startsWith_chars h.1 rest (by decide))
    (fun parameter _ _ => parameter.chars_ne_nil)
  refine henclosed.congr fun parameters rest => ?_
  rw [acceptsRow_typeParameter_iff]

/-! ## Whole signatures -/

theorem interfaces_eq_some_iff {text : List Char} {types : List ClassType} :
    interfaces text = some types ↔
      text = types.flatMap ClassType.chars ∧ ∀ type ∈ types, type.ArgumentsFit maxNesting := by
  have hrow := anyClassType_reads.repeatWhile_closed (fun ahead => !ahead.isEmpty)
    (fun type rest _ => by obtain ⟨text, htext⟩ := type.chars_eq_cons; rw [htext]; rfl)
    (fun type _ => by obtain ⟨text, htext⟩ := type.chars_eq_cons; simp [htext])
  simp only [interfaces, Option.bind_eq_bind, Option.bind_eq_some_iff, Prod.exists, hrow _ _ _,
    Option.pure_def, Option.some.injEq]
  constructor
  · rintro ⟨_, rest, ⟨rfl, haccepts, hrest⟩, rfl⟩
    obtain rfl : rest = [] := by simpa using hrest
    exact ⟨List.append_nil _, haccepts⟩
  · rintro ⟨rfl, haccepts⟩
    exact ⟨types, [], ⟨(List.append_nil _).symm, haccepts, rfl⟩, rfl⟩

theorem thrownType_reads :
    thrownType.Reads (fun type => '^' :: type.chars) fun type _ =>
      type.Fits maxNesting ∧ type.IsThrowable := by
  intro text type rest
  simp only [thrownType, Option.bind_eq_bind, Option.bind_eq_some_iff, Prod.exists,
    Scanner.expect_eq_some_iff, anyReferenceType_reads _ _ _]
  constructor
  · rintro ⟨_, rfl, thrown, _, ⟨rfl, hfits⟩, h⟩
    cases thrown with
    | array component => cases h
    | classType thrown =>
      obtain ⟨rfl, rfl⟩ := Prod.mk.injEq .. ▸ Option.some.inj h
      exact ⟨rfl, hfits, trivial⟩
    | typeVariable name =>
      obtain ⟨rfl, rfl⟩ := Prod.mk.injEq .. ▸ Option.some.inj h
      exact ⟨rfl, hfits, trivial⟩
  · rintro ⟨rfl, hfits, hthrowable⟩
    refine ⟨_, rfl, type, rest, ⟨rfl, hfits⟩, ?_⟩
    cases type with
    | array component => cases hthrowable
    | classType type => rfl
    | typeVariable name => rfl

/-- The text of a result type, a letter of its own if there is none. -/
def resultChars : Option GenericType → List Char
  | some type => type.chars
  | none => ['V']

theorem resultType_reads :
    resultType.Reads resultChars fun result _ =>
      ∀ type ∈ result, type.IfReference (·.Fits maxNesting) := by
  intro text result rest
  constructor
  · intro h
    unfold resultType at h
    split at h
    · obtain ⟨rfl, rfl⟩ := Prod.mk.injEq .. ▸ Option.some.inj h
      exact ⟨rfl, by simp⟩
    · simp only [Option.bind_eq_bind, Option.bind_eq_some_iff, Prod.exists,
        genericType_reads anyReferenceType_reads _ _ _, Option.pure_def, Option.some.injEq,
        Prod.mk.injEq] at h
      obtain ⟨type, _, ⟨rfl, hfits⟩, rfl, rfl⟩ := h
      exact ⟨rfl, by simpa using hfits⟩
  · rintro ⟨rfl, hfits⟩
    cases result with
    | none => rfl
    | some type =>
      have hread := (genericType_reads anyReferenceType_reads).read rest
        (hfits type rfl)
      unfold resultType
      rw [resultChars]
      split
      · next heq =>
        have hstart := type.startsWith_chars_of_not_mem rest (c := 'V') (by decide)
        rw [heq] at hstart
        simp at hstart
      · rw [hread]
        rfl

/-- The text of a method signature behind its type parameters. -/
def methodChars (signature : MethodSignature) : List Char :=
  '(' :: (signature.parameters.flatMap GenericType.chars ++ ')' ::
    (resultChars signature.result ++ signature.thrown.flatMap fun type => '^' :: type.chars))

theorem methodSignature_chars_eq (signature : MethodSignature) :
    signature.chars =
      TypeParameter.listChars signature.typeParameters ++ methodChars signature := by
  obtain ⟨typeParameters, parameters, result, thrown⟩ := signature
  cases result with
  | none =>
    simp only [MethodSignature.chars, methodChars, resultChars, List.append_assoc,
      List.cons_append]
  | some type =>
    simp only [MethodSignature.chars, methodChars, resultChars, List.append_assoc,
      List.cons_append]

theorem methodAfter_eq_some_iff {typeParameters : List TypeParameter} {text : List Char}
    {signature : MethodSignature} :
    methodAfter typeParameters text = some signature ↔
      text = methodChars signature ∧ signature.typeParameters = typeParameters ∧
        (∀ type ∈ signature.parameters, type.IfReference (·.Fits maxNesting)) ∧
        (∀ type ∈ signature.result, type.IfReference (·.Fits maxNesting)) ∧
        ∀ type ∈ signature.thrown, type.Fits maxNesting ∧ type.IsThrowable := by
  have hparameters := (genericType_reads anyReferenceType_reads).repeatWhile_closed
    (fun ahead => !startsWith ')' ahead)
    (fun type rest _ => by simp [type.startsWith_chars_of_not_mem rest (c := ')') (by decide)])
    (fun type _ => type.chars_ne_nil)
  have hthrown := thrownType_reads.repeatWhile_closed (startsWith '^')
    (fun _ _ _ => rfl) (fun _ _ => List.cons_ne_nil _ _)
  simp only [methodAfter, Option.bind_eq_bind, Option.bind_eq_some_iff, Prod.exists,
    Scanner.expect_eq_some_iff, hparameters _ _ _, resultType_reads _ _ _, hthrown _ _ _]
  constructor
  · rintro ⟨_, rfl, parameters, _, ⟨rfl, hparameters, -⟩, _, rfl, result, _, ⟨rfl, hresult⟩,
      thrown, rest, ⟨rfl, hthrown, -⟩, h⟩
    split_ifs at h with hrest
    obtain rfl : rest = [] := by simpa using hrest
    cases h
    exact ⟨by simp [methodChars], rfl, hparameters, hresult, hthrown⟩
  · rintro ⟨rfl, rfl, hparameters, hresult, hthrown⟩
    exact ⟨_, rfl, signature.parameters, _, ⟨rfl, hparameters, rfl⟩, _, rfl, signature.result, _,
      ⟨rfl, hresult⟩, signature.thrown, [], ⟨(List.append_nil _).symm, hthrown, rfl⟩, rfl⟩

theorem anySignature_sound {text : List Char} {signature : Signature}
    (h : anySignature text = some signature) :
    text = signature.chars ∧ signature.WellFormed := by
  unfold anySignature at h
  simp only [Option.bind_eq_bind, Option.bind_eq_some_iff, Prod.exists,
    typeParameters_reads _ _ _] at h
  obtain ⟨parameters, rest, ⟨rfl, -, hparameters⟩, h⟩ := h
  split_ifs at h with hmethod hnone
  · simp only [Option.bind_eq_some_iff, methodAfter_eq_some_iff, Option.pure_def,
      Option.some.injEq] at h
    obtain ⟨method, ⟨rfl, rfl, htypes, hresult, hthrown⟩, rfl⟩ := h
    exact ⟨(methodSignature_chars_eq method).symm, ⟨hparameters, htypes, hresult, hthrown⟩⟩
  · simp only [Option.bind_eq_some_iff, Prod.exists, anyReferenceType_reads _ _ _] at h
    obtain rfl : parameters = [] := by simpa using hnone
    obtain ⟨first, behind, ⟨rfl, hfirst⟩, h⟩ := h
    split_ifs at h with hend
    · obtain rfl : behind = [] := by simpa using hend
      cases h
      exact ⟨by simp [Signature.chars, TypeParameter.listChars], hfirst⟩
    · split at h
      · next superclass =>
        simp only [Option.bind_eq_some_iff, interfaces_eq_some_iff, Option.pure_def,
          Option.some.injEq] at h
        obtain ⟨types, ⟨rfl, htypes⟩, rfl⟩ := h
        obtain ⟨hfit, hdepth⟩ := (ReferenceType.classType_fits_iff_depth_le _ _).mp hfirst
        refine ⟨by simp [Signature.chars, ClassSignature.chars, ReferenceType.chars], ?_⟩
        refine ⟨hparameters, hfit, htypes, fun _ => ⟨hdepth, ?_⟩⟩
        rintro rfl
        exact hend rfl
      · cases h
  · simp only [Option.bind_eq_some_iff, Prod.exists, anyClassType_reads _ _ _,
      interfaces_eq_some_iff, Option.pure_def, Option.some.injEq] at h
    obtain ⟨superclass, _, ⟨rfl, hfit⟩, types, ⟨rfl, htypes⟩, rfl⟩ := h
    refine ⟨by simp [Signature.chars, ClassSignature.chars], hparameters, hfit, htypes, ?_⟩
    intro hempty
    exact absurd (by rw [show parameters = [] from hempty]; rfl) hnone

theorem typeParameters_append (parameters : List TypeParameter) {rest : List Char}
    (h : TypeParameter.ListValid parameters) (hrest : startsWith '<' rest = false) :
    typeParameters (TypeParameter.listChars parameters ++ rest) = some (parameters, rest) :=
  typeParameters_reads.read rest ⟨fun _ => hrest, h⟩

theorem anySignature_ofMethod {signature : MethodSignature} (h : signature.WellFormed) :
    anySignature signature.chars = some (.ofMethod signature) := by
  have hafter := methodAfter_eq_some_iff.mpr ⟨rfl, rfl, h.parameters, h.result, h.thrown⟩
  rw [methodSignature_chars_eq, anySignature, typeParameters_append _ h.typeParameters rfl]
  simp [hafter, show startsWith '(' (methodChars signature) = true from rfl]

/-- Without type parameters a type of objects comes first. -/
theorem anySignature_reference {type : ReferenceType} (h : type.Fits maxNesting)
    (rest : List Char) :
    anySignature (type.chars ++ rest) =
      if rest.isEmpty then some (.ofField type)
      else
        match type with
        | .classType superclass =>
          (interfaces rest).map fun types => .ofClass ⟨[], superclass, types⟩
        | _ => none := by
  have hparameters : typeParameters (type.chars ++ rest) = some ([], type.chars ++ rest) :=
    typeParameters_append [] ⟨by simp, by simp⟩
      (type.startsWith_chars_of_not_mem rest (by decide))
  have hread := anyReferenceType_reads.read rest h
  rw [anySignature, hparameters]
  simp only [Option.bind_eq_bind, Option.bind_some, hread, List.isEmpty_nil, if_true,
    type.startsWith_chars_of_not_mem rest (c := '(') (by decide), Bool.false_eq_true, if_false]
  split
  · rfl
  · cases type with
    | classType superclass => cases interfaces rest <;> rfl
    | typeVariable name => rfl
    | array component => rfl

theorem anySignature_ofClass {signature : ClassSignature} (h : signature.WellFormed) :
    anySignature signature.chars = some (.ofClass signature) := by
  obtain ⟨parameters, superclass, types⟩ := signature
  have hinterfaces := interfaces_eq_some_iff.mpr ⟨rfl, h.interfaces⟩
  by_cases hparameters : parameters = []
  · subst hparameters
    obtain ⟨hdepth, hne⟩ := h.plain rfl
    have hfits := (ReferenceType.classType_fits_iff_depth_le maxNesting superclass).mpr
      ⟨h.superclass, hdepth⟩
    have hread := anySignature_reference hfits (types.flatMap ClassType.chars)
    have hmore : (types.flatMap ClassType.chars).isEmpty = false := by
      obtain ⟨first, types, rfl⟩ := List.exists_cons_of_ne_nil hne
      obtain ⟨text, htext⟩ := first.chars_eq_cons
      rw [List.flatMap_cons, htext]
      rfl
    rw [hmore, hinterfaces] at hread
    exact hread
  · have hread := anyClassType_reads.read (types.flatMap ClassType.chars) h.superclass
    have hstart (c : Char) (hc : c ≠ 'L') :=
      superclass.startsWith_chars_of_ne (types.flatMap ClassType.chars) hc
    rw [ClassSignature.chars, List.append_assoc, anySignature,
      typeParameters_append _ h.parameters (hstart '<' (by decide))]
    simp [hstart '(' (by decide), hparameters, hread, hinterfaces]

theorem anySignature_complete {signature : Signature} (h : signature.WellFormed) :
    anySignature signature.chars = some signature := by
  cases signature with
  | ofClass signature => exact anySignature_ofClass h
  | ofMethod signature => exact anySignature_ofMethod h
  | ofField type =>
    have hread := anySignature_reference h []
    rwa [List.append_nil] at hread

end SignatureScanner

/-- A text stands for what the scan of the whole text found. -/
theorem Malformed.signatureOr_eq_ok_iff {α : Type} {s : String} {scanned : Option α} {a : α} :
    Malformed.signatureOr s scanned = .ok a ↔ scanned = some a := by
  cases scanned with
  | none => simp [Malformed.signatureOr]
  | some found => simp [Malformed.signatureOr]

namespace Signature

theorem parse_eq_ok_iff_anySignature {s : String} {signature : Signature} :
    Signature.parse s = .ok signature ↔
      SignatureScanner.anySignature s.toList = some signature :=
  Malformed.signatureOr_eq_ok_iff

theorem wellFormed_of_parse {s : String} {signature : Signature}
    (h : Signature.parse s = .ok signature) : signature.text = s ∧ signature.WellFormed := by
  obtain ⟨htext, hformed⟩ := SignatureScanner.anySignature_sound
    (parse_eq_ok_iff_anySignature.mp h)
  exact ⟨by rw [text, ← htext, String.ofList_toList], hformed⟩

/-- The text of a well-formed signature stands for it. -/
theorem parse_text {signature : Signature} (h : signature.WellFormed) :
    Signature.parse signature.text = .ok signature := by
  rw [parse_eq_ok_iff_anySignature, text, String.toList_ofList]
  exact SignatureScanner.anySignature_complete h

/-- Reading and writing signatures are inverse to each other: a text stands for a signature
    exactly if it is the text of that signature and the signature is well formed. -/
theorem parse_eq_ok_iff (s : String) (signature : Signature) :
    Signature.parse s = .ok signature ↔ signature.text = s ∧ signature.WellFormed := by
  constructor
  · exact wellFormed_of_parse
  · rintro ⟨rfl, hformed⟩
    exact parse_text hformed

end Signature

end Nomenclator

import Nomenclator.Proofs.SignatureRenaming

/-!
# Signatures in which no class is renamed

Where no class has a new name, renaming still goes through all class types of a signature and
writes every inner name anew: as what follows the last `$` in the name of its class. An inner
name without a `$` comes out as it was. One with a `$` loses the text up to it, so the
signature is a shorter one, about other classes.

Results:
* `Renames.mapClassName_eq_self`: a class keeps its name.
* `Renames.mapClassType_eq`: what becomes of the names of a class type.
* `Signature.length_chars_mapClassTypes`: how a replacement of names changes the length of
  a signature.
* `remapSignature_eq_correctSignature_iff`: which signatures are only corrected.
-/

namespace Nomenclator

/-! ## Replacements that leave a signature as it is -/

section Fixed

variable {f : ClassTypeMap}

mutual

theorem GenericType.mapClassTypes_eq_self : ∀ type : GenericType,
    (∀ t ∈ type.classTypes, f t = t) → type.mapClassTypes f = type
  | .base _, _ => rfl
  | .reference type, h => by
    rw [GenericType.classTypes] at h
    rw [GenericType.mapClassTypes, type.mapClassTypes_eq_self h]

theorem ReferenceType.mapClassTypes_eq_self : ∀ type : ReferenceType,
    (∀ t ∈ type.classTypes, f t = t) → type.mapClassTypes f = type
  | .classType type, h => by
    rw [ReferenceType.classTypes] at h
    rw [ReferenceType.mapClassTypes, type.mapClassTypes_eq_self h]
  | .typeVariable _, _ => rfl
  | .array component, h => by
    rw [ReferenceType.classTypes] at h
    rw [ReferenceType.mapClassTypes, component.mapClassTypes_eq_self h]

theorem ClassType.mapClassTypes_eq_self : ∀ type : ClassType,
    (∀ t ∈ type.classTypes, f t = t) → type.mapClassTypes f = type
  | .mk outer inner, h => by
    rw [ClassType.classTypes, List.forall_mem_cons, List.forall_mem_append] at h
    obtain ⟨hself, houter, hinner⟩ := h
    rw [ClassType.mapClassTypes, outer.mapClassTypes_eq_self houter,
      ClassSegment.mapInner_eq_self inner hinner, hself]

theorem ClassSegment.mapInner_eq_self : ∀ segments : List ClassSegment,
    (∀ t ∈ ClassSegment.innerClassTypes segments, f t = t) →
      ClassSegment.mapInner f segments = segments
  | [], _ => rfl
  | segment :: segments, h => by
    rw [ClassSegment.innerClassTypes, List.forall_mem_append] at h
    rw [ClassSegment.mapInner, segment.mapClassTypes_eq_self h.1,
      ClassSegment.mapInner_eq_self segments h.2]

theorem ClassSegment.mapClassTypes_eq_self : ∀ segment : ClassSegment,
    (∀ t ∈ segment.classTypes, f t = t) → segment.mapClassTypes f = segment
  | .mk _ arguments, h => by
    rw [ClassSegment.classTypes] at h
    rw [ClassSegment.mapClassTypes, TypeArgument.mapList_eq_self arguments h]

theorem TypeArgument.mapList_eq_self : ∀ arguments : List TypeArgument,
    (∀ t ∈ TypeArgument.listClassTypes arguments, f t = t) →
      TypeArgument.mapList f arguments = arguments
  | [], _ => rfl
  | argument :: arguments, h => by
    rw [TypeArgument.listClassTypes, List.forall_mem_append] at h
    rw [TypeArgument.mapList, argument.mapClassTypes_eq_self h.1,
      TypeArgument.mapList_eq_self arguments h.2]

theorem TypeArgument.mapClassTypes_eq_self : ∀ argument : TypeArgument,
    (∀ t ∈ argument.classTypes, f t = t) → argument.mapClassTypes f = argument
  | .any, _ => rfl
  | .bounded _ bound, h => by
    rw [TypeArgument.classTypes] at h
    rw [TypeArgument.mapClassTypes, bound.mapClassTypes_eq_self h]

end

theorem map_eq_self {α : Type} {g : α → α} {P : ClassType → Prop}
    {classTypes : α → List ClassType} {items : List α}
    (hstep : ∀ a, (∀ t ∈ classTypes a, P t) → g a = a)
    (hP : ∀ t ∈ items.flatMap classTypes, P t) : items.map g = items := by
  rw [List.forall_mem_flatMap] at hP
  rw [List.map_congr_left fun a ha => hstep a (hP a ha), List.map_id']

theorem optionMap_eq_self {α : Type} {g : α → α} {P : ClassType → Prop}
    {classTypes : α → List ClassType} {item : Option α}
    (hstep : ∀ a, (∀ t ∈ classTypes a, P t) → g a = a)
    (hP : ∀ t ∈ item.toList.flatMap classTypes, P t) : item.map g = item := by
  cases item with
  | none => rfl
  | some a => rw [Option.map_some, hstep a (by simpa using hP)]

theorem TypeParameter.mapClassTypes_eq_self (parameter : TypeParameter)
    (h : ∀ t ∈ parameter.classTypes, f t = t) : parameter.mapClassTypes f = parameter := by
  rw [TypeParameter.classTypes, List.forall_mem_append] at h
  rw [TypeParameter.mapClassTypes, optionMap_eq_self ReferenceType.mapClassTypes_eq_self h.1,
    map_eq_self ReferenceType.mapClassTypes_eq_self h.2]

/-- A replacement that gives every class type of a signature back leaves it as it is. -/
theorem Signature.mapClassTypes_eq_self (signature : Signature)
    (h : ∀ t ∈ signature.classTypes, f t = t) : signature.mapClassTypes f = signature := by
  cases signature with
  | ofClass signature =>
    rw [Signature.classTypes, ClassSignature.classTypes, List.forall_mem_append,
      List.forall_mem_append] at h
    obtain ⟨⟨hparameters, hsuperclass⟩, hinterfaces⟩ := h
    rw [Signature.mapClassTypes, ClassSignature.mapClassTypes,
      map_eq_self TypeParameter.mapClassTypes_eq_self hparameters,
      signature.superclass.mapClassTypes_eq_self hsuperclass,
      map_eq_self ClassType.mapClassTypes_eq_self hinterfaces]
  | ofMethod signature =>
    rw [Signature.classTypes, MethodSignature.classTypes, List.forall_mem_append,
      List.forall_mem_append, List.forall_mem_append] at h
    obtain ⟨⟨⟨hvariables, hparameters⟩, hresult⟩, hthrown⟩ := h
    rw [Signature.mapClassTypes, MethodSignature.mapClassTypes,
      map_eq_self TypeParameter.mapClassTypes_eq_self hvariables,
      map_eq_self GenericType.mapClassTypes_eq_self hparameters,
      optionMap_eq_self GenericType.mapClassTypes_eq_self hresult,
      map_eq_self ReferenceType.mapClassTypes_eq_self hthrown]
  | ofField type =>
    rw [Signature.classTypes] at h
    rw [Signature.mapClassTypes, type.mapClassTypes_eq_self h]

end Fixed

/-! ## The length of a signature -/

/-- The number of characters in the names of a class type. -/
def ClassType.nameLength (type : ClassType) : Nat :=
  (type.names.map fun name => name.toList.length).sum

theorem ClassType.nameLength_eq (type : ClassType) :
    type.nameLength = type.outer.name.toList.length +
      (type.inner.map fun segment => segment.name.toList.length).sum := by
  simp only [nameLength, names, segments, List.map_cons, List.map_map, List.sum_cons,
    Function.comp_def]

/-- The number of characters that class types take for their names. -/
def namesLength (types : List ClassType) : Nat := (types.map ClassType.nameLength).sum

@[simp] theorem namesLength_nil : namesLength [] = 0 := rfl

@[simp] theorem namesLength_cons (type : ClassType) (types : List ClassType) :
    namesLength (type :: types) = type.nameLength + namesLength types := rfl

@[simp] theorem namesLength_append (types others : List ClassType) :
    namesLength (types ++ others) = namesLength types + namesLength others := by
  simp [namesLength]

/-- The number of characters that a row of arguments takes, with its brackets. -/
def argumentsLength (arguments : List TypeArgument) : Nat :=
  (enclosedChars TypeArgument.chars arguments).length

/-- A class type takes a character in front, one behind each segment, and its names and
    arguments. -/
theorem ClassType.length_chars (type : ClassType) :
    type.chars.length = type.nameLength +
      ((type.segments.map ClassSegment.arguments).map (argumentsLength · + 1)).sum + 1 := by
  obtain ⟨outer, inner⟩ := type
  have hinner : (ClassSegment.innerChars inner).length =
      (inner.map fun segment => segment.name.toList.length).sum +
        ((inner.map ClassSegment.arguments).map (argumentsLength · + 1)).sum := by
    induction inner with
    | nil => rfl
    | cons segment inner ih =>
      simp only [ClassSegment.innerChars, ClassSegment.chars_eq, List.length_append,
        List.length_cons, List.map_cons, List.sum_cons, ih, argumentsLength]
      omega
  simp only [ClassType.chars, ClassSegment.chars_eq, List.length_append, List.length_cons,
    hinner, nameLength_eq, segments, ClassType.outer, ClassType.inner, List.map_cons,
    List.sum_cons, argumentsLength, List.length_nil]
  omega

/-- The replacement changes nothing but names, and those as the old names tell. -/
def RenamesOnly (f : ClassTypeMap) : Prop :=
  ∀ type other : ClassType, other.names = type.names →
    (f other).names = (f type).names ∧
      (f other).segments.map ClassSegment.arguments = other.segments.map ClassSegment.arguments

section Length

variable {f : ClassTypeMap}

mutual

theorem GenericType.length_chars_mapClassTypes (hf : RenamesOnly f) : ∀ type : GenericType,
    (type.mapClassTypes f).chars.length + namesLength type.classTypes =
      type.chars.length + namesLength (type.classTypes.map f)
  | .base _ => rfl
  | .reference type => by
    rw [GenericType.mapClassTypes, GenericType.chars, GenericType.chars, GenericType.classTypes]
    exact type.length_chars_mapClassTypes hf

theorem ReferenceType.length_chars_mapClassTypes (hf : RenamesOnly f) : ∀ type : ReferenceType,
    (type.mapClassTypes f).chars.length + namesLength type.classTypes =
      type.chars.length + namesLength (type.classTypes.map f)
  | .classType type => by
    rw [ReferenceType.mapClassTypes, ReferenceType.chars, ReferenceType.chars,
      ReferenceType.classTypes]
    exact type.length_chars_mapClassTypes hf
  | .typeVariable _ => rfl
  | .array component => by
    have ih := component.length_chars_mapClassTypes hf
    rw [ReferenceType.mapClassTypes, ReferenceType.chars, ReferenceType.chars,
      ReferenceType.classTypes, List.length_cons, List.length_cons]
    omega

/-- The arguments are replaced first, which leaves the names of the class type as they are. -/
theorem ClassType.length_chars_mapClassTypes (hf : RenamesOnly f) : ∀ type : ClassType,
    (type.mapClassTypes f).chars.length + namesLength type.classTypes =
      type.chars.length + namesLength (type.classTypes.map f)
  | .mk outer inner => by
    have houter := outer.argumentsLength_mapClassTypes hf
    have hinner := ClassSegment.argumentsLength_mapInner hf inner
    have hnames : ClassType.names (.mk (outer.mapClassTypes f) (ClassSegment.mapInner f inner)) =
        (ClassType.mk outer inner).names := ClassSegment.map_name_mapInner f (outer :: inner)
    obtain ⟨hnew, harguments⟩ := hf _ _ hnames
    have hlength : (f (.mk (outer.mapClassTypes f) (ClassSegment.mapInner f inner))).nameLength =
        (f (.mk outer inner)).nameLength := by
      rw [ClassType.nameLength, hnew]
      rfl
    rw [ClassType.mapClassTypes, ClassType.length_chars, ClassType.length_chars, hlength,
      harguments, ClassType.classTypes]
    simp only [namesLength_cons, namesLength_append, List.map_cons, List.map_append,
      ClassType.segments, ClassType.outer, ClassType.inner, List.sum_cons]
    omega

theorem ClassSegment.argumentsLength_mapInner (hf : RenamesOnly f) : ∀ segments : List ClassSegment,
    (((ClassSegment.mapInner f segments).map ClassSegment.arguments).map
        (argumentsLength · + 1)).sum + namesLength (ClassSegment.innerClassTypes segments) =
      ((segments.map ClassSegment.arguments).map (argumentsLength · + 1)).sum +
        namesLength ((ClassSegment.innerClassTypes segments).map f)
  | [] => rfl
  | segment :: segments => by
    have hfirst := segment.argumentsLength_mapClassTypes hf
    have hrest := ClassSegment.argumentsLength_mapInner hf segments
    simp only [ClassSegment.mapInner, ClassSegment.innerClassTypes, List.map_cons,
      List.map_append, namesLength_append, List.sum_cons]
    omega

theorem ClassSegment.argumentsLength_mapClassTypes (hf : RenamesOnly f) : ∀ segment : ClassSegment,
    argumentsLength (segment.mapClassTypes f).arguments + namesLength segment.classTypes =
      argumentsLength segment.arguments + namesLength (segment.classTypes.map f)
  | .mk _ [] => rfl
  | .mk _ (first :: arguments) => by
    have ih := TypeArgument.length_chars_mapList hf (first :: arguments)
    simp only [ClassSegment.mapClassTypes, TypeArgument.mapList] at ih ⊢
    simp only [argumentsLength, enclosedChars, ClassSegment.arguments, ClassSegment.classTypes,
      List.isEmpty_cons, Bool.false_eq_true, if_false, List.length_append, List.length_cons]
    omega

theorem TypeArgument.length_chars_mapList (hf : RenamesOnly f) : ∀ arguments : List TypeArgument,
    ((TypeArgument.mapList f arguments).flatMap TypeArgument.chars).length +
        namesLength (TypeArgument.listClassTypes arguments) =
      (arguments.flatMap TypeArgument.chars).length +
        namesLength ((TypeArgument.listClassTypes arguments).map f)
  | [] => rfl
  | argument :: arguments => by
    have hfirst := argument.length_chars_mapClassTypes hf
    have hrest := TypeArgument.length_chars_mapList hf arguments
    simp only [TypeArgument.mapList, TypeArgument.listClassTypes, List.flatMap_cons,
      List.length_append, List.map_append, namesLength_append]
    omega

theorem TypeArgument.length_chars_mapClassTypes (hf : RenamesOnly f) : ∀ argument : TypeArgument,
    (argument.mapClassTypes f).chars.length + namesLength argument.classTypes =
      argument.chars.length + namesLength (argument.classTypes.map f)
  | .any => rfl
  | .bounded variance bound => by
    have ih := bound.length_chars_mapClassTypes hf
    simp only [TypeArgument.mapClassTypes, TypeArgument.chars, TypeArgument.classTypes,
      List.length_append]
    omega

end

theorem length_flatMap_map {α : Type} (f : ClassTypeMap) (g : α → α) (chars : α → List Char)
    (classTypes : α → List ClassType)
    (hstep : ∀ a, (chars (g a)).length + namesLength (classTypes a) =
      (chars a).length + namesLength ((classTypes a).map f)) (items : List α) :
    ((items.map g).flatMap chars).length + namesLength (items.flatMap classTypes) =
      (items.flatMap chars).length + namesLength ((items.flatMap classTypes).map f) := by
  induction items with
  | nil => rfl
  | cons a items ih =>
    have ha := hstep a
    simp only [List.map_cons, List.flatMap_cons, List.length_append, namesLength_append,
      List.map_append]
    omega

theorem ReferenceType.length_cons_chars_mapClassTypes (hf : RenamesOnly f) (mark : Char)
    (type : ReferenceType) :
    (mark :: (type.mapClassTypes f).chars).length + namesLength type.classTypes =
      (mark :: type.chars).length + namesLength (type.classTypes.map f) := by
  have htype := type.length_chars_mapClassTypes hf
  rw [List.length_cons, List.length_cons]
  omega

theorem TypeParameter.length_chars_mapClassTypes (hf : RenamesOnly f)
    (parameter : TypeParameter) :
    (parameter.mapClassTypes f).chars.length + namesLength parameter.classTypes =
      parameter.chars.length + namesLength (parameter.classTypes.map f) := by
  obtain ⟨name, classBound, interfaceBounds⟩ := parameter
  have hinterfaces := length_flatMap_map f (·.mapClassTypes f) (fun bound => ':' :: bound.chars)
    ReferenceType.classTypes (ReferenceType.length_cons_chars_mapClassTypes hf ':') interfaceBounds
  cases classBound with
  | none =>
    simp only [TypeParameter.mapClassTypes, TypeParameter.chars, TypeParameter.classTypes,
      Option.map_none, Option.toList_none, List.flatMap_nil, List.nil_append, List.length_append,
      List.length_cons, List.length_nil]
    omega
  | some bound =>
    have hbound := ReferenceType.length_chars_mapClassTypes hf bound
    simp only [TypeParameter.mapClassTypes, TypeParameter.chars, TypeParameter.classTypes,
      Option.map_some, Option.toList_some, List.flatMap_cons, List.flatMap_nil, List.append_nil,
      List.length_append, List.length_cons, List.map_append, namesLength_append]
    omega

theorem TypeParameter.length_listChars_map (hf : RenamesOnly f) (parameters : List TypeParameter) :
    (listChars (parameters.map (·.mapClassTypes f))).length +
        namesLength (parameters.flatMap classTypes) =
      (listChars parameters).length + namesLength ((parameters.flatMap classTypes).map f) := by
  have h := length_flatMap_map f (fun parameter : TypeParameter => parameter.mapClassTypes f)
    chars classTypes (length_chars_mapClassTypes hf) parameters
  cases parameters with
  | nil => rfl
  | cons first parameters =>
    simp only [listChars, List.map_cons, List.isEmpty_cons, Bool.false_eq_true, if_false,
      List.length_append, List.length_cons] at h ⊢
    omega

/-- The text of a signature grows or shrinks by as much as the names of its class types. -/
theorem Signature.length_chars_mapClassTypes (hf : RenamesOnly f) (signature : Signature) :
    (signature.mapClassTypes f).chars.length + namesLength signature.classTypes =
      signature.chars.length + namesLength (signature.classTypes.map f) := by
  cases signature with
  | ofClass signature =>
    have hparameters := TypeParameter.length_listChars_map hf signature.parameters
    have hsuperclass := signature.superclass.length_chars_mapClassTypes hf
    have hinterfaces := length_flatMap_map f (·.mapClassTypes f) ClassType.chars
      ClassType.classTypes (ClassType.length_chars_mapClassTypes hf) signature.interfaces
    simp only [Signature.mapClassTypes, ClassSignature.mapClassTypes, Signature.chars,
      ClassSignature.chars, Signature.classTypes, ClassSignature.classTypes, List.length_append,
      namesLength_append, List.map_append]
    omega
  | ofMethod signature =>
    obtain ⟨typeParameters, parameters, result, thrown⟩ := signature
    have hvariables := TypeParameter.length_listChars_map hf typeParameters
    have hparameters := length_flatMap_map f (·.mapClassTypes f) GenericType.chars
      GenericType.classTypes (GenericType.length_chars_mapClassTypes hf) parameters
    have hthrown := length_flatMap_map f (·.mapClassTypes f) (fun type => '^' :: type.chars)
      ReferenceType.classTypes (ReferenceType.length_cons_chars_mapClassTypes hf '^') thrown
    cases result with
    | none =>
      simp only [Signature.mapClassTypes, MethodSignature.mapClassTypes, Signature.chars,
        MethodSignature.chars, Signature.classTypes, MethodSignature.classTypes,
        Option.map_none, Option.toList_none, List.flatMap_nil, List.append_nil,
        List.length_append, List.length_cons, List.length_nil, namesLength_append,
        List.map_append]
      omega
    | some type =>
      have hresult := type.length_chars_mapClassTypes hf
      simp only [Signature.mapClassTypes, MethodSignature.mapClassTypes, Signature.chars,
        MethodSignature.chars, Signature.classTypes, MethodSignature.classTypes,
        Option.map_some, Option.toList_some, List.flatMap_cons, List.flatMap_nil,
        List.append_nil, List.length_append, List.length_cons, namesLength_append,
        List.map_append]
      omega
  | ofField type =>
    have htype := type.length_chars_mapClassTypes hf
    rwa [Signature.mapClassTypes, Signature.chars, Signature.chars, Signature.classTypes]

end Length

/-! ## Where no class has a new name -/

theorem Text.length_afterLast_le (c : Char) (s : String) :
    (afterLast c s).toList.length ≤ s.toList.length := by
  obtain ⟨before, hs, -⟩ := exists_before_afterLast c s
  have hlength := congrArg (fun s => s.toList.length) hs
  simp only [String.toList_append, List.length_append] at hlength
  omega

/-- Nothing is cut off exactly where there is nothing to cut at. -/
theorem Text.length_afterLast_eq_iff (c : Char) (s : String) :
    (afterLast c s).toList.length = s.toList.length ↔ c ∉ s.toList := by
  constructor
  · intro h
    obtain ⟨before, hs, hafter⟩ := exists_before_afterLast c s
    have hlength := congrArg (fun s => s.toList.length) hs
    simp only [String.toList_append, List.length_append] at hlength
    have hbefore : before.toList = [] := List.length_eq_zero_iff.mp (by omega)
    rw [hs, String.toList_append, hbefore, List.nil_append]
    exact hafter
  · intro h
    rw [afterLast_of_not_mem h]

/-- The last `$` of a qualified name stands in the simple name, if one is there. -/
theorem Text.cutAtLast?_append_dollar (enclosing name : String) :
    ∃ before, cutAtLast? '$' (enclosing ++ "$" ++ name) = some (before, afterLast '$' name) := by
  cases hcut : cutAtLast? '$' name with
  | none =>
    have hname := cutAtLast?_eq_none_iff.mp hcut
    rw [afterLast_of_not_mem hname]
    exact ⟨enclosing, cutAtLast?_eq_some_iff.mpr ⟨rfl, hname⟩⟩
  | some parts =>
    obtain ⟨before, after⟩ := parts
    obtain ⟨rfl, hafter⟩ := cutAtLast?_eq_some_iff.mp hcut
    rw [afterLast_of_cut hafter]
    refine ⟨enclosing ++ "$" ++ before, cutAtLast?_eq_some_iff.mpr ⟨?_, hafter⟩⟩
    simp only [String.append_assoc]

theorem sum_map_eq_iff_of_le {α : Type} {f g : α → Nat} {items : List α}
    (hle : ∀ a ∈ items, f a ≤ g a) :
    (items.map f).sum = (items.map g).sum ↔ ∀ a ∈ items, f a = g a := by
  induction items with
  | nil => simp
  | cons a items ih =>
    rw [List.forall_mem_cons] at hle
    have hrest : (items.map f).sum ≤ (items.map g).sum := List.sum_le_sum hle.2
    rw [List.forall_mem_cons, ← ih hle.2, List.map_cons, List.map_cons, List.sum_cons,
      List.sum_cons]
    omega

namespace Renames

/-- No class has a new name. -/
def NoClassNamed (renames : Renames) : Prop := ∀ name, renames.className? name = none

variable {renames : Renames} (hnone : renames.NoClassNamed)

include hnone

/-- A class keeps its name, however many `$` are in it: it is taken apart at them and put
    together again. -/
theorem mapClassName_eq_self (name : String) : renames.mapClassName name = name := by
  fun_induction mapClassName renames name with
  | case1 name outer inner henclosing ih =>
    obtain ⟨rfl, -⟩ := enclosing?_eq_some_iff.mp henclosing
    rw [ih, hnone, Option.getD_none]
  | case2 name henclosing =>
    rw [hnone, Option.getD_none]

/-- An inner name becomes what follows the last `$` in it. -/
theorem mapInner_eq (enclosing : String) (inner : List ClassSegment) :
    renames.mapInner enclosing inner =
      inner.map fun segment => .mk (Text.afterLast '$' segment.name) segment.arguments := by
  induction inner generalizing enclosing with
  | nil => rfl
  | cons segment inner ih =>
    obtain ⟨name, arguments⟩ := segment
    obtain ⟨before, hcut⟩ := Text.cutAtLast?_append_dollar enclosing name
    simp only [mapInner, mapClassName_eq_self hnone, hcut, ih, List.map_cons]
    rfl

/-- The outermost class of a class type keeps its name, and of every inner name the part behind
    its last `$` is left. -/
theorem mapClassType_eq (type : ClassType) :
    renames.mapClassType type = .mk type.outer
      (type.inner.map fun segment => .mk (Text.afterLast '$' segment.name) segment.arguments) := by
  obtain ⟨⟨name, arguments⟩, inner⟩ := type
  rw [mapClassType, mapClassName_eq_self hnone, mapInner_eq hnone]
  rfl

theorem names_mapClassType (type : ClassType) :
    (renames.mapClassType type).names =
      type.outer.name :: (type.inner.map ClassSegment.name).map (Text.afterLast '$') := by
  rw [mapClassType_eq hnone, ClassType.names, ClassType.segments, List.map_cons]
  simp only [ClassType.outer, ClassType.inner, List.map_map]
  rfl

theorem renamesOnly_mapClassType : RenamesOnly renames.mapClassType := by
  intro type other hnames
  obtain ⟨houter, hinner⟩ := List.cons.inj hnames
  refine ⟨?_, ?_⟩
  · rw [names_mapClassType hnone, names_mapClassType hnone]
    exact congrArg₂ _ houter (congrArg _ hinner)
  · rw [mapClassType_eq hnone, ClassType.segments, ClassType.segments, List.map_cons]
    simp only [ClassType.outer, ClassType.inner, List.map_map]
    rfl

theorem nameLength_mapClassType (type : ClassType) :
    (renames.mapClassType type).nameLength = type.outer.name.toList.length +
      (type.inner.map fun segment => (Text.afterLast '$' segment.name).toList.length).sum := by
  rw [ClassType.nameLength, names_mapClassType hnone, List.map_cons, List.sum_cons]
  simp only [List.map_map, Function.comp_def]

theorem nameLength_mapClassType_le (type : ClassType) :
    (renames.mapClassType type).nameLength ≤ type.nameLength := by
  rw [nameLength_mapClassType hnone, type.nameLength_eq]
  refine Nat.add_le_add_left (List.sum_le_sum fun segment _ => ?_) _
  exact Text.length_afterLast_le '$' segment.name

theorem nameLength_mapClassType_eq_iff (type : ClassType) :
    (renames.mapClassType type).nameLength = type.nameLength ↔
      ∀ segment ∈ type.inner, '$' ∉ segment.name.toList := by
  have hle : ∀ segment ∈ type.inner,
      (Text.afterLast '$' segment.name).toList.length ≤ segment.name.toList.length :=
    fun segment _ => Text.length_afterLast_le '$' segment.name
  rw [nameLength_mapClassType hnone, type.nameLength_eq, Nat.add_right_inj,
    sum_map_eq_iff_of_le hle]
  simp only [Text.length_afterLast_eq_iff]

theorem mapClassType_eq_self {type : ClassType}
    (h : ∀ segment ∈ type.inner, '$' ∉ segment.name.toList) :
    renames.mapClassType type = type := by
  obtain ⟨outer, inner⟩ := type
  have hinner : inner.map (fun segment => ClassSegment.mk (Text.afterLast '$' segment.name)
      segment.arguments) = inner.map id := by
    refine List.map_congr_left fun segment hsegment => ?_
    rw [Text.afterLast_of_not_mem (h segment hsegment)]
    cases segment
    rfl
  rw [mapClassType_eq hnone, ClassType.outer, ClassType.inner, hinner, List.map_id]

end Renames

/-! ## Remapping without new names -/

/-- Where no class has a new name, remapping a signature comes to the same as correcting it
    exactly if none of its inner names, once corrected, has a `$` left in it. -/
theorem remapSignature_eq_correctSignature_iff {renames : Renames}
    (hnone : renames.NoClassNamed) (raw : String) :
    renames.remapSignature raw = correctSignature raw ↔
      ∀ signature, Signature.parse (correctSignature raw) = .ok signature →
        ∀ type ∈ signature.classTypes, ∀ segment ∈ type.inner, '$' ∉ segment.name.toList := by
  unfold Renames.remapSignature
  dsimp only
  cases hparse : Signature.parse (correctSignature raw) with
  | error cause => simp
  | ok signature =>
    obtain ⟨htext, -⟩ := Signature.wellFormed_of_parse hparse
    constructor
    · rintro h _ ⟨⟩ type htype
      have hlength := signature.length_chars_mapClassTypes
        (Renames.renamesOnly_mapClassType hnone)
      have hsame : (signature.mapClassTypes renames.mapClassType).chars = signature.chars := by
        dsimp only at h
        rw [← htext, Signature.text, Signature.text] at h
        exact String.ofList_injective h
      -- The text would be shorter if any name had lost something.
      have hnames : (signature.classTypes.map fun t => (renames.mapClassType t).nameLength).sum =
          (signature.classTypes.map ClassType.nameLength).sum := by
        rw [hsame, namesLength, namesLength, List.map_map] at hlength
        exact (Nat.add_left_cancel hlength).symm
      rw [sum_map_eq_iff_of_le fun t _ => Renames.nameLength_mapClassType_le hnone t] at hnames
      exact (Renames.nameLength_mapClassType_eq_iff hnone type).mp (hnames type htype)
    · intro h
      dsimp only
      rw [signature.mapClassTypes_eq_self fun type htype =>
        Renames.mapClassType_eq_self hnone (h signature rfl type htype), htext]

theorem remapSignature_eq_correctSignature_iff_nested :
    let renames := ({} : Renames).setFieldName "a" "f" (some "I") "count"
    let raw := "(TK;)La<TT;>.a$b<+Lx.x$y;>.c;"
    renames.NoClassNamed ∧ correctSignature raw = "(TK;)La<TT;>.b<+Lx.y;>.c;" ∧
      renames.remapSignature raw = correctSignature raw := by
  intro renames raw
  have hnone : renames.NoClassNamed := fun name => Renames.className?_editField _ _ _ _ _ name
  have hparse : Signature.parse (correctSignature raw) = .ok (nestedResult "b" "y") :=
    parse_nestedResult_corrected
  have htext : correctSignature raw = "(TK;)La<TT;>.b<+Lx.y;>.c;" :=
    (Signature.wellFormed_of_parse hparse).1.symm.trans (by decide +kernel)
  refine ⟨hnone, htext, (remapSignature_eq_correctSignature_iff hnone raw).mpr ?_⟩
  intro signature h
  rw [hparse] at h
  cases h
  decide +kernel

/-- The signature of a field whose type is an inner class of `a`. -/
def innerOfA (name : String) : Signature := .ofField (.classType (.mk (.mk "a" []) [.mk name []]))

theorem parse_innerOfA {text name : String} (htext : (innerOfA name).text = text)
    (hname : IsName ['<', '.', ';'] name) : Signature.parse text = .ok (innerOfA name) := by
  have houter : IsName ['<', '.', ';'] "a" := by decide +kernel
  have hformed : (innerOfA name).WellFormed := by
    refine ⟨?_, Nat.le_of_ble_eq_true rfl⟩
    simp [ReferenceType.IsValid, ClassType.IsValid, ClassSegment.IsValid,
      ClassSegment.InnerValid, TypeArgument.ListValid, houter, hname]
  rw [← htext]
  exact Signature.parse_text hformed

/-- A `$` inside or at the end of an inner name: the first signature comes to be about another
    class, and the second is no signature any more. -/
theorem remapSignature_loses_text :
    ({} : Renames).NoClassNamed ∧
    correctSignature "La.b$c;" = "La.b$c;" ∧ ({} : Renames).remapSignature "La.b$c;" = "La.c;" ∧
    correctSignature "La.b$;" = "La.b$;" ∧ ({} : Renames).remapSignature "La.b$;" = "La.;" := by
  have hinside : Signature.parse "La.b$c;" = .ok (innerOfA "b$c") :=
    parse_innerOfA (by decide +kernel) (by decide +kernel)
  have hend : Signature.parse "La.b$;" = .ok (innerOfA "b$") :=
    parse_innerOfA (by decide +kernel) (by decide +kernel)
  have hinsideKept : correctSignature "La.b$c;" = "La.b$c;" := by
    rw [correctSignature, hinside]
    decide +kernel
  have hendKept : correctSignature "La.b$;" = "La.b$;" := by
    rw [correctSignature, hend]
    decide +kernel
  refine ⟨fun _ => rfl, hinsideKept, ?_, hendKept, ?_⟩
  · unfold Renames.remapSignature
    dsimp only
    rw [hinsideKept, hinside]
    decide +kernel
  · unfold Renames.remapSignature
    dsimp only
    rw [hendKept, hend]
    decide +kernel

end Nomenclator

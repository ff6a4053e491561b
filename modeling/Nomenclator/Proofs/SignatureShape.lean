import Nomenclator.Proofs.SignatureForm
import Nomenclator.Signature.ClassTypes

/-!
# Signatures of the same shape

Two signatures have the same shape if they differ in nothing but the names of classes.
What the names of one class type have to do with those of the other is a parameter: a
relation between the names of the segments, from the outside in.

Results:
* `classTypes`: all class types in a signature, those in type arguments included.
* `Signature.WellFormed.isValid_of_mem_classTypes`: in a well-formed signature all of them
  are valid.
* `Related`: signatures of the same shape, with related names in every class type.
* `Related.wellFormed`: well-formedness carries over if the relation keeps names in order.
* `mapClassTypes_eq_of_related`: a replacement that restores every class type of a signature
  from the related one restores the signature.
-/

namespace Nomenclator

open SignatureScanner (maxNesting nestedArrays)

/-! ## The class types of a signature -/

/-- The names of the segments of a class type, from the outside in. -/
def ClassType.names (type : ClassType) : List String := type.segments.map ClassSegment.name

mutual

/-- The class types in a type. -/
def GenericType.classTypes : GenericType → List ClassType
  | .base _ => []
  | .reference type => type.classTypes

/-- The class types in a type of objects. -/
def ReferenceType.classTypes : ReferenceType → List ClassType
  | .classType type => type.classTypes
  | .typeVariable _ => []
  | .array component => component.classTypes

/-- A class type and the class types in its arguments. -/
def ClassType.classTypes : ClassType → List ClassType
  | .mk outer inner => .mk outer inner :: (outer.classTypes ++ ClassSegment.innerClassTypes inner)

/-- The class types in the arguments of inner segments. -/
def ClassSegment.innerClassTypes : List ClassSegment → List ClassType
  | [] => []
  | segment :: inner => segment.classTypes ++ ClassSegment.innerClassTypes inner

/-- The class types in the arguments of a segment. -/
def ClassSegment.classTypes : ClassSegment → List ClassType
  | .mk _ arguments => TypeArgument.listClassTypes arguments

/-- The class types in type arguments. -/
def TypeArgument.listClassTypes : List TypeArgument → List ClassType
  | [] => []
  | argument :: arguments => argument.classTypes ++ TypeArgument.listClassTypes arguments

/-- The class types in a type argument. -/
def TypeArgument.classTypes : TypeArgument → List ClassType
  | .any => []
  | .bounded _ bound => bound.classTypes

end

/-- The class types in the bounds of a type parameter. -/
def TypeParameter.classTypes (parameter : TypeParameter) : List ClassType :=
  parameter.classBound.toList.flatMap ReferenceType.classTypes ++
    parameter.interfaceBounds.flatMap ReferenceType.classTypes

/-- The class types in a class signature. -/
def ClassSignature.classTypes (signature : ClassSignature) : List ClassType :=
  signature.parameters.flatMap TypeParameter.classTypes ++ signature.superclass.classTypes ++
    signature.interfaces.flatMap ClassType.classTypes

/-- The class types in a method signature. -/
def MethodSignature.classTypes (signature : MethodSignature) : List ClassType :=
  signature.typeParameters.flatMap TypeParameter.classTypes ++
    signature.parameters.flatMap GenericType.classTypes ++
    signature.result.toList.flatMap GenericType.classTypes ++
    signature.thrown.flatMap ReferenceType.classTypes

/-- The class types in a signature. -/
def Signature.classTypes : Signature → List ClassType
  | ofClass signature => signature.classTypes
  | ofMethod signature => signature.classTypes
  | ofField type => type.classTypes

/-! ## The class types of a well-formed signature -/

mutual

theorem GenericType.isValid_of_mem_classTypes : ∀ (type : GenericType),
    type.IsValid → ∀ t ∈ type.classTypes, t.IsValid
  | .base _, _ => by simp [GenericType.classTypes]
  | .reference type, h => by
    rw [GenericType.IsValid] at h
    rw [GenericType.classTypes]
    exact type.isValid_of_mem_classTypes h

theorem ReferenceType.isValid_of_mem_classTypes : ∀ (type : ReferenceType),
    type.IsValid → ∀ t ∈ type.classTypes, t.IsValid
  | .classType type, h => by
    rw [ReferenceType.IsValid] at h
    rw [ReferenceType.classTypes]
    exact type.isValid_of_mem_classTypes h
  | .typeVariable _, _ => by simp [ReferenceType.classTypes]
  | .array component, h => by
    rw [ReferenceType.IsValid] at h
    rw [ReferenceType.classTypes]
    exact component.isValid_of_mem_classTypes h.2

theorem ClassType.isValid_of_mem_classTypes : ∀ (type : ClassType),
    type.IsValid → ∀ t ∈ type.classTypes, t.IsValid
  | .mk outer inner, h => by
    rw [ClassType.classTypes, List.forall_mem_cons, List.forall_mem_append]
    rw [ClassType.IsValid] at h
    exact ⟨by rwa [ClassType.IsValid], outer.isValid_of_mem_classTypes h.1,
      ClassSegment.isValid_of_mem_innerClassTypes inner h.2⟩

theorem ClassSegment.isValid_of_mem_innerClassTypes : ∀ (inner : List ClassSegment),
    ClassSegment.InnerValid inner → ∀ t ∈ ClassSegment.innerClassTypes inner, t.IsValid
  | [], _ => by simp [ClassSegment.innerClassTypes]
  | segment :: inner, h => by
    rw [ClassSegment.InnerValid] at h
    rw [ClassSegment.innerClassTypes, List.forall_mem_append]
    exact ⟨segment.isValid_of_mem_classTypes h.1,
      ClassSegment.isValid_of_mem_innerClassTypes inner h.2⟩

theorem ClassSegment.isValid_of_mem_classTypes : ∀ (segment : ClassSegment),
    segment.IsValid → ∀ t ∈ segment.classTypes, t.IsValid
  | .mk _ arguments, h => by
    rw [ClassSegment.IsValid] at h
    rw [ClassSegment.classTypes]
    exact TypeArgument.isValid_of_mem_listClassTypes arguments h.2

theorem TypeArgument.isValid_of_mem_listClassTypes : ∀ (arguments : List TypeArgument),
    TypeArgument.ListValid arguments → ∀ t ∈ TypeArgument.listClassTypes arguments, t.IsValid
  | [], _ => by simp [TypeArgument.listClassTypes]
  | argument :: arguments, h => by
    rw [TypeArgument.ListValid] at h
    rw [TypeArgument.listClassTypes, List.forall_mem_append]
    exact ⟨argument.isValid_of_mem_classTypes h.1,
      TypeArgument.isValid_of_mem_listClassTypes arguments h.2⟩

theorem TypeArgument.isValid_of_mem_classTypes : ∀ (argument : TypeArgument),
    argument.IsValid → ∀ t ∈ argument.classTypes, t.IsValid
  | .any, _ => by simp [TypeArgument.classTypes]
  | .bounded _ bound, h => by
    rw [TypeArgument.IsValid] at h
    rw [TypeArgument.classTypes]
    exact bound.isValid_of_mem_classTypes h

end

theorem ReferenceType.Fits.isValid_of_mem_classTypes {levels : Nat} {type : ReferenceType}
    (h : type.Fits levels) : ∀ t ∈ type.classTypes, t.IsValid :=
  ReferenceType.isValid_of_mem_classTypes type h.isValid

theorem GenericType.isValid_of_ifReference {levels : Nat} {type : GenericType}
    (h : type.IfReference (·.Fits levels)) : ∀ t ∈ type.classTypes, t.IsValid := by
  cases type with
  | base _ => simp [GenericType.classTypes]
  | reference type =>
    rw [GenericType.classTypes]
    exact ReferenceType.Fits.isValid_of_mem_classTypes h

theorem TypeParameter.IsValid.isValid_of_mem_classTypes {parameter : TypeParameter}
    (h : parameter.IsValid) : ∀ t ∈ parameter.classTypes, t.IsValid := by
  rw [TypeParameter.classTypes, List.forall_mem_append, List.forall_mem_flatMap,
    List.forall_mem_flatMap]
  exact ⟨fun bound hb => (h.classBound bound (Option.mem_toList.mp hb)).isValid_of_mem_classTypes,
    fun bound hb => (h.interfaceBounds bound hb).isValid_of_mem_classTypes⟩

theorem ClassSignature.WellFormed.isValid_of_mem_classTypes {signature : ClassSignature}
    (h : signature.WellFormed) : ∀ t ∈ signature.classTypes, t.IsValid := by
  rw [ClassSignature.classTypes, List.forall_mem_append, List.forall_mem_append,
    List.forall_mem_flatMap, List.forall_mem_flatMap]
  exact ⟨⟨fun parameter hp => (h.parameters.isValid parameter hp).isValid_of_mem_classTypes,
    ClassType.isValid_of_mem_classTypes _ h.superclass.isValid⟩,
    fun type ht => ClassType.isValid_of_mem_classTypes _ (h.interfaces type ht).isValid⟩

theorem MethodSignature.WellFormed.isValid_of_mem_classTypes {signature : MethodSignature}
    (h : signature.WellFormed) : ∀ t ∈ signature.classTypes, t.IsValid := by
  rw [MethodSignature.classTypes, List.forall_mem_append, List.forall_mem_append,
    List.forall_mem_append, List.forall_mem_flatMap, List.forall_mem_flatMap,
    List.forall_mem_flatMap, List.forall_mem_flatMap]
  exact ⟨⟨⟨fun parameter hp => (h.typeParameters.isValid parameter hp).isValid_of_mem_classTypes,
    fun type ht => GenericType.isValid_of_ifReference (h.parameters type ht)⟩,
    fun type ht => GenericType.isValid_of_ifReference (h.result type (Option.mem_toList.mp ht))⟩,
    fun type ht => (h.thrown type ht).1.isValid_of_mem_classTypes⟩

/-- Names are in order throughout the class types of a well-formed signature. -/
theorem Signature.WellFormed.isValid_of_mem_classTypes {signature : Signature}
    (h : signature.WellFormed) : ∀ t ∈ signature.classTypes, t.IsValid := by
  cases signature with
  | ofClass signature => exact ClassSignature.WellFormed.isValid_of_mem_classTypes h
  | ofMethod signature => exact MethodSignature.WellFormed.isValid_of_mem_classTypes h
  | ofField type => exact ReferenceType.Fits.isValid_of_mem_classTypes h

/-! ## Related signatures -/

/-- What the names of a class type have to do with those of another. -/
abbrev NamesRelation := List String → List String → Prop

mutual

/-- Types of the same shape with related names. -/
inductive GenericType.Related (R : NamesRelation) : GenericType → GenericType → Prop
  | base (type : BaseType) : GenericType.Related R (.base type) (.base type)
  | reference {type other : ReferenceType} : ReferenceType.Related R type other →
      GenericType.Related R (.reference type) (.reference other)

/-- Types of objects of the same shape with related names. -/
inductive ReferenceType.Related (R : NamesRelation) : ReferenceType → ReferenceType → Prop
  | classType {type other : ClassType} : ClassType.Related R type other →
      ReferenceType.Related R (.classType type) (.classType other)
  | typeVariable (name : String) :
      ReferenceType.Related R (.typeVariable name) (.typeVariable name)
  | array {component other : GenericType} : GenericType.Related R component other →
      ReferenceType.Related R (.array component) (.array other)

/-- Class types of the same shape with related names. -/
inductive ClassType.Related (R : NamesRelation) : ClassType → ClassType → Prop
  | mk {type other : ClassType} : R type.names other.names →
      List.Forall₂ (ClassSegment.Related R) type.segments other.segments →
      ClassType.Related R type other

/-- Segments whose arguments have the same shape with related names. Their own names are
    those of a class type. -/
inductive ClassSegment.Related (R : NamesRelation) : ClassSegment → ClassSegment → Prop
  | mk {segment other : ClassSegment} :
      List.Forall₂ (TypeArgument.Related R) segment.arguments other.arguments →
      ClassSegment.Related R segment other

/-- Type arguments of the same shape with related names. -/
inductive TypeArgument.Related (R : NamesRelation) : TypeArgument → TypeArgument → Prop
  | any : TypeArgument.Related R .any .any
  | bounded (variance : Variance) {bound other : ReferenceType} :
      ReferenceType.Related R bound other →
      TypeArgument.Related R (.bounded variance bound) (.bounded variance other)

end

/-- Type parameters of the same shape with related names. -/
structure TypeParameter.Related (R : NamesRelation) (parameter other : TypeParameter) :
    Prop where
  name : other.name = parameter.name
  classBound : Option.Rel (ReferenceType.Related R) parameter.classBound other.classBound
  interfaceBounds :
    List.Forall₂ (ReferenceType.Related R) parameter.interfaceBounds other.interfaceBounds

/-- Class signatures of the same shape with related names. -/
structure ClassSignature.Related (R : NamesRelation) (signature other : ClassSignature) :
    Prop where
  parameters : List.Forall₂ (TypeParameter.Related R) signature.parameters other.parameters
  superclass : signature.superclass.Related R other.superclass
  interfaces : List.Forall₂ (ClassType.Related R) signature.interfaces other.interfaces

/-- Method signatures of the same shape with related names. -/
structure MethodSignature.Related (R : NamesRelation) (signature other : MethodSignature) :
    Prop where
  typeParameters :
    List.Forall₂ (TypeParameter.Related R) signature.typeParameters other.typeParameters
  parameters : List.Forall₂ (GenericType.Related R) signature.parameters other.parameters
  result : Option.Rel (GenericType.Related R) signature.result other.result
  thrown : List.Forall₂ (ReferenceType.Related R) signature.thrown other.thrown

/-- Signatures of the same shape with related names. -/
inductive Signature.Related (R : NamesRelation) : Signature → Signature → Prop
  | ofClass {signature other : ClassSignature} : signature.Related R other →
      Signature.Related R (.ofClass signature) (.ofClass other)
  | ofMethod {signature other : MethodSignature} : signature.Related R other →
      Signature.Related R (.ofMethod signature) (.ofMethod other)
  | ofField {type other : ReferenceType} : type.Related R other →
      Signature.Related R (.ofField type) (.ofField other)

/-! ## Well-formedness carries over -/

theorem forall_of_forall₂ {α : Type} {S : α → α → Prop} {P Q : α → Prop} {items others : List α}
    (h : List.Forall₂ S items others) (hstep : ∀ a b, S a b → P a → Q b)
    (hP : ∀ a ∈ items, P a) : ∀ b ∈ others, Q b := by
  induction h with
  | nil => simp
  | cons hab _ ih =>
    rw [List.forall_mem_cons] at hP ⊢
    exact ⟨hstep _ _ hab hP.1, ih hP.2⟩

theorem forall_of_optionRel {α : Type} {S : α → α → Prop} {P Q : α → Prop} {item other : Option α}
    (h : Option.Rel S item other) (hstep : ∀ a b, S a b → P a → Q b)
    (hP : ∀ a ∈ item, P a) : ∀ b ∈ other, Q b := by
  cases h with
  | none => simp
  | some hab => simpa using hstep _ _ hab (hP _ rfl)

/-- The related names are in order if the names are. -/
def KeepsNamesValid (R : NamesRelation) : Prop :=
  ∀ names others, R names others → (∀ name ∈ names, IsName ['<', '.', ';'] name) →
    ∀ name ∈ others, IsName ['<', '.', ';'] name

section WellFormed

variable {R : NamesRelation}

theorem GenericType.Related.exists_nestedArrays {n : Nat} {innermost other : GenericType}
    (h : (nestedArrays n innermost).Related R other) :
    ∃ inside, other = nestedArrays n inside ∧ innermost.Related R inside := by
  induction n generalizing other with
  | zero => exact ⟨other, rfl, h⟩
  | succ n ih =>
    rw [nestedArrays] at h
    cases h with
    | reference h =>
      cases h with
      | array h =>
        obtain ⟨inside, rfl, hinside⟩ := ih h
        exact ⟨inside, rfl, hinside⟩

theorem GenericType.Related.dimensions_eq_zero {type other : GenericType}
    (h : type.Related R other) (htype : type.dimensions = 0) : other.dimensions = 0 := by
  cases h with
  | base type => rfl
  | reference h =>
    cases h with
    | classType _ => rfl
    | typeVariable _ => rfl
    | array _ => simp [GenericType.dimensions, ReferenceType.dimensions] at htype

theorem GenericType.Related.ifReference {type other : GenericType} {P Q : ReferenceType → Prop}
    (h : type.Related R other) (hstep : ∀ a b : ReferenceType, a.Related R b → P a → Q b)
    (htype : type.IfReference P) : other.IfReference Q := by
  cases h with
  | base type => trivial
  | reference h => exact hstep _ _ h htype

variable (hR : KeepsNamesValid R)

include hR

theorem ClassType.Related.accepts {type other : ClassType} {P : ReferenceType → Prop}
    (h : type.Related R other) (hstep : ∀ a b : ReferenceType, a.Related R b → P a → P b)
    (htype : ∀ segment ∈ type.segments, segment.Accepts P) :
    ∀ segment ∈ other.segments, segment.Accepts P := by
  obtain ⟨hnames, hsegments⟩ := h
  have hvalid : ∀ segment ∈ other.segments, IsName ['<', '.', ';'] segment.name := by
    have hall := hR _ _ hnames (List.forall_mem_map.mpr fun segment hs => (htype segment hs).1)
    exact List.forall_mem_map.mp hall
  have harguments : ∀ segment ∈ other.segments, ∀ argument ∈ segment.arguments,
      argument.IfBounded P := by
    refine forall_of_forall₂ hsegments ?_ fun segment hs => (htype segment hs).2
    rintro segment segment' ⟨hs⟩ hbounded
    refine forall_of_forall₂ hs ?_ hbounded
    rintro argument argument' (_ | ⟨variance, hbound⟩) hargument
    · trivial
    · exact hstep _ _ hbound hargument
  exact fun segment hs => ⟨hvalid segment hs, harguments segment hs⟩

theorem ReferenceType.Related.fits {levels : Nat} {type other : ReferenceType}
    (h : type.Related R other) (htype : type.Fits levels) : other.Fits levels := by
  induction levels generalizing type other with
  | zero => exact absurd htype.depth_le (by have := type.depth_pos; omega)
  | succ levels ih =>
    cases h with
    | classType h =>
      rw [ReferenceType.classType_fits_iff, ClassType.argumentsFit_iff] at htype ⊢
      exact h.accepts hR (fun a b hab => ih hab) htype
    | typeVariable name => exact htype
    | @array component other h =>
      obtain ⟨n, innermost, hinnermost, rfl⟩ := component.exists_nestedArrays
      obtain ⟨inside, rfl, hinside⟩ := h.exists_nestedArrays
      rw [ReferenceType.array_fits_iff hinnermost] at htype
      rw [ReferenceType.array_fits_iff (hinside.dimensions_eq_zero hinnermost)]
      exact ⟨htype.1, hinside.ifReference (fun a b hab => ih hab) htype.2⟩

theorem ClassType.Related.argumentsFit {levels : Nat} {type other : ClassType}
    (h : type.Related R other) (htype : type.ArgumentsFit levels) :
    other.ArgumentsFit levels := by
  rw [ClassType.argumentsFit_iff] at htype ⊢
  exact h.accepts hR (fun a b hab => hab.fits hR) htype

theorem TypeParameter.Related.isValid {parameter other : TypeParameter}
    (h : parameter.Related R other) (hparameter : parameter.IsValid) : other.IsValid where
  name := h.name ▸ hparameter.name
  classBound := forall_of_optionRel h.classBound (fun _ _ hab => hab.fits hR)
    hparameter.classBound
  interfaceBounds := forall_of_forall₂ h.interfaceBounds (fun _ _ hab => hab.fits hR)
    hparameter.interfaceBounds

theorem TypeParameter.listValid_of_related {parameters others : List TypeParameter}
    (h : List.Forall₂ (TypeParameter.Related R) parameters others)
    (hparameters : ListValid parameters) : ListValid others where
  isValid := forall_of_forall₂ h (fun _ _ hab => hab.isValid hR) hparameters.isValid
  isBounded := by
    have hlength := h.length_eq
    rw [List.dropLast_eq_take, ← hlength]
    refine forall_of_forall₂ (List.forall₂_take _ h) ?_
      (List.dropLast_eq_take ▸ hparameters.isBounded)
    rintro ⟨_, bound, bounds⟩ ⟨_, bound', bounds'⟩ ⟨-, hclass, hinterfaces⟩ (hsome | hne)
    · left
      cases hclass with
      | none => cases hsome
      | some _ => rfl
    · right
      intro hnil
      rw [hnil, List.forall₂_nil_right_iff] at hinterfaces
      exact hne hinterfaces

theorem ClassSignature.Related.wellFormed {signature other : ClassSignature}
    (h : signature.Related R other) (hformed : signature.WellFormed) : other.WellFormed where
  parameters := TypeParameter.listValid_of_related hR h.parameters hformed.parameters
  superclass := h.superclass.argumentsFit hR hformed.superclass
  interfaces := forall_of_forall₂ h.interfaces (fun _ _ hab => hab.argumentsFit hR)
    hformed.interfaces
  plain := by
    intro hnone
    have hparameters := h.parameters
    rw [hnone, List.forall₂_nil_right_iff] at hparameters
    obtain ⟨hdepth, hne⟩ := hformed.plain hparameters
    have hfits := (ReferenceType.classType_fits_iff_depth_le _ _).mpr ⟨hformed.superclass, hdepth⟩
    have hother := (ReferenceType.Related.classType h.superclass).fits hR hfits
    refine ⟨((ReferenceType.classType_fits_iff_depth_le _ _).mp hother).2, fun hnil => hne ?_⟩
    have hinterfaces := h.interfaces
    rwa [hnil, List.forall₂_nil_right_iff] at hinterfaces

theorem MethodSignature.Related.wellFormed {signature other : MethodSignature}
    (h : signature.Related R other) (hformed : signature.WellFormed) : other.WellFormed where
  typeParameters := TypeParameter.listValid_of_related hR h.typeParameters hformed.typeParameters
  parameters := forall_of_forall₂ h.parameters
    (fun _ _ hab => hab.ifReference fun _ _ h => h.fits hR) hformed.parameters
  result := forall_of_optionRel h.result
    (fun _ _ hab => hab.ifReference fun _ _ h => h.fits hR) hformed.result
  thrown := by
    refine forall_of_forall₂ h.thrown ?_ hformed.thrown
    rintro type other hab ⟨hfits, hthrowable⟩
    refine ⟨hab.fits hR hfits, ?_⟩
    cases hab with
    | classType _ => trivial
    | typeVariable _ => trivial
    | array _ => cases hthrowable

/-- A signature of the same shape as a well-formed one is well formed if its names are in
    order. -/
theorem Signature.Related.wellFormed {signature other : Signature}
    (h : signature.Related R other) (hformed : signature.WellFormed) : other.WellFormed := by
  cases h with
  | ofClass h => exact h.wellFormed hR hformed
  | ofMethod h => exact h.wellFormed hR hformed
  | ofField h => exact h.fits hR hformed

end WellFormed

/-! ## Replacements that restore a signature -/

/-- The replacement leads back to the class type from every class type with related names
    and the same arguments. -/
def ClassType.RestoredBy (f : ClassTypeMap) (R : NamesRelation) (type : ClassType) : Prop :=
  ∀ other : ClassType, R type.names other.names →
    other.segments.map ClassSegment.arguments = type.segments.map ClassSegment.arguments →
    f other = type

section Restore

variable {f : ClassTypeMap} {R : NamesRelation}

theorem ClassSegment.name_mapClassTypes (f : ClassTypeMap) (segment : ClassSegment) :
    (segment.mapClassTypes f).name = segment.name := by
  obtain ⟨name, arguments⟩ := segment
  rfl

theorem ClassSegment.map_name_mapInner (f : ClassTypeMap) (segments : List ClassSegment) :
    (mapInner f segments).map name = segments.map name := by
  induction segments with
  | nil => rfl
  | cons segment segments ih =>
    rw [mapInner, List.map_cons, List.map_cons, ih, name_mapClassTypes]

-- The recursion is on the signature that is restored; the relation is taken apart beside it.
mutual

theorem GenericType.mapClassTypes_eq_of_related : ∀ (type : GenericType) {other : GenericType},
    type.Related R other → (∀ t ∈ type.classTypes, t.RestoredBy f R) →
      other.mapClassTypes f = type
  | .base _, _, .base _, _ => rfl
  | .reference type, _, .reference h, hrestored => by
    rw [GenericType.classTypes] at hrestored
    rw [GenericType.mapClassTypes, type.mapClassTypes_eq_of_related h hrestored]

theorem ReferenceType.mapClassTypes_eq_of_related : ∀ (type : ReferenceType)
    {other : ReferenceType}, type.Related R other →
      (∀ t ∈ type.classTypes, t.RestoredBy f R) → other.mapClassTypes f = type
  | .classType type, _, .classType h, hrestored => by
    rw [ReferenceType.classTypes] at hrestored
    rw [ReferenceType.mapClassTypes, type.mapClassTypes_eq_of_related h hrestored]
  | .typeVariable _, _, .typeVariable _, _ => rfl
  | .array component, _, .array h, hrestored => by
    rw [ReferenceType.classTypes] at hrestored
    rw [ReferenceType.mapClassTypes, component.mapClassTypes_eq_of_related h hrestored]

/-- The arguments are restored first, and then the class type from its names. -/
theorem ClassType.mapClassTypes_eq_of_related : ∀ (type : ClassType) {other : ClassType},
    type.Related R other → (∀ t ∈ type.classTypes, t.RestoredBy f R) →
      other.mapClassTypes f = type
  | .mk outer inner, .mk outer' inner', .mk hnames hsegments, hrestored => by
    rw [ClassType.classTypes, List.forall_mem_cons, List.forall_mem_append] at hrestored
    obtain ⟨hself, houter, hinner⟩ := hrestored
    obtain ⟨hfirst, hrest⟩ := List.forall₂_cons.mp hsegments
    rw [ClassType.mapClassTypes]
    apply hself
    · rw [show ClassType.names (.mk (outer'.mapClassTypes f) (ClassSegment.mapInner f inner')) =
        (ClassType.mk outer' inner').names from ClassSegment.map_name_mapInner f (outer' :: inner')]
      exact hnames
    · exact congrArg₂ List.cons (outer.arguments_mapClassTypes hfirst houter)
        (ClassSegment.map_arguments_mapInner inner hrest hinner)

theorem ClassSegment.map_arguments_mapInner : ∀ (segments : List ClassSegment)
    {others : List ClassSegment}, List.Forall₂ (ClassSegment.Related R) segments others →
      (∀ t ∈ ClassSegment.innerClassTypes segments, t.RestoredBy f R) →
        (ClassSegment.mapInner f others).map ClassSegment.arguments =
          segments.map ClassSegment.arguments
  | [], _, .nil, _ => rfl
  | segment :: segments, _, .cons h hrest, hrestored => by
    rw [ClassSegment.innerClassTypes, List.forall_mem_append] at hrestored
    rw [ClassSegment.mapInner, List.map_cons, List.map_cons,
      segment.arguments_mapClassTypes h hrestored.1,
      ClassSegment.map_arguments_mapInner segments hrest hrestored.2]

theorem ClassSegment.arguments_mapClassTypes : ∀ (segment : ClassSegment) {other : ClassSegment},
    segment.Related R other → (∀ t ∈ segment.classTypes, t.RestoredBy f R) →
      (other.mapClassTypes f).arguments = segment.arguments
  | .mk _ arguments, .mk _ _, .mk h, hrestored => by
    rw [ClassSegment.classTypes] at hrestored
    exact TypeArgument.mapList_eq_of_related arguments h hrestored

theorem TypeArgument.mapList_eq_of_related : ∀ (arguments : List TypeArgument)
    {others : List TypeArgument}, List.Forall₂ (TypeArgument.Related R) arguments others →
      (∀ t ∈ TypeArgument.listClassTypes arguments, t.RestoredBy f R) →
        TypeArgument.mapList f others = arguments
  | [], _, .nil, _ => rfl
  | argument :: arguments, _, .cons h hrest, hrestored => by
    rw [TypeArgument.listClassTypes, List.forall_mem_append] at hrestored
    rw [TypeArgument.mapList, argument.mapClassTypes_eq_of_related h hrestored.1,
      TypeArgument.mapList_eq_of_related arguments hrest hrestored.2]

theorem TypeArgument.mapClassTypes_eq_of_related : ∀ (argument : TypeArgument)
    {other : TypeArgument}, argument.Related R other →
      (∀ t ∈ argument.classTypes, t.RestoredBy f R) → other.mapClassTypes f = argument
  | .any, _, .any, _ => rfl
  | .bounded _ bound, _, .bounded _ h, hrestored => by
    rw [TypeArgument.classTypes] at hrestored
    rw [TypeArgument.mapClassTypes, bound.mapClassTypes_eq_of_related h hrestored]

end

theorem map_eq_of_forall₂ {α : Type} {S : α → α → Prop} {g : α → α} {P : ClassType → Prop}
    {classTypes : α → List ClassType} {items others : List α} (h : List.Forall₂ S items others)
    (hstep : ∀ a b, S a b → (∀ t ∈ classTypes a, P t) → g b = a)
    (hP : ∀ t ∈ items.flatMap classTypes, P t) : others.map g = items := by
  induction h with
  | nil => rfl
  | cons hab _ ih =>
    rw [List.flatMap_cons, List.forall_mem_append] at hP
    rw [List.map_cons, hstep _ _ hab hP.1, ih hP.2]

theorem map_eq_of_optionRel {α : Type} {S : α → α → Prop} {g : α → α} {P : ClassType → Prop}
    {classTypes : α → List ClassType} {item other : Option α} (h : Option.Rel S item other)
    (hstep : ∀ a b, S a b → (∀ t ∈ classTypes a, P t) → g b = a)
    (hP : ∀ t ∈ item.toList.flatMap classTypes, P t) : other.map g = item := by
  cases h with
  | none => rfl
  | some hab => rw [Option.map_some, hstep _ _ hab (by simpa using hP)]

theorem TypeParameter.mapClassTypes_eq_of_related (parameter : TypeParameter)
    {other : TypeParameter} (h : parameter.Related R other)
    (hrestored : ∀ t ∈ parameter.classTypes, t.RestoredBy f R) :
    other.mapClassTypes f = parameter := by
  rw [TypeParameter.classTypes, List.forall_mem_append] at hrestored
  have hclass :=
    map_eq_of_optionRel h.classBound (fun a _ => a.mapClassTypes_eq_of_related) hrestored.1
  have hinterfaces :=
    map_eq_of_forall₂ h.interfaceBounds (fun a _ => a.mapClassTypes_eq_of_related) hrestored.2
  rw [TypeParameter.mapClassTypes, hclass, hinterfaces, h.name]

theorem ClassSignature.mapClassTypes_eq_of_related (signature : ClassSignature)
    {other : ClassSignature} (h : signature.Related R other)
    (hrestored : ∀ t ∈ signature.classTypes, t.RestoredBy f R) :
    other.mapClassTypes f = signature := by
  rw [ClassSignature.classTypes, List.forall_mem_append, List.forall_mem_append] at hrestored
  obtain ⟨⟨hp, hs⟩, hi⟩ := hrestored
  have hparameters := map_eq_of_forall₂ h.parameters (fun a _ => a.mapClassTypes_eq_of_related) hp
  have hinterfaces := map_eq_of_forall₂ h.interfaces (fun a _ => a.mapClassTypes_eq_of_related) hi
  rw [ClassSignature.mapClassTypes, hparameters, hinterfaces,
    signature.superclass.mapClassTypes_eq_of_related h.superclass hs]

theorem MethodSignature.mapClassTypes_eq_of_related (signature : MethodSignature)
    {other : MethodSignature} (h : signature.Related R other)
    (hrestored : ∀ t ∈ signature.classTypes, t.RestoredBy f R) :
    other.mapClassTypes f = signature := by
  rw [MethodSignature.classTypes, List.forall_mem_append, List.forall_mem_append,
    List.forall_mem_append] at hrestored
  obtain ⟨⟨⟨hv, hp⟩, hr⟩, ht⟩ := hrestored
  have hvariables :=
    map_eq_of_forall₂ h.typeParameters (fun a _ => a.mapClassTypes_eq_of_related) hv
  have hparameters := map_eq_of_forall₂ h.parameters (fun a _ => a.mapClassTypes_eq_of_related) hp
  have hresult := map_eq_of_optionRel h.result (fun a _ => a.mapClassTypes_eq_of_related) hr
  have hthrown := map_eq_of_forall₂ h.thrown (fun a _ => a.mapClassTypes_eq_of_related) ht
  rw [MethodSignature.mapClassTypes, hvariables, hparameters, hresult, hthrown]

/-- A replacement that restores every class type of a signature restores the signature from
    any that is related to it. -/
theorem Signature.mapClassTypes_eq_of_related (signature : Signature) {other : Signature}
    (h : signature.Related R other) (hrestored : ∀ t ∈ signature.classTypes, t.RestoredBy f R) :
    other.mapClassTypes f = signature := by
  cases h with
  | ofClass h => exact congrArg _ (ClassSignature.mapClassTypes_eq_of_related _ h hrestored)
  | ofMethod h => exact congrArg _ (MethodSignature.mapClassTypes_eq_of_related _ h hrestored)
  | ofField h => exact congrArg _ (ReferenceType.mapClassTypes_eq_of_related _ h hrestored)

end Restore

end Nomenclator

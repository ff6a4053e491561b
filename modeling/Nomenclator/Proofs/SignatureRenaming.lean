import Nomenclator.Proofs.ClassNameAgreement
import Nomenclator.Proofs.InnerNames

/-!
# Signatures with renamed classes

Renaming goes through all class types of a signature. A class type names a class by several
segments, and each inner segment gets the last part of the new name of the class that the
segments up to it name. So the new segments, joined, are the new name of the class if no `$`
gets into a part: neither into the old simple name of an inner class nor into its new one.

Results:
* `Signature.related_mapClassTypes`: a replacement of class types that gives every one of them
  related names and leaves its arguments alone gives a signature of the same shape.
* `Renames.mapClassName_inner`: the new name of an inner class is that of the enclosing class
  with one more part.
* `Renames.joined_mapInner`: the new segments, joined, are the new name of the class.
* `remapSignature_related`: the same throughout a signature.
-/

namespace Nomenclator

/-! ## Replacements that keep the shape -/

/-- Whatever class type has the names of this one, the replacement gives it related names and
    leaves its arguments alone. -/
def ClassType.RenamedBy (f : ClassTypeMap) (R : NamesRelation) (type : ClassType) : Prop :=
  ∀ other : ClassType, other.names = type.names →
    R type.names (f other).names ∧
      (f other).segments.map ClassSegment.arguments = other.segments.map ClassSegment.arguments

section Shape

variable {f : ClassTypeMap} {R : NamesRelation}

/-- Whether segments are related is a matter of their arguments. -/
theorem ClassSegment.forall₂_related_iff {segments others : List ClassSegment} :
    List.Forall₂ (ClassSegment.Related R) segments others ↔
      List.Forall₂ (List.Forall₂ (TypeArgument.Related R)) (segments.map ClassSegment.arguments)
        (others.map ClassSegment.arguments) := by
  rw [List.forall₂_map_left_iff, List.forall₂_map_right_iff]
  exact ⟨fun h => h.imp fun _ _ ⟨harguments⟩ => harguments, fun h => h.imp fun _ _ => .mk⟩

mutual

theorem GenericType.related_mapClassTypes : ∀ type : GenericType,
    (∀ t ∈ type.classTypes, t.RenamedBy f R) → type.Related R (type.mapClassTypes f)
  | .base type, _ => .base type
  | .reference type, h => by
    rw [GenericType.classTypes] at h
    exact .reference (type.related_mapClassTypes h)

theorem ReferenceType.related_mapClassTypes : ∀ type : ReferenceType,
    (∀ t ∈ type.classTypes, t.RenamedBy f R) → type.Related R (type.mapClassTypes f)
  | .classType type, h => by
    rw [ReferenceType.classTypes] at h
    exact .classType (type.related_mapClassTypes h)
  | .typeVariable name, _ => .typeVariable name
  | .array component, h => by
    rw [ReferenceType.classTypes] at h
    exact .array (component.related_mapClassTypes h)

/-- The arguments are replaced first, which leaves the names of the class type as they are. -/
theorem ClassType.related_mapClassTypes : ∀ type : ClassType,
    (∀ t ∈ type.classTypes, t.RenamedBy f R) → type.Related R (type.mapClassTypes f)
  | .mk outer inner, h => by
    rw [ClassType.classTypes, List.forall_mem_cons, List.forall_mem_append] at h
    obtain ⟨hself, houter, hinner⟩ := h
    have hnames : ClassType.names (.mk (outer.mapClassTypes f) (ClassSegment.mapInner f inner)) =
        (ClassType.mk outer inner).names := ClassSegment.map_name_mapInner f (outer :: inner)
    obtain ⟨hrelated, harguments⟩ := hself _ hnames
    have hsegments : List.Forall₂ (ClassSegment.Related R) (outer :: inner)
        (outer.mapClassTypes f :: ClassSegment.mapInner f inner) :=
      .cons (outer.related_mapClassTypes houter) (ClassSegment.related_mapInner inner hinner)
    rw [ClassSegment.forall₂_related_iff] at hsegments
    refine .mk hrelated (ClassSegment.forall₂_related_iff.mpr ?_)
    rw [ClassType.mapClassTypes, harguments]
    exact hsegments

theorem ClassSegment.related_mapInner : ∀ segments : List ClassSegment,
    (∀ t ∈ ClassSegment.innerClassTypes segments, t.RenamedBy f R) →
      List.Forall₂ (ClassSegment.Related R) segments (ClassSegment.mapInner f segments)
  | [], _ => .nil
  | segment :: segments, h => by
    rw [ClassSegment.innerClassTypes, List.forall_mem_append] at h
    exact .cons (segment.related_mapClassTypes h.1)
      (ClassSegment.related_mapInner segments h.2)

theorem ClassSegment.related_mapClassTypes : ∀ segment : ClassSegment,
    (∀ t ∈ segment.classTypes, t.RenamedBy f R) → segment.Related R (segment.mapClassTypes f)
  | .mk _ arguments, h => by
    rw [ClassSegment.classTypes] at h
    exact .mk (TypeArgument.related_mapList arguments h)

theorem TypeArgument.related_mapList : ∀ arguments : List TypeArgument,
    (∀ t ∈ TypeArgument.listClassTypes arguments, t.RenamedBy f R) →
      List.Forall₂ (TypeArgument.Related R) arguments (TypeArgument.mapList f arguments)
  | [], _ => .nil
  | argument :: arguments, h => by
    rw [TypeArgument.listClassTypes, List.forall_mem_append] at h
    exact .cons (argument.related_mapClassTypes h.1) (TypeArgument.related_mapList arguments h.2)

theorem TypeArgument.related_mapClassTypes : ∀ argument : TypeArgument,
    (∀ t ∈ argument.classTypes, t.RenamedBy f R) → argument.Related R (argument.mapClassTypes f)
  | .any, _ => .any
  | .bounded variance bound, h => by
    rw [TypeArgument.classTypes] at h
    exact .bounded variance (bound.related_mapClassTypes h)

end

theorem forall₂_map {α : Type} {S : α → α → Prop} {g : α → α} {P : ClassType → Prop}
    {classTypes : α → List ClassType} {items : List α}
    (hstep : ∀ a, (∀ t ∈ classTypes a, P t) → S a (g a))
    (hP : ∀ t ∈ items.flatMap classTypes, P t) : List.Forall₂ S items (items.map g) := by
  rw [List.forall_mem_flatMap] at hP
  rw [List.forall₂_map_right_iff, List.forall₂_same]
  exact fun a ha => hstep a (hP a ha)

theorem optionRel_map {α : Type} {S : α → α → Prop} {g : α → α} {P : ClassType → Prop}
    {classTypes : α → List ClassType} {item : Option α}
    (hstep : ∀ a, (∀ t ∈ classTypes a, P t) → S a (g a))
    (hP : ∀ t ∈ item.toList.flatMap classTypes, P t) : Option.Rel S item (item.map g) := by
  cases item with
  | none => exact .none
  | some a => exact .some (hstep a (by simpa using hP))

theorem TypeParameter.related_mapClassTypes (parameter : TypeParameter)
    (h : ∀ t ∈ parameter.classTypes, t.RenamedBy f R) :
    parameter.Related R (parameter.mapClassTypes f) := by
  rw [TypeParameter.classTypes, List.forall_mem_append] at h
  exact ⟨rfl, optionRel_map ReferenceType.related_mapClassTypes h.1,
    forall₂_map ReferenceType.related_mapClassTypes h.2⟩

theorem ClassSignature.related_mapClassTypes (signature : ClassSignature)
    (h : ∀ t ∈ signature.classTypes, t.RenamedBy f R) :
    signature.Related R (signature.mapClassTypes f) := by
  rw [ClassSignature.classTypes, List.forall_mem_append, List.forall_mem_append] at h
  obtain ⟨⟨hparameters, hsuperclass⟩, hinterfaces⟩ := h
  exact ⟨forall₂_map TypeParameter.related_mapClassTypes hparameters,
    signature.superclass.related_mapClassTypes hsuperclass,
    forall₂_map ClassType.related_mapClassTypes hinterfaces⟩

theorem MethodSignature.related_mapClassTypes (signature : MethodSignature)
    (h : ∀ t ∈ signature.classTypes, t.RenamedBy f R) :
    signature.Related R (signature.mapClassTypes f) := by
  rw [MethodSignature.classTypes, List.forall_mem_append, List.forall_mem_append,
    List.forall_mem_append] at h
  obtain ⟨⟨⟨hvariables, hparameters⟩, hresult⟩, hthrown⟩ := h
  exact ⟨forall₂_map TypeParameter.related_mapClassTypes hvariables,
    forall₂_map GenericType.related_mapClassTypes hparameters,
    optionRel_map GenericType.related_mapClassTypes hresult,
    forall₂_map ReferenceType.related_mapClassTypes hthrown⟩

/-- Replacing all class types of a signature keeps its shape. -/
theorem Signature.related_mapClassTypes (signature : Signature)
    (h : ∀ t ∈ signature.classTypes, t.RenamedBy f R) :
    signature.Related R (signature.mapClassTypes f) := by
  cases signature with
  | ofClass signature => exact .ofClass (signature.related_mapClassTypes h)
  | ofMethod signature => exact .ofMethod (signature.related_mapClassTypes h)
  | ofField type => exact .ofField (type.related_mapClassTypes h)

end Shape

/-! ## Renaming one class type -/

namespace Renames

/-- The new name of an inner class is a simple one, as it replaces only the last part of the
    name. -/
def InnerNamesSimple (renames : Renames) : Prop :=
  ∀ name newName, '$' ∈ name.toList → renames.className? name = some newName →
    '$' ∉ newName.toList

/-- Only classes with an entry have a new name, so there are finitely many to look at. -/
instance (renames : Renames) : Decidable renames.InnerNamesSimple :=
  decidable_of_iff (∀ name ∈ renames.classes.keys, '$' ∈ name.toList →
      ∀ newName ∈ renames.className? name, '$' ∉ newName.toList) <| by
    refine ⟨fun h name newName hdollar hnew => ?_, fun h name _ hdollar newName hnew =>
      h name newName hdollar hnew⟩
    obtain ⟨entry, hentry, -⟩ := Option.bind_eq_some_iff.mp hnew
    exact h name (OrderedMap.mem_keys_of_find? hentry) hdollar newName hnew

/-- Names as renaming gives them to the segments of a class type: any number of segments from
    the outside in, joined, are the full new name of the class that as many old ones name. The
    first alone is the outermost class, and all of them are the class that is meant. -/
def MapsNames (renames : Renames) : NamesRelation := fun names others =>
  ∀ count, 0 < count →
    Text.joined "$" (others.take count) = renames.mapClassName (Text.joined "$" (names.take count))

theorem map_arguments_mapInner (renames : Renames) (enclosing : String)
    (inner : List ClassSegment) :
    (renames.mapInner enclosing inner).map ClassSegment.arguments =
      inner.map ClassSegment.arguments := by
  induction inner generalizing enclosing with
  | nil => rfl
  | cons segment inner ih =>
    obtain ⟨name, arguments⟩ := segment
    rw [mapInner, List.map_cons, List.map_cons, ih]
    rfl

variable {renames : Renames} (hsimple : renames.InnerNamesSimple)

include hsimple

/-- The new name of an inner class is that of the enclosing class and one more part. -/
theorem mapClassName_inner {enclosing name : String} (henclosing : enclosing ≠ "")
    (hname : name ≠ "") (hdollar : '$' ∉ name.toList) :
    ∃ newName, '$' ∉ newName.toList ∧
      renames.mapClassName (enclosing ++ "$" ++ name) =
        renames.mapClassName enclosing ++ "$" ++ newName := by
  have hinside : enclosing? (enclosing ++ "$" ++ name) = some (enclosing, name) :=
    enclosing?_eq_some_iff.mpr ⟨rfl, hdollar, henclosing, hname⟩
  refine ⟨_, ?_, mapClassName_eq_of_enclosing renames hinside⟩
  cases hnew : renames.className? (enclosing ++ "$" ++ name) with
  | none => exact hdollar
  | some newName => exact hsimple _ newName (by simp) hnew

/-- The segments after those around them, as many as one likes, are joined to the new name of
    the class. Each segment becomes one of those around the next, which carries the
    induction. -/
theorem joined_mapInner {around others : List String} (haround : around ≠ [])
    (hothers : others ≠ []) (henclosing : Text.joined "$" around ≠ "")
    (hjoined : Text.joined "$" others = renames.mapClassName (Text.joined "$" around))
    (inner : List ClassSegment) (hne : ∀ segment ∈ inner, segment.name ≠ "")
    (hdollar : ∀ segment ∈ inner, '$' ∉ segment.name.toList) (count : Nat) :
    Text.joined "$" (others ++
        ((renames.mapInner (Text.joined "$" around) inner).map ClassSegment.name).take count) =
      renames.mapClassName
        (Text.joined "$" (around ++ (inner.map ClassSegment.name).take count)) := by
  induction inner generalizing around others count with
  | nil => simpa [mapInner] using hjoined
  | cons segment inner ih =>
    cases count with
    | zero => simpa using hjoined
    | succ count =>
      obtain ⟨name, arguments⟩ := segment
      rw [List.forall_mem_cons] at hne hdollar
      obtain ⟨newName, hnewDollar, hmapped⟩ :=
        mapClassName_inner hsimple henclosing hne.1 hdollar.1
      simp only [ClassSegment.name] at hmapped
      have hcut : Text.cutAtLast? '$'
          (renames.mapClassName (Text.joined "$" around ++ "$" ++ name)) =
            some (renames.mapClassName (Text.joined "$" around), newName) :=
        Text.cutAtLast?_eq_some_iff.mpr ⟨hmapped, hnewDollar⟩
      have hqualified := joined_append_singleton haround name
      have hnext : Text.joined "$" (others ++ [newName]) =
          renames.mapClassName (Text.joined "$" (around ++ [name])) := by
        rw [joined_append_singleton hothers, hqualified, qualifiedName, qualifiedName, hmapped,
          hjoined]
      have hnonempty : Text.joined "$" (around ++ [name]) ≠ "" := by
        rw [hqualified, qualifiedName]
        simp
      have hrest := ih (by simp) (by simp) hnonempty hnext hne.2 hdollar.2 count
      simp only [mapInner, hcut, List.map_cons, List.take_succ_cons, ClassSegment.name]
      rw [hqualified, qualifiedName] at hrest
      simpa [List.append_assoc] using hrest

/-- Renaming joins the segments of a class type to the new name of its class, wherever none of
    its inner names has a `$`. -/
theorem renamedBy_mapClassType {type : ClassType} (hvalid : type.IsValid)
    (hdollar : ∀ segment ∈ type.inner, '$' ∉ segment.name.toList) :
    type.RenamedBy renames.mapClassType renames.MapsNames := by
  rintro ⟨⟨name, arguments⟩, inner⟩ hnames
  have hne : ∀ n ∈ name :: inner.map ClassSegment.name, n ≠ "" := by
    change ∀ n ∈ ClassType.names (.mk (.mk name arguments) inner), n ≠ ""
    rw [hnames, ClassType.names, List.forall_mem_map]
    intro segment hsegment
    have hsegmentValid := (ClassType.isValid_iff type).mp hvalid segment hsegment
    exact ((ClassSegment.isValid_iff segment).mp hsegmentValid).1.ne_empty
  have hinnerDollar : ∀ n ∈ inner.map ClassSegment.name, '$' ∉ n.toList := by
    have hinner : inner.map ClassSegment.name = type.inner.map ClassSegment.name :=
      (List.cons.inj hnames).2
    rw [hinner, List.forall_mem_map]
    exact hdollar
  rw [List.forall_mem_cons, List.forall_mem_map] at hne
  rw [List.forall_mem_map] at hinnerDollar
  rw [← hnames]
  refine ⟨fun count hcount => ?_, ?_⟩
  · obtain ⟨more, rfl⟩ := Nat.exists_eq_add_one_of_ne_zero hcount.ne'
    exact joined_mapInner hsimple (List.cons_ne_nil name []) (List.cons_ne_nil _ []) hne.1 rfl
      inner hne.2 hinnerDollar more
  · exact congrArg (arguments :: ·) (map_arguments_mapInner renames name inner)

end Renames

/-! ## Renaming a signature -/

/-- Remapping gives the text of a signature of the same shape, in which the segments of every
    class type, joined, are the new name of its class. -/
theorem remapSignature_related {renames : Renames} {raw : String} {signature : Signature}
    (hsimple : renames.InnerNamesSimple)
    (hparse : Signature.parse (correctSignature raw) = .ok signature)
    (hdollar : ∀ type ∈ signature.classTypes, ∀ segment ∈ type.inner,
      '$' ∉ segment.name.toList) :
    ∃ mapped : Signature, renames.remapSignature raw = mapped.text ∧
      signature.Related renames.MapsNames mapped := by
  obtain ⟨-, hformed⟩ := Signature.wellFormed_of_parse hparse
  refine ⟨signature.mapClassTypes renames.mapClassType, ?_, ?_⟩
  · unfold Renames.remapSignature
    dsimp only
    rw [hparse]
  · refine signature.related_mapClassTypes fun type htype => ?_
    exact Renames.renamedBy_mapClassType hsimple (hformed.isValid_of_mem_classTypes type htype)
      (hdollar type htype)

theorem remapSignature_related_nested :
    let renames := (({} : Renames).setClassName "a" "pkg/Outer").setClassName "a$b" "Inner"
    let raw := "(TK;)La<TT;>.a$b<+Lx.x$y;>.c;"
    renames.InnerNamesSimple ∧
    Signature.parse (correctSignature raw) = .ok (nestedResult "b" "y") ∧
    (∀ type ∈ (nestedResult "b" "y").classTypes, ∀ segment ∈ type.inner,
      '$' ∉ segment.name.toList) ∧
    renames.remapSignature raw = "(TK;)Lpkg/Outer<TT;>.Inner<+Lx.y;>.c;" ∧
    ∃ mapped : Signature, renames.remapSignature raw = mapped.text ∧
      (nestedResult "b" "y").Related renames.MapsNames mapped := by
  intro renames raw
  have hsimple : renames.InnerNamesSimple := by decide +kernel
  have hparse : Signature.parse (correctSignature raw) = .ok (nestedResult "b" "y") :=
    parse_nestedResult_corrected
  have hdollar : ∀ type ∈ (nestedResult "b" "y").classTypes, ∀ segment ∈ type.inner,
      '$' ∉ segment.name.toList := by decide +kernel
  have htext : renames.remapSignature raw = "(TK;)Lpkg/Outer<TT;>.Inner<+Lx.y;>.c;" := by
    unfold Renames.remapSignature
    dsimp only
    rw [hparse]
    decide +kernel
  exact ⟨hsimple, hparse, hdollar, htext, remapSignature_related hsimple hparse hdollar⟩

end Nomenclator

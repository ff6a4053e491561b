import Mathlib.Tactic
import Nomenclator.Hierarchy.Cache
import Nomenclator.Naming.Synthesis

/-!
# Computations that ask about classes

Resolution and naming runs ask about one class after another, and what they ask next depends
on the answers. Here they are written as such computations, apart from where the answers come
from: a plain function, or layers behind a cache that changes with every question.

Walks over all classes that can be reached need not end if there are infinitely many of them,
so a walk is given a bound on the number of classes it looks at, and a computation has a result
if it has it under every bound that is large enough. Over a hierarchy, which knows finitely
many classes, the computations have results, and these are the ones of `resolveField`,
`resolveMethod` and `synthesizeWith`.

Results:
* `Inquiry`, `Program`: computations that ask, and those that also need a bound.
* `Inquiry.search_answered_of_lt`, `Inquiry.search_answered`: a walk with a large enough bound
  finds what the walk over the graph finds.
* `Program.resolveField_gives`, `Program.resolveMethod_gives`, `Program.synthesize_gives`:
  resolution and naming runs as computations that ask.
-/

namespace Nomenclator

/-! ## Inquiries -/

/-- A computation that asks about classes and goes on with the answers, until it is done or
    gives up. -/
inductive Inquiry (α : Type) where
  | done (a : α)
  | givenUp
  | ask (name : String) (next : Option ClassShape → Inquiry α)

namespace Inquiry

variable {α β : Type}

/-- The second computation goes on where the first one is done. -/
def bind : Inquiry α → (α → Inquiry β) → Inquiry β
  | done a, f => f a
  | givenUp, _ => givenUp
  | ask name next, f => ask name fun answer => (next answer).bind f

instance : Monad Inquiry where
  pure := done
  bind := bind

/-- The question about one class. -/
def about (name : String) : Inquiry (Option ClassShape) := ask name done

/-- The result if a layer answers, none if the computation gives up. -/
def answered (layer : Layer) : Inquiry α → Option α
  | done a => some a
  | givenUp => none
  | ask name next => (next (layer name)).answered layer

/-- The names asked about, in order, if a layer answers. -/
def asked (layer : Layer) : Inquiry α → List String
  | done _ => []
  | givenUp => []
  | ask name next => name :: (next (layer name)).asked layer

/-- The result if layers answer through a cache, and the cache afterwards. -/
def cached (layers : List Layer) : Inquiry α → Cache → Option α × Cache
  | done a, cache => (some a, cache)
  | givenUp, cache => (none, cache)
  | ask name next, cache => (next (cache.ask layers name).1).cached layers (cache.ask layers name).2

variable {layer : Layer}

theorem answered_pure (a : α) : (Pure.pure a : Inquiry α).answered layer = some a := rfl

theorem answered_bind (first : Inquiry α) (next : α → Inquiry β) :
    (first >>= next).answered layer =
      (first.answered layer).bind fun a => (next a).answered layer := by
  induction first with
  | done a => rfl
  | givenUp => rfl
  | ask name _ ih => exact ih (layer name)

theorem answered_about (name : String) : (about name).answered layer = some (layer name) := rfl

/-! ## Bounded walks -/

/-- Walks on from the pending names past those visited before, looking at `bound` classes at
    most. At each class it finds something or the names to go on with. -/
def search (look : String → Inquiry (α ⊕ List String)) :
    (bound : Nat) → (visited pending : List String) → Inquiry (Walk α)
  | 0, _, _ => givenUp
  | bound + 1, visited, pending =>
    match pending.dropWhile visited.contains with
    | [] => return ⟨[], none⟩
    | name :: pending => do
      match ← look name with
      | .inl a => return ⟨[name], some a⟩
      | .inr next => return (← search look bound (name :: visited) (next ++ pending)).after name

theorem search_cons_visited (look : String → Inquiry (α ⊕ List String)) (bound : Nat)
    {visited : List String} {name : String} (hvisited : name ∈ visited)
    (pending : List String) :
    search look bound visited (name :: pending) = search look bound visited pending := by
  cases bound with
  | zero => rfl
  | succ bound =>
    have hcontains : visited.contains name = true := List.contains_iff_mem.mpr hvisited
    rw [search, search, List.dropWhile_cons_of_pos hcontains]

/-- What looking at a class must find for a search to be the walk over a graph. -/
def Follows (look : String → Inquiry (α ⊕ List String)) (layer : Layer) (graph : Graph)
    (test : String → Option α) : Prop :=
  ∀ name, (look name).answered layer = some
    (match test name with
    | some a => .inl a
    | none => .inr (graph.next name))

/-- A bounded walk that may look at more classes than the walk over the graph looks at finds
    what that walk finds. -/
theorem search_answered_of_lt {look : String → Inquiry (α ⊕ List String)} {graph : Graph}
    {test : String → Option α} (hlook : Follows look layer graph test)
    {visited pending : List String} {bound : Nat}
    (hbound : (graph.walk test visited pending).examined.length < bound) :
    (search look bound visited pending).answered layer =
      some (graph.walk test visited pending) := by
  -- Along the walk over the graph: only a class that is looked at uses up some of the bound.
  fun_induction Graph.walk graph test visited pending generalizing bound with
  | case1 visited =>
    obtain ⟨bound, rfl⟩ := Nat.exists_eq_add_of_le' hbound
    rfl
  | case2 visited name pending hvisited ih =>
    rw [search_cons_visited look bound hvisited]
    exact ih hbound
  | case3 visited name pending hfresh a htest =>
    obtain ⟨bound, rfl⟩ := Nat.exists_eq_add_of_le' (Nat.zero_lt_of_lt hbound)
    have hcontains : ¬visited.contains name = true := mt List.contains_iff_mem.mp hfresh
    rw [search, List.dropWhile_cons_of_neg hcontains]
    simp only [answered_bind, hlook name, htest, Option.bind_some]
    rfl
  | case4 visited name pending hfresh htest ih =>
    obtain ⟨bound, rfl⟩ := Nat.exists_eq_add_of_le' (Nat.zero_lt_of_lt hbound)
    have hcontains : ¬visited.contains name = true := mt List.contains_iff_mem.mp hfresh
    have hrest := ih (Nat.lt_of_succ_lt_succ hbound)
    rw [search, List.dropWhile_cons_of_neg hcontains]
    simp only [answered_bind, hlook name, htest, Option.bind_some, hrest]
    rfl

theorem search_answered {look : String → Inquiry (α ⊕ List String)} {graph : Graph}
    {test : String → Option α} (hlook : Follows look layer graph test)
    (visited pending : List String) :
    ∃ enough, ∀ bound ≥ enough,
      (search look bound visited pending).answered layer =
        some (graph.walk test visited pending) :=
  ⟨_, fun _ hbound => search_answered_of_lt hlook hbound⟩

/-! ## What is found at a class -/

/-- Those of the names that are known. -/
def known : List String → Inquiry (List String)
  | [] => return []
  | name :: names => do
    let shape ← about name
    let names ← known names
    return if shape.isSome then name :: names else names

theorem known_answered (names : List String) :
    (known names).answered layer = some (names.filter fun name => (layer name).isSome) := by
  induction names with
  | nil => rfl
  | cons name names ih =>
    simp only [known, answered_bind, answered_about, ih, Option.bind_some, answered_pure,
      List.filter_cons]

/-- A reference looks for the new name at a class, and goes on with those of its parents that
    are known. -/
def lookForName (newName? : String → Option String) (parents : ClassShape → List String)
    (name : String) : Inquiry (String ⊕ List String) :=
  match newName? name with
  | some newName => return .inl newName
  | none => do
    match ← about name with
    | some shape => return .inr (← known (parents shape))
    | none => return .inr []

/-- A method looks for an ancestor, and goes on with all parents of a known class. -/
def lookForAncestor (f : ClassShape → Option α) (name : String) :
    Inquiry (α ⊕ List String) := do
  match ← about name with
  | some shape =>
    match f shape with
    | some a => return .inl a
    | none => return .inr shape.parents
  | none => return .inr []

theorem lookForName_answered (newName? : String → Option String)
    (parents : ClassShape → List String) (name : String) :
    (lookForName newName? parents name).answered layer = some
      (match newName? name with
      | some newName => .inl newName
      | none => .inr (((layer name).elim [] parents).filter fun parent =>
          (layer parent).isSome)) := by
  unfold lookForName
  cases newName? name with
  | some newName => rfl
  | none =>
    simp only [answered_bind, answered_about, Option.bind_some]
    cases layer name with
    | some shape => simp only [answered_bind, known_answered, Option.bind_some, answered_pure,
        Option.elim_some]
    | none => rfl

theorem lookForAncestor_follows (hierarchy : Hierarchy) (f : ClassShape → Option α) :
    Follows (lookForAncestor f) hierarchy.shape? hierarchy.parentGraph
      fun name => (hierarchy.shape? name).bind f := by
  intro name
  simp only [lookForAncestor, answered_bind, answered_about, Option.bind_some,
    Hierarchy.parentGraph, Hierarchy.parents]
  cases hierarchy.shape? name with
  | none => rfl
  | some shape =>
    simp only [Option.bind_some]
    cases f shape with
    | none => rfl
    | some a => rfl

theorem lookForName_follows_supers (hierarchy : Hierarchy) (newName? : String → Option String) :
    Follows (lookForName newName? fun shape => shape.superName.toList) hierarchy.shape?
      hierarchy.knownSuperGraph newName? := by
  intro name
  rw [lookForName_answered]
  cases newName? name with
  | some newName => rfl
  | none =>
    simp only [Hierarchy.knownSuperGraph, Hierarchy.superNames]
    cases hierarchy.shape? name <;> rfl

theorem lookForName_follows_parents (hierarchy : Hierarchy) (newName? : String → Option String) :
    Follows (lookForName newName? ClassShape.parents) hierarchy.shape?
      hierarchy.knownParentGraph newName? := by
  intro name
  rw [lookForName_answered]
  cases newName? name with
  | some newName => rfl
  | none =>
    simp only [Hierarchy.knownParentGraph, Hierarchy.parents]
    cases hierarchy.shape? name <;> rfl

end Inquiry

/-! ## Programs -/

/-- A computation that asks about classes, given a bound on the number of classes that each of
    its walks looks at. -/
abbrev Program := ReaderT Nat Inquiry

namespace Program

open Inquiry

variable {α β : Type} {layer : Layer}

/-- The result of a program if a layer answers: under every bound that is large enough. -/
def Gives (program : Program α) (layer : Layer) (a : α) : Prop :=
  ∃ enough, ∀ bound ≥ enough, (program.run bound).answered layer = some a

theorem Gives.pure (a : α) : Gives (Pure.pure a) layer a := ⟨0, fun _ _ => rfl⟩

theorem Gives.bind {first : Program α} {next : α → Program β} {a : α} {b : β}
    (hfirst : first.Gives layer a) (hnext : (next a).Gives layer b) :
    Gives (first >>= next) layer b := by
  obtain ⟨enough, henough⟩ := hfirst
  obtain ⟨enoughNext, henoughNext⟩ := hnext
  refine ⟨max enough enoughNext, fun bound hbound => ?_⟩
  rw [ReaderT.run_bind, answered_bind, henough bound (le_of_max_le_left hbound)]
  exact henoughNext bound (le_of_max_le_right hbound)

/-- A last step that asks nothing. -/
theorem Gives.map {first : Program α} {a : α} (hfirst : first.Gives layer a) (f : α → β) :
    Gives (first >>= fun x => Pure.pure (f x)) layer (f a) :=
  hfirst.bind (Gives.pure (f a))

theorem Gives.optionPure (result : Option α) :
    Gives (OptionT.mk (Pure.pure result) : OptionT Program α).run layer result :=
  Gives.pure result

/-- Where the first step fails, so does the whole; else the second goes on. -/
theorem Gives.optionBind {first : OptionT Program α} {next : α → OptionT Program β}
    {result : Option α} {nextResult : α → Option β} (hfirst : Gives first.run layer result)
    (hnext : ∀ a, result = some a → Gives (next a).run layer (nextResult a)) :
    Gives (first >>= next).run layer (result.bind nextResult) := by
  rw [OptionT.run_bind]
  refine hfirst.bind ?_
  cases result with
  | none => exact Gives.pure none
  | some a => exact hnext a rfl

/-- A step that cannot fail, and after it one that can. -/
theorem Gives.liftBind {first : Program α} {next : α → OptionT Program β} {a : α}
    {result : Option β} (hfirst : first.Gives layer a) (hnext : Gives (next a).run layer result) :
    Gives (liftM first >>= next : OptionT Program β).run layer result := by
  have hlift : Gives (liftM first : OptionT Program α).run layer (some a) := hfirst.map some
  have hboth : Gives (liftM first >>= next : OptionT Program β).run layer
      ((some a).bind fun _ => result) := by
    refine hlift.optionBind ?_
    rintro _ ⟨⟩
    exact hnext
  exact hboth

theorem Gives.foldlM {step : β → α → Program β} {stepResult : β → α → β}
    (hstep : ∀ b a, Gives (step b a) layer (stepResult b a)) (items : List α) (b : β) :
    Gives (items.foldlM step b) layer (items.foldl stepResult b) := by
  induction items generalizing b with
  | nil => exact Gives.pure b
  | cons a items ih => exact (hstep b a).bind (ih _)

theorem Gives.optionFoldlM {step : β → α → OptionT Program β} {stepResult : β → α → Option β}
    (hstep : ∀ b a, Gives (step b a).run layer (stepResult b a)) (items : List α) (b : β) :
    Gives (items.foldlM step b).run layer (items.foldlM stepResult b) := by
  induction items generalizing b with
  | nil => exact Gives.pure (some b)
  | cons a items ih => exact (hstep b a).optionBind fun b _ => ih b

/-! ## Resolution -/

/-- A walk from the pending names past those visited before. -/
def search (look : String → Inquiry (α ⊕ List String)) (visited pending : List String) :
    Program (Walk α) :=
  fun bound => Inquiry.search look bound visited pending

/-- The new name of a field reference. -/
def resolveField (renames : Renames) (owner name : String) : Program (Option String) := do
  let newName? := fun current => renames.fieldName? current name
  let walk ← search (lookForName newName? fun shape => shape.superName.toList) [] [owner]
  return walk.found

/-- The new name of a method reference. -/
def resolveMethod (renames : Renames) (owner : String) (key : MethodKey) :
    Program (Option String) := do
  let newName? := fun current => renames.methodName? current key
  let walk ← search (lookForName newName? ClassShape.parents) [] [owner]
  return walk.found

variable (hierarchy : Hierarchy)

theorem resolveField_gives (renames : Renames) (owner name : String) :
    (resolveField renames owner name).Gives hierarchy.shape?
      (renames.resolveField hierarchy owner name) :=
  Gives.map (search_answered (lookForName_follows_supers hierarchy _) [] [owner]) Walk.found

theorem resolveMethod_gives (renames : Renames) (owner : String) (key : MethodKey) :
    (resolveMethod renames owner key).Gives hierarchy.shape?
      (renames.resolveMethod hierarchy owner key) :=
  Gives.map (search_answered (lookForName_follows_parents hierarchy _) [] [owner]) Walk.found

/-! ## Naming runs -/

/-- The search for an ancestor of a class at which `f` finds something. -/
def findAncestor (shape : ClassShape) (f : ClassShape → Option α) : Program (Walk α) :=
  search (lookForAncestor f) [shape.name] shape.parents

theorem findAncestor_gives (shape : ClassShape) (f : ClassShape → Option α) :
    (findAncestor shape f).Gives hierarchy.shape? (hierarchy.findAncestor shape f) :=
  search_answered (lookForAncestor_follows hierarchy f) _ _

/-- The search for an ancestor that declares a method. -/
def findDeclaring (shape : ClassShape) (key : MethodKey) : Program (Walk Unit) :=
  findAncestor shape fun ancestor => if ancestor.declares key then some () else none

/-- A naming run: how it names a method that its class may define. -/
def defineMethod (conventions : Conventions) (settings : Settings) (source : SourceClass)
    (progress : Progress) (method : SourceMember) : OptionT Program Progress := do
  let search ← findDeclaring source.shape method.key
  let progress := progress.noteAsked search.examined
  if search.found.isSome || (progress.renames.methodName? source.name method.key).isSome ||
      Progress.keepsMethodName settings source method then
    return progress
  else
    let (id, progress) ← OptionT.mk (return progress.takeMember conventions)
    return progress.setMethod source method.key
      (Progress.numberedName settings.methodPrefix id method.name)

theorem defineMethod_gives (conventions : Conventions) (settings : Settings)
    (source : SourceClass) (progress : Progress) (method : SourceMember) :
    Gives (defineMethod conventions settings source progress method).run hierarchy.shape?
      (Progress.defineMethod conventions hierarchy settings source progress method) := by
  refine (findAncestor_gives hierarchy _ _).liftBind ?_
  unfold Progress.defineMethod
  dsimp only [Hierarchy.findDeclaring]
  split
  · exact Gives.pure _
  · exact (Gives.optionPure _).optionBind fun _ _ => Gives.pure _

/-- The fields, then the methods that a class defines. -/
def defineClass (conventions : Conventions) (settings : Settings) (progress : Progress)
    (source : SourceClass) : OptionT Program Progress := do
  let progress ← OptionT.mk (return Progress.defineFields conventions settings progress source)
  if settings.mapMethods then
    (Progress.membersInOrder conventions source.methods).foldlM
      (defineMethod conventions settings source) progress
  else return progress

theorem defineClass_gives (conventions : Conventions) (settings : Settings)
    (progress : Progress) (source : SourceClass) :
    Gives (defineClass conventions settings progress source).run hierarchy.shape?
      (Progress.defineClass conventions hierarchy settings progress source) := by
  refine (Gives.optionPure _).optionBind fun progress _ => ?_
  unfold Progress.defineMethods
  split
  · exact Gives.optionFoldlM (defineMethod_gives hierarchy conventions settings source) _ _
  · exact Gives.pure _

/-- How a method that overrides another takes its name. -/
def propagateMethod (source : SourceClass) (progress : Progress) (method : SourceMember) :
    Program Progress := do
  let search ← findDeclaring source.shape method.key
  let progress := progress.noteAsked search.examined
  if search.found.isNone || (progress.renames.methodName? source.name method.key).isSome then
    return progress
  else
    let inherited ← findAncestor source.shape fun ancestor =>
      progress.renames.methodName? ancestor.name method.key
    let progress := progress.noteAsked inherited.examined
    return match inherited.found with
      | some newName => progress.setInherited source method.key newName
      | none => progress

theorem propagateMethod_gives (source : SourceClass) (progress : Progress)
    (method : SourceMember) :
    Gives (propagateMethod source progress method) hierarchy.shape?
      (Progress.propagateMethod hierarchy source progress method) := by
  refine (findAncestor_gives hierarchy _ _).bind ?_
  unfold Progress.propagateMethod
  dsimp only [Hierarchy.findDeclaring]
  split
  · exact Gives.pure _
  · exact (findAncestor_gives hierarchy _ _).bind (Gives.pure _)

/-- The members that classes define. -/
def definitionPass (conventions : Conventions) (settings : Settings)
    (classes : List SourceClass) (progress : Progress) : OptionT Program Progress := do
  let progress ← classes.foldlM (defineClass conventions settings) progress
  return progress.note (.definitionsDone classes.length progress.tally.namedFields
    progress.tally.namedMethods progress.nextMember)

theorem definitionPass_gives (conventions : Conventions) (settings : Settings)
    (classes : List SourceClass) (progress : Progress) :
    Gives (definitionPass conventions settings classes progress).run hierarchy.shape?
      (Progress.definitionPass conventions hierarchy settings classes progress) :=
  (Gives.optionFoldlM (defineClass_gives hierarchy conventions settings) classes
    progress).optionBind fun _ _ => Gives.pure _

/-- The methods of a class that override another. -/
def propagateClass (progress : Progress) (source : SourceClass) : Program Progress :=
  source.methods.foldlM (propagateMethod source) progress

/-- The methods of all classes that override another. -/
def propagationPass (settings : Settings) (classes : List SourceClass) (progress : Progress) :
    Program Progress := do
  let progress ←
    if settings.mapMethods then classes.foldlM propagateClass progress else pure progress
  return progress.note (.propagationDone progress.tally.propagatedMethods)

theorem propagationPass_gives (settings : Settings) (classes : List SourceClass)
    (progress : Progress) :
    Gives (propagationPass settings classes progress) hierarchy.shape?
      (Progress.propagationPass hierarchy settings classes progress) := by
  have hclass (progress : Progress) (source : SourceClass) :
      Gives (propagateClass progress source) hierarchy.shape?
        (Progress.propagateClass hierarchy progress source) :=
    Gives.foldlM (propagateMethod_gives hierarchy source) source.methods progress
  unfold propagationPass Progress.propagationPass
  by_cases hmap : settings.mapMethods = true
  · simp only [if_pos hmap]
    exact (Gives.foldlM hclass classes progress).bind (Gives.pure _)
  · simp only [if_neg hmap]
    exact Gives.pure _

/-- A whole naming run. -/
def synthesize (conventions : Conventions) (settings : Settings) (classes : List SourceClass)
    (renames : Renames) : OptionT Program Progress := do
  let ordered := Progress.classesInOrder conventions settings classes
  let progress := Progress.rulesPass settings ordered (Progress.start settings renames)
  let progress := Progress.constantsPass settings ordered progress
  let progress ← OptionT.mk (return Progress.classesPass conventions settings ordered progress)
  let progress ← definitionPass conventions settings ordered progress
  propagationPass settings ordered progress

theorem synthesize_gives (conventions : Conventions) (settings : Settings)
    (classes : List SourceClass) (renames : Renames) :
    Gives (synthesize conventions settings classes renames).run hierarchy.shape?
      (Progress.run conventions hierarchy settings classes renames) := by
  refine (Gives.optionPure _).optionBind fun progress _ => ?_
  refine (definitionPass_gives hierarchy conventions settings _ progress).optionBind
    fun progress _ => ?_
  exact (propagationPass_gives hierarchy settings _ progress).map some

end Program

end Nomenclator

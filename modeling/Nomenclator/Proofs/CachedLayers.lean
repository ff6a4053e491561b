import Nomenclator.Proofs.Inquiries

/-!
# A cache in front of layers makes no difference and saves calls

Whatever was asked before, a cache answers as the layers behind it would. It holds exactly the
names that were asked about, known or not, and has called each layer once for each of them that
no layer before knows. So every computation that asks about classes has the same result with
the cache as without.

Results:
* `Cache.Holds`: what is in a cache after some questions; `ask_holds` is the step and
  `after_holds` all of them.
* `Inquiry.cached_after`: a computation through the cache has the result it has without, and
  leaves the cache as its questions alone would.
* `Cache.transparent_and_minimal`: the answers, the number of names and the calls to each layer
  after any questions, and what programs give through the cache.
-/

namespace Nomenclator

/-! ## Calls to layers -/

namespace Layer

/-- No layer before the one in this place knows the class. -/
def Unknown (layers : List Layer) (place : Nat) (name : String) : Prop :=
  ∀ layer ∈ layers.take place, layer name = none

instance (layers : List Layer) (place : Nat) (name : String) :
    Decidable (Unknown layers place name) :=
  inferInstanceAs (Decidable (∀ layer ∈ layers.take place, layer name = none))

/-- A layer is asked about a class exactly if no layer before it knows it. -/
theorem lt_asked_iff {layers : List Layer} {place : Nat} (h : place < layers.length)
    (name : String) : place < asked layers name ↔ Unknown layers place name := by
  induction layers generalizing place with
  | nil => cases h
  | cons layer layers ih =>
    cases place with
    | zero =>
      rw [asked]
      split <;> simp [Unknown]
    | succ place =>
      have ih := ih (Nat.lt_of_succ_lt_succ h)
      rw [asked]
      cases hlayer : layer name with
      | some shape => simp [Unknown, hlayer]
      | none => simpa [Unknown, hlayer] using ih

/-- The layers that are asked have one call more, the others as many as before. -/
theorem getElem?_countCalls (asked place : Nat) (calls : List Nat) :
    (countCalls asked calls)[place]? =
      calls[place]?.map fun count => count + if place < asked then 1 else 0 := by
  unfold countCalls
  induction calls generalizing asked place with
  | nil => simp
  | cons count calls ih =>
    cases asked with
    | zero => simp
    | succ asked =>
      cases place with
      | zero => simp
      | succ place => simpa using ih asked place

theorem countCalls_range (asked count : Nat) (calls : Nat → Nat) :
    countCalls asked ((List.range count).map calls) =
      (List.range count).map fun place => calls place + if place < asked then 1 else 0 := by
  apply List.ext_getElem?
  intro place
  rw [getElem?_countCalls, List.getElem?_map, List.getElem?_map]
  by_cases hplace : place < count
  · rw [List.getElem?_range hplace]
    rfl
  · rw [List.getElem?_eq_none (by simpa using hplace)]
    rfl

end Layer

namespace Cache

variable {layers : List Layer}

/-- What is in a cache after these names were asked about: their answers, and the calls made
    for them. -/
structure Holds (layers : List Layer) (names : List String) (cache : Cache) : Prop where
  answers : ∀ name, cache.answers.find? name =
    if name ∈ names then some (Layer.first? layers name) else none
  size : cache.size = names.toFinset.card
  calls : cache.calls = (List.range layers.length).map fun place =>
    (names.toFinset.filter (Layer.Unknown layers place)).card

theorem new_holds (layers : List Layer) : Holds layers [] (new layers) where
  answers _ := rfl
  size := rfl
  calls := by simp [new]

/-- The name has been asked about: nothing changes. -/
theorem Holds.repeated {names : List String} {cache : Cache} (h : Holds layers names cache)
    {name : String} (hmem : name ∈ names) : Holds layers (names ++ [name]) cache := by
  have hsame : (names ++ [name]).toFinset = names.toFinset := by
    ext other
    simp only [List.mem_toFinset, List.mem_append, List.mem_singleton]
    exact ⟨fun hother => hother.elim id fun heq => heq ▸ hmem, Or.inl⟩
  refine ⟨fun other => ?_, by rw [hsame, h.size], by rw [hsame, h.calls]⟩
  rw [h.answers]
  simp only [← List.mem_toFinset, hsame]

/-- The name is new: there is one answer more, and one call more to each layer that is
    asked. -/
theorem Holds.fresh {names : List String} {cache : Cache} (h : Holds layers names cache)
    {name : String} (hfresh : name ∉ names) :
    Holds layers (names ++ [name])
      ⟨cache.answers.insert name (Layer.first? layers name),
        Layer.countCalls (Layer.asked layers name) cache.calls⟩ := by
  have hnone : cache.answers.find? name = none := by rw [h.answers, if_neg hfresh]
  have hset : (names ++ [name]).toFinset = insert name names.toFinset := by
    ext other
    simp
  refine ⟨fun other => ?_, ?_, ?_⟩
  · by_cases hother : other = name
    · subst hother
      rw [OrderedMap.insert, OrderedMap.find?_update_self, if_pos (by simp)]
    · rw [OrderedMap.insert, OrderedMap.find?_update_of_ne _ hother, h.answers]
      simp [hother]
  · rw [hset, Finset.card_insert_of_notMem (by simpa using hfresh), ← h.size]
    exact OrderedMap.size_insert_of_find? hnone _
  · -- A layer has a call more exactly if the name is one that no layer before it knows.
    dsimp only
    rw [h.calls, Layer.countCalls_range, hset]
    apply List.map_congr_left
    intro place hplace
    have hasked := Layer.lt_asked_iff (List.mem_range.mp hplace) name
    have hnew : name ∉ names.toFinset.filter (Layer.Unknown layers place) := by simp [hfresh]
    rw [Finset.filter_insert]
    by_cases hunknown : Layer.Unknown layers place name
    · rw [if_pos (hasked.mpr hunknown), if_pos hunknown, Finset.card_insert_of_notMem hnew]
    · rw [if_neg (mt hasked.mp hunknown), if_neg hunknown, Nat.add_zero]

/-- The step: the answer is the one of the layers, and the cache remembers the name. -/
theorem ask_holds {names : List String} {cache : Cache} (h : Holds layers names cache)
    (name : String) :
    (cache.ask layers name).1 = Layer.first? layers name ∧
      Holds layers (names ++ [name]) (cache.ask layers name).2 := by
  unfold ask
  by_cases hmem : name ∈ names
  · rw [h.answers, if_pos hmem]
    exact ⟨rfl, h.repeated hmem⟩
  · rw [h.answers, if_neg hmem]
    exact ⟨rfl, h.fresh hmem⟩

/-- The answers to questions in a row and the cache afterwards. -/
def askAll (layers : List Layer) (cache : Cache) :
    List String → List (Option ClassShape) × Cache
  | [] => ([], cache)
  | name :: names =>
    let (answer, cache) := cache.ask layers name
    let (answers, cache) := askAll layers cache names
    (answer :: answers, cache)

/-- The cache after questions in a row, at first empty. -/
def after (layers : List Layer) (names : List String) : Cache :=
  (askAll layers (new layers) names).2

theorem askAll_holds {names : List String} {cache : Cache} (h : Holds layers names cache)
    (more : List String) :
    (askAll layers cache more).1 = more.map (Layer.first? layers) ∧
      Holds layers (names ++ more) (askAll layers cache more).2 := by
  induction more generalizing names cache with
  | nil => exact ⟨rfl, by rwa [List.append_nil]⟩
  | cons name more ih =>
    obtain ⟨hanswer, hholds⟩ := ask_holds h name
    obtain ⟨hanswers, hholdsAll⟩ := ih hholds
    rw [List.append_assoc] at hholdsAll
    exact ⟨congrArg₂ List.cons hanswer hanswers, hholdsAll⟩

theorem after_holds (layers : List Layer) (names : List String) :
    Holds layers names (after layers names) :=
  (askAll_holds (new_holds layers) names).2

theorem askAll_append_singleton (cache : Cache) (names : List String) (name : String) :
    (askAll layers cache (names ++ [name])).2 =
      ((askAll layers cache names).2.ask layers name).2 := by
  induction names generalizing cache with
  | nil => rfl
  | cons first names ih => exact ih (cache.ask layers first).2

theorem ask_after (layers : List Layer) (names : List String) (name : String) :
    (after layers names).ask layers name =
      (Layer.first? layers name, after layers (names ++ [name])) := by
  apply Prod.ext
  · exact (ask_holds (after_holds layers names) name).1
  · exact (askAll_append_singleton (new layers) names name).symm

end Cache

/-! ## Computations through the cache -/

/-- Asking the layers through the cache gives the result that the layers alone give. It leaves
    the cache as the same questions would without a computation behind them. -/
theorem Inquiry.cached_after {α : Type} (layers : List Layer) (inquiry : Inquiry α)
    (names : List String) :
    inquiry.cached layers (Cache.after layers names) =
      (inquiry.answered (Layer.first? layers),
        Cache.after layers (names ++ inquiry.asked (Layer.first? layers))) := by
  induction inquiry generalizing names with
  | done a => rw [asked, List.append_nil]; rfl
  | givenUp => rw [asked, List.append_nil]; rfl
  | ask name next ih =>
    rw [cached, Cache.ask_after, ih, asked, List.append_assoc]
    rfl

namespace Program

variable {α : Type}

/-- The result of a program if layers answer through a cache: under every bound that is large
    enough. -/
def GivesCached (program : Program α) (layers : List Layer) (cache : Cache) (a : α) : Prop :=
  ∃ enough, ∀ bound ≥ enough, ((program.run bound).cached layers cache).1 = some a

theorem givesCached_iff (program : Program α) (layers : List Layer) (names : List String)
    (a : α) :
    program.GivesCached layers (Cache.after layers names) a ↔
      program.Gives (Layer.first? layers) a := by
  simp only [GivesCached, Inquiry.cached_after]
  rfl

end Program

theorem Hierarchy.cascade_shape? (hierarchies : List Hierarchy) :
    (cascade hierarchies).shape? = Layer.first? (hierarchies.map Hierarchy.shape?) := by
  funext name
  show hierarchies.findSome? (fun hierarchy => hierarchy.shape? name) = _
  rw [Layer.first?, List.findSome?_map]
  rfl

/-- A cache in front of layers answers every question as the first layer does that knows the
    class. After any questions it holds the names that were asked about, and has called each
    layer once for each of these names that no layer before knows. Whatever was asked before,
    every program has the results through the cache that it has without it. In particular
    resolution and naming runs through a cache in front of hierarchies have the results they
    have over the cascade. -/
theorem Cache.transparent_and_minimal (layers : List Layer) (queries : List String) :
    (Cache.askAll layers (Cache.new layers) queries).1 = queries.map (Layer.first? layers) ∧
    (Cache.after layers queries).size = queries.toFinset.card ∧
    (Cache.after layers queries).calls = (List.range layers.length).map (fun place =>
      (queries.toFinset.filter (Layer.Unknown layers place)).card) ∧
    (∀ (α : Type) (program : Program α) (a : α),
      program.GivesCached layers (Cache.after layers queries) a ↔
        program.Gives (Layer.first? layers) a) ∧
    (∀ hierarchies renames owner name,
      (Program.resolveField renames owner name).GivesCached (hierarchies.map Hierarchy.shape?)
        (Cache.after (hierarchies.map Hierarchy.shape?) queries)
        (renames.resolveField (Hierarchy.cascade hierarchies) owner name)) ∧
    (∀ hierarchies renames owner key,
      (Program.resolveMethod renames owner key).GivesCached (hierarchies.map Hierarchy.shape?)
        (Cache.after (hierarchies.map Hierarchy.shape?) queries)
        (renames.resolveMethod (Hierarchy.cascade hierarchies) owner key)) ∧
    ∀ hierarchies settings classes renames,
      Program.GivesCached (Program.synthesize .standard settings classes renames).run
        (hierarchies.map Hierarchy.shape?)
        (Cache.after (hierarchies.map Hierarchy.shape?) queries)
        (synthesizeWith (Hierarchy.cascade hierarchies) settings classes renames) := by
  obtain ⟨hanswers, hholds⟩ := Cache.askAll_holds (Cache.new_holds layers) queries
  refine ⟨hanswers, hholds.size, hholds.calls, ?_, ?_, ?_, ?_⟩
  · intro α program a
    exact Program.givesCached_iff program layers queries a
  · intro hierarchies renames owner name
    rw [Program.givesCached_iff, ← Hierarchy.cascade_shape?]
    exact Program.resolveField_gives _ renames owner name
  · intro hierarchies renames owner key
    rw [Program.givesCached_iff, ← Hierarchy.cascade_shape?]
    exact Program.resolveMethod_gives _ renames owner key
  · intro hierarchies settings classes renames
    rw [Program.givesCached_iff, ← Hierarchy.cascade_shape?]
    exact Program.synthesize_gives _ .standard settings classes renames

end Nomenclator

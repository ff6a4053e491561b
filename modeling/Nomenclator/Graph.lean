/-!
# Walks over finite graphs

A graph gives every name the names that follow it, in order; only finitely many
names are followed by any. A walk goes depth first through the names that can
be reached, looks at each at most once, and stops at the first that passes a
test.

Specification: `SPEC_FULL.md` §4.2, traversal bounded by a visited-name set.

Results:
* `unvisited_lt`: looking at an inner name leaves fewer of them, which is why
  walks end on cyclic graphs too.
-/

namespace Nomenclator

/-- Successors of names, of which only the inner names have any. -/
structure Graph where
  next : String → List String
  inner : List String
  next_eq_nil : ∀ name, name ∉ inner → next name = []

/-- The names that a walk looked at, in order, and what it found at the last of
    them, if it found anything. -/
structure Walk (α : Type) where
  examined : List String
  found : Option α

namespace Walk

variable {α : Type}

/-- The names at which nothing was found. -/
def passed (walk : Walk α) : List String :=
  match walk.found with
  | some _ => walk.examined.dropLast
  | none => walk.examined

/-- The walk that looked at one more name first. -/
def after (name : String) (walk : Walk α) : Walk α := ⟨name :: walk.examined, walk.found⟩

end Walk

namespace Graph

/-- How many inner names have not been visited. -/
def unvisited (graph : Graph) (visited : List String) : Nat :=
  graph.inner.countP fun name => !visited.contains name

theorem countP_lt_countP {p q : String → Bool} {names : List String}
    (hpq : ∀ n, p n = true → q n = true) {name : String} (hmem : name ∈ names)
    (hq : q name = true) (hp : p name = false) : names.countP p < names.countP q := by
  induction names with
  | nil => cases hmem
  | cons head names ih =>
    have hle : names.countP p ≤ names.countP q := List.countP_mono_left fun n _ => hpq n
    rw [List.countP_cons, List.countP_cons]
    rcases List.mem_cons.mp hmem with rfl | hmem
    · rw [hp, hq]
      simp only [if_true]
      exact Nat.lt_succ_of_le hle
    · have hlt := ih hmem
      by_cases hph : p head = true
      · rw [hph, hpq head hph]
        exact Nat.add_lt_add_right hlt _
      · rw [Bool.not_eq_true] at hph
        rw [hph]
        exact Nat.lt_of_lt_of_le hlt (Nat.le_add_right _ _)

/-- Looking at an inner name for the first time leaves fewer to look at. -/
theorem unvisited_lt (graph : Graph) {visited : List String} {name : String}
    (hinner : name ∈ graph.inner) (hfresh : name ∉ visited) :
    graph.unvisited (name :: visited) < graph.unvisited visited := by
  refine countP_lt_countP ?_ hinner ?_ ?_
  · intro n hn
    simp only [List.contains_cons, Bool.not_or, Bool.and_eq_true] at hn
    exact hn.2
  · simpa using hfresh
  · simp

theorem unvisited_le (graph : Graph) (visited : List String) (name : String) :
    graph.unvisited (name :: visited) ≤ graph.unvisited visited := by
  refine List.countP_mono_left fun n _ hn => ?_
  simp only [List.contains_cons, Bool.not_or, Bool.and_eq_true] at hn
  exact hn.2

/-- Walks on from the pending names, nearest first, past names visited
    before. -/
def walk {α : Type} (graph : Graph) (test : String → Option α) (visited : List String)
    (pending : List String) : Walk α :=
  match pending with
  | [] => ⟨[], none⟩
  | name :: pending =>
    if name ∈ visited then graph.walk test visited pending
    else
      match test name with
      | some a => ⟨[name], some a⟩
      | none => (graph.walk test (name :: visited) (graph.next name ++ pending)).after name
termination_by (graph.unvisited visited, pending.length)
decreasing_by
  · exact Prod.Lex.right _ (Nat.lt_succ_self _)
  · by_cases hinner : name ∈ graph.inner
    · exact Prod.Lex.left _ _ (graph.unvisited_lt hinner ‹name ∉ visited›)
    · rw [graph.next_eq_nil name hinner]
      rcases Nat.lt_or_eq_of_le (graph.unvisited_le visited name) with hlt | heq
      · exact Prod.Lex.left _ _ hlt
      · rw [heq]
        exact Prod.Lex.right _ (Nat.lt_succ_self _)

end Graph

end Nomenclator

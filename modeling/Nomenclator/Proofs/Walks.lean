import Mathlib.Logic.Relation
import Mathlib.Tactic
import Nomenclator.Graph

/-!
# What walks find

A walk looks at the names that can be reached without passing a visited one. On a
graph without cycles it finds what plain recursion without a visited set finds.

Results:
* `walk_found_eq_none_iff`, `exists_reaches_of_walk_found`: a walk finds something
  exactly if a name within reach passes the test, also on cyclic graphs.
* `reaches_next_iff`: from the successors of a name, past the name itself, one reaches
  all names below it but itself.
* `lookup`, `walk_found_eq_findSome?`, `walk_found_eq_lookup`: without cycles a walk
  finds what the recursion finds.
* `walk_eq_walkUnrolled`: a walk can be evaluated step by step.
-/

namespace Nomenclator.Graph

open Relation (TransGen ReflTransGen)

variable {α : Type} {graph : Graph}

/-- A step from a name to one that follows it. -/
def Edge (graph : Graph) (a b : String) : Prop := b ∈ graph.next a

/-! ## Within reach of a walk -/

/-- The name can be reached from a pending one without passing a visited one. -/
inductive Reaches (graph : Graph) (visited pending : List String) : String → Prop where
  | start {name : String} : name ∈ pending → name ∉ visited → Reaches graph visited pending name
  | step {a b : String} : Reaches graph visited pending a → b ∈ graph.next a → b ∉ visited →
    Reaches graph visited pending b

theorem not_reaches_nil (visited : List String) (name : String) :
    ¬graph.Reaches visited [] name := by
  intro h
  induction h with
  | start hmem => exact List.not_mem_nil hmem
  | step _ _ _ ih => exact ih

/-- A pending name that has been visited makes no difference. -/
theorem reaches_cons_visited {visited pending : List String} {head : String}
    (hhead : head ∈ visited) (name : String) :
    graph.Reaches visited (head :: pending) name ↔ graph.Reaches visited pending name := by
  constructor
  · intro h
    induction h with
    | start hmem hfresh =>
      rcases List.mem_cons.mp hmem with rfl | hmem
      · exact absurd hhead hfresh
      · exact .start hmem hfresh
    | step _ hnext hfresh ih => exact .step ih hnext hfresh
  · intro h
    induction h with
    | start hmem hfresh => exact .start (List.mem_cons_of_mem _ hmem) hfresh
    | step _ hnext hfresh ih => exact .step ih hnext hfresh

/-- A fresh pending name brings itself and what follows it. -/
theorem reaches_cons_fresh {visited pending : List String} {head : String}
    (hhead : head ∉ visited) (name : String) :
    graph.Reaches visited (head :: pending) name ↔
      name = head ∨ graph.Reaches (head :: visited) (graph.next head ++ pending) name := by
  constructor
  · intro h
    induction h with
    | @start n hmem hfresh =>
      by_cases hn : n = head
      · exact Or.inl hn
      · have hpending : n ∈ pending := (List.mem_cons.mp hmem).resolve_left hn
        exact Or.inr (.start (List.mem_append_right _ hpending) (by simp [hn, hfresh]))
    | @step a b _ hnext hfresh ih =>
      by_cases hb : b = head
      · exact Or.inl hb
      · have hnew : b ∉ head :: visited := by simp [hb, hfresh]
        right
        rcases ih with rfl | ih
        · exact .start (List.mem_append_left _ hnext) hnew
        · exact .step ih hnext hnew
  · have hstart : graph.Reaches visited (head :: pending) head := .start List.mem_cons_self hhead
    rintro (rfl | h)
    · exact hstart
    · induction h with
      | start hmem hfresh =>
        have hold := fun hv => hfresh (List.mem_cons_of_mem head hv)
        rcases List.mem_append.mp hmem with hmem | hmem
        · exact .step hstart hmem hold
        · exact .start (List.mem_cons_of_mem _ hmem) hold
      | step _ hnext hfresh ih =>
        exact .step ih hnext fun hv => hfresh (List.mem_cons_of_mem head hv)

/-- A walk finds nothing exactly if nothing within its reach passes the test. -/
theorem walk_found_eq_none_iff (graph : Graph) (test : String → Option α)
    (visited pending : List String) :
    (graph.walk test visited pending).found = none ↔
      ∀ name, graph.Reaches visited pending name → test name = none := by
  fun_induction graph.walk test visited pending with
  | case1 visited =>
    simp [not_reaches_nil]
  | case2 visited name pending hvisited ih =>
    rw [ih]
    simp only [reaches_cons_visited hvisited]
  | case3 visited name pending hfresh a htest =>
    simp only [reduceCtorEq, false_iff]
    intro hall
    have hnone := hall name (.start List.mem_cons_self hfresh)
    rw [htest] at hnone
    cases hnone
  | case4 visited name pending hfresh htest ih =>
    simp only [Walk.after, ih, reaches_cons_fresh hfresh]
    constructor
    · rintro hall n (rfl | hn)
      · exact htest
      · exact hall n hn
    · exact fun hall n hn => hall n (Or.inr hn)

/-- What a walk finds, it finds at a name within its reach. -/
theorem exists_reaches_of_walk_found {test : String → Option α} {visited pending : List String}
    {a : α} (h : (graph.walk test visited pending).found = some a) :
    ∃ name, graph.Reaches visited pending name ∧ test name = some a := by
  fun_induction graph.walk test visited pending with
  | case1 visited => cases h
  | case2 visited name pending hvisited ih =>
    obtain ⟨n, hn, htest⟩ := ih h
    exact ⟨n, (reaches_cons_visited hvisited n).mpr hn, htest⟩
  | case3 visited name pending hfresh b htest =>
    exact ⟨name, .start List.mem_cons_self hfresh, htest.trans h⟩
  | case4 visited name pending hfresh htest ih =>
    obtain ⟨n, hn, hfound⟩ := ih h
    exact ⟨n, (reaches_cons_fresh hfresh n).mpr (Or.inr hn), hfound⟩

/-- What a walk does depends on the test only within its reach. -/
theorem walk_congr {test other : String → Option α} {visited pending : List String}
    (h : ∀ name, graph.Reaches visited pending name → test name = other name) :
    graph.walk test visited pending = graph.walk other visited pending := by
  fun_induction graph.walk test visited pending with
  | case1 visited => rw [walk]
  | case2 visited name pending hvisited ih =>
    rw [ih fun n hn => h n ((reaches_cons_visited hvisited n).mpr hn)]
    conv_rhs => rw [walk, if_pos hvisited]
  | case3 visited name pending hfresh a htest =>
    have hother := h name (.start List.mem_cons_self hfresh)
    rw [htest] at hother
    rw [walk, if_neg hfresh, ← hother]
  | case4 visited name pending hfresh htest ih =>
    have hother := h name (.start List.mem_cons_self hfresh)
    rw [htest] at hother
    rw [ih fun n hn => h n ((reaches_cons_fresh hfresh n).mpr (Or.inr hn))]
    conv_rhs => rw [walk, if_neg hfresh, ← hother]

/-- From the successors of a name, past the name itself, exactly the other names
    below it are within reach. -/
theorem reaches_next_iff (graph : Graph) (origin name : String) :
    graph.Reaches [origin] (graph.next origin) name ↔
      TransGen graph.Edge origin name ∧ name ≠ origin := by
  constructor
  · intro h
    induction h with
    | start hmem hfresh => exact ⟨.single hmem, by simpa using hfresh⟩
    | step _ hnext hfresh ih => exact ⟨ih.1.tail hnext, by simpa using hfresh⟩
  · rintro ⟨hpath, hne⟩
    induction hpath with
    | single hedge => exact .start hedge (by simpa using hne)
    | @tail b c _ hedge ih =>
      by_cases hb : b = origin
      · rw [hb] at hedge
        exact .start hedge (by simpa using hne)
      · exact .step (ih hb) hedge (by simpa using hne)

/-! ## Graphs without cycles -/

/-- No name is below itself. -/
def Acyclic (graph : Graph) : Prop := ∀ name, ¬TransGen graph.Edge name name

open scoped Classical in
/-- How many inner names are at or below a name. -/
noncomputable def height (graph : Graph) (name : String) : Nat :=
  graph.inner.countP fun other => decide (ReflTransGen graph.Edge name other)

open scoped Classical in
/-- Steps lead downwards. -/
theorem Acyclic.height_lt (h : graph.Acyclic) {a b : String} (hedge : graph.Edge a b) :
    graph.height b < graph.height a := by
  have hinner : a ∈ graph.inner := by
    by_contra hnot
    rw [Edge, graph.next_eq_nil a hnot] at hedge
    exact List.not_mem_nil hedge
  refine countP_lt_countP ?_ hinner ?_ ?_
  · intro n hn
    rw [decide_eq_true_eq] at hn ⊢
    exact .head hedge hn
  · exact decide_eq_true .refl
  · exact decide_eq_false fun hback => h a (.head' hedge hback)

/-- What plain recursion finds first, at a name or below it, where every name is
    looked at as often as it is met. -/
def lookup (graph : Graph) (hacyclic : graph.Acyclic) (test : String → Option α)
    (name : String) : Option α :=
  (test name).or
    ((graph.next name).attach.findSome? fun child => graph.lookup hacyclic test child.1)
termination_by graph.height name
decreasing_by exact hacyclic.height_lt child.2

theorem lookup_eq (hacyclic : graph.Acyclic) (test : String → Option α) (name : String) :
    graph.lookup hacyclic test name =
      (test name).or ((graph.next name).findSome? (graph.lookup hacyclic test)) := by
  rw [lookup, List.findSome?_subtype fun child hchild => rfl, List.unattach_attach]

theorem findSome?_congr_mem {f g : String → Option α} {names : List String}
    (h : ∀ name ∈ names, f name = g name) : names.findSome? f = names.findSome? g := by
  induction names with
  | nil => rfl
  | cons name names ih =>
    rw [List.findSome?_cons, List.findSome?_cons, h name List.mem_cons_self,
      ih fun other hother => h other (List.mem_cons_of_mem _ hother)]

/-- Only the recursion itself satisfies the equation of the recursion. -/
theorem eq_lookup (hacyclic : graph.Acyclic) {test : String → Option α}
    {found : String → Option α}
    (hfound : ∀ name, found name = (test name).or ((graph.next name).findSome? found))
    (name : String) : found name = graph.lookup hacyclic test name := by
  induction hheight : graph.height name using Nat.strong_induction_on generalizing name with
  | _ height ih =>
    have hbelow : ∀ child ∈ graph.next name, found child = graph.lookup hacyclic test child :=
      fun child hchild => ih _ (hheight ▸ hacyclic.height_lt hchild) child rfl
    rw [hfound, lookup_eq, findSome?_congr_mem hbelow]

/-- What a visited name has come to: what can be found below it is still to be found
    in the front part of the pending names, which are all below it. -/
def Settling (graph : Graph) (found : String → Option α) (pending : List String)
    (name : String) : Prop :=
  ∃ front rest, pending = front ++ rest ∧ found name = front.findSome? found ∧
    ∀ other ∈ front, TransGen graph.Edge name other

/-- The first pending name may be replaced by names below it at which the same is
    found. -/
theorem Settling.replace {found : String → Option α} {head name : String}
    {pending new : List String} (h : graph.Settling found (head :: pending) name)
    (hhead : found head = new.findSome? found)
    (hnew : ∀ other ∈ new, TransGen graph.Edge head other) :
    graph.Settling found (new ++ pending) name := by
  obtain ⟨front, rest, hsplit, hname, hbelow⟩ := h
  cases front with
  | nil => exact ⟨[], new ++ pending, rfl, hname, hbelow⟩
  | cons first front =>
    obtain ⟨rfl, rfl⟩ := List.cons.inj hsplit
    refine ⟨new ++ front, rest, (List.append_assoc _ _ _).symm, ?_, ?_⟩
    · rw [hname, List.findSome?_cons, List.findSome?_append, ← hhead]
      cases found head <;> rfl
    · intro other hother
      rcases List.mem_append.mp hother with hother | hother
      · exact (hbelow head List.mem_cons_self).trans (hnew other hother)
      · exact hbelow other (List.mem_cons_of_mem _ hother)

/-- On a graph without cycles a walk finds what the recursion finds at the first
    pending name where it finds anything. -/
theorem walk_found_eq_findSome? (hacyclic : graph.Acyclic) {test found : String → Option α}
    (hfound : ∀ name, found name = (test name).or ((graph.next name).findSome? found))
    {visited pending : List String}
    (hvisited : ∀ name ∈ visited, graph.Settling found pending name) :
    (graph.walk test visited pending).found = pending.findSome? found := by
  fun_induction graph.walk test visited pending with
  | case1 visited => rfl
  | case2 visited name pending hmem ih =>
    -- A visited name is never pending below itself, so nothing was found below it.
    have hnone : found name = none := by
      obtain ⟨front, rest, hsplit, hname, hbelow⟩ := hvisited name hmem
      cases front with
      | nil => exact hname
      | cons first front =>
        obtain ⟨rfl, -⟩ := List.cons.inj hsplit
        exact absurd (hbelow name List.mem_cons_self) (hacyclic name)
    rw [ih, List.findSome?_cons, hnone]
    intro other hother
    exact (hvisited other hother).replace (List.findSome?_nil ▸ hnone)
      fun _ hmem => absurd hmem List.not_mem_nil
  | case3 visited name pending hfresh a htest =>
    rw [List.findSome?_cons, hfound name, htest]
    rfl
  | case4 visited name pending hfresh htest ih =>
    have hname : found name = (graph.next name).findSome? found := by
      rw [hfound, htest]
      rfl
    have hbelow : ∀ other ∈ graph.next name, TransGen graph.Edge name other :=
      fun other hother => .single hother
    show (graph.walk test (name :: visited) (graph.next name ++ pending)).found = _
    rw [ih, List.findSome?_append, List.findSome?_cons, ← hname]
    · cases found name <;> rfl
    · intro other hother
      rcases List.mem_cons.mp hother with rfl | hother
      · exact ⟨graph.next other, pending, rfl, hname, hbelow⟩
      · exact (hvisited other hother).replace hname hbelow

/-- On a graph without cycles a walk from one name finds what the recursion
    finds. -/
theorem walk_found_eq_lookup (hacyclic : graph.Acyclic) (test : String → Option α)
    (origin : String) :
    (graph.walk test [] [origin]).found = graph.lookup hacyclic test origin := by
  rw [walk_found_eq_findSome? hacyclic (lookup_eq hacyclic test)]
  · simp
  · exact fun name hname => absurd hname List.not_mem_nil

/-- A walk from the successors of a name that does not pass the test itself. -/
theorem walk_next_found (hacyclic : graph.Acyclic) {test found : String → Option α}
    (hfound : ∀ name, found name = (test name).or ((graph.next name).findSome? found))
    {origin : String} (horigin : test origin = none) :
    (graph.walk test [origin] (graph.next origin)).found = found origin := by
  have hname : found origin = (graph.next origin).findSome? found := by
    rw [hfound, horigin]
    rfl
  rw [hname]
  apply walk_found_eq_findSome? hacyclic hfound
  intro name hmem
  rw [List.mem_singleton.mp hmem]
  exact ⟨graph.next origin, [], (List.append_nil _).symm, hname, fun o ho => .single ho⟩

/-! ## Walks spelled out -/

/-- The walk with its first `steps` steps by recursion on their number, which can be
    evaluated. -/
def walkUnrolled (graph : Graph) (test : String → Option α) :
    (steps : Nat) → (visited pending : List String) → Walk α
  | 0, visited, pending => graph.walk test visited pending
  | _ + 1, _, [] => ⟨[], none⟩
  | steps + 1, visited, name :: pending =>
    if name ∈ visited then graph.walkUnrolled test steps visited pending
    else
      match test name with
      | some a => ⟨[name], some a⟩
      | none =>
        (graph.walkUnrolled test steps (name :: visited) (graph.next name ++ pending)).after name

theorem walk_eq_walkUnrolled (steps : Nat) (graph : Graph) (test : String → Option α)
    (visited pending : List String) :
    graph.walk test visited pending = graph.walkUnrolled test steps visited pending := by
  induction steps generalizing visited pending with
  | zero => rfl
  | succ steps ih =>
    cases pending with
    | nil => rw [walk, walkUnrolled]
    | cons name pending =>
      rw [walk, walkUnrolled]
      split_ifs with hvisited
      · exact ih visited pending
      · cases test name with
        | some a => rfl
        | none => rw [ih]

end Nomenclator.Graph

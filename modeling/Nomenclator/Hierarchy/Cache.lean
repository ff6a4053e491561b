import Nomenclator.Hierarchy.Basic

/-!
# Asking layers, with and without a cache

Layers are asked one after the other until one knows the class. A cache in
front of them remembers every answer, also that a class is not known, and so
asks the layers at most once about each name.

Specification: `SPEC_FULL.md` §4.1 and §8, properties 9 and 10.
-/

namespace Nomenclator

/-- Something that can be asked about classes by name. -/
abbrev Layer := String → Option ClassShape

namespace Layer

/-- What the first layer that knows the class says about it. -/
def first? (layers : List Layer) (name : String) : Option ClassShape :=
  layers.findSome? fun layer => layer name

/-- How many of the layers are asked about a class: those up to the first that
    knows it. -/
def asked (layers : List Layer) (name : String) : Nat :=
  match layers with
  | [] => 0
  | layer :: layers => if (layer name).isSome then 1 else asked layers name + 1

/-- The number of calls to each layer after the first `asked` were called once
    more. -/
def countCalls (asked : Nat) (calls : List Nat) : List Nat :=
  (calls.take asked).map (· + 1) ++ calls.drop asked

end Layer

/-- The answers given so far and how often each layer was called for them. -/
structure Cache where
  answers : OrderedMap String (Option ClassShape)
  calls : List Nat

namespace Cache

/-- Nothing asked so far. -/
def new (layers : List Layer) : Cache := ⟨∅, layers.map fun _ => 0⟩

/-- The number of names asked about so far. -/
def size (cache : Cache) : Nat := cache.answers.size

/-- Asks the layers without looking at remembered answers or remembering the
    new one. -/
def bypass (layers : List Layer) (cache : Cache) (name : String) : Option ClassShape × Cache :=
  (Layer.first? layers name,
   { cache with calls := Layer.countCalls (Layer.asked layers name) cache.calls })

/-- Asks the layers unless the answer is remembered (the caching provider, §4.1). -/
def ask (layers : List Layer) (cache : Cache) (name : String) : Option ClassShape × Cache :=
  match cache.answers.find? name with
  | some answer => (answer, cache)
  | none =>
    let (answer, cache) := cache.bypass layers name
    (answer, { cache with answers := cache.answers.insert name answer })

end Cache

end Nomenclator

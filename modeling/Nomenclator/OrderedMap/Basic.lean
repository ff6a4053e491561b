/-!
# Ordered maps

A finite map kept as the list of its entries in increasing order of their keys,
so that equal contents are equal maps and the entries come out in order.

Results:
* `ordered_updateIn`, `ordered_eraseIn`: updates and removals keep the order.
-/

namespace Nomenclator

open Std (TransOrd LawfulEqOrd OrientedCmp TransCmp)

/-- The keys of the entries increase. -/
def EntriesOrdered {κ α : Type} [Ord κ] (entries : List (κ × α)) : Prop :=
  entries.Pairwise fun a b => compare a.1 b.1 = .lt

/-- A finite map with its entries in increasing order of their keys. -/
structure OrderedMap (κ α : Type) [Ord κ] where
  entries : List (κ × α)
  ordered : EntriesOrdered entries

namespace OrderedMap

variable {κ α : Type} [Ord κ]

@[ext] theorem ext_entries {m₁ m₂ : OrderedMap κ α} (h : m₁.entries = m₂.entries) : m₁ = m₂ := by
  cases m₁; cases m₂; cases h; rfl

instance [DecidableEq κ] [DecidableEq α] : DecidableEq (OrderedMap κ α) := fun m₁ m₂ =>
  if h : m₁.entries = m₂.entries then isTrue (ext_entries h)
  else isFalse fun e => h (e ▸ rfl)

/-! ## Operations on lists of entries -/

/-- The value of the key among entries in order. -/
def findIn (k : κ) : List (κ × α) → Option α
  | [] => none
  | (j, a) :: entries =>
    match compare k j with
    | .lt => none
    | .eq => some a
    | .gt => findIn k entries

/-- Entries in order, with the value of the key computed from the one before. -/
def updateIn (k : κ) (f : Option α → α) : List (κ × α) → List (κ × α)
  | [] => [(k, f none)]
  | (j, a) :: entries =>
    match compare k j with
    | .lt => (k, f none) :: (j, a) :: entries
    | .eq => (j, f (some a)) :: entries
    | .gt => (j, a) :: updateIn k f entries

/-- Entries in order without the key. -/
def eraseIn (k : κ) : List (κ × α) → List (κ × α)
  | [] => []
  | (j, a) :: entries =>
    match compare k j with
    | .lt => (j, a) :: entries
    | .eq => entries
    | .gt => (j, a) :: eraseIn k entries

theorem mem_updateIn {k : κ} {f : Option α → α} {entries : List (κ × α)} {e : κ × α}
    (h : e ∈ updateIn k f entries) : e.1 = k ∨ ∃ b, (e.1, b) ∈ entries := by
  induction entries with
  | nil => simp [updateIn] at h; exact .inl (by rw [h])
  | cons head entries ih =>
    obtain ⟨j, a⟩ := head
    rw [updateIn] at h
    split at h
    · rcases List.mem_cons.mp h with rfl | h
      · exact .inl rfl
      · exact .inr ⟨e.2, h⟩
    · rcases List.mem_cons.mp h with rfl | h
      · exact .inr ⟨a, List.mem_cons_self⟩
      · exact .inr ⟨e.2, List.mem_cons_of_mem _ h⟩
    · rcases List.mem_cons.mp h with rfl | h
      · exact .inr ⟨a, List.mem_cons_self⟩
      · rcases ih h with h | ⟨b, h⟩
        · exact .inl h
        · exact .inr ⟨b, List.mem_cons_of_mem _ h⟩

theorem mem_eraseIn {k : κ} {entries : List (κ × α)} {e : κ × α}
    (h : e ∈ eraseIn k entries) : e ∈ entries := by
  induction entries with
  | nil => exact h
  | cons head entries ih =>
    obtain ⟨j, a⟩ := head
    rw [eraseIn] at h
    split at h
    · exact h
    · exact List.mem_cons_of_mem _ h
    · rcases List.mem_cons.mp h with rfl | h
      · exact List.mem_cons_self
      · exact List.mem_cons_of_mem _ (ih h)

theorem ordered_updateIn [TransOrd κ] [LawfulEqOrd κ] {k : κ} {f : Option α → α}
    {entries : List (κ × α)} (h : EntriesOrdered entries) :
    EntriesOrdered (updateIn k f entries) := by
  induction entries with
  | nil => exact List.pairwise_singleton _ _
  | cons head entries ih =>
    obtain ⟨j, a⟩ := head
    obtain ⟨hhead, htail⟩ := List.pairwise_cons.mp h
    rw [updateIn]
    split
    · next hlt =>
      refine List.pairwise_cons.mpr ⟨?_, h⟩
      intro e he
      rcases List.mem_cons.mp he with rfl | he
      · exact hlt
      · exact TransCmp.lt_trans hlt (hhead e he)
    · exact List.pairwise_cons.mpr ⟨hhead, htail⟩
    · next hgt =>
      refine List.pairwise_cons.mpr ⟨?_, ih htail⟩
      intro e he
      rcases mem_updateIn he with hk | ⟨b, hb⟩
      · rw [hk]; exact OrientedCmp.gt_iff_lt.mp hgt
      · exact hhead (e.1, b) hb

theorem ordered_eraseIn {k : κ} {entries : List (κ × α)} (h : EntriesOrdered entries) :
    EntriesOrdered (eraseIn k entries) := by
  induction entries with
  | nil => exact h
  | cons head entries ih =>
    obtain ⟨j, a⟩ := head
    obtain ⟨hhead, htail⟩ := List.pairwise_cons.mp h
    rw [eraseIn]
    split
    · exact h
    · exact htail
    · exact List.pairwise_cons.mpr ⟨fun e he => hhead e (mem_eraseIn he), ih htail⟩

/-! ## Operations -/

/-- The map without entries. -/
def empty : OrderedMap κ α := ⟨[], List.Pairwise.nil⟩

instance : EmptyCollection (OrderedMap κ α) := ⟨empty⟩

/-- The value of a key. -/
def find? (m : OrderedMap κ α) (k : κ) : Option α := findIn k m.entries

/-- The key has a value. -/
def contains (m : OrderedMap κ α) (k : κ) : Bool := (m.find? k).isSome

/-- The keys in increasing order. -/
def keys (m : OrderedMap κ α) : List κ := m.entries.map (·.1)

/-- The number of entries. -/
def size (m : OrderedMap κ α) : Nat := m.entries.length

/-- The map has no entries. -/
def isEmpty (m : OrderedMap κ α) : Bool := m.entries.isEmpty

/-- The map with the value of a key computed from the one it had. -/
def update [TransOrd κ] [LawfulEqOrd κ] (m : OrderedMap κ α) (k : κ) (f : Option α → α) :
    OrderedMap κ α :=
  ⟨updateIn k f m.entries, ordered_updateIn m.ordered⟩

/-- The map with a value for a key, whatever it had before. -/
def insert [TransOrd κ] [LawfulEqOrd κ] (m : OrderedMap κ α) (k : κ) (a : α) : OrderedMap κ α :=
  m.update k fun _ => a

/-- The map with a value for a key that has none; a value that is there stays. -/
def insertNew [TransOrd κ] [LawfulEqOrd κ] (m : OrderedMap κ α) (k : κ) (a : α) :
    OrderedMap κ α :=
  m.update k fun before => before.getD a

/-- The map without a value for a key. -/
def erase (m : OrderedMap κ α) (k : κ) : OrderedMap κ α :=
  ⟨eraseIn k m.entries, ordered_eraseIn m.ordered⟩

end OrderedMap

end Nomenclator

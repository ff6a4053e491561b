import Nomenclator.OrderedMap.Basic

/-!
# What ordered maps answer

Results:
* `find?_update_self`, `find?_update_of_ne`: an update changes the entry of its
  own key and no other.
* `find?_erase_self`, `find?_erase_of_ne`: the same of a removal.
* `mem_keys_of_find?`: what has a value is among the keys.
* `size_insert_of_find?`: a key that has no value makes the map one larger.
* `ext_find?`: maps that answer every key alike are equal.
-/

namespace Nomenclator

open Std (TransOrd LawfulEqOrd OrientedCmp TransCmp ReflCmp LawfulEqCmp)

namespace OrderedMap

variable {κ α : Type} [Ord κ]

/-! ## On lists of entries -/

theorem findIn_eq_none_of_lt [TransOrd κ] {k : κ} {entries : List (κ × α)}
    (h : ∀ e ∈ entries, compare k e.1 = .lt) : findIn k entries = none := by
  cases entries with
  | nil => rfl
  | cons head entries =>
    obtain ⟨j, a⟩ := head
    rw [findIn, h _ List.mem_cons_self]

theorem findIn_updateIn_self [TransOrd κ] [LawfulEqOrd κ] (k : κ) (f : Option α → α)
    (entries : List (κ × α)) :
    findIn k (updateIn k f entries) = some (f (findIn k entries)) := by
  induction entries with
  | nil => simp [updateIn, findIn, ReflCmp.compare_self]
  | cons head entries ih =>
    obtain ⟨j, a⟩ := head
    rw [updateIn, findIn]
    split
    · next hlt => simp [findIn, ReflCmp.compare_self]
    · next heq => simp [findIn, heq]
    · next hgt => simp [findIn, hgt, ih]

theorem length_updateIn_of_findIn {k : κ} {f : Option α → α} {entries : List (κ × α)}
    (h : findIn k entries = none) : (updateIn k f entries).length = entries.length + 1 := by
  induction entries with
  | nil => rfl
  | cons head entries ih =>
    obtain ⟨j, a⟩ := head
    rw [findIn] at h
    rw [updateIn]
    split
    · rfl
    · next hc =>
      rw [hc] at h
      cases h
    · next hc =>
      rw [hc] at h
      rw [List.length_cons, ih h, List.length_cons]

theorem findIn_updateIn_of_ne [TransOrd κ] [LawfulEqOrd κ] {k l : κ} (hne : l ≠ k)
    (f : Option α → α) (entries : List (κ × α)) (h : EntriesOrdered entries) :
    findIn l (updateIn k f entries) = findIn l entries := by
  have hcmp : compare l k ≠ .eq := fun e => hne (LawfulEqCmp.eq_of_compare e)
  induction entries with
  | nil =>
    rw [updateIn, findIn, findIn]
    split <;> simp_all [findIn]
  | cons head entries ih =>
    obtain ⟨j, a⟩ := head
    obtain ⟨hhead, htail⟩ := List.pairwise_cons.mp h
    rw [updateIn]
    split
    · next hlt =>
      rw [findIn]
      split
      · next hl =>
        refine (findIn_eq_none_of_lt fun e he => ?_).symm
        rcases List.mem_cons.mp he with rfl | he
        · exact TransCmp.lt_trans hl hlt
        · exact TransCmp.lt_trans (TransCmp.lt_trans hl hlt) (hhead e he)
      · next hl => exact absurd hl hcmp
      · rfl
    · next heq =>
      have hkj : k = j := LawfulEqCmp.eq_of_compare heq
      subst hkj
      rw [findIn, findIn]
      split
      · rfl
      · next hl => exact absurd hl hcmp
      · rfl
    · next hgt =>
      rw [findIn, findIn, ih htail]

theorem findIn_eraseIn_self [TransOrd κ] [LawfulEqOrd κ] (k : κ) (entries : List (κ × α))
    (h : EntriesOrdered entries) : findIn k (eraseIn k entries) = none := by
  induction entries with
  | nil => rfl
  | cons head entries ih =>
    obtain ⟨j, a⟩ := head
    obtain ⟨hhead, htail⟩ := List.pairwise_cons.mp h
    rw [eraseIn]
    split
    · next hlt => simp [findIn, hlt]
    · next heq =>
      have hkj : k = j := LawfulEqCmp.eq_of_compare heq
      exact findIn_eq_none_of_lt fun e he => hkj ▸ hhead e he
    · next hgt => simp [findIn, hgt, ih htail]

theorem findIn_eraseIn_of_ne [TransOrd κ] [LawfulEqOrd κ] {k l : κ} (hne : l ≠ k)
    (entries : List (κ × α)) (h : EntriesOrdered entries) :
    findIn l (eraseIn k entries) = findIn l entries := by
  induction entries with
  | nil => rfl
  | cons head entries ih =>
    obtain ⟨j, a⟩ := head
    obtain ⟨hhead, htail⟩ := List.pairwise_cons.mp h
    rw [eraseIn]
    split
    · rfl
    · next heq =>
      have hkj : k = j := LawfulEqCmp.eq_of_compare heq
      subst hkj
      rw [findIn]
      split
      · next hl =>
        exact findIn_eq_none_of_lt fun e he => TransCmp.lt_trans hl (hhead e he)
      · next hl => exact absurd (LawfulEqCmp.eq_of_compare hl) hne
      · rfl
    · next hgt => rw [findIn, findIn, ih htail]

/-! ## On maps -/

@[simp] theorem find?_empty (k : κ) : (∅ : OrderedMap κ α).find? k = none := rfl

@[simp] theorem find?_update_self [TransOrd κ] [LawfulEqOrd κ] (m : OrderedMap κ α) (k : κ)
    (f : Option α → α) : (m.update k f).find? k = some (f (m.find? k)) :=
  findIn_updateIn_self k f m.entries

theorem find?_update_of_ne [TransOrd κ] [LawfulEqOrd κ] (m : OrderedMap κ α) {k l : κ}
    (hne : l ≠ k) (f : Option α → α) : (m.update k f).find? l = m.find? l :=
  findIn_updateIn_of_ne hne f m.entries m.ordered

@[simp] theorem find?_erase_self [TransOrd κ] [LawfulEqOrd κ] (m : OrderedMap κ α) (k : κ) :
    (m.erase k).find? k = none :=
  findIn_eraseIn_self k m.entries m.ordered

theorem find?_erase_of_ne [TransOrd κ] [LawfulEqOrd κ] (m : OrderedMap κ α) {k l : κ}
    (hne : l ≠ k) : (m.erase k).find? l = m.find? l :=
  findIn_eraseIn_of_ne hne m.entries m.ordered

theorem size_insert_of_find? [TransOrd κ] [LawfulEqOrd κ] {m : OrderedMap κ α} {k : κ}
    (h : m.find? k = none) (a : α) : (m.insert k a).size = m.size + 1 :=
  length_updateIn_of_findIn h

theorem mem_keys_of_find? [TransOrd κ] [LawfulEqOrd κ] {m : OrderedMap κ α} {k : κ} {a : α}
    (h : m.find? k = some a) : k ∈ m.keys := by
  have hmem : ∀ entries : List (κ × α), findIn k entries = some a → ∃ b, (k, b) ∈ entries := by
    intro entries
    induction entries with
    | nil => intro h; cases h
    | cons head entries ih =>
      obtain ⟨j, b⟩ := head
      intro h
      rw [findIn] at h
      split at h
      · cases h
      · next heq => exact ⟨b, LawfulEqCmp.eq_of_compare heq ▸ List.mem_cons_self⟩
      · obtain ⟨c, hc⟩ := ih h
        exact ⟨c, List.mem_cons_of_mem _ hc⟩
  obtain ⟨b, hb⟩ := hmem m.entries h
  exact List.mem_map.mpr ⟨(k, b), hb, rfl⟩

theorem findIn_cons_self [TransOrd κ] (k : κ) (a : α) (entries : List (κ × α)) :
    findIn k ((k, a) :: entries) = some a := by
  simp [findIn, ReflCmp.compare_self]

/-- Maps that answer every key alike are equal. -/
theorem ext_find? [TransOrd κ] [LawfulEqOrd κ] {m₁ m₂ : OrderedMap κ α}
    (h : ∀ k, m₁.find? k = m₂.find? k) : m₁ = m₂ := by
  have key : ∀ l₁ l₂ : List (κ × α), EntriesOrdered l₁ → EntriesOrdered l₂ →
      (∀ k, findIn k l₁ = findIn k l₂) → l₁ = l₂ := by
    intro l₁
    induction l₁ with
    | nil =>
      intro l₂ _ _ h
      cases l₂ with
      | nil => rfl
      | cons head l₂ =>
        have hk := h head.1
        rw [findIn_cons_self head.1 head.2] at hk
        cases hk
    | cons head₁ l₁ ih =>
      intro l₂ ho₁ ho₂ h
      cases l₂ with
      | nil =>
        have hk := h head₁.1
        rw [findIn_cons_self head₁.1 head₁.2] at hk
        cases hk
      | cons head₂ l₂ =>
        obtain ⟨k₁, a₁⟩ := head₁
        obtain ⟨k₂, a₂⟩ := head₂
        obtain ⟨hhead₁, htail₁⟩ := List.pairwise_cons.mp ho₁
        obtain ⟨hhead₂, htail₂⟩ := List.pairwise_cons.mp ho₂
        have hk : compare k₁ k₂ = .eq := by
          cases hc : compare k₁ k₂ with
          | eq => rfl
          | lt =>
            have h₁ := h k₁
            rw [findIn_cons_self, findIn, hc] at h₁
            cases h₁
          | gt =>
            have h₂ := h k₂
            rw [findIn_cons_self, findIn, OrientedCmp.gt_iff_lt.mp hc] at h₂
            cases h₂
        have hkk : k₁ = k₂ := LawfulEqCmp.eq_of_compare hk
        subst hkk
        have ha := h k₁
        rw [findIn_cons_self, findIn_cons_self] at ha
        cases ha
        rw [ih l₂ htail₁ htail₂]
        intro k
        have hkk := h k
        rw [findIn, findIn] at hkk
        cases hc : compare k k₁ with
        | lt =>
          rw [findIn_eq_none_of_lt fun e he => TransCmp.lt_trans hc (hhead₁ e he),
            findIn_eq_none_of_lt fun e he => TransCmp.lt_trans hc (hhead₂ e he)]
        | eq =>
          have hke : k = k₁ := LawfulEqCmp.eq_of_compare hc
          subst hke
          rw [findIn_eq_none_of_lt hhead₁, findIn_eq_none_of_lt hhead₂]
        | gt => simpa [hc] using hkk
  exact ext_entries (key _ _ m₁.ordered m₂.ordered h)

end OrderedMap

end Nomenclator

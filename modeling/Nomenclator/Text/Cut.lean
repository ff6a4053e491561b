/-!
# Cutting and replacing text

Internal class names are cut at `/` and `$`, and name formats are filled in by
replacing placeholders. Everything here works on lists of characters; the
functions on `String` at the end are the forms the rest of the library uses.

Results:
* `cutLast_eq_some`: a cut at the last `c` takes the text apart without loss,
  and no `c` is left behind it.
* `dropLeading?_eq_some`: a dropped lead followed by the rest is the text.
-/

namespace Nomenclator.Text

/-! ## On lists of characters -/

/-- The text before and after the last `c`, if `c` occurs. -/
def cutLast (c : Char) : List Char → Option (List Char × List Char)
  | [] => none
  | d :: s =>
    match cutLast c s with
    | some (before, after) => some (d :: before, after)
    | none => if d = c then some ([], s) else none

theorem cutLast_eq_none {c : Char} {s : List Char} (h : cutLast c s = none) : c ∉ s := by
  induction s with
  | nil => simp
  | cons d s ih =>
    rw [cutLast] at h
    split at h
    · cases h
    · next hs =>
      split at h
      · cases h
      · next hd =>
        rw [List.mem_cons, not_or]
        exact ⟨fun e => hd e.symm, ih hs⟩

theorem cutLast_eq_some {c : Char} {s before after : List Char}
    (h : cutLast c s = some (before, after)) : s = before ++ c :: after ∧ c ∉ after := by
  induction s generalizing before with
  | nil => cases h
  | cons d s ih =>
    rw [cutLast] at h
    split at h
    · next hs =>
      obtain ⟨rfl, rfl⟩ := Prod.mk.injEq .. ▸ Option.some.inj h
      obtain ⟨rfl, hc⟩ := ih hs
      exact ⟨rfl, hc⟩
    · next hs =>
      split at h
      · next hd =>
        obtain ⟨rfl, rfl⟩ := Prod.mk.injEq .. ▸ Option.some.inj h
        exact ⟨by rw [hd]; rfl, cutLast_eq_none hs⟩
      · cases h

/-- What follows `lead` in a text that starts with it. -/
def dropLeading? : (lead s : List Char) → Option (List Char)
  | [], s => some s
  | _ :: _, [] => none
  | c :: lead, d :: s => if c = d then dropLeading? lead s else none

theorem dropLeading?_eq_some {lead s rest : List Char}
    (h : dropLeading? lead s = some rest) : s = lead ++ rest := by
  induction lead generalizing s with
  | nil => cases s <;> simp_all [dropLeading?]
  | cons c lead ih =>
    cases s with
    | nil => cases h
    | cons d s =>
      rw [dropLeading?] at h
      split at h
      · next hcd => rw [ih h, hcd]; rfl
      · cases h

/-- Every occurrence of `old`, from left to right and without overlap, replaced
    by `new`. The first argument counts the characters still covered by the
    occurrence found last. -/
def replaceFrom (old new : List Char) : Nat → List Char → List Char
  | _, [] => []
  | k + 1, _ :: s => replaceFrom old new k s
  | 0, c :: s =>
    if old.isPrefixOf (c :: s) then new ++ replaceFrom old new (old.length - 1) s
    else c :: replaceFrom old new 0 s

/-- `word` occurs somewhere in the text. -/
def occursIn (word : List Char) : List Char → Bool
  | [] => word.isEmpty
  | c :: s => word.isPrefixOf (c :: s) || occursIn word s

/-! ## On strings -/

/-- The text before and after the last `c`, if `c` occurs. -/
def cutAtLast? (c : Char) (s : String) : Option (String × String) :=
  (cutLast c s.toList).map fun (before, after) => (String.ofList before, String.ofList after)

/-- The text after the last `c`, or all of it when there is no `c`. -/
def afterLast (c : Char) (s : String) : String :=
  match cutAtLast? c s with
  | some (_, after) => after
  | none => s

/-- `s` starts with `lead`. -/
def startsWith (s lead : String) : Bool := lead.toList.isPrefixOf s.toList

/-- `word` occurs somewhere in `s`. -/
def contains (s word : String) : Bool := occursIn word.toList s.toList

/-- Every occurrence of the non-empty text `old` replaced by `new`. -/
def replaceAll (s old new : String) : String :=
  String.ofList (replaceFrom old.toList new.toList 0 s.toList)

/-- Every character `old` replaced by `new`. -/
def replaceChar (old new : Char) (s : String) : String :=
  String.ofList (s.toList.map fun c => if c = old then new else c)

/-- The text without the run of `c` it ends in. -/
def dropTrailing (c : Char) (s : String) : String :=
  String.ofList (s.toList.reverse.dropWhile (· = c)).reverse

/-- Equal up to the case of the letters `A` to `Z`. -/
def equalsIgnoringAsciiCase (a b : String) : Bool :=
  a.toList.map Char.toLower = b.toList.map Char.toLower

/-- The words joined by a separator. -/
def joined (separator : String) : List String → String
  | [] => ""
  | [word] => word
  | word :: words => word ++ separator ++ joined separator words

end Nomenclator.Text

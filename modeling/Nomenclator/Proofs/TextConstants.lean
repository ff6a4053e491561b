import Mathlib.Tactic
import Nomenclator.ClassFile.ModifiedUtf8

/-!
# Texts in modified UTF-8

The bytes of a text as class files hold them: every character as its UTF-16 code units,
and every unit in the shortest group of bytes that holds it and has no zero byte.

Results:
* `units?_group`: a unit is read from every group of bytes that stands for it, whatever
  follows; `units?_unitBytes`: in particular from its own.
* `chars?_charUnits`: so is a character from its units.
* `decode?_encode`: a text is read back from its bytes.
-/

namespace Nomenclator.ModifiedUtf8

/-! ## Encoding -/

/-- The bytes of a code unit: one from `1` to `7f`, two for zero and up to `7ff`, and three
    for all others. -/
def unitBytes (u : Nat) : List UInt8 :=
  if 0 < u ∧ u < 0x80 then [UInt8.ofNat u]
  else if u < 0x800 then [UInt8.ofNat (0xc0 + u / 64), UInt8.ofNat (0x80 + u % 64)]
  else
    [UInt8.ofNat (0xe0 + u / 4096), UInt8.ofNat (0x80 + u / 64 % 64), UInt8.ofNat (0x80 + u % 64)]

/-- The code units of a character: a surrogate pair for a supplementary character, and the
    character itself for any other. -/
def charUnits (c : Char) : List Nat :=
  if c.toNat < 0x10000 then [c.toNat]
  else [0xd800 + (c.toNat - 0x10000) / 0x400, 0xdc00 + (c.toNat - 0x10000) % 0x400]

/-- The bytes of a text. -/
def encode (text : String) : List UInt8 := (text.toList.flatMap charUnits).flatMap unitBytes

/-! ## Bytes to units -/

theorem plain_byte : ∀ n < 0x80, 0 < n →
    (UInt8.ofNat n &&& 0x80 == 0) = true ∧ (UInt8.ofNat n == 0) = false ∧
      (UInt8.ofNat n).toNat = n := by
  decide +kernel

theorem lead_of_two : ∀ n < 0x20,
    (UInt8.ofNat (0xc0 + n) &&& 0x80 == 0) = false ∧
      (UInt8.ofNat (0xc0 + n) &&& 0xe0 == 0xc0) = true ∧
      (UInt8.ofNat (0xc0 + n) &&& 0x1f).toNat = n := by
  decide +kernel

theorem lead_of_three : ∀ n < 0x10,
    (UInt8.ofNat (0xe0 + n) &&& 0x80 == 0) = false ∧
      (UInt8.ofNat (0xe0 + n) &&& 0xe0 == 0xc0) = false ∧
      (UInt8.ofNat (0xe0 + n) &&& 0xf0 == 0xe0) = true ∧
      (UInt8.ofNat (0xe0 + n) &&& 0x0f).toNat = n := by
  decide +kernel

theorem continuation : ∀ n < 0x40,
    isContinuation (UInt8.ofNat (0x80 + n)) = true ∧ payload (UInt8.ofNat (0x80 + n)) = n := by
  decide +kernel

/-- A group of bytes and the unit it stands for: `0xxxxxxx` but for the zero byte,
    `110xxxxx 10yyyyyy` and `1110xxxx 10yyyyyy 10zzzzzz`. The longer groups may stand for units
    that a shorter one can hold. -/
inductive Group : List UInt8 → Nat → Prop
  | one {x : Nat} (hpos : 0 < x) (hx : x < 0x80) : Group [UInt8.ofNat x] x
  | two {x y : Nat} (hx : x < 0x20) (hy : y < 0x40) :
    Group [UInt8.ofNat (0xc0 + x), UInt8.ofNat (0x80 + y)] (x * 64 + y)
  | three {x y z : Nat} (hx : x < 0x10) (hy : y < 0x40) (hz : z < 0x40) :
    Group [UInt8.ofNat (0xe0 + x), UInt8.ofNat (0x80 + y), UInt8.ofNat (0x80 + z)]
      (x * 4096 + y * 64 + z)

/-- A unit is read from a group, whatever follows it. -/
theorem units?_group {group : List UInt8} {u : Nat} (h : Group group u) (rest : List UInt8) :
    units? (group ++ rest) = (units? rest).map (u :: ·) := by
  cases h with
  | one hpos hx =>
    obtain ⟨hlead, hzero, hvalue⟩ := plain_byte u hx hpos
    simp only [List.cons_append, List.nil_append]
    rw [units?.eq_def]
    simp only [hlead, hzero, hvalue, if_true, Bool.false_eq_true, if_false]
  | two hx hy =>
    obtain ⟨hplain, hlead, hhigh⟩ := lead_of_two _ hx
    obtain ⟨hcontinues, hlow⟩ := continuation _ hy
    simp only [List.cons_append, List.nil_append]
    rw [units?.eq_def]
    simp only [hplain, hlead, hhigh, hcontinues, hlow, if_true, Bool.false_eq_true, if_false]
  | three hx hy hz =>
    obtain ⟨hplain, hshort, hlead, hhigh⟩ := lead_of_three _ hx
    obtain ⟨hmiddle, hmid⟩ := continuation _ hy
    obtain ⟨hcontinues, hlow⟩ := continuation _ hz
    simp only [List.cons_append, List.nil_append]
    rw [units?.eq_def]
    simp only [hplain, hshort, hlead, hhigh, hmiddle, hmid, hcontinues, hlow, if_true,
      Bool.false_eq_true, if_false, Bool.and_self]

theorem group_unitBytes {u : Nat} (h : u < 0x10000) : Group (unitBytes u) u := by
  unfold unitBytes
  split_ifs with hone htwo
  · exact Group.one hone.1 hone.2
  · have hgroup := Group.two (x := u / 64) (y := u % 64) (by omega) (by omega)
    rwa [show u / 64 * 64 + u % 64 = u by omega] at hgroup
  · have hgroup := Group.three (x := u / 4096) (y := u / 64 % 64) (z := u % 64) (by omega)
      (by omega) (by omega)
    rwa [show u / 4096 * 4096 + u / 64 % 64 * 64 + u % 64 = u by omega] at hgroup

/-- A unit of sixteen bits is read back from its bytes. -/
theorem units?_unitBytes {u : Nat} (h : u < 0x10000) (rest : List UInt8) :
    units? (unitBytes u ++ rest) = (units? rest).map (u :: ·) :=
  units?_group (group_unitBytes h) rest

theorem units?_flatMap {units : List Nat} (h : ∀ u ∈ units, u < 0x10000) :
    units? (units.flatMap unitBytes) = some units := by
  induction units with
  | nil => simp [units?]
  | cons u units ih =>
    have hu := h u List.mem_cons_self
    have hunits := ih fun v hv => h v (List.mem_cons_of_mem _ hv)
    rw [List.flatMap_cons, units?_unitBytes hu, hunits, Option.map_some]

/-! ## Units to characters -/

theorem char_range (c : Char) : c.toNat < 0xd800 ∨ 0xdfff < c.toNat ∧ c.toNat < 0x110000 :=
  c.valid

theorem charUnits_lt (c : Char) : ∀ u ∈ charUnits c, u < 0x10000 := by
  have hrange := char_range c
  unfold charUnits
  split_ifs with hbasic
  · simp [hbasic]
  · simp only [List.mem_cons, List.not_mem_nil, or_false, forall_eq_or_imp, forall_eq]
    omega

/-- A character is read back from its units. -/
theorem chars?_charUnits (c : Char) (rest : List Nat) :
    chars? (charUnits c ++ rest) = (chars? rest).map (c :: ·) := by
  have hrange := char_range c
  unfold charUnits
  split_ifs with hbasic
  · have hhigh : isHighSurrogate c.toNat = false := by
      simp only [isHighSurrogate, Bool.and_eq_false_iff, decide_eq_false_iff_not]
      omega
    have hlow : isLowSurrogate c.toNat = false := by
      simp only [isLowSurrogate, Bool.and_eq_false_iff, decide_eq_false_iff_not]
      omega
    simp only [List.cons_append, List.nil_append]
    rw [chars?.eq_def]
    simp only [hhigh, hlow, Bool.false_eq_true, if_false, Char.ofNat_toNat]
  · have hhigh : isHighSurrogate (0xd800 + (c.toNat - 0x10000) / 0x400) = true := by
      simp only [isHighSurrogate, Bool.and_eq_true, decide_eq_true_eq]
      omega
    have hlow : isLowSurrogate (0xdc00 + (c.toNat - 0x10000) % 0x400) = true := by
      simp only [isLowSurrogate, Bool.and_eq_true, decide_eq_true_eq]
      omega
    have hpaired : pairedChar (0xd800 + (c.toNat - 0x10000) / 0x400)
        (0xdc00 + (c.toNat - 0x10000) % 0x400) = c := by
      have hcode : 0x10000 + (0xd800 + (c.toNat - 0x10000) / 0x400 - 0xd800) * 0x400 +
          (0xdc00 + (c.toNat - 0x10000) % 0x400 - 0xdc00) = c.toNat := by omega
      rw [pairedChar, hcode, Char.ofNat_toNat]
    simp only [List.cons_append, List.nil_append]
    rw [chars?.eq_def]
    simp only [hhigh, hlow, hpaired, if_true]

theorem chars?_flatMap (chars : List Char) : chars? (chars.flatMap charUnits) = some chars := by
  induction chars with
  | nil => simp [chars?]
  | cons c chars ih => rw [List.flatMap_cons, chars?_charUnits, ih, Option.map_some]

/-- A text is read back from its bytes. -/
theorem decode?_encode (text : String) : decode? (encode text) = some text := by
  have hunits : ∀ u ∈ text.toList.flatMap charUnits, u < 0x10000 := by
    intro u hu
    obtain ⟨c, -, hc⟩ := List.mem_flatMap.mp hu
    exact charUnits_lt c u hc
  rw [decode?, encode, units?_flatMap hunits, Option.bind_some, chars?_flatMap, Option.map_some,
    String.ofList_toList]

end Nomenclator.ModifiedUtf8

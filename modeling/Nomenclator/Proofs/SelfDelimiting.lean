import Nomenclator.Proofs.ClassFileLayout

/-!
# Class files show where they end

A class file is read from the front, and how far the reading goes depends only on the bytes
already read: the counts and lengths that come up on the way. So the bytes of a class file are
not the beginning of those of another one. A file that is cut off anywhere is refused because
it ends unexpectedly, before anything else can be found wrong with it, and a file with
something behind it is refused because of what is left over.

Results:
* `Decoder.Delimits`: what a decoder accepts it would accept with anything behind it, and with
  anything missing at its end it would have run out of bytes. Decoders that run one after
  another, as often as a number just read says, delimit if each of them does.
* `ClassFile.read_delimits`: the decoder of class files delimits.
* `ClassFile.parse_self_delimiting`: a class file with missing bytes ends unexpectedly; with
  bytes behind it, exactly these are left over.
-/

namespace Nomenclator

namespace Decoder

variable {α β : Type}

/-- Given only a part of these bytes, a decoder runs out of them. -/
def Needs (item : Decoder α) (bytes : List UInt8) : Prop :=
  ∀ ⦃front⦄, front <+: bytes → front ≠ bytes → item.run front = .error .unexpectedEnd

/-- Where a decoder succeeds, it takes bytes from the front that it takes whatever follows
    them, and it needs all of these. -/
def Delimits (item : Decoder α) : Prop :=
  ∀ ⦃bytes a rest⦄, item.run bytes = .ok (a, rest) →
    ∃ used, bytes = used ++ rest ∧ item.Reads used a ∧ item.Needs used

theorem Needs.nil (item : Decoder α) : item.Needs [] :=
  fun _ hfront hne => absurd (List.prefix_nil.mp hfront) hne

/-! ## One decoder after another -/

theorem Delimits.pure (a : α) : Delimits (Pure.pure a) := by
  intro bytes a' rest h
  cases h
  exact ⟨[], rfl, Reads.pure a, Needs.nil _⟩

theorem Delimits.throw (e : Malformed) : Delimits (MonadExcept.throw e : Decoder α) := by
  intro bytes a rest h
  cases h

/-- A step that looks something up needs no bytes. -/
theorem Delimits.lift (lookup : Except Malformed α) : Delimits (liftM lookup) := by
  cases lookup with
  | error e => exact Delimits.throw e
  | ok a => exact Delimits.pure a

/-- Cut off in its own bytes, the first decoder runs out of them; cut off later, the second
    one does. -/
theorem Needs.bind {first : Decoder α} {next : α → Decoder β} {bytes more : List UInt8} {a : α}
    (hreads : first.Reads bytes a) (hfirst : first.Needs bytes) (hnext : (next a).Needs more) :
    (first >>= next).Needs (bytes ++ more) := by
  intro front hfront hne
  rw [StateT.run_bind]
  by_cases hwhole : bytes <+: front
  · obtain ⟨behind, rfl⟩ := hwhole
    have hbehind : behind <+: more := (List.prefix_append_right_inj bytes).mp hfront
    have hmissing : behind ≠ more := fun heq => hne (heq ▸ rfl)
    rw [hreads]
    exact hnext hbehind hmissing
  · have hshort : front <+: bytes :=
      (List.prefix_or_prefix_of_prefix hfront (List.prefix_append bytes more)).resolve_right hwhole
    have hmissing : front ≠ bytes := fun heq => hwhole (heq ▸ List.prefix_rfl)
    rw [hfirst hshort hmissing]
    rfl

theorem Delimits.bind {first : Decoder α} {next : α → Decoder β} (hfirst : first.Delimits)
    (hnext : ∀ a, (next a).Delimits) : (first >>= next).Delimits := by
  intro bytes b rest h
  rw [StateT.run_bind] at h
  cases hrun : first.run bytes with
  | error e =>
    rw [hrun] at h
    cases h
  | ok result =>
    obtain ⟨a, middle⟩ := result
    rw [hrun] at h
    obtain ⟨used, rfl, hreads, hneeds⟩ := hfirst hrun
    obtain ⟨more, rfl, hreadsMore, hneedsMore⟩ := hnext a h
    exact ⟨used ++ more, (List.append_assoc ..).symm, hreads.bind hreadsMore,
      hneeds.bind hreads hneedsMore⟩

/-- A last step that only puts the parts together needs no bytes. -/
theorem Delimits.map {first : Decoder α} (hfirst : first.Delimits) (f : α → β) :
    (first >>= fun a => Pure.pure (f a)).Delimits :=
  hfirst.bind fun a => Delimits.pure (f a)

/-! ## Numbers, blocks and tables -/

theorem byte_delimits : byte.Delimits := by
  intro bytes b rest h
  cases bytes with
  | nil => cases h
  | cons first bytes =>
    cases h
    refine ⟨[b], rfl, byte_reads b, fun front hfront hne => ?_⟩
    cases front with
    | nil => rfl
    | cons first front =>
      obtain ⟨rfl, hrest⟩ := List.cons_prefix_cons.mp hfront
      exact absurd (congrArg _ (List.prefix_nil.mp hrest)) hne

theorem word_delimits : word.Delimits :=
  byte_delimits.bind fun _ => byte_delimits.map _

theorem doubleWord_delimits : doubleWord.Delimits :=
  word_delimits.bind fun _ => word_delimits.map _

theorem take_needs (bytes : List UInt8) : (take bytes.length).Needs bytes := by
  intro front hfront hne
  have hlength : front.length < bytes.length :=
    lt_of_le_of_ne hfront.length_le fun heq => hne (hfront.eq_of_length heq)
  show (if (front.take bytes.length).length = bytes.length then _ else _) = _
  rw [List.take_of_length_le hlength.le, if_neg hlength.ne]

theorem take_delimits (count : Nat) : (take count).Delimits := by
  intro bytes taken rest h
  change (if (bytes.take count).length = count then _ else _) = _ at h
  split at h
  · next hlength =>
    cases h
    refine ⟨bytes.take count, (List.take_append_drop count bytes).symm, ?_, ?_⟩
    · have hreads := take_reads (bytes.take count)
      rwa [hlength] at hreads
    · have hneeds := take_needs (bytes.take count)
      rwa [hlength] at hneeds
  · cases h

theorem times_delimits {item : Decoder α} (h : item.Delimits) (count : Nat) :
    (times item count).Delimits := by
  induction count with
  | zero => exact Delimits.pure []
  | succ count ih => exact h.bind fun _ => ih.map _

theorem table_delimits {item : Decoder α} (h : item.Delimits) : (table item).Delimits :=
  word_delimits.bind fun count => times_delimits h count.toNat

end Decoder

open Decoder

/-! ## The constant pool -/

theorem Constant.readText_delimits : Constant.readText.Delimits := by
  refine word_delimits.bind fun length => (take_delimits _).bind fun bytes => ?_
  split
  · exact Delimits.pure _
  · exact Delimits.throw _

theorem Constant.readTagged_delimits (tag : UInt8) : (Constant.readTagged tag).Delimits := by
  unfold Constant.readTagged
  split
  · exact readText_delimits
  -- One number or two, of one size or the other, or no tag at all.
  all_goals first
    | exact word_delimits.map _
    | exact word_delimits.bind fun _ => word_delimits.map _
    | exact doubleWord_delimits.map _
    | exact doubleWord_delimits.bind fun _ => doubleWord_delimits.map _
    | exact byte_delimits.bind fun _ => word_delimits.map _
    | exact Delimits.throw _

theorem Constant.read_delimits : Constant.read.Delimits :=
  byte_delimits.bind Constant.readTagged_delimits

theorem ConstantPool.readSlots_delimits (count : Nat) :
    (ConstantPool.readSlots count).Delimits := by
  fun_induction ConstantPool.readSlots count with
  | case1 => exact Delimits.pure []
  | case2 => exact Constant.read_delimits.map _
  | case3 count ihWide ih =>
    refine Constant.read_delimits.bind fun constant => ?_
    split
    · exact ihWide.map _
    · exact ih.map _

theorem ConstantPool.read_delimits : ConstantPool.read.Delimits :=
  word_delimits.bind fun _ => (ConstantPool.readSlots_delimits _).map _

/-! ## Attributes and members -/

theorem Attributes.readMore_delimits (pool : ConstantPool) (count : Nat)
    (attributes : Attributes) : (Attributes.readMore pool count attributes).Delimits := by
  induction count generalizing attributes with
  | zero => exact Delimits.pure attributes
  | succ count ih =>
    refine word_delimits.bind fun nameIndex => doubleWord_delimits.bind fun length => ?_
    refine (take_delimits _).bind fun info => (Delimits.lift _).bind fun name => ?_
    exact (Delimits.lift _).bind ih

theorem Attributes.read_delimits (pool : ConstantPool) : (Attributes.read pool).Delimits :=
  word_delimits.bind fun count => Attributes.readMore_delimits pool count.toNat {}

theorem Member.read_delimits (pool : ConstantPool) : (Member.read pool).Delimits := by
  refine word_delimits.bind fun access => word_delimits.bind fun nameIndex => ?_
  refine (Delimits.lift _).bind fun name => word_delimits.bind fun descriptorIndex => ?_
  refine (Delimits.lift _).bind fun descriptor => ?_
  exact (Attributes.read_delimits pool).map _

/-! ## Class files -/

namespace ClassFile

theorem readClassName_delimits (pool : ConstantPool) : (readClassName pool).Delimits :=
  word_delimits.bind fun _ => Delimits.lift _

theorem readSuperName_delimits (pool : ConstantPool) : (readSuperName pool).Delimits := by
  refine word_delimits.bind fun index => ?_
  split
  · exact Delimits.pure none
  · exact (Delimits.lift _).map _

theorem read_delimits : read.Delimits := by
  refine doubleWord_delimits.bind fun found => ?_
  by_cases hmagic : found ≠ magic
  · simp only [if_pos hmagic]
    exact Delimits.throw _
  simp only [if_neg hmagic]
  refine word_delimits.bind fun minorVersion => word_delimits.bind fun majorVersion => ?_
  refine ConstantPool.read_delimits.bind fun pool => word_delimits.bind fun access => ?_
  refine (readClassName_delimits pool).bind fun name => ?_
  refine (readSuperName_delimits pool).bind fun superName => ?_
  refine (table_delimits (readClassName_delimits pool)).bind fun interfaces => ?_
  refine (table_delimits (Member.read_delimits pool)).bind fun fields => ?_
  refine (table_delimits (Member.read_delimits pool)).bind fun methods => ?_
  exact (Attributes.read_delimits pool).map _

/-- A file that is accepted is all used up. -/
theorem read_eq_ok_of_parse {bytes : List UInt8} {file : ClassFile}
    (h : parse bytes = .ok file) : read.run bytes = .ok (file, []) := by
  unfold parse at h
  cases hrun : read.run bytes with
  | error e =>
    rw [hrun] at h
    cases h
  | ok result =>
    obtain ⟨found, rest⟩ := result
    rw [hrun] at h
    cases rest with
    | nil =>
      cases h
      rfl
    | cons first rest => cases h

/-- The bytes of a class file are not the beginning of those of another one: with bytes
    missing at the end, they end unexpectedly; with bytes behind them, these are left over. -/
theorem parse_self_delimiting {bytes : List UInt8} {file : ClassFile}
    (h : parse bytes = .ok file) :
    (∀ front, front <+: bytes → front ≠ bytes → parse front = .error .unexpectedEnd) ∧
      ∀ tail, tail ≠ [] → parse (bytes ++ tail) = .error (.trailingBytes tail.length) := by
  obtain ⟨used, hbytes, hreads, hneeds⟩ := read_delimits (read_eq_ok_of_parse h)
  rw [List.append_nil] at hbytes
  subst hbytes
  refine ⟨fun front hfront hne => ?_, fun tail hne => ?_⟩
  · unfold parse
    rw [hneeds hfront hne]
    rfl
  · obtain ⟨first, tail, rfl⟩ := List.exists_cons_of_ne_nil hne
    unfold parse
    rw [hreads]
    rfl

theorem parse_self_delimiting_box :
    parse RawClass.box.bytes = .ok RawClass.boxFile ∧
      parse [] = .error .unexpectedEnd ∧
      parse RawClass.box.bytes.dropLast = .error .unexpectedEnd ∧
      parse (RawClass.box.bytes ++ [0, 0]) = .error (.trailingBytes 2) := by
  have hbox : parse RawClass.box.bytes = .ok RawClass.boxFile :=
    RawClass.parse_eq_ok_of_describes RawClass.box_fits RawClass.box_wellFormed
      RawClass.box_describes
  have hne : RawClass.box.bytes ≠ [] := List.cons_ne_nil _ _
  have hlast : RawClass.box.bytes.dropLast ≠ RawClass.box.bytes := by
    intro heq
    have hlength := congrArg List.length heq
    rw [List.length_dropLast] at hlength
    have hpos := List.length_pos_of_ne_nil hne
    omega
  obtain ⟨hcut, hmore⟩ := parse_self_delimiting hbox
  exact ⟨hbox, hcut [] List.nil_prefix hne.symm, hcut _ (List.dropLast_prefix _) hlast,
    hmore [0, 0] (List.cons_ne_nil 0 [0])⟩

end ClassFile

end Nomenclator

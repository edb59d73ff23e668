import Pahole.Pahole.HeaderPaths
import Pahole.Pahole.RawValues
import Pahole.Support.EndToEnd

/-!
# Records one after another

The loop of `prototype__stdio_fprintf_value` of `pahole.c` reads a record of the size of
its type, and more if the member that `sizeof=` names has a larger size for it; a smaller
size takes nothing back.  A record is printed as the type that its `type=` member
selects, whatever has been read of it.
-/

namespace Pahole.RecordFraming

open Prettify SignedBits
open HeaderPaths (Leaf)

/-! ## Types to print -/

/-- The fields of a member, besides its type, that `__class__fprintf_value` reads. -/
structure Field where
  byteOffset : ℕ
  byteSize : ℕ
  isBitfield : Bool
  /-- it is `type->type_member`, and `type->type_enum` is not empty -/
  isTypeMember : Bool
  /-- it is the last one of `type->namespace.tags` -/
  isLast : Bool

/-- The type of the elements of an array. -/
inductive Element where
  | char
  /-- a base type, in an array of these dimensions -/
  | base (entries : List ℕ) (entrySize : ℕ) (pos : 0 < entrySize)
  | other

/-- The type of a member that is no structure or union. -/
inductive MemberType where
  | base
  | array (element : Element)
  | other

/-- The members of a structure or a union, and of those that are nested in it. -/
inductive Members where
  | none
  | member (field : Field) (type : MemberType) (rest : Members)
  | nested (field : Field) (inner rest : Members)

/-- The type that a record is printed as. -/
inductive RecordType where
  | struct (members : Members)
  | other

/-- An entry of `type_enum`, with the type that was found for it earlier. -/
structure Enumerator where
  name : List Char
  value : ℕ
  typeEnum : Option Members

/-- A prototype with all that its arguments have been resolved to.  Members lie in their
type, and a size is an `int`. -/
structure RecordPrototype where
  name : String
  range : Option String
  size : ℕ
  type : RecordType
  sizeofMember : Option Leaf
  typeMember : Option MemberPlace
  typeEnum : List Enumerator
  filter : Option MemberFilter
  /-- `cu__find_type_by_name` -/
  findTypeByName : List Char → Option RecordType
  size_lt : size < 2 ^ 31
  sizeof_le : ∀ leaf ∈ sizeofMember, leaf.byteOffset + leaf.member.byteSize ≤ size

/-- `type->sizeof_member`, which only counts for a structure. -/
def RecordPrototype.sizeofLeaf (proto : RecordPrototype) : Option Leaf :=
  match proto.type with
  | .struct _ => proto.sizeofMember
  | .other => none

/-- The part of a prototype that the loop over the records goes by. -/
def RecordPrototype.toPrototype (proto : RecordPrototype) : Prototype where
  name := proto.name
  range := proto.range
  size := proto.size
  sizeofMember := proto.sizeofLeaf.map fun leaf =>
    { byteOffset := leaf.byteOffset, byteSize := leaf.member.byteSize }
  filter := proto.filter

/-- `strlwr` -/
def strlwr (name : List Char) : List Char := name.map Char.toLower

/-- `tag__real_type`; where that is NULL, the type of the prototype is taken. -/
def RecordPrototype.realType (proto : RecordPrototype) (inst : List UInt8) : RecordType :=
  match proto.type, proto.typeMember with
  | .struct _, some place =>
      let value := word (baseTypeValue inst place.byteOffset place.byteSize)
      match proto.typeEnum.find? fun entry => entry.value == value with
      | none => proto.type
      | some { typeEnum := some members, .. } => .struct members
      | some { name := name, .. } =>
          match proto.findTypeByName (strlwr name) with
          | some (.struct members) => .struct members
          | _ => proto.type
  | _, _ => proto.type

/-! ## The bytes that printing reads -/

/-- A piece of the buffer that is read. -/
inductive Read where
  | span (offset size : ℕ)
  /-- by `%-.*s`: up to a NUL, or the precision if there is one -/
  | string (offset : ℕ) (precision : Option ℕ)
  deriving DecidableEq

/-- The number of bytes that `base_type__value` dereferences. -/
def baseSize (size : ℕ) : ℕ :=
  if size = 4 ∨ size = 8 ∨ size = 1 ∨ size = 2 then size else 0

/-- `instance__fprintf_hexdump_value` -/
def hexdumpReads (offset : ℕ) (size : ℤ) : List Read := [.span offset size.toNat]

/-- How many entries of an array are printed. -/
def nrEntries (entries entrySize : ℕ) (size : ℤ) : ℤ :=
  if entries = 0 then size.tdiv entrySize else signed 32 (entries % 2 ^ 32)

/-- `array__fprintf_value` -/
def arrayReads (element : Element) (offset : ℕ) (size : ℤ) : List Read :=
  match element with
  | .char => [.string offset (if 0 ≤ size then some size.toNat else none)]
  | .base [entries] entrySize _ =>
      (List.range (nrEntries entries entrySize size).toNat).map fun i =>
        .span (offset + i * entrySize) (baseSize entrySize)
  | .base _ _ _ => hexdumpReads offset size
  | .other => hexdumpReads offset size

/-- `sizeof_member`: for an array at the end of the type, the rest of the record. -/
def Field.sizeofMember (field : Field) (size : ℤ) : ℤ :=
  if field.byteSize = 0 ∧ field.isLast then size - field.byteOffset else field.byteSize

/-- A member that is printed by its type. -/
def MemberType.reads (type : MemberType) (field : Field) (offset : ℕ) (size : ℤ) : List Read :=
  match type with
  | .base => [.span offset (baseSize field.byteSize)]
  | .array element => arrayReads element offset (field.sizeofMember size)
  | .other => hexdumpReads offset field.byteSize

/-- `__class__fprintf_value`, of an instance at an offset of the buffer. -/
def Members.reads : Members → (offset : ℕ) → (size : ℤ) → List Read
  | .none, _, _ => []
  | .member field type rest, offset, size =>
      (if field.isTypeMember ∨ field.isBitfield then
        [.span (offset + field.byteOffset) (baseSize field.byteSize)]
      else type.reads field (offset + field.byteOffset) size) ++ rest.reads offset size
  | .nested field inner rest, offset, size =>
      (if field.isTypeMember ∨ field.isBitfield then
        [.span (offset + field.byteOffset) (baseSize field.byteSize)]
      else inner.reads (offset + field.byteOffset) field.byteSize) ++ rest.reads offset size

/-- `tag__fprintf_value` -/
def RecordType.reads (type : RecordType) (size : ℤ) : List Read :=
  match type with
  | .struct members => members.reads 0 size
  | .other => hexdumpReads 0 size

/-- A string ends, or its precision does, before the end of the buffer. -/
def stringInside : List UInt8 → Option ℕ → Bool
  | _, some 0 => true
  | [], _ => false
  | b :: bs, precision => b == 0 || stringInside bs (precision.map (· - 1))

/-- The read ends in the bytes of the record. -/
def Read.inside (bytes : List UInt8) : Read → Bool
  | .span offset size => size == 0 || offset + size ≤ bytes.length
  | .string offset precision => stringInside (bytes.drop offset) precision

/-! ## The records -/

/-- A record of an instance that was read in two parts. -/
def RecordPrototype.record (proto : RecordPrototype) (offset : ℕ) (inst more : List UInt8) :
    Printed where
  prototype := proto.name
  offset := offset
  bytes := inst ++ more
  realSizeof := proto.toPrototype.realSizeof inst

/-- The loop over the records, with all that it decodes; the second part is whether a
record is printed. -/
def decodeRecords (conf : InputConf) (proto : RecordPrototype) (sizeBytes : ℕ) :
    (fuel : ℕ) → ByteStream → (skip count readBytes : ℕ) → List (Printed × Bool)
  | 0, _, _, _, _ => []
  | fuel + 1, input, skip, count, readBytes =>
      match input.read proto.size with
      | (none, _) => []
      | (some inst, input') =>
          let realSizeof := proto.toPrototype.realSizeof inst
          match readTail proto.toPrototype inst input' with
          | (none, _) => []
          | (some more, input'') =>
              let readBytes := addReadBytes readBytes realSizeof
              let record := proto.record input.pos inst more
              let next := fun skip count =>
                if sizeBytes ≤ readBytes then []
                else decodeRecords conf proto sizeBytes fuel input'' skip count readBytes
              if proto.toPrototype.filterValue (inst ++ more) then
                (record, false) :: next skip count
              else if skip ≠ 0 then (record, false) :: next (skip - 1) count
              else if conf.count ≠ 0 ∧ count + 1 = conf.count then [(record, true)]
              else (record, true) :: next skip (count + 1)

/-- The records that the loop has printed are those that it is to print. -/
theorem readRecords_records {conf : InputConf} {proto : RecordPrototype} {sizeBytes fuel : ℕ}
    {input : ByteStream} {skip count readBytes : ℕ} :
    (readRecords conf proto.toPrototype sizeBytes fuel input skip count readBytes).records =
      ((decodeRecords conf proto sizeBytes fuel input skip count readBytes).filter
        (·.2)).map (·.1) := by
  induction fuel generalizing input skip count readBytes with
  | zero => rfl
  | succ fuel ih =>
      unfold readRecords decodeRecords
      have hsize : proto.toPrototype.size = proto.size := rfl
      have hname : proto.toPrototype.name = proto.name := rfl
      rw [hsize, hname]
      cases hread : input.read proto.size with
      | mk item input' =>
          cases item with
          | none => rfl
          | some inst =>
              dsimp only
              cases htail : readTail proto.toPrototype inst input' with
              | mk tail input'' =>
                  cases tail with
                  | none => rfl
                  | some more =>
                      dsimp only
                      by_cases hdone : sizeBytes ≤
                          addReadBytes readBytes (proto.toPrototype.realSizeof inst)
                      · simp only [if_pos hdone]
                        split <;> [rfl; split <;> [rfl; split <;> rfl]]
                      · simp only [if_neg hdone]
                        split
                        · simpa using ih
                        · split
                          · simpa using ih
                          · split
                            · rfl
                            · simpa [Outcome.after, RecordPrototype.record] using ih

/-! ## The places of records -/

/-- The real size of a record: what its `sizeof=` member says, or the size of the type. -/
def RecordPrototype.sizeOf (proto : RecordPrototype) (record : Printed) : ℤ :=
  proto.sizeofLeaf.elim proto.size fun leaf => leaf.value record.bytes

/-- Each record starts where the real sizes of those before it end, has the bytes of the stream
there, and is printed from these bytes only. -/
structure Framed (proto : RecordPrototype) (stream : List UInt8) (start : ℕ)
    (run : List (Printed × Bool)) : Prop where
  offset : ∀ i (_ : i < run.length),
    (run[i].1.offset : ℤ) = start + ((run.take i).map fun record => proto.sizeOf record.1).sum
  bytes : ∀ record ∈ run, record.1.bytes <+: stream.drop record.1.offset
  inside : ∀ record ∈ run, record.2 = true →
    ∀ read ∈ (proto.realType record.1.bytes).reads record.1.realSizeof,
      read.inside record.1.bytes = true

section Steps

variable {proto : RecordPrototype} {input input' input'' : ByteStream} {inst more : List UInt8}

/-- A record takes its bytes off the stream, at least as many as its type has. -/
theorem read_record (hread : input.read proto.size = (some inst, input'))
    (htail : readTail proto.toPrototype inst input' = (some more, input'')) :
    input'' = input.goTo (input.pos + (inst ++ more).length) ∧
      inst ++ more <+: input.bytes.drop input.pos ∧ inst.length = proto.size ∧
      ((inst ++ more).length : ℤ) = max (proto.size : ℤ) (proto.toPrototype.realSizeof inst) := by
  obtain ⟨-, hle, hinput⟩ := ByteStream.read_eq_some hread
  have hinst := ByteStream.read_item hread
  have hlength : inst.length = proto.size := by
    rw [hinst, List.length_take, List.length_drop]
    omega
  have hsize : proto.toPrototype.size = proto.size := rfl
  unfold readTail at htail
  rw [hsize] at htail
  split at htail
  · rename_i hlarger
    obtain ⟨-, hle', hinput'⟩ := ByteStream.read_eq_some htail
    have hmore := ByteStream.read_item htail
    rw [hinput] at hle' hinput' hmore
    rw [ByteStream.goTo_pos, ByteStream.goTo_bytes] at hle' hmore
    rw [ByteStream.goTo_pos, ByteStream.goTo_goTo] at hinput'
    have hlength' : more.length = (proto.toPrototype.realSizeof inst - proto.size).toNat := by
      rw [hmore, List.length_take, List.length_drop]
      omega
    have happend : inst ++ more = (input.bytes.drop input.pos).take
        (proto.size + (proto.toPrototype.realSizeof inst - proto.size).toNat) := by
      rw [List.take_add, List.drop_drop, ← hinst, ← hmore]
    refine ⟨?_, ?_, hlength, ?_⟩
    · rw [hinput', List.length_append, hlength, hlength', add_assoc]
    · rw [happend]
      exact List.take_prefix _ _
    · rw [List.length_append, hlength, hlength']
      omega
  · rename_i hsmaller
    obtain ⟨hmore, rfl⟩ := Prod.mk.inj htail
    obtain rfl := Option.some.inj hmore
    rw [List.append_nil]
    refine ⟨?_, ?_, hlength, ?_⟩
    · rw [hinput, hlength]
    · rw [hinst]
      exact List.take_prefix _ _
    · rw [hlength]
      omega

end Steps

/-- The invariant of a decoded record: it has the bytes of the stream at its offset, as many as
the larger of the type's size and its real size. -/
structure Decoded (proto : RecordPrototype) (stream : List UInt8) (record : Printed) : Prop where
  bytes : record.bytes <+: stream.drop record.offset
  length : (record.bytes.length : ℤ) = max (proto.size : ℤ) record.realSizeof
  realSizeof : ∃ inst more, record.bytes = inst ++ more ∧ inst.length = proto.size ∧
    record.realSizeof = proto.toPrototype.realSizeof inst

section Runs

variable {conf : InputConf} {proto : RecordPrototype} {sizeBytes fuel : ℕ} {input : ByteStream}
  {skip count readBytes : ℕ}

/-- The first turn of the loop prints nothing, or one record before those of a loop from the end
of that record. -/
theorem decodeRecords_succ :
    decodeRecords conf proto sizeBytes (fuel + 1) input skip count readBytes = [] ∨
      ∃ record shown rest,
        decodeRecords conf proto sizeBytes (fuel + 1) input skip count readBytes =
          (record, shown) :: rest ∧
        Decoded proto input.bytes record ∧ record.offset = input.pos ∧
        (rest = [] ∨ ∃ skip count readBytes, rest = decodeRecords conf proto sizeBytes fuel
          (input.goTo (input.pos + record.bytes.length)) skip count readBytes) := by
  rw [decodeRecords]
  cases hread : input.read proto.size with
  | mk item input' =>
      cases item with
      | none => exact Or.inl rfl
      | some inst =>
          dsimp only
          cases htail : readTail proto.toPrototype inst input' with
          | mk tail input'' =>
              cases tail with
              | none => exact Or.inl rfl
              | some more =>
                  obtain ⟨hinput, hpre, hlength, hmax⟩ := read_record hread htail
                  have hdecoded : Decoded proto input.bytes (proto.record input.pos inst more) :=
                    ⟨hpre, hmax, inst, more, rfl, hlength, rfl⟩
                  rw [hinput]
                  dsimp only
                  split
                  · refine Or.inr ⟨_, _, _, rfl, hdecoded, rfl, ?_⟩
                    split
                    · exact Or.inl rfl
                    · exact Or.inr ⟨_, _, _, rfl⟩
                  · split
                    · refine Or.inr ⟨_, _, _, rfl, hdecoded, rfl, ?_⟩
                      split
                      · exact Or.inl rfl
                      · exact Or.inr ⟨_, _, _, rfl⟩
                    · split
                      · exact Or.inr ⟨_, _, _, rfl, hdecoded, rfl, Or.inl rfl⟩
                      · refine Or.inr ⟨_, _, _, rfl, hdecoded, rfl, ?_⟩
                        split
                        · exact Or.inl rfl
                        · exact Or.inr ⟨_, _, _, rfl⟩

/-- The records of a run are end to end by the bytes that they take. -/
theorem decodeRecords_endToEnd :
    EndToEnd (fun record : Printed × Bool => (record.1.offset : ℤ))
      (fun record => record.1.bytes.length) input.pos
      (decodeRecords conf proto sizeBytes fuel input skip count readBytes) := by
  induction fuel generalizing input skip count readBytes with
  | zero => trivial
  | succ fuel ih =>
      rcases decodeRecords_succ with
        hnil | ⟨record, shown, rest, hrun, -, hoffset, hrest⟩
      · rw [hnil]
        trivial
      · rw [hrun]
        refine ⟨congrArg Nat.cast hoffset, ?_⟩
        rcases hrest with rfl | ⟨skip, count, readBytes, rfl⟩
        · trivial
        · have hnext := @ih (input.goTo (input.pos + record.bytes.length)) skip count readBytes
          rw [ByteStream.goTo_pos, Nat.cast_add] at hnext
          exact hnext

theorem decodeRecords_decoded {record : Printed × Bool}
    (h : record ∈ decodeRecords conf proto sizeBytes fuel input skip count readBytes) :
    Decoded proto input.bytes record.1 := by
  induction fuel generalizing input skip count readBytes with
  | zero => cases h
  | succ fuel ih =>
      rcases decodeRecords_succ with
        hnil | ⟨first, shown, rest, hrun, hdecoded, -, hrest⟩
      · rw [hnil] at h
        cases h
      · rw [hrun] at h
        rcases List.mem_cons.mp h with rfl | hmem
        · exact hdecoded
        · rcases hrest with rfl | ⟨skip, count, readBytes, rfl⟩
          · cases hmem
          · have hnext := ih hmem
            rwa [ByteStream.goTo_bytes] at hnext

end Runs

/-! ## When the real size is taken off the stream -/

/-- The part of the unit of a member that an `int` has of it. -/
def lowBits (leaf : Leaf) (bytes : List UInt8) : ℕ := leaf.unit bytes % 2 ^ 32

/-- The sign bit of the lower 32 bits of a leaf. -/
def signBit (leaf : Leaf) : ℕ := 2 ^ (min 32 (8 * leaf.member.byteSize) - 1)

/-- The value of the `sizeof=` member is the size of the type, and its unit is not a larger
number; or it is larger than that, and is what an `int` has of the unit. -/
def RecordPrototype.SizeAgrees (proto : RecordPrototype) (record : Printed) : Prop :=
  ∀ leaf ∈ proto.sizeofLeaf,
    (leaf.value record.bytes = proto.size ∧
        (leaf.member.byteSize ∈ [1, 2, 4, 8] →
          signBit leaf ≤ lowBits leaf record.bytes ∨ lowBits leaf record.bytes ≤ proto.size)) ∨
      (leaf.member.byteSize ∈ [1, 2, 4, 8] ∧ proto.size < leaf.value record.bytes ∧
        leaf.value record.bytes = lowBits leaf record.bytes ∧
        lowBits leaf record.bytes < signBit leaf)

section Sizes

variable {proto : RecordPrototype} {leaf : Leaf} {inst more : List UInt8}

/-- The unit of a leaf inside an instance does not depend on what is read after it. -/
theorem unit_append (h : leaf.byteOffset + leaf.member.byteSize ≤ inst.length) :
    leaf.unit (inst ++ more) = leaf.unit inst := by
  unfold Leaf.unit
  rw [List.drop_append_of_le_length (by omega), List.take_append_of_le_length]
  rw [List.length_drop]
  omega

theorem sizeofLeaf_mem (h : proto.sizeofLeaf = some leaf) : leaf ∈ proto.sizeofMember := by
  unfold RecordPrototype.sizeofLeaf at h
  split at h
  · exact h
  · cases h

theorem lowBits_lt {bytes : List UInt8} :
    lowBits leaf bytes < 2 * signBit leaf ∨ leaf.member.byteSize ∉ [1, 2, 4, 8] := by
  have hlt : leaf.unit bytes < 2 ^ (8 * leaf.member.byteSize) := Leaf.unit_lt
  unfold lowBits signBit
  by_cases hint : leaf.member.byteSize ∈ [1, 2, 4, 8]
  · left
    simp only [List.mem_cons, List.not_mem_nil, or_false] at hint
    rcases hint with hsize | hsize | hsize | hsize <;> rw [hsize] at hlt ⊢ <;>
      norm_num at hlt ⊢ <;> omega
  · exact Or.inr hint

/-- The real size of an instance is the value of its leaf, signed, or 0 for a leaf that has not
1, 2, 4 or 8 bytes. -/
theorem realSizeof_eq (h : proto.sizeofLeaf = some leaf) :
    proto.toPrototype.realSizeof inst =
      if leaf.member.byteSize ∈ [1, 2, 4, 8] then
        if lowBits leaf inst < signBit leaf then (lowBits leaf inst : ℤ)
        else lowBits leaf inst - 2 * signBit leaf
      else 0 := by
  have hlt : leaf.unit inst < 2 ^ (8 * leaf.member.byteSize) := Leaf.unit_lt
  have hmember : proto.toPrototype.sizeofMember =
      some { byteOffset := leaf.byteOffset, byteSize := leaf.member.byteSize } := by
    unfold RecordPrototype.toPrototype
    rw [h]
    rfl
  have hread : baseTypeValue inst leaf.byteOffset leaf.member.byteSize =
      if leaf.member.byteSize ∈ [1, 2, 4, 8] then
        signedValue leaf.member.byteSize (leaf.unit inst) else 0 := by
    unfold baseTypeValue
    refine if_congr ?_ rfl rfl
    simp only [List.mem_cons, List.not_mem_nil, or_false]
    omega
  unfold Prototype.realSizeof
  rw [hmember]
  dsimp only
  rw [hread]
  unfold lowBits signBit
  by_cases hint : leaf.member.byteSize ∈ [1, 2, 4, 8]
  · rw [if_pos hint, if_pos hint]
    simp only [List.mem_cons, List.not_mem_nil, or_false] at hint
    unfold signedValue
    rcases hint with hsize | hsize | hsize | hsize <;> rw [hsize] at hlt ⊢ <;>
      norm_num at hlt ⊢ <;> split <;> split <;> split <;> omega
  · rw [if_neg hint, if_neg hint]
    rfl

/-- The bytes that a record takes are its real size exactly if the two agree. -/
theorem length_eq_sizeOf_iff {stream : List UInt8} {record : Printed}
    (h : Decoded proto stream record) :
    (record.bytes.length : ℤ) = proto.sizeOf record ↔ proto.SizeAgrees record := by
  obtain ⟨inst, more, hbytes, hlength, hreal⟩ := h.realSizeof
  unfold RecordPrototype.SizeAgrees RecordPrototype.sizeOf
  rw [h.length, hreal]
  cases hleaf : proto.sizeofLeaf with
  | none =>
      have hsize : proto.toPrototype.realSizeof inst = proto.size := by
        unfold Prototype.realSizeof RecordPrototype.toPrototype
        rw [hleaf]
        rfl
      simp [hsize]
  | some leaf =>
      have hinside : leaf.byteOffset + leaf.member.byteSize ≤ inst.length := by
        rw [hlength]
        exact proto.sizeof_le leaf (sizeofLeaf_mem hleaf)
      have hlow : lowBits leaf record.bytes = lowBits leaf inst := by
        unfold lowBits
        rw [hbytes, unit_append hinside]
      have hlt : lowBits leaf inst < 2 * signBit leaf ∨ leaf.member.byteSize ∉ [1, 2, 4, 8] :=
        lowBits_lt
      rw [realSizeof_eq hleaf, Option.elim_some]
      simp only [Option.mem_def, Option.some_inj, forall_eq', hlow]
      by_cases hint : leaf.member.byteSize ∈ [1, 2, 4, 8]
      · have hlt' := hlt.resolve_right (not_not_intro hint)
        rw [if_pos hint]
        simp only [hint, true_and, forall_const]
        split <;> omega
      · rw [if_neg hint]
        simp only [hint, false_and, or_false, false_imp_iff, and_true]
        omega

end Sizes

/-! ## When printing stays in the record -/

/-- A member where it is in the record, with the size of what it is in. -/
structure Placed where
  offset : ℕ
  size : ℤ
  field : Field
  type : MemberType

/-- All the members that are printed, those of nested structures in place of these; an
enumerator or a bit field is read as a base type. -/
def Members.placed : Members → (offset : ℕ) → (size : ℤ) → List Placed
  | .none, _, _ => []
  | .member field type rest, offset, size =>
      { offset := offset + field.byteOffset, size := size, field := field,
        type := if field.isTypeMember ∨ field.isBitfield then .base else type } ::
          rest.placed offset size
  | .nested field inner rest, offset, size =>
      (if field.isTypeMember ∨ field.isBitfield then
        [{ offset := offset + field.byteOffset, size := size, field := field, type := .base }]
      else inner.placed (offset + field.byteOffset) field.byteSize) ++ rest.placed offset size

/-- A string with the precision that is printed from an offset ends in the bytes. -/
def StringEndsIn (bytes : List UInt8) (offset : ℕ) (precision : ℤ) : Prop :=
  0 ∈ bytes.drop offset ∨ precision = 0 ∨ 0 < precision ∧ offset + precision ≤ bytes.length

/-- Printing the member reads no byte past the end. -/
def Placed.EndsIn (bytes : List UInt8) (member : Placed) : Prop :=
  match member.type with
  | .base => member.field.byteSize ∈ [1, 2, 4, 8] →
      member.offset + member.field.byteSize ≤ bytes.length
  | .array .char => StringEndsIn bytes member.offset (member.field.sizeofMember member.size)
  | .array (.base [entries] entrySize _) => entrySize ∈ [1, 2, 4, 8] →
      nrEntries entries entrySize (member.field.sizeofMember member.size) ≤ 0 ∨
        member.offset +
          nrEntries entries entrySize (member.field.sizeofMember member.size) * entrySize ≤
            bytes.length
  | .array _ => member.field.sizeofMember member.size ≤ 0 ∨
      member.offset + member.field.sizeofMember member.size ≤ bytes.length
  | .other => member.field.byteSize = 0 ∨ member.offset + member.field.byteSize ≤ bytes.length

/-- Printing a record of the type reads no byte past the end. -/
def RecordType.EndsIn (type : RecordType) (bytes : List UInt8) (size : ℤ) : Prop :=
  match type with
  | .struct members => ∀ member ∈ members.placed 0 size, member.EndsIn bytes
  | .other => size ≤ bytes.length

section Reads

variable {bytes : List UInt8} {offset : ℕ} {size : ℤ}

/-- The reads for members are the reads for each of them, one after the other. -/
theorem reads_eq_flatMap {members : Members} :
    members.reads offset size =
      (members.placed offset size).flatMap fun member =>
        member.type.reads member.field member.offset member.size := by
  induction members generalizing offset size with
  | none => rfl
  | member field type rest ih =>
      rw [Members.reads, Members.placed, List.flatMap_cons, ih]
      congr 1
      split <;> rfl
  | nested field inner rest ihInner ih =>
      rw [Members.reads, Members.placed, List.flatMap_append, ← ih]
      congr 1
      split
      · rfl
      · exact ihInner

theorem stringInside_iff {precision : Option ℕ} :
    stringInside bytes precision = true ↔ 0 ∈ bytes ∨ ∃ p ∈ precision, p ≤ bytes.length := by
  induction bytes generalizing precision with
  | nil =>
      match precision with
      | none => simp [stringInside]
      | some 0 => simp [stringInside]
      | some (p + 1) => simp [stringInside]
  | cons b bytes ih =>
      have hzero : b = 0 ↔ 0 = b := eq_comm
      match precision with
      | none => simp [stringInside, ih, hzero]
      | some 0 => simp [stringInside]
      | some (p + 1) => simp [stringInside, ih, or_assoc, hzero]

theorem inside_span {n : ℕ} :
    (Read.span offset n).inside bytes = true ↔ n = 0 ∨ offset + n ≤ bytes.length := by
  simp [Read.inside]

theorem inside_string {precision : ℤ} :
    (Read.string offset (if 0 ≤ precision then some precision.toNat else none)).inside bytes =
        true ↔ StringEndsIn bytes offset precision := by
  unfold Read.inside StringEndsIn
  rw [stringInside_iff, List.length_drop]
  refine or_congr_right ?_
  by_cases hneg : 0 ≤ precision
  · rw [if_pos hneg]
    simp only [Option.mem_def, Option.some_inj, exists_eq_left']
    omega
  · rw [if_neg hneg]
    simp only [Option.mem_def, reduceCtorEq, false_and, exists_false, false_iff]
    omega

theorem inside_hexdump :
    (∀ read ∈ hexdumpReads offset size, read.inside bytes = true) ↔
      size ≤ 0 ∨ offset + size ≤ bytes.length := by
  unfold hexdumpReads
  rw [List.forall_mem_singleton, inside_span]
  omega

theorem baseSize_eq {n : ℕ} : baseSize n = if n ∈ [1, 2, 4, 8] then n else 0 := by
  unfold baseSize
  refine if_congr ?_ rfl rfl
  simp only [List.mem_cons, List.not_mem_nil, or_false]
  omega

theorem inside_base {n : ℕ} :
    (Read.span offset (baseSize n)).inside bytes = true ↔
      (n ∈ [1, 2, 4, 8] → offset + n ≤ bytes.length) := by
  rw [inside_span, baseSize_eq]
  by_cases hint : n ∈ [1, 2, 4, 8]
  · have hpos : n ≠ 0 := by
      rintro rfl
      exact absurd hint (by decide)
    simp [hint, hpos]
  · simp [hint]

/-- Entries up to the last one are inside exactly if the last one is. -/
theorem inside_entries {entrySize : ℕ} {n : ℤ} :
    (∀ i < n.toNat, offset + i * entrySize + entrySize ≤ bytes.length) ↔
      n ≤ 0 ∨ offset + n * entrySize ≤ bytes.length := by
  constructor
  · intro h
    by_cases hn : n ≤ 0
    · exact Or.inl hn
    · have hlast := h (n.toNat - 1) (by omega)
      have hsum : (n.toNat - 1) * entrySize + entrySize = n.toNat * entrySize := by
        rw [← Nat.succ_mul, Nat.succ_eq_add_one, Nat.sub_add_cancel (by omega)]
      have hcast : n * entrySize = ((n.toNat * entrySize : ℕ) : ℤ) := by
        rw [Nat.cast_mul, Int.toNat_of_nonneg (by omega)]
      rw [hcast]
      omega
  · intro h i hi
    have hle : (i + 1) * entrySize ≤ n.toNat * entrySize := Nat.mul_le_mul_right _ hi
    have hcast : n * entrySize = ((n.toNat * entrySize : ℕ) : ℤ) := by
      rw [Nat.cast_mul, Int.toNat_of_nonneg (by omega)]
    rw [hcast] at h
    rw [Nat.succ_mul] at hle
    omega

/-- The reads of a member are in the bytes exactly if it ends in them. -/
theorem reads_inside_iff {member : Placed} :
    (∀ read ∈ member.type.reads member.field member.offset member.size,
        read.inside bytes = true) ↔ member.EndsIn bytes := by
  obtain ⟨offset, size, field, type⟩ := member
  cases type with
  | base =>
      unfold MemberType.reads Placed.EndsIn
      rw [List.forall_mem_singleton, inside_base]
  | other =>
      unfold MemberType.reads Placed.EndsIn
      rw [inside_hexdump]
      dsimp only
      omega
  | array element =>
      unfold MemberType.reads Placed.EndsIn
      dsimp only
      cases element with
      | char =>
          unfold arrayReads
          rw [List.forall_mem_singleton, inside_string]
      | other => exact inside_hexdump
      | base entries entrySize pos =>
          match entries with
          | [] => exact inside_hexdump
          | [count] =>
              unfold arrayReads
              dsimp only
              rw [List.forall_mem_map]
              simp only [List.mem_range, inside_base]
              rw [← inside_entries]
              constructor
              · exact fun h hint i hi => h i hi hint
              · exact fun h i hi hint => h hint i hi
          | _ :: _ :: _ => exact inside_hexdump

theorem type_reads_inside_iff {type : RecordType} :
    (∀ read ∈ type.reads size, read.inside bytes = true) ↔ type.EndsIn bytes size := by
  cases type with
  | struct members =>
      unfold RecordType.reads RecordType.EndsIn
      dsimp only
      rw [reads_eq_flatMap]
      simp only [List.mem_flatMap, forall_exists_index, and_imp]
      rw [forall_comm]
      refine forall_congr' fun member => ?_
      rw [← reads_inside_iff]
      exact ⟨fun h hmember read hread => h read hmember hread,
        fun h read hmember hread => h hmember read hread⟩
  | other =>
      unfold RecordType.reads RecordType.EndsIn
      dsimp only
      rw [inside_hexdump]
      omega

end Reads

/-- Records that are end to end by the bytes they take are framed if those are their real
sizes, and if what is printed of them ends in them. -/
theorem framed_iff {proto : RecordPrototype} {stream : List UInt8} {start : ℕ}
    {run : List (Printed × Bool)} (hdecoded : ∀ record ∈ run, Decoded proto stream record.1)
    (hends : EndToEnd (fun record : Printed × Bool => (record.1.offset : ℤ))
      (fun record => record.1.bytes.length) start run) :
    Framed proto stream start run ↔
      (∀ record ∈ run.dropLast, proto.SizeAgrees record.1) ∧
        ∀ record ∈ run, record.2 = true →
          (proto.realType record.1.bytes).EndsIn record.1.bytes record.1.realSizeof := by
  have hoffsets : EndToEnd _ (fun record => proto.sizeOf record.1) start run ↔
      ∀ record ∈ run.dropLast, (record.1.bytes.length : ℤ) = proto.sizeOf record.1 :=
    hends.iff_forall_dropLast
  have hsizes : (∀ record ∈ run.dropLast,
        (record.1.bytes.length : ℤ) = proto.sizeOf record.1) ↔
      ∀ record ∈ run.dropLast, proto.SizeAgrees record.1 :=
    forall₂_congr fun record hmem =>
      length_eq_sizeOf_iff (hdecoded record (List.mem_of_mem_dropLast hmem))
  rw [hsizes, endToEnd_iff_getElem] at hoffsets
  constructor
  · intro h
    exact ⟨hoffsets.mp h.offset, fun record hmem hshown =>
      type_reads_inside_iff.mp (h.inside record hmem hshown)⟩
  · rintro ⟨hagree, hinside⟩
    exact ⟨hoffsets.mpr hagree, fun record hmem => (hdecoded record hmem).bytes,
      fun record hmem hshown => type_reads_inside_iff.mpr (hinside record hmem hshown)⟩

/-- The records are `Framed` if and only if for each record but the last the size taken off the
stream is its real size, and printing each record reads no byte past its end. -/
theorem decodeRecords_framed_iff (conf : InputConf) (proto : RecordPrototype)
    (sizeBytes fuel : ℕ) (input : ByteStream) (skip count readBytes : ℕ) :
    Framed proto input.bytes input.pos
        (decodeRecords conf proto sizeBytes fuel input skip count readBytes) ↔
      (∀ record ∈ (decodeRecords conf proto sizeBytes fuel input skip count readBytes).dropLast,
          proto.SizeAgrees record.1) ∧
        ∀ record ∈ decodeRecords conf proto sizeBytes fuel input skip count readBytes,
          record.2 = true →
            (proto.realType record.1.bytes).EndsIn record.1.bytes record.1.realSizeof :=
  framed_iff (fun _ => decodeRecords_decoded) decodeRecords_endToEnd

/-- `struct event { unsigned char type, size; }` with `sizeof=size,type=type`, where type 3
is a `struct comm` with an `unsigned int pid` behind that. -/
def eventPrototype : RecordPrototype where
  name := "event"
  range := none
  size := 2
  type := .struct .none
  sizeofMember := some
    { byteOffset := 1
      member :=
        { name := some "size".toList, byteOffset := 1, byteSize := 1, bitfieldOffset := 0,
          bitfieldSize := 0, noDot := by decide, fits := by decide }
      isSigned := false }
  typeMember := some { byteOffset := 0, byteSize := 1 }
  typeEnum := [{ name := "COMM".toList, value := 3, typeEnum := none }]
  filter := none
  findTypeByName := fun name =>
    if name = "comm".toList then
      some (.struct (.member
        { byteOffset := 4, byteSize := 4, isBitfield := false, isTypeMember := false,
          isLast := true } .base .none))
    else none
  size_lt := by decide
  sizeof_le := by decide

/-- A record of two bytes is printed as a `struct comm`, whose `pid` is past its end. -/
theorem decodeRecords_not_framed :
    ¬Framed eventPrototype [3, 2] 0
      (decodeRecords oneByteConf eventPrototype 100 3 { bytes := [3, 2], pos := 0 } 0 0 0) := by
  intro h
  have hread := h.inside ({ prototype := "event", offset := 0, bytes := [3, 2], realSizeof := 2 },
    true) (by decide) rfl (.span 4 4) (by decide)
  exact absurd hread (by decide)

end Pahole.RecordFraming

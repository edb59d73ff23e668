import Mathlib.Tactic

/-!
# Encoding CTF

`ctf__add_*` append one record for each type to the type section, and write members,
parameters and enumerators into the place that has been allocated for them.  The section
is seen as a list of 16-bit halfwords, which all its fields are made of.
-/

namespace Pahole.Libctf

/-! ## Fields -/

/-- The kinds of types, `CTF_TYPE_KIND_*`. -/
inductive CtfKind where
  | unkn | int | flt | ptr | arr | func | str | union | enum | fwd | typedef | volatile
  | const | restrict
  deriving DecidableEq

def CtfKind.code : CtfKind → ℕ
  | .unkn => 0
  | .int => 1
  | .flt => 2
  | .ptr => 3
  | .arr => 4
  | .func => 5
  | .str => 6
  | .union => 7
  | .enum => 8
  | .fwd => 9
  | .typedef => 10
  | .volatile => 11
  | .const => 12
  | .restrict => 13

/-- The halfwords of a `uint32_t`. -/
def word (n : ℕ) : List ℕ := [n % 65536, n / 65536 % 65536]

/-- `CTF_INFO_ENCODE` in the `uint16_t` that it is assigned to. -/
def ctfInfoEncode (kind vlen : ℕ) (isRoot : Bool) : ℕ :=
  ((if isRoot then 0x400 else 0) ||| (kind <<< 11) ||| vlen) % 65536

/-- `CTF_TYPE_INT_ENCODE` -/
def ctfTypeIntEncode (attrs off bits : ℕ) : ℕ := (attrs <<< 24) ||| (off <<< 16) ||| bits

def ctfShortMemberLimit : ℕ := 8192

/-- `struct ctf_short_type` -/
def ctfShortType (name info sizeOrType : ℕ) : List ℕ := word name ++ [info, sizeOrType]

/-! ## The buffer -/

/-- `ctf->types` and `ctf->type_index`. -/
structure Ctf where
  types : List ℕ
  typeIndex : ℕ

/-- `memcpy` to a position in a buffer. -/
def overwrite (buf : List ℕ) (position : ℕ) (xs : List ℕ) : List ℕ :=
  buf.take position ++ xs ++ buf.drop (position + xs.length)

theorem overwrite_append {done xs rest : List ℕ} :
    overwrite (done ++ rest) done.length xs = (done ++ xs) ++ rest.drop xs.length := by
  rw [overwrite, List.take_left, List.drop_append]
  simp

section Add

variable (junk : ℕ)

namespace Ctf

/-- `gobuffer__add` to the types. -/
def gobufferAdd (ctf : Ctf) (xs : List ℕ) : Ctf := { ctf with types := ctf.types ++ xs }

/-- `gobuffer__allocate` in the types: the buffer and the position of what is new. -/
def gobufferAllocate (ctf : Ctf) (len : ℕ) : Ctf × ℕ :=
  ({ ctf with types := ctf.types ++ List.replicate len junk }, ctf.types.length)

/-- `++ctf->type_index` -/
def nextIndex (ctf : Ctf) : Ctf := { ctf with typeIndex := ctf.typeIndex + 1 }

/-- `memcpy` to `*position`, which it is moved on from. -/
def put (ctf : Ctf) (position : ℕ) (xs : List ℕ) : Ctf × ℕ :=
  ({ ctf with types := overwrite ctf.types position xs }, position + xs.length)

/-- `ctf__add_base_type` -/
def addBaseType (ctf : Ctf) (name : UInt32) (size : UInt16) : Ctf :=
  (ctf.gobufferAdd (ctfShortType name.toNat (ctfInfoEncode CtfKind.int.code 0 false) size.toNat ++
    word (ctfTypeIntEncode 0 0 size.toNat))).nextIndex

/-- `ctf__add_short_type` -/
def addShortType (ctf : Ctf) (kind : CtfKind) (type : UInt16) (name : UInt32) : Ctf :=
  (ctf.gobufferAdd
    (ctfShortType name.toNat (ctfInfoEncode kind.code 0 false) type.toNat)).nextIndex

/-- `ctf__add_fwd_decl` -/
def addFwdDecl (ctf : Ctf) (name : UInt32) : Ctf := ctf.addShortType .fwd 0 name

/-- `ctf__add_array` -/
def addArray (ctf : Ctf) (type indexType : UInt16) (nelems : UInt32) : Ctf :=
  (ctf.gobufferAdd (ctfShortType 0 (ctfInfoEncode CtfKind.arr.code 0 false) 0 ++
    [type.toNat, indexType.toNat] ++ word nelems.toNat)).nextIndex

/-- `ctf__add_short_member` -/
def addShortMember (ctf : Ctf) (name : UInt32) (type offset : UInt16) (position : ℕ) :
    Ctf × ℕ :=
  ctf.put position (word name.toNat ++ [type.toNat, offset.toNat])

/-- `ctf__add_full_member` -/
def addFullMember (ctf : Ctf) (name : UInt32) (type : UInt16) (offset : UInt64)
    (position : ℕ) : Ctf × ℕ :=
  ctf.put position (word name.toNat ++ [type.toNat, 0] ++ word (offset.toNat >>> 32) ++
    word (offset.toNat &&& 0xffffffff))

/-- `ctf__add_struct` -/
def addStruct (ctf : Ctf) (kind : CtfKind) (name : UInt32) (size : UInt64)
    (nrMembers : UInt16) : Ctf × ℕ :=
  let isShort := size.toNat < ctfShortMemberLimit
  let membersLen := (if isShort then 4 else 8) * nrMembers.toNat
  let info := ctfInfoEncode kind.code nrMembers.toNat false
  let t :=
    if size.toNat < 0xffff then ctfShortType name.toNat info size.toNat
    else ctfShortType name.toNat info 0xffff ++ word (size.toNat >>> 32) ++
      word (size.toNat &&& 0xffffffff)
  let (ctf, position) := (ctf.gobufferAdd t).gobufferAllocate junk membersLen
  (ctf.nextIndex, position)

/-- `ctf__add_parameter` -/
def addParameter (ctf : Ctf) (type : UInt16) (position : ℕ) : Ctf × ℕ :=
  ctf.put position [type.toNat]

/-- `ctf__add_function_type` -/
def addFunctionType (ctf : Ctf) (type nrParms : UInt16) (varargs : Bool) : Ctf × ℕ :=
  let vlen := nrParms.toNat + varargs.toNat
  let len := vlen + vlen % 2
  let t := ctfShortType 0 (ctfInfoEncode CtfKind.func.code vlen false) type.toNat
  let (ctf, position) := (ctf.gobufferAdd t).gobufferAllocate junk len
  let ctf := if varargs then (ctf.put (position + nrParms.toNat) [0]).1 else ctf
  (ctf.nextIndex, position)

/-- `ctf__add_enumeration_type` -/
def addEnumerationType (ctf : Ctf) (name : UInt32) (size nrEntries : UInt16) : Ctf × ℕ :=
  let e := ctfShortType name.toNat (ctfInfoEncode CtfKind.enum.code nrEntries.toNat false)
    size.toNat
  let (ctf, position) := (ctf.gobufferAdd e).gobufferAllocate junk (nrEntries.toNat * 4)
  (ctf.nextIndex, position)

/-- `ctf__add_enumerator` -/
def addEnumerator (ctf : Ctf) (name value : UInt32) (position : ℕ) : Ctf × ℕ :=
  ctf.put position (word name.toNat ++ word value.toNat)

end Ctf

/-! ## Descriptions of types -/

/-- A data member. -/
structure MemberDesc where
  name : UInt32
  type : UInt16
  bitOffset : UInt64
  deriving DecidableEq

/-- The description of a type to be encoded.  A short type is a pointer, a `typedef` or a
qualifier. -/
inductive TypeDesc where
  | baseType (name : UInt32) (size : UInt16)
  | pointer (type : UInt16)
  | typedef (name : UInt32) (type : UInt16)
  | volatile (type : UInt16)
  | const (type : UInt16)
  | restrict (type : UInt16)
  | fwdDecl (name : UInt32)
  | array (type indexType : UInt16) (nelems : UInt32)
  | functionType (type : UInt16) (parms : List UInt16) (varargs : Bool)
  | struct (name : UInt32) (size : UInt64) (members : List MemberDesc)
  | union (name : UInt32) (size : UInt64) (members : List MemberDesc)
  | enumeration (name : UInt32) (size : UInt16) (entries : List (UInt32 × UInt32))
  deriving DecidableEq

/-- `structure_type__encode` -/
def structureTypeEncode (ctf : Ctf) (kind : CtfKind) (name : UInt32) (size : UInt64)
    (members : List MemberDesc) : Ctf :=
  let isShort := size.toNat < ctfShortMemberLimit
  (members.foldl
    (fun s m =>
      if isShort then s.1.addShortMember m.name m.type (UInt16.ofNat m.bitOffset.toNat) s.2
      else s.1.addFullMember m.name m.type m.bitOffset s.2)
    (ctf.addStruct junk kind name size (UInt16.ofNat members.length))).1

/-- `subroutine_type__encode` -/
def subroutineTypeEncode (ctf : Ctf) (type : UInt16) (parms : List UInt16) (varargs : Bool) :
    Ctf :=
  (parms.foldl (fun s p => s.1.addParameter p s.2)
    (ctf.addFunctionType junk type (UInt16.ofNat parms.length) varargs)).1

/-- `enumeration_type__encode` -/
def enumerationTypeEncode (ctf : Ctf) (name : UInt32) (size : UInt16)
    (entries : List (UInt32 × UInt32)) : Ctf :=
  (entries.foldl (fun s e => s.1.addEnumerator e.1 e.2 s.2)
    (ctf.addEnumerationType junk name size (UInt16.ofNat entries.length))).1

/-- `tag__encode_ctf` -/
def tagEncodeCtf (ctf : Ctf) : TypeDesc → Ctf
  | .baseType name size => ctf.addBaseType name size
  | .pointer type => ctf.addShortType .ptr type 0
  | .typedef name type => ctf.addShortType .typedef type name
  | .volatile type => ctf.addShortType .volatile type 0
  | .const type => ctf.addShortType .const type 0
  | .restrict type => ctf.addShortType .restrict type 0
  | .fwdDecl name => ctf.addFwdDecl name
  | .array type indexType nelems => ctf.addArray type indexType nelems
  | .functionType type parms varargs => subroutineTypeEncode junk ctf type parms varargs
  | .struct name size members => structureTypeEncode junk ctf .str name size members
  | .union name size members => structureTypeEncode junk ctf .union name size members
  | .enumeration name size entries => enumerationTypeEncode junk ctf name size entries

/-- The type section for a sequence of types. -/
def encodeTypes (ds : List TypeDesc) : Ctf := ds.foldl (tagEncodeCtf junk) ⟨[], 0⟩

end Add

/-! ## The records -/

/-- A loop that puts items one after the other puts their concatenation. -/
theorem foldl_put {α : Type*} {f : α → List ℕ} {add : Ctf × ℕ → α → Ctf × ℕ}
    (hadd : ∀ s x, add s x = s.1.put s.2 (f x)) {xs : List α} {done rest : List ℕ}
    {index : ℕ} :
    xs.foldl add (⟨done ++ rest, index⟩, done.length) =
      (⟨done ++ xs.flatMap f ++ rest.drop (xs.flatMap f).length, index⟩,
        (done ++ xs.flatMap f).length) := by
  induction xs generalizing done rest with
  | nil => simp
  | cons x xs ih =>
      rw [List.foldl_cons, hadd, Ctf.put, overwrite_append, ← List.length_append, ih]
      simp

/-- A member as it is written: in the short form only the low 16 bits of the offset. -/
def MemberDesc.record (isShort : Bool) (m : MemberDesc) : List ℕ :=
  if isShort then word m.name.toNat ++ [m.type.toNat, m.bitOffset.toNat % 65536]
  else word m.name.toNat ++ [m.type.toNat, 0] ++ word (m.bitOffset.toNat >>> 32) ++
    word (m.bitOffset.toNat &&& 0xffffffff)

/-- The fields of a struct or union before its members. -/
def structHeader (kind : CtfKind) (name : UInt32) (size : UInt64) (vlen : ℕ) : List ℕ :=
  if size.toNat < 0xffff then
    ctfShortType name.toNat (ctfInfoEncode kind.code vlen false) size.toNat
  else
    ctfShortType name.toNat (ctfInfoEncode kind.code vlen false) 0xffff ++
      word (size.toNat >>> 32) ++ word (size.toNat &&& 0xffffffff)

/-- The record of a struct or union. -/
def structRecord (kind : CtfKind) (name : UInt32) (size : UInt64) (members : List MemberDesc) :
    List ℕ :=
  structHeader kind name size members.length ++
    members.flatMap (MemberDesc.record (size.toNat < ctfShortMemberLimit))

/-- The record that is appended for a type. -/
def TypeDesc.record (junk : ℕ) : TypeDesc → List ℕ
  | .baseType name size =>
      ctfShortType name.toNat (ctfInfoEncode CtfKind.int.code 0 false) size.toNat ++
        word (ctfTypeIntEncode 0 0 size.toNat)
  | .pointer type => ctfShortType 0 (ctfInfoEncode CtfKind.ptr.code 0 false) type.toNat
  | .typedef name type =>
      ctfShortType name.toNat (ctfInfoEncode CtfKind.typedef.code 0 false) type.toNat
  | .volatile type => ctfShortType 0 (ctfInfoEncode CtfKind.volatile.code 0 false) type.toNat
  | .const type => ctfShortType 0 (ctfInfoEncode CtfKind.const.code 0 false) type.toNat
  | .restrict type => ctfShortType 0 (ctfInfoEncode CtfKind.restrict.code 0 false) type.toNat
  | .fwdDecl name => ctfShortType name.toNat (ctfInfoEncode CtfKind.fwd.code 0 false) 0
  | .array type indexType nelems =>
      ctfShortType 0 (ctfInfoEncode CtfKind.arr.code 0 false) 0 ++
        [type.toNat, indexType.toNat] ++ word nelems.toNat
  | .functionType type parms varargs =>
      let vlen := parms.length + varargs.toNat
      ctfShortType 0 (ctfInfoEncode CtfKind.func.code vlen false) type.toNat ++
        parms.map UInt16.toNat ++ List.replicate varargs.toNat 0 ++
          List.replicate (vlen % 2) junk
  | .struct name size members => structRecord .str name size members
  | .union name size members => structRecord .union name size members
  | .enumeration name size entries =>
      ctfShortType name.toNat (ctfInfoEncode CtfKind.enum.code entries.length false)
          size.toNat ++
        entries.flatMap fun e => word e.1.toNat ++ word e.2.toNat

/-- The number of members, parameters or enumerators. -/
def TypeDesc.vlen : TypeDesc → ℕ
  | .functionType _ parms varargs => parms.length + varargs.toNat
  | .struct _ _ members => members.length
  | .union _ _ members => members.length
  | .enumeration _ _ entries => entries.length
  | _ => 0

section Records

variable {junk : ℕ}

theorem toNat_ofNat_length {n : ℕ} (h : n < 65536) : (UInt16.ofNat n).toNat = n := by
  rw [UInt16.toNat_ofNat']
  exact Nat.mod_eq_of_lt h

theorem length_memberRecord {isShort : Bool} {m : MemberDesc} :
    (m.record isShort).length = if isShort then 4 else 8 := by
  cases isShort <;> simp [MemberDesc.record, word]

theorem structureTypeEncode_eq {ctf : Ctf} {kind : CtfKind} {name : UInt32} {size : UInt64}
    {members : List MemberDesc} (h : members.length < 65536) :
    structureTypeEncode junk ctf kind name size members =
      ⟨ctf.types ++ structRecord kind name size members, ctf.typeIndex + 1⟩ := by
  have hlen : (members.flatMap (MemberDesc.record (size.toNat < ctfShortMemberLimit))).length =
      (if size.toNat < ctfShortMemberLimit then 4 else 8) * members.length := by
    rw [List.length_flatMap]
    simp only [length_memberRecord, List.map_const', List.sum_replicate, decide_eq_true_eq]
    split <;> simp [Nat.mul_comm]
  have hstart : ctf.addStruct junk kind name size (UInt16.ofNat members.length) =
      (⟨(ctf.types ++ structHeader kind name size members.length) ++ List.replicate
          ((if size.toNat < ctfShortMemberLimit then 4 else 8) * members.length) junk,
        ctf.typeIndex + 1⟩, (ctf.types ++ structHeader kind name size members.length).length) := by
    simp only [Ctf.addStruct, toNat_ofNat_length h, Ctf.gobufferAdd, Ctf.gobufferAllocate,
      Ctf.nextIndex, structHeader]
  simp only [structureTypeEncode, hstart]
  rw [foldl_put (f := MemberDesc.record (size.toNat < ctfShortMemberLimit))]
  · rw [hlen, List.drop_of_length_le (by simp), structRecord]
    simp
  · intro s m
    by_cases hshort : size.toNat < ctfShortMemberLimit
    · simp [hshort, MemberDesc.record, Ctf.addShortMember]
    · simp [hshort, MemberDesc.record, Ctf.addFullMember]

theorem enumerationTypeEncode_eq {ctf : Ctf} {name : UInt32} {size : UInt16}
    {entries : List (UInt32 × UInt32)} (h : entries.length < 65536) :
    enumerationTypeEncode junk ctf name size entries =
      ⟨ctf.types ++ (TypeDesc.enumeration name size entries).record junk,
        ctf.typeIndex + 1⟩ := by
  have hlen : (entries.flatMap fun e => word e.1.toNat ++ word e.2.toNat).length =
      entries.length * 4 := by
    rw [List.length_flatMap]
    simp [word, List.map_const', List.sum_replicate]
  unfold enumerationTypeEncode Ctf.addEnumerationType
  simp only [toNat_ofNat_length h, Ctf.gobufferAdd, Ctf.gobufferAllocate, Ctf.nextIndex]
  rw [foldl_put (f := fun e => word e.1.toNat ++ word e.2.toNat)]
  · rw [hlen, List.drop_of_length_le (by simp), TypeDesc.record]
    simp
  · intro s e
    rfl

theorem subroutineTypeEncode_eq {ctf : Ctf} {type : UInt16} {parms : List UInt16}
    {varargs : Bool} (h : parms.length < 65536) :
    subroutineTypeEncode junk ctf type parms varargs =
      ⟨ctf.types ++ (TypeDesc.functionType type parms varargs).record junk,
        ctf.typeIndex + 1⟩ := by
  have hlen : (parms.flatMap fun p => [p.toNat]).length = parms.length := by
    simp [List.length_flatMap]
  have hstart : ctf.addFunctionType junk type (UInt16.ofNat parms.length) varargs =
      (⟨(ctf.types ++ ctfShortType 0 (ctfInfoEncode CtfKind.func.code
            (parms.length + varargs.toNat) false) type.toNat) ++
          (List.replicate parms.length junk ++ (List.replicate varargs.toNat 0 ++
            List.replicate ((parms.length + varargs.toNat) % 2) junk)),
        ctf.typeIndex + 1⟩, (ctf.types ++ ctfShortType 0 (ctfInfoEncode CtfKind.func.code
            (parms.length + varargs.toNat) false) type.toNat).length) := by
    simp only [Ctf.addFunctionType, toNat_ofNat_length h, Ctf.gobufferAdd,
      Ctf.gobufferAllocate, Ctf.nextIndex, Ctf.put]
    cases varargs with
    | false => simp
    | true =>
        have hsplit : ∀ header : List ℕ,
            header ++ List.replicate (parms.length + 1 + (parms.length + 1) % 2) junk =
              (header ++ List.replicate parms.length junk) ++
                List.replicate (1 + (parms.length + 1) % 2) junk := by
          intro header
          rw [List.append_assoc, List.replicate_append_replicate, Nat.add_assoc]
        have hover : ∀ header : List ℕ, overwrite
            (header ++ List.replicate (parms.length + 1 + (parms.length + 1) % 2) junk)
            (header.length + parms.length) [0] = header ++ (List.replicate parms.length junk ++
              ([0] ++ List.replicate ((parms.length + 1) % 2) junk)) := by
          intro header
          have hat : header.length + parms.length =
              (header ++ List.replicate parms.length junk).length := by simp
          rw [hsplit, hat, overwrite_append]
          simp
        have hthis := hover (ctf.types ++ ctfShortType 0 (ctfInfoEncode CtfKind.func.code
          (parms.length + 1) false) type.toNat)
        simpa using hthis
  unfold subroutineTypeEncode
  rw [hstart, foldl_put (f := fun p => [p.toNat])]
  · rw [hlen, List.drop_left' (by simp), TypeDesc.record]
    simp [List.map_eq_flatMap]
  · intro s p
    rfl

/-- Encoding a type of less than 65536 entries appends its record. -/
theorem tagEncodeCtf_eq {ctf : Ctf} {d : TypeDesc} (h : d.vlen < 65536) :
    tagEncodeCtf junk ctf d = ⟨ctf.types ++ d.record junk, ctf.typeIndex + 1⟩ := by
  cases d with
  | struct name size members => exact structureTypeEncode_eq h
  | union name size members => exact structureTypeEncode_eq h
  | enumeration name size entries => exact enumerationTypeEncode_eq h
  | functionType type parms varargs =>
      exact subroutineTypeEncode_eq (Nat.lt_of_le_of_lt (Nat.le_add_right _ _) h)
  | array type indexType nelems => rfl
  | baseType name size => rfl
  | pointer type => rfl
  | typedef name type => rfl
  | volatile type => rfl
  | const type => rfl
  | restrict type => rfl
  | fwdDecl name => rfl

theorem foldl_tagEncodeCtf {ds : List TypeDesc} {ctf : Ctf} (h : ∀ d ∈ ds, d.vlen < 65536) :
    ds.foldl (tagEncodeCtf junk) ctf =
      ⟨ctf.types ++ ds.flatMap (TypeDesc.record junk), ctf.typeIndex + ds.length⟩ := by
  induction ds generalizing ctf with
  | nil => simp
  | cons d ds ih =>
      rw [List.foldl_cons, tagEncodeCtf_eq (h d List.mem_cons_self),
        ih fun d hd => h d (List.mem_cons_of_mem _ hd)]
      simp [Nat.add_assoc, Nat.add_comm 1]

/-- The type section is one record after the other. -/
theorem encodeTypes_eq {ds : List TypeDesc} (h : ∀ d ∈ ds, d.vlen < 65536) :
    encodeTypes junk ds = ⟨ds.flatMap (TypeDesc.record junk), ds.length⟩ := by
  rw [encodeTypes, foldl_tagEncodeCtf h]
  simp

end Records

end Pahole.Libctf

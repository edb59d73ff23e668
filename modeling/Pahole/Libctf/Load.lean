import Pahole.Libctf.Encode

/-!
# Loading CTF

`ctf__load_types` goes from one record of the type section to the next.  A record of which
the size field has `0xffff` is taken for one that has the size in two more words, also
where the field is the type that a pointer points to.
-/

namespace Pahole.Libctf

/-! ## The loader -/

/-- `struct class_member`, as it is loaded. -/
structure CtfMember where
  name : ℕ
  type : ℕ
  bitOffset : ℕ
  deriving DecidableEq

/-- The tag that is added to the CU for a record: names are references to the string table. -/
inductive CtfTag where
  | baseType (name bitSize : ℕ) (isSigned isBool isVarargs : Bool) (floatType : ℕ)
  | arrayType (type nrEntries : ℕ)
  | subroutineType (type : ℕ) (parms : List ℕ) (unspecParms : Bool)
  | structureType (name size : ℕ) (members : List CtfMember)
  | unionType (name size : ℕ) (members : List CtfMember)
  | enumerationType (name size : ℕ) (entries : List (ℕ × ℕ))
  | declaration (name size : ℕ)
  | typedef (name size type : ℕ)
  | pointerType (type : ℕ)
  | volatileType (type : ℕ)
  | constType (type : ℕ)
  | restrictType (type : ℕ)
  | unknown
  deriving DecidableEq

/-- The kind with a code, none for what is refused with `-EINVAL`. -/
def CtfKind.ofCode : ℕ → Option CtfKind
  | 0 => some .unkn
  | 1 => some .int
  | 2 => some .flt
  | 3 => some .ptr
  | 4 => some .arr
  | 5 => some .func
  | 6 => some .str
  | 7 => some .union
  | 8 => some .enum
  | 9 => some .fwd
  | 10 => some .typedef
  | 11 => some .volatile
  | 12 => some .const
  | 13 => some .restrict
  | _ => none

/-- `CTF_GET_KIND` -/
def ctfGetKind (val : ℕ) : ℕ := (val >>> 11) &&& 0x1f

/-- `CTF_GET_VLEN` -/
def ctfGetVlen (val : ℕ) : ℕ := val &&& 0x3ff

/-- `ctf__get16` -/
def get16 (halfword : ℕ) : ℕ := halfword % 65536

/-- `ctf__get32` -/
def get32 (low high : ℕ) : ℕ := high * 65536 + low

/-- The fields that all records have, and the length of them. -/
structure CtfHeader where
  name : ℕ
  info : ℕ
  ctfSize : ℕ
  size : ℕ
  len : ℕ

/-- The start of a record, none when the buffer ends within it. -/
def ctfHeader : List ℕ → Option CtfHeader
  | n0 :: n1 :: info :: baseSize :: rest =>
      if get16 baseSize = 0xffff then
        match rest with
        | h0 :: h1 :: l0 :: l1 :: _ =>
            some ⟨get32 n0 n1, get16 info, get16 baseSize,
              (get32 h0 h1 <<< 32) ||| get32 l0 l1, 8⟩
        | _ => none
      else some ⟨get32 n0 n1, get16 info, get16 baseSize, get16 baseSize, 4⟩
  | _ => none

/-- The members of `create_short_members`. -/
def createShortMembers : ℕ → List ℕ → Option (List CtfMember)
  | 0, _ => some []
  | vlen + 1, n0 :: n1 :: type :: offset :: rest =>
      (createShortMembers vlen rest).map fun ms =>
        ⟨get32 n0 n1, get16 type, get16 offset⟩ :: ms
  | _ + 1, _ => none

/-- The members of `create_full_members`, with the offset in 32 bits. -/
def createFullMembers : ℕ → List ℕ → Option (List CtfMember)
  | 0, _ => some []
  | vlen + 1, n0 :: n1 :: type :: _ :: h0 :: h1 :: l0 :: l1 :: rest =>
      (createFullMembers vlen rest).map fun ms =>
        ⟨get32 n0 n1, get16 type, ((get32 h0 h1 <<< 16) % 4294967296) ||| get32 l0 l1⟩ :: ms
  | _ + 1, _ => none

/-- The enumerators of `create_new_enumeration`. -/
def createEnumerators : ℕ → List ℕ → Option (List (ℕ × ℕ))
  | 0, _ => some []
  | vlen + 1, n0 :: n1 :: v0 :: v1 :: rest =>
      (createEnumerators vlen rest).map fun es => (get32 n0 n1, get32 v0 v1) :: es
  | _ + 1, _ => none

/-- `create_new_base_type`, with one-bit fields for the attributes. -/
def createNewBaseType (name : ℕ) : List ℕ → Option (CtfTag × ℕ)
  | e0 :: e1 :: _ =>
      let eval := get32 e0 e1
      let attrs := eval >>> 24
      some (.baseType name (eval &&& 0xffff) ((attrs &&& 0x1) % 2 = 1) ((attrs &&& 0x4) % 2 = 1)
        ((attrs &&& 0x8) % 2 = 1) 0, 2)
  | _ => none

/-- `create_new_base_type_float` -/
def createNewBaseTypeFloat (name : ℕ) : List ℕ → Option (CtfTag × ℕ)
  | e0 :: e1 :: _ =>
      let eval := get32 e0 e1
      some (.baseType name (eval &&& 0xffff) false false false (eval % 16), 2)
  | _ => none

/-- `create_new_array` -/
def createNewArray : List ℕ → Option (CtfTag × ℕ)
  | type :: _ :: n0 :: n1 :: _ => some (.arrayType (get16 type) (get32 n0 n1), 4)
  | _ => none

/-- `create_new_subroutine_type`, with `ctf__load_ftype`. -/
def createNewSubroutineType (type vlen : ℕ) (args : List ℕ) : Option (CtfTag × ℕ) :=
  if vlen ≤ args.length then
    let types := (args.take vlen).map get16
    some (.subroutineType type (types.filter (· ≠ 0)) (types.contains 0), vlen + vlen % 2)
  else none

/-- The members of a struct or union, in the form that its size calls for, and the length
of what they are read from. -/
def createMembers (size vlen : ℕ) (ptr : List ℕ) : Option (List CtfMember × ℕ) :=
  if size ≥ ctfShortMemberLimit then
    (createFullMembers vlen ptr).map fun members => (members, vlen * 8)
  else (createShortMembers vlen ptr).map fun members => (members, vlen * 4)

/-- `create_new_class` and `create_new_union`, where `type__init` stores the size in 32
bits. -/
def createNewClass (tag : ℕ → ℕ → List CtfMember → CtfTag) (name size vlen : ℕ)
    (ptr : List ℕ) : Option (CtfTag × ℕ) :=
  (createMembers size vlen ptr).map fun r => (tag name (size % 4294967296) r.1, r.2)

/-- `create_new_enumeration` -/
def createNewEnumeration (name size vlen : ℕ) (ptr : List ℕ) : Option (CtfTag × ℕ) :=
  (createEnumerators vlen ptr).map fun entries =>
    (.enumerationType name (if size % 65536 ≠ 0 then size % 65536 else 32) entries, vlen * 4)

/-- The call of `ctf__load_types` for a kind, and the length of the data after the header. -/
def createNew (kind : CtfKind) (h : CtfHeader) (vlen : ℕ) (ptr : List ℕ) :
    Option (CtfTag × ℕ) :=
  match kind with
  | .int => createNewBaseType h.name ptr
  | .flt => createNewBaseTypeFloat h.name ptr
  | .arr => createNewArray ptr
  | .func => createNewSubroutineType h.ctfSize vlen ptr
  | .str => createNewClass .structureType h.name h.size vlen ptr
  | .union => createNewClass .unionType h.name h.size vlen ptr
  | .enum => createNewEnumeration h.name h.size vlen ptr
  | .fwd => some (.declaration h.name (h.size % 4294967296), 0)
  | .typedef => some (.typedef h.name (h.size % 4294967296) h.ctfSize, 0)
  | .volatile => some (.volatileType h.ctfSize, 0)
  | .ptr => some (.pointerType h.ctfSize, 0)
  | .const => some (.constType h.ctfSize, 0)
  | .restrict => some (.restrictType h.ctfSize, 0)
  | .unkn => some (.unknown, 0)

/-- One iteration of `ctf__load_types`: the type, and how far it is to the next. -/
def ctfLoadType (buf : List ℕ) : Option (CtfTag × ℕ) :=
  match ctfHeader buf with
  | none => none
  | some h =>
      match CtfKind.ofCode (ctfGetKind h.info) with
      | none => none
      | some kind =>
          (createNew kind h (ctfGetVlen h.info) (buf.drop h.len)).map fun r => (r.1, h.len + r.2)

/-- The loop of `ctf__load_types`, up to where the strings start.  Each iteration goes on,
so that the length of the section bounds them. -/
def ctfLoadTypesLoop (strings : ℕ) : ℕ → ℕ → List ℕ → Option (List (ℕ × CtfTag))
  | 0, _, _ => some []
  | fuel + 1, typeIndex, buf =>
      if buf.length ≤ strings then some []
      else
        match ctfLoadType buf with
        | none => none
        | some (tag, len) =>
            (ctfLoadTypesLoop strings fuel (typeIndex + 1) (buf.drop len)).map fun tags =>
              (typeIndex, tag) :: tags

/-- `ctf__load_types` -/
def ctfLoadTypes (types strings : List ℕ) : Option (List (ℕ × CtfTag)) :=
  ctfLoadTypesLoop strings.length types.length 1 (types ++ strings)

end Pahole.Libctf

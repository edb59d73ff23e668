import Pahole.Libctf.Load

/-!
# Types that are encoded and loaded

What has been encoded is loaded as it was if it fits the record: fewer than 1024 entries,
offsets and sizes in the bits that they are loaded to, and nothing in the size field that
is taken for the mark of a long record.
-/

namespace Pahole.Libctf

/-! ## Loaded types -/

/-- The member that is described. -/
def MemberDesc.tag (m : MemberDesc) : CtfMember :=
  ⟨m.name.toNat, m.type.toNat, m.bitOffset.toNat⟩

/-- The type that is described.  A `typedef` has its type in the place of a size. -/
def TypeDesc.tag : TypeDesc → CtfTag
  | .baseType name size => .baseType name.toNat size.toNat false false false 0
  | .pointer type => .pointerType type.toNat
  | .typedef name type => .typedef name.toNat type.toNat type.toNat
  | .volatile type => .volatileType type.toNat
  | .const type => .constType type.toNat
  | .restrict type => .restrictType type.toNat
  | .fwdDecl name => .declaration name.toNat 0
  | .array type _ nelems => .arrayType type.toNat nelems.toNat
  | .functionType type parms varargs =>
      .subroutineType type.toNat (parms.map UInt16.toNat) varargs
  | .struct name size members =>
      .structureType name.toNat size.toNat (members.map MemberDesc.tag)
  | .union name size members => .unionType name.toNat size.toNat (members.map MemberDesc.tag)
  | .enumeration name size entries =>
      .enumerationType name.toNat size.toNat (entries.map fun e => (e.1.toNat, e.2.toNat))

/-- The types in their order, with the indices from `typeIndex` on. -/
def typesInOrder : ℕ → List TypeDesc → List (ℕ × CtfTag)
  | _, [] => []
  | typeIndex, d :: ds => (typeIndex, d.tag) :: typesInOrder (typeIndex + 1) ds

/-- There are fewer than 1024 entries and no parameter of type 0, and the size of a struct or
union is below 2^32, that of an enumeration not 0. -/
def TypeDesc.Fits : TypeDesc → Prop
  | .functionType _ parms varargs => parms.length + varargs.toNat < 1024 ∧ 0 ∉ parms
  | .struct _ size members => members.length < 1024 ∧ size.toNat < 4294967296
  | .union _ size members => members.length < 1024 ∧ size.toNat < 4294967296
  | .enumeration _ size entries => entries.length < 1024 ∧ size ≠ 0
  | _ => True

/-- The value of the field that holds a size or the type of another type. -/
def TypeDesc.sizeOrType : TypeDesc → ℕ
  | .baseType _ size => size.toNat
  | .pointer type => type.toNat
  | .typedef _ type => type.toNat
  | .volatile type => type.toNat
  | .const type => type.toNat
  | .restrict type => type.toNat
  | .functionType type _ _ => type.toNat
  | .enumeration _ size _ => size.toNat
  | _ => 0

/-- The offsets fit 16 bits, or 32 where the size of the struct calls for long members. -/
def OffsetsFit (size : UInt64) (members : List MemberDesc) : Prop :=
  ∀ m ∈ members, m.bitOffset.toNat <
    if size.toNat < ctfShortMemberLimit then 65536 else 4294967296

def TypeDesc.OffsetsFit : TypeDesc → Prop
  | .struct _ size members => Libctf.OffsetsFit size members
  | .union _ size members => Libctf.OffsetsFit size members
  | _ => True

/-- The counts and offsets fit, and the size field is not 0xffff, the mark of a long record. -/
structure TypeDesc.RoundTrips (d : TypeDesc) : Prop where
  fits : d.Fits
  unmarked : d.sizeOrType ≠ 0xffff
  offsets : d.OffsetsFit

/-! ## Fields -/

theorem get16_toNat (x : UInt16) : get16 x.toNat = x.toNat :=
  Nat.mod_eq_of_lt x.toNat_lt

theorem get32_word {n : ℕ} (h : n < 4294967296) :
    get32 (n % 65536) (n / 65536 % 65536) = n := by
  unfold get32
  omega

theorem CtfKind.ofCode_code (kind : CtfKind) : CtfKind.ofCode kind.code = some kind := by
  cases kind <;> rfl

theorem CtfKind.code_lt (kind : CtfKind) : kind.code < 14 := by
  cases kind <;> decide

/-- With fewer than 1024 entries the fields of the info do not overlap. -/
theorem ctfInfoEncode_eq {kind : CtfKind} {vlen : ℕ} (h : vlen < 1024) :
    ctfInfoEncode kind.code vlen false = kind.code * 2048 + vlen := by
  have hkind := kind.code_lt
  have hor : kind.code <<< 11 ||| vlen = kind.code <<< 11 + vlen :=
    (Nat.shiftLeft_add_eq_or_of_lt (by omega) _).symm
  unfold ctfInfoEncode
  rw [if_neg (by simp), Nat.zero_or, hor, Nat.shiftLeft_eq]
  omega

theorem ctfGetKind_info {kind : CtfKind} {vlen : ℕ} (h : vlen < 1024) :
    ctfGetKind (get16 (ctfInfoEncode kind.code vlen false)) = kind.code := by
  have hkind := kind.code_lt
  have hand := Nat.and_two_pow_sub_one_eq_mod ((kind.code * 2048 + vlen) >>> 11) 5
  rw [ctfInfoEncode_eq h, get16, Nat.mod_eq_of_lt (by omega), ctfGetKind]
  rw [show (0x1f : ℕ) = 2 ^ 5 - 1 by rfl, hand, Nat.shiftRight_eq_div_pow]
  omega

theorem ctfGetVlen_info {kind : CtfKind} {vlen : ℕ} (h : vlen < 1024) :
    ctfGetVlen (get16 (ctfInfoEncode kind.code vlen false)) = vlen := by
  have hkind := kind.code_lt
  have hand := Nat.and_two_pow_sub_one_eq_mod (kind.code * 2048 + vlen) 10
  rw [ctfInfoEncode_eq h, get16, Nat.mod_eq_of_lt (by omega), ctfGetVlen]
  rw [show (0x3ff : ℕ) = 2 ^ 10 - 1 by rfl, hand]
  omega

theorem ctfGetVlen_lt (val : ℕ) : ctfGetVlen val < 1024 := by
  have hand := Nat.and_two_pow_sub_one_eq_mod val 10
  rw [ctfGetVlen, show (0x3ff : ℕ) = 2 ^ 10 - 1 by rfl, hand]
  omega

/-! ## One record -/

section Record

variable {rest : List ℕ}

theorem ctfHeader_shortType {name : UInt32} {info x : ℕ} (hx : get16 x ≠ 0xffff) :
    ctfHeader (ctfShortType name.toNat info x ++ rest) =
      some ⟨name.toNat, get16 info, get16 x, get16 x, 4⟩ := by
  simp [ctfShortType, word, ctfHeader, hx, get32_word name.toNat_lt]

theorem high_or_low (size : ℕ) : (size >>> 32) <<< 32 ||| (size &&& 0xffffffff) = size := by
  have hand := Nat.and_two_pow_sub_one_eq_mod size 32
  have hlow : size &&& 0xffffffff < 2 ^ 32 := by
    rw [show (0xffffffff : ℕ) = 2 ^ 32 - 1 by rfl, hand]
    exact Nat.mod_lt _ (by decide)
  rw [← Nat.shiftLeft_add_eq_or_of_lt hlow, Nat.shiftLeft_eq, Nat.shiftRight_eq_div_pow]
  rw [show (0xffffffff : ℕ) = 2 ^ 32 - 1 by rfl, hand]
  omega

theorem high_lt (x : UInt64) : x.toNat >>> 32 < 4294967296 := by
  have hx := x.toNat_lt
  rw [Nat.shiftRight_eq_div_pow]
  omega

theorem low_lt (x : ℕ) : x &&& 0xffffffff < 4294967296 := by
  have hand := Nat.and_two_pow_sub_one_eq_mod x 32
  rw [show (0xffffffff : ℕ) = 2 ^ 32 - 1 by rfl, hand]
  omega

theorem length_structHeader {kind : CtfKind} {name : UInt32} {size : UInt64} {vlen : ℕ} :
    (structHeader kind name size vlen).length = if size.toNat < 0xffff then 4 else 8 := by
  unfold structHeader
  split <;> simp [ctfShortType, word]

/-- The header of a struct or union is read as it was written. -/
theorem ctfHeader_struct (kind : CtfKind) (name : UInt32) (size : UInt64) (vlen : ℕ)
    (rest : List ℕ) :
    ∃ ctfSize, ctfHeader (structHeader kind name size vlen ++ rest) =
      some ⟨name.toNat, get16 (ctfInfoEncode kind.code vlen false), ctfSize, size.toNat,
        (structHeader kind name size vlen).length⟩ := by
  rw [length_structHeader]
  unfold structHeader
  by_cases hsize : size.toNat < 0xffff
  · have hsame : get16 size.toNat = size.toNat := Nat.mod_eq_of_lt (by omega)
    refine ⟨size.toNat, ?_⟩
    rw [if_pos hsize, if_pos hsize, ctfHeader_shortType (by omega), hsame]
  · refine ⟨0xffff, ?_⟩
    rw [if_neg hsize, if_neg hsize]
    have hwords := get32_word (high_lt size)
    have hwords' := get32_word (low_lt size.toNat)
    simp only [ctfShortType, word, List.cons_append, List.nil_append, ctfHeader]
    rw [if_pos (by rfl), get32_word name.toNat_lt, hwords, hwords', high_or_low]
    rfl

/-- A member as it is loaded. -/
def MemberDesc.loaded (isShort : Bool) (m : MemberDesc) : CtfMember where
  name := m.name.toNat
  type := m.type.toNat
  bitOffset :=
    if isShort then m.bitOffset.toNat % 65536
    else (((m.bitOffset.toNat >>> 32) <<< 16) % 4294967296) ||| (m.bitOffset.toNat &&& 0xffffffff)

theorem createShortMembers_eq {members : List MemberDesc} :
    createShortMembers members.length (members.flatMap (MemberDesc.record true) ++ rest) =
      some (members.map (MemberDesc.loaded true)) := by
  induction members with
  | nil => rfl
  | cons m members ih =>
      simp [MemberDesc.record, MemberDesc.loaded, word, createShortMembers, ih,
        get32_word m.name.toNat_lt, get16]

theorem createFullMembers_eq {members : List MemberDesc} :
    createFullMembers members.length (members.flatMap (MemberDesc.record false) ++ rest) =
      some (members.map (MemberDesc.loaded false)) := by
  induction members with
  | nil => rfl
  | cons m members ih =>
      have hhigh := get32_word (high_lt m.bitOffset)
      have hlow := get32_word (low_lt m.bitOffset.toNat)
      simp [MemberDesc.record, MemberDesc.loaded, word, createFullMembers, ih, get16_toNat,
        get32_word m.name.toNat_lt, hhigh, hlow]

/-- A member is loaded unchanged if and only if its offset fits in 16 bits, or in 32 in the long
form. -/
theorem loaded_eq_iff {isShort : Bool} {m : MemberDesc} :
    m.loaded isShort = m.tag ↔ m.bitOffset.toNat < if isShort then 65536 else 4294967296 := by
  have hloaded : m.loaded isShort = m.tag ↔
      (m.loaded isShort).bitOffset = m.bitOffset.toNat := by
    constructor
    · intro h
      rw [h]
      rfl
    · intro h
      rw [MemberDesc.tag, ← h]
      rfl
  rw [hloaded]
  cases isShort with
  | true =>
      simp only [MemberDesc.loaded, if_true]
      omega
  | false =>
      simp only [MemberDesc.loaded, Bool.false_eq_true, if_false]
      have hand := Nat.and_two_pow_sub_one_eq_mod m.bitOffset.toNat 32
      constructor
      · intro h
        rw [← h]
        exact Nat.or_lt_two_pow (n := 32) (Nat.mod_lt _ (by decide)) (low_lt _)
      · intro h
        have hzero : m.bitOffset.toNat >>> 32 = 0 := by
          rw [Nat.shiftRight_eq_div_pow]
          omega
        rw [hzero, show (0xffffffff : ℕ) = 2 ^ 32 - 1 by rfl, hand, Nat.mod_eq_of_lt h]
        simp

/-- A struct or union whose size fits 32 bits is loaded with the members of its record. -/
theorem createNewClass_eq {tag : ℕ → ℕ → List CtfMember → CtfTag} {name : ℕ} {size : UInt64}
    {members : List MemberDesc} (hsize : size.toNat < 4294967296) :
    createNewClass tag name size.toNat members.length
        (members.flatMap (MemberDesc.record (size.toNat < ctfShortMemberLimit)) ++ rest) =
      some (tag name size.toNat
          (members.map (MemberDesc.loaded (size.toNat < ctfShortMemberLimit))),
        (members.flatMap (MemberDesc.record (size.toNat < ctfShortMemberLimit))).length) := by
  have hlen : ∀ isShort, (members.flatMap (MemberDesc.record isShort)).length =
      members.length * if isShort then 4 else 8 := by
    intro isShort
    rw [List.length_flatMap]
    simp [length_memberRecord, List.map_const', List.sum_replicate]
  unfold createNewClass createMembers
  rw [Nat.mod_eq_of_lt hsize, hlen]
  by_cases hshort : size.toNat < ctfShortMemberLimit
  · simp [hshort, Nat.not_le.mpr hshort, createShortMembers_eq]
  · simp [hshort, Nat.not_lt.mp hshort, createFullMembers_eq]

theorem createEnumerators_eq {entries : List (UInt32 × UInt32)} :
    createEnumerators entries.length
        ((entries.flatMap fun e => word e.1.toNat ++ word e.2.toNat) ++ rest) =
      some (entries.map fun e => (e.1.toNat, e.2.toNat)) := by
  induction entries with
  | nil => rfl
  | cons e entries ih =>
      simp only [word, List.cons_append, List.nil_append] at ih
      simp [word, createEnumerators, ih, get32_word e.1.toNat_lt, get32_word e.2.toNat_lt]

theorem toNat_ne_zero {x : UInt16} (h : x ≠ 0) : x.toNat ≠ 0 :=
  fun hzero => h (UInt16.toNat_inj.mp hzero)

theorem createNewSubroutineType_eq (type : ℕ) {parms : List UInt16} (varargs : Bool)
    (rest : List ℕ) (h : 0 ∉ parms) :
    createNewSubroutineType type (parms.length + varargs.toNat)
        (parms.map UInt16.toNat ++ List.replicate varargs.toNat 0 ++ rest) =
      some (.subroutineType type (parms.map UInt16.toNat) varargs,
        parms.length + varargs.toNat + (parms.length + varargs.toNat) % 2) := by
  have hargs : ((parms.map UInt16.toNat ++ List.replicate varargs.toNat 0 ++ rest).take
      (parms.length + varargs.toNat)).map get16 =
        parms.map UInt16.toNat ++ List.replicate varargs.toNat 0 := by
    rw [List.take_left' (by simp), List.map_append, List.map_map, List.map_replicate]
    have hsame : get16 ∘ UInt16.toNat = UInt16.toNat := funext get16_toNat
    rw [hsame]
    rfl
  have hnonzero : ∀ x ∈ parms.map UInt16.toNat, x ≠ 0 := by
    intro x hx
    obtain ⟨p, hp, rfl⟩ := List.mem_map.mp hx
    exact toNat_ne_zero fun hzero => h (hzero ▸ hp)
  have hfilter : (parms.map UInt16.toNat ++ List.replicate varargs.toNat 0).filter (· ≠ 0) =
      parms.map UInt16.toNat := by
    rw [List.filter_append, List.filter_eq_self.mpr fun x hx => by simpa using hnonzero x hx]
    cases varargs <;> simp
  have hcontains : (parms.map UInt16.toNat ++ List.replicate varargs.toNat 0).contains 0 =
      varargs := by
    have hnot : 0 ∉ parms.map UInt16.toNat := fun hmem => hnonzero 0 hmem rfl
    cases varargs with
    | false => simpa using hnot
    | true => simp
  unfold createNewSubroutineType
  rw [if_pos (by simp), hargs]
  simp only [hfilter, hcontains]

/-- The tag that is loaded for a type. -/
def TypeDesc.loaded : TypeDesc → CtfTag
  | .struct name size members => .structureType name.toNat size.toNat
      (members.map (MemberDesc.loaded (size.toNat < ctfShortMemberLimit)))
  | .union name size members => .unionType name.toNat size.toNat
      (members.map (MemberDesc.loaded (size.toNat < ctfShortMemberLimit)))
  | d => d.tag

theorem ctfLoadType_eq {buf : List ℕ} {h : CtfHeader} {kind : CtfKind} {vlen : ℕ}
    (hheader : ctfHeader buf = some h)
    (hinfo : h.info = get16 (ctfInfoEncode kind.code vlen false)) (hvlen : vlen < 1024) :
    ctfLoadType buf =
      (createNew kind h vlen (buf.drop h.len)).map fun r => (r.1, h.len + r.2) := by
  unfold ctfLoadType
  rw [hheader]
  simp only [hinfo, ctfGetKind_info hvlen, CtfKind.ofCode_code, ctfGetVlen_info hvlen]

/-- A short record is loaded as the tag that `createNew` makes of it. -/
theorem ctfLoadType_shortType (name : UInt32) (kind : CtfKind) (vlen : ℕ) (payload : List ℕ)
    {x : ℕ} {r : CtfTag × ℕ} (hvlen : vlen < 1024) (hx : get16 x ≠ 0xffff)
    (hnew : createNew kind ⟨name.toNat, get16 (ctfInfoEncode kind.code vlen false), get16 x,
      get16 x, 4⟩ vlen payload = some r) :
    ctfLoadType (ctfShortType name.toNat (ctfInfoEncode kind.code vlen false) x ++ payload) =
      some (r.1, 4 + r.2) := by
  have hdrop : (ctfShortType name.toNat (ctfInfoEncode kind.code vlen false) x ++
      payload).drop 4 = payload := by
    simp [ctfShortType, word]
  rw [ctfLoadType_eq (ctfHeader_shortType hx) rfl hvlen]
  simp [hdrop, hnew]

theorem ctfLoadType_struct {kind : CtfKind} {tag : ℕ → ℕ → List CtfMember → CtfTag}
    {name : UInt32} {size : UInt64} {members : List MemberDesc}
    (hkind : ∀ h vlen ptr, createNew kind h vlen ptr = createNewClass tag h.name h.size vlen ptr)
    (hvlen : members.length < 1024) (hsize : size.toNat < 4294967296) :
    ctfLoadType (structRecord kind name size members ++ rest) =
      some (tag name.toNat size.toNat
          (members.map (MemberDesc.loaded (size.toNat < ctfShortMemberLimit))),
        (structRecord kind name size members).length) := by
  unfold structRecord
  rw [List.append_assoc]
  obtain ⟨ctfSize, hheader⟩ := ctfHeader_struct kind name size members.length
    (members.flatMap (MemberDesc.record (size.toNat < ctfShortMemberLimit)) ++ rest)
  rw [ctfLoadType_eq hheader rfl hvlen, hkind, List.drop_left, createNewClass_eq hsize]
  simp

/-- A type that fits and has nothing in the size field that is taken for the mark is
loaded, with the offsets that its form has room for. -/
theorem ctfLoadType_record {junk : ℕ} {d : TypeDesc} (hfits : d.Fits)
    (hmark : d.sizeOrType ≠ 0xffff) :
    ctfLoadType (d.record junk ++ rest) = some (d.loaded, (d.record junk).length) := by
  have hfield : ∀ x : UInt16, x.toNat ≠ 0xffff → get16 x.toNat ≠ 0xffff := by
    intro x hx
    rw [get16_toNat]
    exact hx
  cases d with
  | struct name size members => exact ctfLoadType_struct (fun _ _ _ => rfl) hfits.1 hfits.2
  | union name size members => exact ctfLoadType_struct (fun _ _ _ => rfl) hfits.1 hfits.2
  | functionType type parms varargs =>
      have hnew := createNewSubroutineType_eq (get16 type.toNat) varargs
        (List.replicate ((parms.length + varargs.toNat) % 2) junk ++ rest) hfits.2
      have hload := ctfLoadType_shortType 0 .func _ _ hfits.1 (hfield type hmark) hnew
      simp only [TypeDesc.record, List.append_assoc] at hload ⊢
      rw [show (0 : UInt32).toNat = 0 by rfl] at hload
      rw [hload]
      simp [TypeDesc.loaded, TypeDesc.tag, get16_toNat, ctfShortType, word]
      omega
  | enumeration name size entries =>
      have hsize : get16 size.toNat % 65536 = size.toNat := by
        rw [get16_toNat]
        exact Nat.mod_eq_of_lt size.toNat_lt
      have hnew : createNewEnumeration name.toNat (get16 size.toNat) entries.length
          ((entries.flatMap fun e => word e.1.toNat ++ word e.2.toNat) ++ rest) =
            some ((TypeDesc.enumeration name size entries).tag, entries.length * 4) := by
        unfold createNewEnumeration
        rw [createEnumerators_eq, hsize, if_pos (toNat_ne_zero hfits.2)]
        rfl
      have hload := ctfLoadType_shortType name .enum _ _ hfits.1 (hfield size hmark) hnew
      simp only [TypeDesc.record, List.append_assoc]
      rw [hload]
      simp [TypeDesc.loaded, ctfShortType, word, List.length_flatMap, List.map_const',
        List.sum_replicate]
      omega
  | array type indexType nelems =>
      have hnew : createNewArray ([type.toNat, indexType.toNat] ++ word nelems.toNat ++ rest) =
          some (.arrayType type.toNat nelems.toNat, 4) := by
        simp [word, createNewArray, get16_toNat, get32_word nelems.toNat_lt]
      have hload := ctfLoadType_shortType 0 .arr 0
        ([type.toNat, indexType.toNat] ++ word nelems.toNat ++ rest) (by decide)
        (by decide : get16 0 ≠ 0xffff) hnew
      simpa [TypeDesc.record, TypeDesc.loaded, TypeDesc.tag, ctfShortType, word] using hload
  | baseType name size =>
      have hencode : ctfTypeIntEncode 0 0 size.toNat = size.toNat := by
        simp [ctfTypeIntEncode]
      have hsize := size.toNat_lt
      have hnew : createNewBaseType name.toNat (word (ctfTypeIntEncode 0 0 size.toNat) ++ rest) =
          some (.baseType name.toNat size.toNat false false false 0, 2) := by
        have hand := Nat.and_two_pow_sub_one_eq_mod size.toNat 16
        have hattrs : size.toNat >>> 24 = 0 := by
          rw [Nat.shiftRight_eq_div_pow]
          omega
        have hbits : size.toNat &&& 0xffff = size.toNat := by
          rw [show (0xffff : ℕ) = 2 ^ 16 - 1 by rfl, hand]
          exact Nat.mod_eq_of_lt hsize
        have hword : get32 (size.toNat % 65536) (size.toNat / 65536 % 65536) = size.toNat :=
          get32_word (by omega)
        rw [hencode]
        simp only [word, List.cons_append, createNewBaseType, hword, hattrs, hbits]
        rfl
      have hload := ctfLoadType_shortType name .int 0
        (word (ctfTypeIntEncode 0 0 size.toNat) ++ rest) (by decide) (hfield size hmark) hnew
      simp only [TypeDesc.record, List.append_assoc]
      rw [hload]
      simp [TypeDesc.loaded, TypeDesc.tag, ctfShortType, word]
  | pointer type =>
      have hload := ctfLoadType_shortType 0 .ptr 0 rest (by decide) (hfield type hmark) rfl
      simpa [TypeDesc.record, TypeDesc.loaded, TypeDesc.tag, ctfShortType, word, get16_toNat]
        using hload
  | volatile type =>
      have hload := ctfLoadType_shortType 0 .volatile 0 rest (by decide) (hfield type hmark) rfl
      simpa [TypeDesc.record, TypeDesc.loaded, TypeDesc.tag, ctfShortType, word, get16_toNat]
        using hload
  | const type =>
      have hload := ctfLoadType_shortType 0 .const 0 rest (by decide) (hfield type hmark) rfl
      simpa [TypeDesc.record, TypeDesc.loaded, TypeDesc.tag, ctfShortType, word, get16_toNat]
        using hload
  | restrict type =>
      have hload := ctfLoadType_shortType 0 .restrict 0 rest (by decide) (hfield type hmark) rfl
      simpa [TypeDesc.record, TypeDesc.loaded, TypeDesc.tag, ctfShortType, word, get16_toNat]
        using hload
  | typedef name type =>
      have hload := ctfLoadType_shortType name .typedef 0 rest (by decide) (hfield type hmark) rfl
      have hsize : type.toNat % 4294967296 = type.toNat :=
        Nat.mod_eq_of_lt (type.toNat_lt.trans (by decide))
      simpa [TypeDesc.record, TypeDesc.loaded, TypeDesc.tag, ctfShortType, word, get16_toNat,
        hsize] using hload
  | fwdDecl name =>
      have hload := ctfLoadType_shortType name .fwd 0 rest (by decide)
        (by decide : get16 0 ≠ 0xffff) rfl
      simpa [TypeDesc.record, TypeDesc.loaded, TypeDesc.tag, ctfShortType, word, get16]
        using hload

end Record

/-! ## Loading any record -/

/-- Whether the type has a size of its own. -/
def CtfTag.isClass : CtfTag → Bool
  | .structureType _ _ _ => true
  | .unionType _ _ _ => true
  | _ => false

/-- The halfwords that a struct or union with this size takes at least. -/
def classLen (size vlen : ℕ) : ℕ :=
  (if size < 0xffff then 4 else 8) + vlen * if size < ctfShortMemberLimit then 4 else 8

/-- The halfwords that a type takes at least. -/
def CtfTag.len : CtfTag → ℕ
  | .baseType _ _ _ _ _ _ => 6
  | .arrayType _ _ => 8
  | .subroutineType _ parms unspecParms =>
      4 + (parms.length + unspecParms.toNat + (parms.length + unspecParms.toNat) % 2)
  | .structureType _ size members => classLen size members.length
  | .unionType _ size members => classLen size members.length
  | .enumerationType _ _ entries => 4 + entries.length * 4
  | _ => 4

/-- The counts and sizes of a loaded type fit the bits that a record has for them. -/
def CtfTag.Bounded : CtfTag → Prop
  | .subroutineType _ parms unspecParms => parms.length + unspecParms.toNat < 1024 ∧ 0 ∉ parms
  | .structureType _ size members => members.length < 1024 ∧ size < 4294967296
  | .unionType _ size members => members.length < 1024 ∧ size < 4294967296
  | .enumerationType _ size entries => entries.length < 1024 ∧ size ≠ 0
  | _ => True

section Loaded

theorem createShortMembers_length {vlen : ℕ} {ptr : List ℕ} {members : List CtfMember}
    (h : createShortMembers vlen ptr = some members) :
    members.length = vlen ∧ vlen * 4 ≤ ptr.length := by
  fun_induction createShortMembers vlen ptr generalizing members with
  | case1 ptr =>
      obtain rfl := Option.some.inj h
      simp
  | case2 vlen n0 n1 type offset rest ih =>
      obtain ⟨ms, hms, rfl⟩ := Option.map_eq_some_iff.mp h
      obtain ⟨hlength, hle⟩ := ih hms
      simp only [List.length_cons]
      omega
  | case3 vlen ptr hshort => exact absurd h (by simp)

theorem createFullMembers_length {vlen : ℕ} {ptr : List ℕ} {members : List CtfMember}
    (h : createFullMembers vlen ptr = some members) :
    members.length = vlen ∧ vlen * 8 ≤ ptr.length := by
  fun_induction createFullMembers vlen ptr generalizing members with
  | case1 ptr =>
      obtain rfl := Option.some.inj h
      simp
  | case2 vlen n0 n1 type unused h0 h1 l0 l1 rest ih =>
      obtain ⟨ms, hms, rfl⟩ := Option.map_eq_some_iff.mp h
      obtain ⟨hlength, hle⟩ := ih hms
      simp only [List.length_cons]
      omega
  | case3 vlen ptr hshort => exact absurd h (by simp)

theorem createEnumerators_length {vlen : ℕ} {ptr : List ℕ} {entries : List (ℕ × ℕ)}
    (h : createEnumerators vlen ptr = some entries) :
    entries.length = vlen ∧ vlen * 4 ≤ ptr.length := by
  fun_induction createEnumerators vlen ptr generalizing entries with
  | case1 ptr =>
      obtain rfl := Option.some.inj h
      simp
  | case2 vlen n0 n1 v0 v1 rest ih =>
      obtain ⟨es, hes, rfl⟩ := Option.map_eq_some_iff.mp h
      obtain ⟨hlength, hle⟩ := ih hes
      simp only [List.length_cons]
      omega
  | case3 vlen ptr hshort => exact absurd h (by simp)

/-- The parameters and the mark of more take no more than the arguments that are read. -/
theorem length_parms_le (args : List ℕ) :
    (args.filter (· ≠ 0)).length + (args.contains 0).toNat ≤ args.length := by
  induction args with
  | nil => simp
  | cons a args ih =>
      by_cases ha : a = 0
      · subst ha
        have hle := List.length_filter_le (· ≠ 0) args
        simp only [List.contains_cons, List.length_cons]
        simpa using hle
      · have hne : (0 == a) = false := by simpa using Ne.symm ha
        rw [List.filter_cons_of_pos (by simpa using ha), List.contains_cons, hne, Bool.false_or,
          List.length_cons, List.length_cons]
        omega

variable {tag : CtfTag} {n vlen : ℕ} {ptr : List ℕ}

/-- The postcondition of `create_new_*`: the tag is bounded, and the bytes read are inside the
section and not fewer than the tag needs. -/
structure NewTag (tag : CtfTag) (n size : ℕ) (ptr : List ℕ) : Prop where
  bounded : tag.Bounded
  read : n ≤ ptr.length + 1
  other : tag.isClass = false → tag.len ≤ 4 + n
  class_len : tag.isClass = true → tag.len ≤ (if size < 0xffff then 4 else 8) + n

theorem createNewClass_spec {f : ℕ → ℕ → List CtfMember → CtfTag} {name size : ℕ}
    (hvlen : vlen < 1024) (hclass : ∀ size ms, (f name size ms).isClass = true)
    (hlen : ∀ size ms, (f name size ms).len = classLen size ms.length)
    (hbounded : ∀ size ms, (f name size ms).Bounded ↔ ms.length < 1024 ∧ size < 4294967296)
    (h : createNewClass f name size vlen ptr = some (tag, n)) : NewTag tag n size ptr := by
  obtain ⟨⟨ms, len⟩, hms, heq⟩ := Option.map_eq_some_iff.mp h
  obtain ⟨rfl, rfl⟩ := Prod.mk.inj heq
  have hmembers : ms.length = vlen ∧ len ≤ ptr.length ∧
      vlen * (if size < ctfShortMemberLimit then 4 else 8) = len := by
    unfold createMembers at hms
    split at hms
    · rename_i hfull
      obtain ⟨ms', hms', heq'⟩ := Option.map_eq_some_iff.mp hms
      obtain ⟨rfl, rfl⟩ := Prod.mk.inj heq'
      have hlength := createFullMembers_length hms'
      rw [if_neg (Nat.not_lt.mpr hfull)]
      exact ⟨hlength.1, hlength.2, rfl⟩
    · rename_i hfull
      obtain ⟨ms', hms', heq'⟩ := Option.map_eq_some_iff.mp hms
      obtain ⟨rfl, rfl⟩ := Prod.mk.inj heq'
      have hlength := createShortMembers_length hms'
      rw [if_pos (Nat.not_le.mp hfull)]
      exact ⟨hlength.1, hlength.2, rfl⟩
  obtain ⟨hcount, hread, hsize⟩ := hmembers
  have hmod : size % 4294967296 ≤ size := Nat.mod_le _ _
  exact
    { bounded := (hbounded _ _).mpr ⟨by simpa [hcount] using hvlen, Nat.mod_lt _ (by decide)⟩
      read := Nat.le_succ_of_le hread
      other := by simp [hclass]
      class_len := by
        intro _
        rw [hlen, classLen, hcount, ← hsize]
        refine Nat.add_le_add ?_ (Nat.mul_le_mul_left _ ?_)
        · split_ifs <;> omega
        · split_ifs <;> omega }

theorem createNew_spec {kind : CtfKind} {h : CtfHeader} (hvlen : vlen < 1024)
    (hnew : createNew kind h vlen ptr = some (tag, n)) : NewTag tag n h.size ptr := by
  have hplain : ∀ t : CtfTag, t.Bounded → t.isClass = false → t.len = 4 →
      some (t, 0) = some (tag, n) → NewTag tag n h.size ptr := by
    intro t hbounded hclass hlen heq
    obtain ⟨rfl, rfl⟩ := Prod.mk.inj (Option.some.inj heq)
    exact ⟨hbounded, Nat.zero_le _, fun _ => hlen.le, by simp [hclass]⟩
  cases kind with
  | str =>
      exact createNewClass_spec hvlen (fun _ _ => rfl) (fun _ _ => rfl) (fun _ _ => Iff.rfl) hnew
  | union =>
      exact createNewClass_spec hvlen (fun _ _ => rfl) (fun _ _ => rfl) (fun _ _ => Iff.rfl) hnew
  | unkn => exact hplain .unknown trivial rfl rfl hnew
  | fwd => exact hplain (.declaration h.name (h.size % 4294967296)) trivial rfl rfl hnew
  | typedef =>
      exact hplain (.typedef h.name (h.size % 4294967296) h.ctfSize) trivial rfl rfl hnew
  | volatile => exact hplain (.volatileType h.ctfSize) trivial rfl rfl hnew
  | ptr => exact hplain (.pointerType h.ctfSize) trivial rfl rfl hnew
  | const => exact hplain (.constType h.ctfSize) trivial rfl rfl hnew
  | restrict => exact hplain (.restrictType h.ctfSize) trivial rfl rfl hnew
  | int =>
      simp only [createNew] at hnew
      unfold createNewBaseType at hnew
      split at hnew
      · obtain ⟨rfl, rfl⟩ := Prod.mk.inj (Option.some.inj hnew)
        exact ⟨trivial, by simp, fun _ => by simp [CtfTag.len], by simp [CtfTag.isClass]⟩
      · exact absurd hnew (by simp)
  | flt =>
      simp only [createNew] at hnew
      unfold createNewBaseTypeFloat at hnew
      split at hnew
      · obtain ⟨rfl, rfl⟩ := Prod.mk.inj (Option.some.inj hnew)
        exact ⟨trivial, by simp, fun _ => by simp [CtfTag.len], by simp [CtfTag.isClass]⟩
      · exact absurd hnew (by simp)
  | arr =>
      simp only [createNew] at hnew
      unfold createNewArray at hnew
      split at hnew
      · obtain ⟨rfl, rfl⟩ := Prod.mk.inj (Option.some.inj hnew)
        exact ⟨trivial, by simp, fun _ => by simp [CtfTag.len], by simp [CtfTag.isClass]⟩
      · exact absurd hnew (by simp)
  | func =>
      simp only [createNew, createNewSubroutineType] at hnew
      split at hnew
      · rename_i hread
        obtain ⟨rfl, rfl⟩ := Prod.mk.inj (Option.some.inj hnew)
        have hparms := length_parms_le ((ptr.take vlen).map get16)
        rw [List.length_map, List.length_take, Nat.min_eq_left hread] at hparms
        exact
          { bounded := ⟨by omega, by simp⟩
            read := by omega
            other := fun _ => by
              simp only [CtfTag.len]
              omega
            class_len := by simp [CtfTag.isClass] }
      · exact absurd hnew (by simp)
  | enum =>
      obtain ⟨entries, hentries, heq⟩ := Option.map_eq_some_iff.mp hnew
      obtain ⟨rfl, rfl⟩ := Prod.mk.inj heq
      obtain ⟨hlength, hread⟩ := createEnumerators_length hentries
      exact
        { bounded := ⟨by omega, by split <;> omega⟩
          read := Nat.le_succ_of_le hread
          other := fun _ => by simp [CtfTag.len, hlength]
          class_len := by simp [CtfTag.isClass] }

/-- A header has 4 halfwords, or 8 if its size field is 0xffff. -/
theorem ctfHeader_spec {buf : List ℕ} {h : CtfHeader} (hheader : ctfHeader buf = some h) :
    h.len ≤ buf.length ∧ buf[3]?.map get16 = some h.ctfSize ∧
      (h.len = 4 ∧ h.size < 0xffff ∧ h.ctfSize ≠ 0xffff ∨ h.len = 8 ∧ h.ctfSize = 0xffff) := by
  unfold ctfHeader at hheader
  split at hheader
  · rename_i n0 n1 info baseSize rest
    split at hheader
    · rename_i hlong
      split at hheader
      · obtain rfl := Option.some.inj hheader
        exact ⟨by simp, rfl, Or.inr ⟨rfl, hlong⟩⟩
      · exact absurd hheader (by simp)
    · rename_i hlong
      obtain rfl := Option.some.inj hheader
      have hlt : get16 baseSize < 65536 := Nat.mod_lt _ (by decide)
      exact ⟨by simp, rfl, Or.inl ⟨rfl, by simp only; omega, hlong⟩⟩
  · exact absurd hheader (by simp)

/-- One iteration, for any contents of the buffer: it reads at least as much as the tag needs,
and four halfwords more for the mark of a long record on a type other than a struct or union. -/
theorem ctfLoadType_spec {buf : List ℕ} {len : ℕ} (hload : ctfLoadType buf = some (tag, len)) :
    tag.Bounded ∧ 4 ≤ len ∧ len ≤ buf.length + 1 ∧ tag.len ≤ len ∧
      (buf[3]?.map get16 = some 0xffff → tag.isClass = false → tag.len + 4 ≤ len) := by
  unfold ctfLoadType at hload
  split at hload
  · exact absurd hload (by simp)
  · rename_i h hheader
    split at hload
    · exact absurd hload (by simp)
    · rename_i kind hkind
      obtain ⟨⟨tag', n⟩, hnew, heq⟩ := Option.map_eq_some_iff.mp hload
      obtain ⟨rfl, rfl⟩ := Prod.mk.inj heq
      have hspec := createNew_spec (ctfGetVlen_lt _) hnew
      obtain ⟨hlen, hfield, hform⟩ := ctfHeader_spec hheader
      have hread := hspec.read
      rw [List.length_drop] at hread
      have hother := hspec.other
      have hclass := hspec.class_len
      refine ⟨hspec.bounded, by omega, by simp only; omega, ?_, ?_⟩
      · cases hcase : tag'.isClass with
        | false =>
            have := hother hcase
            simp only
            omega
        | true =>
            have := hclass hcase
            simp only
            rcases hform with ⟨hfour, hsmall, -⟩ | ⟨height, -⟩
            · rw [if_pos hsmall] at this
              omega
            · split at this <;> omega
      · intro hmark hnot
        have := hother hnot
        rw [hfield] at hmark
        have hmarked := Option.some.inj hmark
        simp only
        omega

/-! ## The whole section -/

variable {strings fuel typeIndex : ℕ} {buf : List ℕ} {tags : List (ℕ × CtfTag)}

theorem ctfLoadTypesLoop_step (hmore : strings < buf.length) :
    ctfLoadTypesLoop strings (fuel + 1) typeIndex buf =
      match ctfLoadType buf with
      | none => none
      | some (tag, len) =>
          (ctfLoadTypesLoop strings fuel (typeIndex + 1) (buf.drop len)).map fun tags =>
            (typeIndex, tag) :: tags := by
  simp only [ctfLoadTypesLoop]
  exact if_neg (Nat.not_le.mpr hmore)

/-- A loop that returns has loaded one type and then the others. -/
theorem ctfLoadTypesLoop_cases (hmore : strings < buf.length)
    (h : ctfLoadTypesLoop strings (fuel + 1) typeIndex buf = some tags) :
    ∃ tag len tags', ctfLoadType buf = some (tag, len) ∧ tags = (typeIndex, tag) :: tags' ∧
      ctfLoadTypesLoop strings fuel (typeIndex + 1) (buf.drop len) = some tags' := by
  rw [ctfLoadTypesLoop_step hmore] at h
  cases hload : ctfLoadType buf with
  | none => simp [hload] at h
  | some r =>
      rw [hload] at h
      obtain ⟨tags', htags', rfl⟩ := Option.map_eq_some_iff.mp h
      exact ⟨r.1, r.2, tags', rfl, rfl, htags'⟩

/-- The length of the section is enough: an iteration goes on by four halfwords at
least. -/
theorem ctfLoadTypesLoop_fuel (hfuel : buf.length ≤ strings + fuel) :
    ctfLoadTypesLoop strings (fuel + 1) typeIndex buf =
      ctfLoadTypesLoop strings fuel typeIndex buf := by
  induction fuel generalizing typeIndex buf with
  | zero =>
      simp only [ctfLoadTypesLoop]
      rw [if_pos (by omega)]
  | succ fuel ih =>
      by_cases hmore : strings < buf.length
      · rw [ctfLoadTypesLoop_step hmore, ctfLoadTypesLoop_step hmore]
        cases hload : ctfLoadType buf with
        | none => rfl
        | some r =>
            obtain ⟨-, hlen, -⟩ := ctfLoadType_spec hload
            simp only
            rw [ih (by rw [List.length_drop]; omega)]
      · rw [ctfLoadTypesLoop, if_pos (by omega), ctfLoadTypesLoop, if_pos (by omega)]

/-- Every type that is loaded is `Bounded`. -/
theorem ctfLoadTypesLoop_bounded
    (h : ctfLoadTypesLoop strings fuel typeIndex buf = some tags) :
    ∀ t ∈ tags, t.2.Bounded := by
  induction fuel generalizing typeIndex buf tags with
  | zero =>
      obtain rfl := Option.some.inj h
      simp
  | succ fuel ih =>
      by_cases hmore : strings < buf.length
      · obtain ⟨tag, len, tags', hload, rfl, hrest⟩ := ctfLoadTypesLoop_cases hmore h
        intro t ht
        rcases List.mem_cons.mp ht with rfl | ht
        · exact (ctfLoadType_spec hload).1
        · exact ih hrest t ht
      · rw [ctfLoadTypesLoop, if_pos (by omega)] at h
        obtain rfl := Option.some.inj h
        simp

/-- The types loaded need no more than the buffer, and the padding of a last record. -/
theorem ctfLoadTypesLoop_len (h : ctfLoadTypesLoop 0 fuel typeIndex buf = some tags) :
    (tags.map fun t => t.2.len).sum ≤ buf.length + 1 := by
  induction fuel generalizing typeIndex buf tags with
  | zero =>
      obtain rfl := Option.some.inj h
      simp
  | succ fuel ih =>
      by_cases hmore : 0 < buf.length
      · obtain ⟨tag, len, tags', hload, rfl, hrest⟩ := ctfLoadTypesLoop_cases hmore h
        obtain ⟨-, hfour, hread, hlen, -⟩ := ctfLoadType_spec hload
        have hsum := ih hrest
        rw [List.length_drop] at hsum
        rw [List.map_cons, List.sum_cons]
        by_cases hend : buf.length ≤ len
        · have hnil : tags' = [] := by
            rw [List.drop_of_length_le hend] at hrest
            cases fuel with
            | zero => exact (Option.some.inj hrest).symm
            | succ fuel =>
                rw [ctfLoadTypesLoop, if_pos (by simp)] at hrest
                exact (Option.some.inj hrest).symm
          simp only [hnil, List.map_nil, List.sum_nil]
          omega
        · simp only
          omega
      · rw [ctfLoadTypesLoop, if_pos (by omega)] at h
        obtain rfl := Option.some.inj h
        simp

end Loaded

/-! ## Round trips -/

section RoundTrip

variable {junk : ℕ} {d : TypeDesc}

theorem fits_of_bounded (h : d.tag.Bounded) : d.Fits := by
  cases d with
  | functionType type parms varargs =>
      refine ⟨by simpa using h.1, fun hmem => h.2 ?_⟩
      exact List.mem_map.mpr ⟨0, hmem, rfl⟩
  | struct name size members => exact ⟨by simpa using h.1, h.2⟩
  | union name size members => exact ⟨by simpa using h.1, h.2⟩
  | enumeration name size entries =>
      refine ⟨by simpa using h.1, fun hzero => h.2 ?_⟩
      rw [hzero]
      rfl
  | _ => trivial

theorem vlen_lt_of_fits (h : d.Fits) : d.vlen < 65536 := by
  cases d with
  | functionType type parms varargs => exact h.1.trans (by decide)
  | struct name size members => exact h.1.trans (by decide)
  | union name size members => exact h.1.trans (by decide)
  | enumeration name size entries => exact h.1.trans (by decide)
  | _ => simp [TypeDesc.vlen]

theorem length_structRecord {kind : CtfKind} {name : UInt32} {size : UInt64}
    {members : List MemberDesc} :
    (structRecord kind name size members).length = classLen size.toNat members.length := by
  unfold structRecord classLen
  rw [List.length_append, length_structHeader, List.length_flatMap]
  simp [length_memberRecord, List.map_const', List.sum_replicate]

theorem length_record : (d.record junk).length = d.tag.len := by
  cases d with
  | struct name size members =>
      simpa [TypeDesc.record, TypeDesc.tag, CtfTag.len] using length_structRecord
  | union name size members =>
      simpa [TypeDesc.record, TypeDesc.tag, CtfTag.len] using length_structRecord
  | functionType type parms varargs =>
      simp [TypeDesc.record, TypeDesc.tag, CtfTag.len, ctfShortType, word]
      omega
  | enumeration name size entries =>
      simp [TypeDesc.record, TypeDesc.tag, CtfTag.len, ctfShortType, word, List.length_flatMap,
        List.map_const', List.sum_replicate]
      omega
  | _ => rfl

theorem four_le_len : 4 ≤ d.tag.len := by
  cases d with
  | struct name size members =>
      simp only [TypeDesc.tag, CtfTag.len, classLen]
      split_ifs <;> omega
  | union name size members =>
      simp only [TypeDesc.tag, CtfTag.len, classLen]
      split_ifs <;> omega
  | _ => simp [TypeDesc.tag, CtfTag.len]

theorem length_records {ds : List TypeDesc} {typeIndex : ℕ} :
    (ds.flatMap (TypeDesc.record junk)).length =
      ((typesInOrder typeIndex ds).map fun t => t.2.len).sum := by
  induction ds generalizing typeIndex with
  | nil => rfl
  | cons d ds ih =>
      rw [List.flatMap_cons, List.length_append, length_record, @ih (typeIndex + 1)]
      rfl

theorem length_le_records {ds : List TypeDesc} :
    ds.length ≤ (ds.flatMap (TypeDesc.record junk)).length := by
  induction ds with
  | nil => exact Nat.zero_le _
  | cons d ds ih =>
      have hfour := @four_le_len d
      rw [List.flatMap_cons, List.length_append, length_record, List.length_cons]
      omega

/-- A record with a size field that is not 0 is no class and starts with its short form. -/
theorem record_eq_short (h : d.sizeOrType ≠ 0) :
    d.tag.isClass = false ∧
      ∃ name info tail, d.record junk = ctfShortType name info d.sizeOrType ++ tail := by
  cases d with
  | struct name size members => exact absurd rfl h
  | union name size members => exact absurd rfl h
  | array type indexType nelems => exact absurd rfl h
  | fwdDecl name => exact absurd rfl h
  | baseType name size => exact ⟨rfl, _, _, _, rfl⟩
  | functionType type parms varargs =>
      have hassoc := List.append_assoc (ctfShortType 0 (ctfInfoEncode CtfKind.func.code
        (parms.length + varargs.toNat) false) type.toNat ++ parms.map UInt16.toNat)
      exact ⟨rfl, _, _, _, (hassoc _ _).trans (List.append_assoc _ _ _)⟩
  | enumeration name size entries => exact ⟨rfl, _, _, _, rfl⟩
  | _ => exact ⟨rfl, _, _, [], (List.append_nil _).symm⟩

/-- A record whose size field is 0xffff is no class, but has the mark of a long one. -/
theorem marked_record (h : d.sizeOrType = 0xffff) (rest : List ℕ) :
    (d.record junk ++ rest)[3]?.map get16 = some 0xffff ∧ d.tag.isClass = false := by
  obtain ⟨hother, name, info, tail, hrecord⟩ := @record_eq_short junk d (by omega)
  refine ⟨?_, hother⟩
  rw [hrecord, h]
  simp [ctfShortType, word, get16]

theorem map_loaded_eq_iff {size : UInt64} {members : List MemberDesc} :
    members.map (MemberDesc.loaded (size.toNat < ctfShortMemberLimit)) =
        members.map MemberDesc.tag ↔ Libctf.OffsetsFit size members := by
  rw [List.map_inj_left]
  refine forall₂_congr fun m _ => ?_
  simp only [loaded_eq_iff, decide_eq_true_eq]

theorem loaded_eq_tag_iff : d.loaded = d.tag ↔ d.OffsetsFit := by
  cases d with
  | struct name size members =>
      rw [TypeDesc.loaded, TypeDesc.tag, CtfTag.structureType.injEq, map_loaded_eq_iff]
      simp [TypeDesc.OffsetsFit]
  | union name size members =>
      rw [TypeDesc.loaded, TypeDesc.tag, CtfTag.unionType.injEq, map_loaded_eq_iff]
      simp [TypeDesc.OffsetsFit]
  | _ => exact iff_of_true rfl trivial

/-- Types that round trip are loaded one after the other. -/
theorem ctfLoadTypesLoop_records {ds : List TypeDesc} (hds : ∀ d ∈ ds, d.RoundTrips)
    {strings : List ℕ} {fuel typeIndex : ℕ} (hfuel : ds.length ≤ fuel) :
    ctfLoadTypesLoop strings.length fuel typeIndex
        (ds.flatMap (TypeDesc.record junk) ++ strings) = some (typesInOrder typeIndex ds) := by
  induction ds generalizing fuel typeIndex with
  | nil =>
      cases fuel with
      | zero => rfl
      | succ fuel => simp [ctfLoadTypesLoop, typesInOrder]
  | cons d ds ih =>
      cases fuel with
      | zero => simp at hfuel
      | succ fuel =>
          have hd := hds d List.mem_cons_self
          have hlen := @length_record junk d
          have hfour := @four_le_len d
          have hrest := @ih (fun d hd => hds d (List.mem_cons_of_mem _ hd)) fuel (typeIndex + 1)
            (Nat.le_of_succ_le_succ hfuel)
          rw [List.flatMap_cons, List.append_assoc, ctfLoadTypesLoop_step]
          · rw [ctfLoadType_record hd.fits hd.unmarked]
            simp only
            rw [List.drop_left, hrest, loaded_eq_tag_iff.mpr hd.offsets]
            rfl
          · simp only [List.length_append]
            omega

/-- When all types come back, each of them round trips. -/
theorem roundTrips_of_loop {ds : List TypeDesc} (hfits : ∀ d ∈ ds, d.Fits)
    {fuel typeIndex : ℕ}
    (h : ctfLoadTypesLoop 0 fuel typeIndex (ds.flatMap (TypeDesc.record junk)) =
      some (typesInOrder typeIndex ds)) : ∀ d ∈ ds, d.RoundTrips := by
  induction ds generalizing fuel typeIndex with
  | nil => simp
  | cons d ds ih =>
      have hlen := @length_record junk d
      have hfour := @four_le_len d
      cases fuel with
      | zero => simp [ctfLoadTypesLoop, typesInOrder] at h
      | succ fuel =>
          rw [List.flatMap_cons] at h
          obtain ⟨tag, len, tags', hload, htags, hrest⟩ :=
            ctfLoadTypesLoop_cases (by rw [List.length_append]; omega) h
          obtain ⟨hhead, rfl⟩ := List.cons.inj htags
          obtain rfl : d.tag = tag := (Prod.mk.inj hhead).2
          have hdFits := hfits d List.mem_cons_self
          have hunmarked : d.sizeOrType ≠ 0xffff := by
            intro hmark
            obtain ⟨hfield, hother⟩ := @marked_record junk d hmark
              (ds.flatMap (TypeDesc.record junk))
            obtain ⟨-, -, hread, -, hlong⟩ := ctfLoadType_spec hload
            have hfar := hlong hfield hother
            have hsum := ctfLoadTypesLoop_len hrest
            rw [← @length_records junk, List.length_drop, List.length_append] at hsum
            rw [List.length_append] at hread
            omega
          rw [ctfLoadType_record hdFits hunmarked] at hload
          obtain ⟨hloaded, rfl⟩ := Prod.mk.inj (Option.some.inj hload)
          rw [List.drop_left] at hrest
          intro d' hd'
          rcases List.mem_cons.mp hd' with rfl | hd'
          · exact ⟨hdFits, hunmarked, loaded_eq_tag_iff.mp hloaded⟩
          · exact ih (fun d hd => hfits d (List.mem_cons_of_mem _ hd)) hrest d' hd'

theorem fits_of_typesInOrder {ds : List TypeDesc} {typeIndex : ℕ}
    (h : ∀ t ∈ typesInOrder typeIndex ds, t.2.Bounded) : ∀ d ∈ ds, d.Fits := by
  induction ds generalizing typeIndex with
  | nil => simp
  | cons d ds ih =>
      intro d' hd'
      rcases List.mem_cons.mp hd' with rfl | hd'
      · exact fits_of_bounded (h _ List.mem_cons_self)
      · exact ih (fun t ht => h t (List.mem_cons_of_mem _ ht)) d' hd'

/-- Encoding and loading a list of types, with any strings after them, returns the same types in
the same order if and only if each of them `RoundTrips`. -/
theorem load_encode_iff (junk : ℕ) (ds : List TypeDesc) :
    (∀ strings, ctfLoadTypes (encodeTypes junk ds).types strings = some (typesInOrder 1 ds)) ↔
      ∀ d ∈ ds, d.RoundTrips := by
  constructor
  · intro h
    have hempty := h []
    unfold ctfLoadTypes at hempty
    have hfits := fits_of_typesInOrder (ctfLoadTypesLoop_bounded hempty)
    rw [encodeTypes_eq fun d hd => vlen_lt_of_fits (hfits d hd), List.append_nil] at hempty
    exact roundTrips_of_loop hfits hempty
  · intro hds strings
    unfold ctfLoadTypes
    rw [encodeTypes_eq fun d hd => vlen_lt_of_fits (hds d hd).fits]
    exact ctfLoadTypesLoop_records hds length_le_records

/-- An enumeration with 1024 enumerators, of which the number reaches the root flag. -/
def bigEnum : TypeDesc := .enumeration 1 4 (List.replicate 1024 (1, 0))

theorem load_bigEnum :
    ctfLoadTypes (encodeTypes 0 [bigEnum]).types [] ≠ some (typesInOrder 1 [bigEnum]) := by
  intro h
  have hfits := fits_of_typesInOrder (ctfLoadTypesLoop_bounded h)
  obtain ⟨hfew, -⟩ : bigEnum.Fits := hfits bigEnum List.mem_cons_self
  rw [List.length_replicate] at hfew
  exact Nat.lt_irrefl _ hfew

example : ctfLoadTypes (encodeTypes 0
      [.struct 1 70000 [⟨2, 3, 8⟩, ⟨3, 3, 559992⟩], .functionType 3 [1, 1] true]).types [0] =
    some [(1, .structureType 1 70000 [⟨2, 3, 8⟩, ⟨3, 3, 559992⟩]),
      (2, .subroutineType 3 [1, 1] true)] := by
  decide +kernel

end RoundTrip

end Pahole.Libctf

import Pahole.BtfEncoder.ArrayIndex
import Pahole.BtfLoader.ArrayDimensions
import Pahole.BtfLoader.Enumerations
import Pahole.Support.Success

/-!
# The types of a CU in BTF and back

What BTF has to say of a type of a CU is again a tag: here it is written down for every kind
of type.  Encoding a CU and loading the BTF gives that for each of its types, under the id
that references to the type have in BTF, so that the graph of the types is what it was.
-/

namespace Pahole

open FallibleTable

/-! ## Types as BTF represents them -/

/-- The base type that loading the BTF of a base type gives; an integer of a size that BTF does
not have is renamed. -/
def BaseType.inBtf (genFloats : Bool) (bt : BaseType) : BaseType :=
  let byteSz := bitsRoundupBytes bt.bitSize
  if ¬bt.isSigned ∧ ¬bt.isBool ∧ bt.floatType ≠ .none ∧ genFloats then
    { name := cuBtfStr bt.name
      bitSize := byteSz * 8
      nameHasEncoding := false
      isSigned := false
      isBool := false
      isVarargs := false
      floatType := .single }
  else
    { name := if irregularIntSize byteSz then some "__SANITIZED_FAKE_INT__" else cuBtfStr bt.name
      bitSize := if irregularIntSize byteSz then 32 else byteSz * 8
      nameHasEncoding := false
      isSigned := bt.isSigned
      isBool := !bt.isSigned && bt.isBool
      isVarargs := false
      floatType := .none }

/-- A data member keeps its name, its type and its bits. -/
def ClassMember.inBtf (ref : TypeId → ℕ) (m : ClassMember) : ClassMember where
  tag := .member
  name := cuBtfStr m.name
  type := ref m.type
  bitOffset := m.bitOffset
  bitSize := 0
  byteOffset := m.bitOffset / 8
  byteSize := 0
  bitfieldOffset := 0
  bitfieldSize := m.bitfieldSize
  isStatic := false
  hasBitOffset := false

/-- A class becomes a struct. -/
def Aggregate.inBtf (ref : TypeId → ℕ) (ty : Aggregate) : Aggregate where
  kind := if ty.kind = .unionType then .unionType else .structType
  name := cuBtfStr ty.name
  type := 0
  size := if ty.declaration then 0 else ty.size
  declaration := ty.declaration
  members := if ty.declaration then [] else ty.dataMembers.map (ClassMember.inBtf ref)
  annots := []

/-- A small enumeration is signed if one of its values is negative. -/
def Enumeration.inBtf (etype : Enumeration) : Enumeration where
  name := cuBtfStr etype.name
  type := 0
  size := etype.size
  isSigned := if etype.size ≤ 32 then etype.values.any fun e => i64 e.value < 0 else etype.isSigned
  enumerators := etype.values

/-- A parameter without a type is read as the end of a prototype that takes more. -/
def Ftype.inBtf (ref : TypeId → ℕ) (ftype : Ftype) : Ftype where
  type := ref ftype.type
  parms := (ftype.parms.filter fun p => ref p.type ≠ 0).map fun p =>
    loadedParameter ⟨p.name, ref p.type⟩
  byteSize := 0
  unspecParms := ftype.parms.any (fun p => ref p.type = 0) || ftype.unspecParms
  optimizedParms := false
  unexpectedReg := false
  inconsistentProto := false
  uncertainParmLoc := false
  reorderedParm := false
  signatureChanged := false

/-- The type as BTF can represent it, with references to other types by `ref`. -/
def Tag.inBtf (ref : TypeId → ℕ) (genFloats : Bool) : Tag → Tag
  | .baseType bt => .baseType (bt.inBtf genFloats)
  | .pointer type => .pointer (ref type)
  | .modifier kind type => .modifier kind (ref type)
  | .typedef name type _ => .typedef (cuBtfStr name) (ref type) []
  | .llvmAnnotationType _ type => .llvmAnnotationType "" (ref type)
  | .aggregate ty => .aggregate (ty.inBtf ref)
  | .array type nrEntries => .array (ref type) (if nrEntries = [] then [0] else nrEntries)
  | .enumeration ty => .enumeration ty.inBtf
  | .subroutine ftype => .subroutine (ftype.inBtf ref)
  | .reference type => .reference (ref type)
  | .unspecified => .unspecified
  | .unsupported tag type => .unsupported tag (ref type)

/-- The counts and values of a type fit the fields of its BTF record, and the element of an
array is not an array. -/
def Tag.Fits (types : TypesTable) : Tag → Prop
  | .aggregate ty => ty.dataMembers.length ≤ 65535
  | .enumeration ty => ty.Representable ∧ ty.values.length ≤ 65535
  | .subroutine ftype => ftype.parms.length < 65535
  | .array type nrEntries => nrEntries.length ≤ 255 ∧
      (type = 0 ∨ ∃ elem, types.type? type = some elem ∧ elem.isArray = false)
  | _ => True

/-! ## One type -/

section One

variable {ref : TypeId → ℕ} {genFloats : Bool} {conf : ConfLoad} {cu : LoadedCu} {id : ℕ}

theorem createNew_baseType {bt : BaseType} {u : BtfType} (h : bt.btfType genFloats bt.name = some u) :
    createNew cu id u = cu.addType (.baseType (bt.inBtf genFloats)) id := by
  unfold BaseType.btfType at h
  unfold BaseType.inBtf
  dsimp only at h ⊢
  split at h
  · next hfloat =>
      split at h
      · obtain rfl := Option.some.inj h
        rw [if_pos hfloat]
        rfl
      · cases h
  · next hint =>
      rw [if_neg hint]
      have hsigned : ∀ e : IntEncoding, e = (if bt.isSigned then .signed else
          if bt.isBool then .bool else .none) →
          decide (e = .signed) = bt.isSigned ∧ decide (e = .bool) = (!bt.isSigned && bt.isBool) := by
        rintro _ rfl
        cases bt.isSigned <;> cases bt.isBool <;> exact ⟨rfl, rfl⟩
      obtain ⟨hs, hb⟩ := hsigned _ rfl
      split at h
      · next hirregular =>
          obtain rfl := Option.some.inj h
          rw [createNew, createNewBaseType, hs, hb, if_pos hirregular, if_pos hirregular]
          rfl
      · next hregular =>
          obtain rfl := Option.some.inj h
          rw [createNew, createNewBaseType, hs, hb, if_neg hregular, if_neg hregular]

theorem createMembers_btfMembers {ty : Aggregate} (h : ty.dataMembers.length ≤ 65535) :
    createMembers (ty.btfMembers ref) = ty.dataMembers.map (ClassMember.inBtf ref) := by
  have hlen : (ty.btfMembers ref).length ≤ 65535 := by rwa [Aggregate.btfMembers, List.length_map]
  rw [createMembers, take_btfVlen hlen, Aggregate.btfMembers, List.map_map]
  rfl

theorem createNew_subroutine {ftype : Ftype} (h : ftype.parms.length < 65535) :
    createNew cu id (.funcProto (ref ftype.type) (ftype.btfParams ref)) =
      cu.addType (.subroutine (ftype.inBtf ref)) id := by
  have hlen : (ftype.btfParams ref).length ≤ 65535 := by
    rw [Ftype.btfParams, List.length_append, List.length_map]
    split
    · exact h
    · exact h.le
  have hparms : ((ftype.btfParams ref).filter fun param => param.type ≠ 0).map loadedParameter =
      (ftype.inBtf ref).parms := by
    rw [Ftype.btfParams, List.filter_append, List.filter_map, List.map_append, List.map_map]
    cases ftype.unspecParms with
    | true => exact List.append_nil _
    | false => exact List.append_nil _
  have hunspec : ((ftype.btfParams ref).any fun param => param.type = 0) =
      (ftype.inBtf ref).unspecParms := by
    rw [Ftype.btfParams, List.any_append, List.any_map, Ftype.inBtf]
    cases ftype.unspecParms with
    | true => rfl
    | false => rfl
  rw [createNew, createNewSubroutineType, take_btfVlen hlen, hparms, hunspec]
  rfl

theorem addType_inj {tag tag' : Tag} (h : cu.addType tag id = cu.addType tag' id) : tag = tag' := by
  have hentry : (cu.addType tag id).typesTable.entry id = (cu.addType tag' id).typesTable.entry id :=
    by rw [h]
  rw [addType_types, addType_types, PtrTable.entry_addWithId_self,
    PtrTable.entry_addWithId_self] at hentry
  exact Option.some.inj hentry

theorem btfEnumKflag_values (etype : Enumeration) :
    btfEnumKflag (etype.values.map fun e => (e.name, i64 e.value)) =
      etype.values.any fun e => i64 e.value < 0 := by
  simp only [btfEnumKflag, List.any_map, Function.comp_def]

theorem enumerationSize_roundup {etype : Enumeration} (hrep : etype.Representable) :
    enumerationSize (bitsRoundupBytes etype.size) = etype.size := by
  rcases hrep.size with h | h | h | h <;> rw [h] <;> rfl

theorem createNew_enumeration_eq (hconf : conf.skipEncodingBtfEnum64 = false)
    {etype : Enumeration} (hrep : etype.Representable) (hlen : etype.values.length ≤ 65535) :
    createNew cu id (built (etype.btfStart conf)
      (fun e => BtfType.addEnumValue e.name (enumValue e.value conf)) etype.values) =
        cu.addType (.enumeration etype.inBtf) id := by
  have hvalue : ∀ value, enumValue value conf = i64 value := by
    intro value
    rw [enumValue, hconf, if_neg Bool.false_ne_true]
  simp only [hvalue, Enumeration.btfStart, hconf]
  have hround : bitsRoundupBytes etype.size ≤ 4 ↔ etype.size ≤ 32 := by
    rcases hrep.size with h | h | h | h <;> rw [h] <;> decide
  by_cases hsmall : etype.size ≤ 32
  · rw [if_pos (Or.inl (hround.mpr hsmall)), built_enum i64, List.nil_append]
    obtain ⟨ty, hnew, henumerators⟩ := createNewEnumeration_values hrep hsmall hlen cu etype.name
      (bitsRoundupBytes etype.size) id
    cases ty with
    | mk name type size isSigned enumerators =>
        obtain ⟨rfl, rfl, rfl, rfl, -⟩ := Enumeration.mk.inj (Tag.enumeration.inj (addType_inj hnew))
        obtain rfl : enumerators = etype.values := henumerators
        rw [createNew, hnew, Enumeration.inBtf, if_pos hsmall, ← btfEnumKflag_values,
          enumerationSize_roundup hrep]
  · rw [if_neg (by simpa using fun h => hsmall (hround.mp h)), built_enum64 i64, List.nil_append]
    obtain ⟨ty, hnew, henumerators⟩ := createNewEnumeration64_values hrep hlen cu etype.name
      (bitsRoundupBytes etype.size) etype.isSigned id
    cases ty with
    | mk name type size isSigned enumerators =>
        obtain ⟨rfl, rfl, rfl, rfl, -⟩ := Enumeration.mk.inj (Tag.enumeration.inj (addType_inj hnew))
        obtain rfl : enumerators = etype.values := henumerators
        rw [createNew, hnew, Enumeration.inBtf, if_neg hsmall, enumerationSize_roundup hrep]

theorem createNew_aggregate {ty : Aggregate} {u : BtfType} (hlen : ty.dataMembers.length ≤ 65535)
    (hu : (if ty.declaration then [.fwd ty.name (ty.kind = .unionType)]
      else [.composite (ty.kind = .unionType) ty.name ty.size (ty.btfMembers ref)]) = [u]) :
    createNew cu id u = cu.addType (.aggregate (ty.inBtf ref)) id := by
  cases hdecl : ty.declaration with
  | true =>
      rw [if_pos hdecl] at hu
      obtain rfl := (List.cons.inj hu).1
      rw [createNew, createNewForwardDecl, Aggregate.inBtf, hdecl]
      simp only [decide_eq_true_eq, if_true]
  | false =>
      rw [if_neg (by rw [hdecl]; exact Bool.false_ne_true)] at hu
      obtain rfl := (List.cons.inj hu).1
      rw [createNew, createNewComposite, createMembers_btfMembers hlen, Aggregate.inBtf, hdecl]
      simp only [decide_eq_true_eq, Bool.false_eq_true, if_false]

theorem isArray_newArray (elemTag : Option Tag) (type nelems : ℕ) :
    (newArray elemTag type nelems).isArray = true := by
  unfold newArray
  split
  · split <;> rfl
  · rfl

theorem isArray_inBtf (tag : Tag) : (tag.inBtf ref genFloats).isArray = tag.isArray := by
  cases tag <;> rfl

/-- A BTF type that something else is read from is not an `ARRAY`. -/
theorem not_isArray_of_createNew {u : BtfType} {tag : Tag}
    (h : createNew cu id u = cu.addType tag id) (htag : tag.isArray = false) :
    u.isArray = false := by
  cases u with
  | array type indexType nelems =>
      rw [← addType_inj h, isArray_newArray] at htag
      cases htag
  | _ => rfl

/-- A type other than an array takes one BTF type, unless BTF has none for it. -/
theorem createNew_btfTypes (res : Resolution) {types : TypesTable} {tag : Tag} (next : ℕ)
    (hconf : conf.skipEncodingBtfEnum64 = false) (hfits : tag.Fits types)
    (hencodable : tag.encodable genFloats = true) (harray : tag.isArray = false) :
    (tag = .unspecified ∧ tag.btfTypes res genFloats conf next = []) ∨
      ∃ u, tag.btfTypes res genFloats conf next = [u] ∧
        ∀ cu id, createNew cu id u = cu.addType (tag.inBtf res.ref genFloats) id := by
  cases tag with
  | baseType bt =>
      obtain ⟨u, hu⟩ := Option.isSome_iff_exists.mp hencodable
      exact Or.inr ⟨u, by rw [Tag.btfTypes, hu]; rfl, fun cu id => createNew_baseType hu⟩
  | pointer type => exact Or.inr ⟨_, rfl, fun cu id => rfl⟩
  | reference type => cases hencodable
  | modifier kind type =>
      cases kind with
      | atomic => cases hencodable
      | const => exact Or.inr ⟨_, rfl, fun cu id => rfl⟩
      | volatile => exact Or.inr ⟨_, rfl, fun cu id => rfl⟩
      | restrict => exact Or.inr ⟨_, rfl, fun cu id => rfl⟩
  | typedef name type annots => exact Or.inr ⟨_, rfl, fun cu id => rfl⟩
  | llvmAnnotationType value type => exact Or.inr ⟨_, rfl, fun cu id => rfl⟩
  | aggregate ty =>
      have hone : ∃ u, Tag.btfTypes res genFloats conf next (.aggregate ty) = [u] := by
        rw [Tag.btfTypes]
        split
        · exact ⟨_, rfl⟩
        · exact ⟨_, rfl⟩
      obtain ⟨u, hu⟩ := hone
      exact Or.inr ⟨u, hu, fun cu id => createNew_aggregate hfits hu⟩
  | array type nrEntries => cases harray
  | enumeration ty =>
      exact Or.inr ⟨_, rfl, fun cu id => createNew_enumeration_eq hconf hfits.1 hfits.2⟩
  | subroutine ftype => exact Or.inr ⟨_, rfl, fun cu id => createNew_subroutine hfits⟩
  | unspecified => exact Or.inl ⟨rfl, rfl⟩
  | unsupported tag type => cases hencodable

end One

/-! ## All types of a CU -/

section All

variable {conf : ConfLoad} {genFloats : Bool} {res : Resolution} {types : TypesTable}
  {t : Table BtfType Encoder} {before after : List BtfType} {tag : Tag} {id : ℕ}

theorem length_arrayTypes (ref indexType next : ℕ) (nrEntries : List ℕ) :
    (arrayTypes ref indexType next nrEntries).length = max 1 nrEntries.length := by
  cases nrEntries with
  | nil => rfl
  | cons nelems rest =>
      rw [arrayTypes, List.length_cons, length_dimensionTypes, List.length_cons]
      omega

/-- An array among the types that have been loaded comes from an `ARRAY`. -/
theorem isArray_of_loadedTypes {pre : List BtfType} {i : ℕ} {type : TypeId} {nrEntries : List ℕ}
    (h : (loadedTypes pre).typesTable.entry i = some (.array type nrEntries)) (post : List BtfType) :
    ∃ u, btfTypeById (pre ++ post) i = some u ∧ u.isArray = true := by
  rcases array_of_loadedFrom h with hnew | ⟨u, hle, hu, harray⟩
  · revert hnew
    cases i <;> simp [LoadedCu.new, PtrTable.entry]
  · refine ⟨u, ?_, harray⟩
    rw [btfTypeById, if_neg (by omega),
      List.getElem?_append_left (List.getElem?_eq_some_iff.mp hu).1, hu]

theorem loadedFrom_array (ref indexType next : ℕ) (nrEntries : List ℕ) (cu : LoadedCu)
    (hmax : nrEntries.length ≤ 255)
    (helem : ∀ innerType entries, cu.typesTable.entry ref ≠ some (.array innerType entries)) :
    (loadedFrom next cu (arrayTypes ref indexType next nrEntries.reverse)).typesTable.entry
        (next + max 1 nrEntries.length - 1) =
      some (.array ref (if nrEntries = [] then [0] else nrEntries)) := by
  cases nrEntries with
  | nil =>
      rw [List.reverse_nil, arrayTypes, if_pos rfl]
      change (createNewArray cu ref 0 next).typesTable.entry next = _
      rw [createNewArray, newArray_of_not_array helem]
      exact PtrTable.entry_addWithId_self _ _ _
  | cons nelems rest =>
      have hpos : 1 ≤ (nelems :: rest).length := Nat.succ_le_succ (Nat.zero_le _)
      rw [max_eq_right hpos, if_neg (List.cons_ne_nil nelems rest)]
      exact loadedFrom_arrayTypes ref indexType next (nelems :: rest) cu hpos hmax helem

/-- The BTF type of a type other than an array is not an `ARRAY`. -/
theorem not_isArray_of_standsFor (hconf : conf.skipEncodingBtfEnum64 = false)
    (hbefore : before.length = t.base)
    (hstands : StandsFor t (fun next pos => pos.btfTypes res genFloats conf next) tag id)
    (hfits : tag.Fits types) (hencodable : tag.encodable genFloats = true)
    (harray : tag.isArray = false) {u : BtfType}
    (hu : btfTypeById (before ++ t.items ++ after) id = some u) : u.isArray = false := by
  obtain ⟨pre, post, hitems, hid⟩ := hstands
  beta_reduce at hitems hid
  rcases createNew_btfTypes res (t.base + pre.length + 1) hconf hfits hencodable harray with
    ⟨-, hnone⟩ | ⟨u', hone, hnew⟩
  · rw [if_pos hnone] at hid
    rw [hid, btfTypeById, if_pos rfl] at hu
    cases hu
  · rw [hone, if_neg (List.cons_ne_nil u' []), List.length_singleton] at hid
    have hplace : (before ++ t.items ++ after)[id - 1]? = some u' := by
      rw [hitems, hone, hid]
      have hidx : t.base + pre.length + 1 - 1 = (before ++ pre).length := by
        rw [List.length_append, hbefore, Nat.add_sub_cancel]
      rw [hidx, ← List.append_assoc, ← List.append_assoc, List.append_assoc, List.append_assoc,
        List.getElem?_append_right le_rfl, Nat.sub_self]
      rfl
    rw [btfTypeById, if_neg (by omega), hplace] at hu
    rw [← Option.some.inj hu]
    exact not_isArray_of_createNew (hnew .new 0) (by rw [isArray_inBtf, harray])

/-- A type other than an array is loaded as what BTF says of it. -/
theorem loadsTo_of_standsFor (hconf : conf.skipEncodingBtfEnum64 = false)
    (hbefore : before.length = t.base)
    (hstands : StandsFor t (fun next pos => pos.btfTypes res genFloats conf next) tag id)
    (hfits : tag.Fits types) (hencodable : tag.encodable genFloats = true)
    (harray : tag.isArray = false) :
    (tag = .unspecified ∧ id = 0) ∨ LoadsTo (before ++ t.items ++ after) id fun tag' =>
      tag' = tag.inBtf res.ref genFloats := by
  obtain ⟨pre, post, hitems, hid⟩ := hstands
  beta_reduce at hitems hid
  rcases createNew_btfTypes res (t.base + pre.length + 1) hconf hfits hencodable harray with
    ⟨hunspecified, hnone⟩ | ⟨u, hone, hnew⟩
  · rw [if_pos hnone] at hid
    exact Or.inl ⟨hunspecified, hid⟩
  · right
    rw [hone, if_neg (List.cons_ne_nil u []), List.length_singleton] at hid
    have htypes : before ++ t.items ++ after = (before ++ pre) ++ u :: (post ++ after) := by
      rw [hitems, hone]
      simp only [List.append_assoc, List.cons_append, List.nil_append]
    have hplace : id = (before ++ pre).length + 1 := by
      rw [hid, List.length_append, hbefore]
    have hentry := (loadedTypes_entry (before ++ pre) (post ++ after) u).1
    rw [hnew, addType_types, PtrTable.entry_addWithId_self] at hentry
    rw [htypes, hplace]
    exact loadsTo_of_entry hentry rfl

/-- An array is loaded with all of its dimensions when its elements are not arrays. -/
theorem loadsTo_of_standsFor_array (hbefore : before.length = t.base) {type : TypeId}
    {nrEntries : List ℕ}
    (hstands : StandsFor t (fun next pos => pos.btfTypes res genFloats conf next)
      (.array type nrEntries) id)
    (hmax : nrEntries.length ≤ 255)
    (helem : ∀ u, btfTypeById (before ++ t.items ++ after) (res.ref type) = some u →
      u.isArray = false) :
    LoadsTo (before ++ t.items ++ after) id fun tag' =>
      tag' = (Tag.array type nrEntries).inBtf res.ref genFloats := by
  obtain ⟨pre, post, hitems, hid⟩ := hstands
  beta_reduce at hitems hid
  rw [Tag.btfTypes] at hitems hid
  set arrays := arrayTypes (res.ref type) res.arrayIndexId (t.base + pre.length + 1)
    nrEntries.reverse with harrays
  have hlen : arrays.length = max 1 nrEntries.length := by
    rw [harrays, length_arrayTypes, List.length_reverse]
  have hne : arrays ≠ [] := by
    rw [← List.length_pos_iff, hlen]
    omega
  rw [if_neg hne, hlen] at hid
  have htypes : before ++ t.items ++ after = (before ++ pre) ++ (arrays ++ (post ++ after)) := by
    rw [hitems]
    simp only [List.append_assoc]
  have hbase : ∀ innerType entries,
      (loadedTypes (before ++ pre)).typesTable.entry (res.ref type) ≠
        some (.array innerType entries) := by
    intro innerType entries hentry
    obtain ⟨u, hu, harray⟩ := isArray_of_loadedTypes hentry (arrays ++ (post ++ after))
    rw [helem u (by rw [htypes, hu])] at harray
    cases harray
  have hloaded := loadedFrom_array (res.ref type) res.arrayIndexId (t.base + pre.length + 1) nrEntries
    (loadedTypes (before ++ pre)) hmax hbase
  rw [← harrays] at hloaded
  have hnext : 1 + (before ++ pre).length = t.base + pre.length + 1 := by
    rw [List.length_append, hbefore]
    omega
  have hplace : id = t.base + pre.length + 1 + max 1 nrEntries.length - 1 := by omega
  rw [htypes]
  refine loadsTo_of_entry ?_ rfl
  rw [loadedTypes, loadedFrom_append, hnext, loadedFrom_append, (loadedFrom_of_lt _ ?_).1, hplace]
  · exact hloaded
  · omega

end All

/-! ## Encoding and loading -/

section Cu

variable {qsort : Qsort} {conf : ConfLoad} {cond : Cu → Btf Encoder → Prop} {cu : Cu}
  {cus : List Cu} {s s' : Btf Encoder} {r : ℤ}

/-- Every type of the table can be encoded, and the BTF has its types, the last one under the id
that the resolution gives. -/
structure TypesIn (conf : ConfLoad) (genFloats : Bool) (types : TypesTable)
    (t : Table BtfType Encoder) (res : Resolution) : Prop where
  void : res.ref 0 = 0
  encodable : ∀ e ∈ types.entries, e.2.encodable genFloats = true
  standsFor : ∀ e ∈ types.entries,
    StandsFor t (fun next pos => pos.btfTypes res genFloats conf next) e.2 (res.ref e.1)

/-- `t'` has the types of `t` and others after these, with the same base and the same choice for
floats. -/
structure GrowsTo (t t' : Table BtfType Encoder) : Prop where
  base : t'.base = t.base
  items : t.items <+: t'.items
  genFloats : t'.client.genFloats = t.client.genFloats

theorem GrowsTo.trans {t t' t'' : Table BtfType Encoder} (h : GrowsTo t t') (h' : GrowsTo t' t'') :
    GrowsTo t t'' where
  base := h'.base.trans h.base
  items := h.items.trans h'.items
  genFloats := h'.genFloats.trans h.genFloats

/-- Types that are in a BTF are still in it after more has been appended. -/
theorem TypesIn.grow {genFloats : Bool} {types : TypesTable} {t t' : Table BtfType Encoder}
    {res : Resolution} (h : TypesIn conf genFloats types t res) (hgrows : GrowsTo t t') :
    TypesIn conf genFloats types t' res := by
  refine ⟨h.void, h.encodable, fun e he => ?_⟩
  obtain ⟨pre, post, hitems, hid⟩ := h.standsFor e he
  beta_reduce at hitems hid
  obtain ⟨more, hmore⟩ := hgrows.items
  refine ⟨pre, post ++ more, ?_, ?_⟩
  · rw [hgrows.base, ← hmore, hitems, List.append_assoc]
  · rw [hgrows.base, hid]

theorem keeps_cuPlan (enc : Encoder) (funcs : ElfFunctions) :
    (cuPlan conf enc cu funcs).Keeps Encoder.frame := by
  have htypes : (typesPlan conf enc cu.types.entries).Keeps Encoder.frame :=
    keeps_flatMap fun _ _ => Tag.keeps_plan fun _ => rfl
  have hindex : ∀ lacking, (indexTypePlan lacking).Keeps Encoder.frame := by
    intro lacking
    cases lacking with
    | true => exact keeps_call.mpr (keeps_set.mpr ⟨fun _ => rfl, keeps_nil⟩)
    | false => exact keeps_nil
  have hdecl : (cuDeclTagsPlan enc cu).Keeps Encoder.frame := fun f hf t =>
    congrArg Encoder.frame (keeps_cuDeclTags enc cu f hf t)
  rw [cuPlan, keeps_append, keeps_append, keeps_append]
  refine ⟨htypes, hindex _, hdecl, ?_⟩
  rw [symbolsPlan, keeps_append, keeps_append]
  exact ⟨keeps_functions _, keeps_inlines _ _, keeps_flatMap fun var _ => keeps_cuVariable _ cu var⟩

theorem startCu_genFloats (enc : Encoder) (cnt : ℕ) :
    (enc.startCu cnt cu).genFloats = enc.genFloats := by
  obtain ⟨off, adj, map, extra, skipped, has, index, hstart⟩ := startCu_eq enc cnt cu
  rw [hstart]

/-- When encoding a CU returns no error all of its types are in the BTF, after what was there. -/
theorem encodeCu_typesIn (hrun : encodeCu qsort conf cu s = .ok r s') (hr : 0 ≤ r) :
    GrowsTo s.table s'.table ∧
      ∃ res, TypesIn conf s.table.client.genFloats cu.types s'.table res := by
  cases hfuncs : s.table.client.elfFunctions qsort cu.elf with
  | none =>
      rw [encodeCu_none hfuncs] at hrun
      obtain ⟨rfl, -⟩ := EStateM.Result.ok.inj hrun
      cases hr
  | some found =>
      obtain ⟨funcs, enc⟩ := found
      obtain ⟨list, henc⟩ := elfFunctions_eq hfuncs
      have hfloats : enc.genFloats = s.table.client.genFloats := by rw [henc]
      rw [encodeCu_some hfuncs] at hrun
      cases hbody : encodeCuBody conf cu funcs (startSession cu enc s) with
      | error e s₁ =>
          rw [hbody] at hrun
          cases hrun
      | ok r₁ s₁ =>
          rw [hbody] at hrun
          obtain ⟨rfl, rfl⟩ := EStateM.Result.ok.inj hrun
          have hpred : cu.types ≠ [] →
              Predicts (enc.startCu s.table.cnt cu) cu.types s.table.cnt :=
            fun hne => predicts_startCu enc s.table.cnt cu hne
          have hmakes := @makes_cuTypes conf _ (startSession cu enc s) cu.types hpred rfl
          obtain ⟨id, s₂, htypes, -⟩ := Succeeds.andThen ⟨hbody, hr⟩
          obtain ⟨hdone, -⟩ := hmakes.done_of_nonneg htypes.run htypes.nonneg
          have hruns : Runs true CallSite.reaction (encodeCuBody conf cu funcs)
              (startSession cu enc s) (cuPlan conf (enc.startCu s.table.cnt cu) cu funcs)
              fun _ => 1 := runs_encodeCuBody rfl hpred
          rcases hexec : exec (stopsAt CallSite.reaction)
              (cuPlan conf (enc.startCu s.table.cnt cu) cu funcs) (startSession cu enc s)
            with ⟨o, s₃⟩
          obtain ⟨done, todo, part, extra, hagree, hall⟩ := idAgreement_body enc s hexec
          obtain ⟨rfl, -⟩ := hall (by rw [hdone])
          have hfinal := hruns.finalSession_eq
          rw [hbody, hexec] at hfinal
          obtain rfl : s₁ = s₃ := hfinal
          obtain ⟨done', todo', part', hend, hfin⟩ := exec_typesPlan rfl rfl hdone
          obtain ⟨rfl, -⟩ := hfin rfl
          have hentries : done = cu.types.entries := by rw [hagree.entries, List.append_nil]
          obtain rfl : done = done' := by rw [hentries, hend.entries, List.append_nil]
          refine ⟨⟨(exec_fails hexec).2, ?_, ?_⟩, (enc.startCu s.table.cnt cu).resolution,
            hagree.void, ?_, ?_⟩
          · have hitems := hagree.items
            rw [List.append_assoc, List.append_assoc] at hitems
            exact ⟨_, hitems.symm⟩
          · have hframe := exec_keeps (keeps_cuPlan _ funcs) hexec
            calc s₁.table.client.genFloats = s₁.table.client.frame.genFloats := rfl
              _ = (enc.startCu s.table.cnt cu).frame.genFloats := by rw [hframe]; rfl
              _ = s.table.client.genFloats := (startCu_genFloats enc _).trans hfloats
          · intro e he
            rw [← hfloats, ← startCu_genFloats enc s.table.cnt]
            exact hend.encodable e (hentries ▸ he)
          · intro e he
            rw [← hfloats]
            exact hagree.standsFor e (hentries ▸ he)

/-- After CUs have been encoded, one after the other, the types of each are in the BTF. -/
theorem encoded_typesIn (hrun : Encoded qsort conf cond cus s s') :
    GrowsTo s.table s'.table ∧ ∀ cu ∈ cus,
      ∃ res, TypesIn conf s.table.client.genFloats cu.types s'.table res := by
  induction hrun with
  | nil s => exact ⟨⟨rfl, List.prefix_rfl, rfl⟩, fun cu hcu => absurd hcu List.not_mem_nil⟩
  | snoc hcus hcond hcu hr ih =>
      obtain ⟨hgrows, hall⟩ := ih
      obtain ⟨hgrowsCu, res, htypes⟩ := encodeCu_typesIn hcu hr
      refine ⟨hgrows.trans hgrowsCu, fun cu hmem => ?_⟩
      rcases List.mem_append.mp hmem with hmem | hmem
      · obtain ⟨res', htypes'⟩ := hall cu hmem
        exact ⟨res', htypes'.grow hgrowsCu⟩
      · obtain rfl := List.mem_singleton.mp hmem
        exact ⟨res, hgrows.genFloats ▸ htypes⟩

/-- The types of a CU that are in a BTF are loaded from it. -/
theorem TypesIn.loads {genFloats : Bool} {types : TypesTable} {t : Table BtfType Encoder}
    {res : Resolution} (h : TypesIn conf genFloats types t res)
    (hconf : conf.skipEncodingBtfEnum64 = false) (hfits : ∀ e ∈ types.entries, e.2.Fits types)
    {before after : List BtfType} (hbefore : before.length = t.base) {id : TypeId} {tag : Tag}
    (htag : types.type? id = some tag) :
    (tag = .unspecified ∧ res.ref id = 0) ∨
      LoadsTo (before ++ t.items ++ after) (res.ref id) fun tag' =>
        tag' = tag.inBtf res.ref genFloats := by
  have he : (id, tag) ∈ types.entries := TypesTable.mem_entries.mpr htag
  have hstands := h.standsFor _ he
  have htagFits := hfits _ he
  cases harray : tag.isArray with
  | false => exact loadsTo_of_standsFor hconf hbefore hstands htagFits (h.encodable _ he) harray
  | true =>
      right
      cases tag with
      | array type nrEntries =>
          obtain ⟨hmax, helem⟩ := htagFits
          refine loadsTo_of_standsFor_array hbefore hstands hmax fun u hu => ?_
          rcases helem with rfl | ⟨elem, helem, hflat⟩
          · rw [h.void, btfTypeById, if_pos rfl] at hu
            cases hu
          · have hmem : (type, elem) ∈ types.entries := TypesTable.mem_entries.mpr helem
            exact not_isArray_of_standsFor hconf hbefore (h.standsFor _ hmem) (hfits _ hmem)
              (h.encodable _ hmem) hflat hu
      | _ => cases harray

end Cu

end Pahole

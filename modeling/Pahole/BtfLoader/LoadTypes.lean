import Pahole.Btf.Libbpf
import Pahole.Dwarves.PtrTable
import Pahole.Dwarves.Tag

/-!
# Loading BTF types

`btf__load_types` makes a tag for every BTF type, in one of the three tables of a CU
and under the id of the type, and then goes over the declaration tags.

A tag is given by its place: the table and the id, and for a parameter its position.
-/

namespace Pahole

/-- `btf_vlen` -/
def btfVlen (nr : ℕ) : ℕ := nr % 65536

/-- `(uint64_t)x` -/
def u64 (x : ℤ) : ℕ := (x % 18446744073709551616).toNat

/-- `cu__btf_str`: offset 0, the one of the empty string, stands for no string. -/
def cuBtfStr (name : Option String) : Option String := name.filter fun s => s ≠ ""

/-- `struct function`, as loaded from BTF: its type is its prototype. -/
structure LoadedFunction where
  name : Option String
  type : TypeId
  deriving DecidableEq, Repr

/-- `struct variable`, as loaded from BTF. -/
structure LoadedVariable where
  name : Option String
  isExternal : Bool
  type : TypeId
  deriving DecidableEq, Repr

/-- A tag of a CU, by its table and its id there. -/
inductive TagRef where
  | type (id : ℕ)
  | function (id : ℕ)
  /-- an entry of the table of the other tags -/
  | tag (id : ℕ)
  /-- a parameter of an entry of the types table -/
  | parameter (type idx : ℕ)
  deriving DecidableEq, Repr

/-- The part of `struct cu` that the BTF loader fills. -/
structure LoadedCu where
  typesTable : PtrTable Tag
  functionsTable : PtrTable LoadedFunction
  tagsTable : PtrTable LoadedVariable
  /-- `tag->attributes` -/
  attributes : TagRef → List (Option String)

/-- The tables of `cu__new`: the first type is void. -/
def LoadedCu.new : LoadedCu := ⟨[none], [], [], fun _ => []⟩

namespace LoadedCu

/-- `cu__add_tag_with_id` of a type -/
def addType (cu : LoadedCu) (tag : Tag) (id : ℕ) : LoadedCu :=
  { cu with typesTable := cu.typesTable.addWithId (some tag) id }

/-- `cu__add_tag_with_id` of a function -/
def addFunction (cu : LoadedCu) (func : LoadedFunction) (id : ℕ) : LoadedCu :=
  { cu with functionsTable := cu.functionsTable.addWithId (some func) id }

/-- `cu__add_tag_with_id` of a variable -/
def addVariable (cu : LoadedCu) (var : LoadedVariable) (id : ℕ) : LoadedCu :=
  { cu with tagsTable := cu.tagsTable.addWithId (some var) id }

end LoadedCu

/-! ## One type -/

/-- `create_members` -/
def createMembers (members : List BtfMember) : List ClassMember :=
  (members.take (btfVlen members.length)).map fun mp =>
    { tag := .member
      name := cuBtfStr mp.name
      type := mp.type
      bitOffset := mp.bitOffset
      bitSize := 0
      byteOffset := mp.bitOffset / 8
      byteSize := 0
      bitfieldOffset := 0
      bitfieldSize := mp.bitfieldSize
      isStatic := false
      hasBitOffset := false }

/-- `create_new_class`, `create_new_union` -/
def createNewComposite (cu : LoadedCu) (isUnion : Bool) (name : Option String) (size : ℕ)
    (members : List BtfMember) (id : ℕ) : LoadedCu :=
  cu.addType (.aggregate
    { kind := if isUnion then .unionType else .structType
      name := cuBtfStr name
      type := 0
      size := size
      declaration := false
      members := createMembers members
      annots := [] }) id

/-- `create_new_forward_decl` -/
def createNewForwardDecl (cu : LoadedCu) (name : Option String) (isUnion : Bool) (id : ℕ) :
    LoadedCu :=
  cu.addType (.aggregate
    { kind := if isUnion then .unionType else .structType
      name := cuBtfStr name
      type := 0
      size := 0
      declaration := true
      members := []
      annots := [] }) id

/-- `create_new_int_type`, `create_new_float_type` -/
def createNewBaseType (cu : LoadedCu) (name : Option String) (size : ℕ)
    (encoding : IntEncoding) (floatType : FloatType) (id : ℕ) : LoadedCu :=
  cu.addType (.baseType
    { name := cuBtfStr name
      bitSize := size * 8
      nameHasEncoding := false
      isSigned := encoding = .signed
      isBool := encoding = .bool
      isVarargs := false
      floatType := floatType }) id

/-- The array that `create_new_array` makes: the dimensions of an inner array that is
already there are taken over. -/
def newArray (elemTag : Option Tag) (type nelems : ℕ) : Tag :=
  match elemTag with
  | some (.array innerType nrEntries) =>
      if nrEntries.length < 255 then .array innerType (nelems :: nrEntries)
      else .array type [nelems]
  | _ => .array type [nelems]

/-- `create_new_array` -/
def createNewArray (cu : LoadedCu) (type nelems id : ℕ) : LoadedCu :=
  cu.addType (newArray (cu.typesTable.entry type) type nelems) id

/-- `tp->size ? tp->size * 8 : (sizeof(int) * 8)` -/
def enumerationSize (size : ℕ) : ℕ := if size ≠ 0 then size * 8 else 32

/-- `kind_flag` of an `ENUM`, which libbpf sets when a negative value is added. -/
def btfEnumKflag (values : List (String × ℤ)) : Bool := values.any fun v => v.2 < 0

/-- `(__s32)x`: the `val` of a `struct btf_enum`. -/
def btfEnumVal (value : ℤ) : ℤ := Int.bmod value 4294967296

/-- `create_new_enumeration` -/
def createNewEnumeration (cu : LoadedCu) (name : Option String) (size : ℕ)
    (values : List (String × ℤ)) (id : ℕ) : LoadedCu :=
  let isSignedEnum := btfEnumKflag values
  cu.addType (.enumeration
    { name := cuBtfStr name
      type := 0
      size := enumerationSize size
      isSigned := isSignedEnum
      enumerators := (values.take (btfVlen values.length)).map fun ep =>
        ⟨true, ep.1, if isSignedEnum then u64 (btfEnumVal ep.2) else u32 (btfEnumVal ep.2)⟩ })
    id

/-- `btf_enum64_value`, of the two halves of a `struct btf_enum64`. -/
def btfEnum64Value (value : ℤ) : ℕ :=
  let valLo32 := u32 value
  let valHi32 := u32 (value / 4294967296)
  valHi32 * 4294967296 + valLo32

/-- `create_new_enumeration64` -/
def createNewEnumeration64 (cu : LoadedCu) (name : Option String) (size : ℕ)
    (isSigned : Bool) (values : List (String × ℤ)) (id : ℕ) : LoadedCu :=
  cu.addType (.enumeration
    { name := cuBtfStr name
      type := 0
      size := enumerationSize size
      isSigned := isSigned
      enumerators := (values.take (btfVlen values.length)).map fun ep =>
        ⟨true, ep.1, btfEnum64Value ep.2⟩ })
    id

/-- A parameter as `cu__load_ftype` makes it. -/
def loadedParameter (param : BtfParam) : Parameter where
  name := cuBtfStr param.name
  type := param.type
  trueSigMemberName := none
  idx := 0
  hasLoc := false
  optimized := false
  locReg := 0
  locReg2 := 0
  locOffset := 0
  locValue := 0
  locSize := 0
  hasConstValue := false
  locConstValue := false
  locStack := false
  locDeref := false
  locAddr := false
  locSigned := false

/-- `create_new_subroutine_type`, with `cu__load_ftype` -/
def createNewSubroutineType (cu : LoadedCu) (ret : ℕ) (params : List BtfParam) (id : ℕ) :
    LoadedCu :=
  let params := params.take (btfVlen params.length)
  cu.addType (.subroutine
    { type := ret
      parms := (params.filter fun param => param.type ≠ 0).map loadedParameter
      byteSize := 0
      unspecParms := params.any fun param => param.type = 0
      optimizedParms := false
      unexpectedReg := false
      inconsistentProto := false
      uncertainParmLoc := false
      reorderedParm := false
      signatureChanged := false }) id

/-- `create_new_typedef`, `create_new_function` and `create_new_tag`, of a type that
refers to another one.  A type tag becomes a bare tag, without its value. -/
def createNewRef (cu : LoadedCu) (kind : RefKind) (name : Option String) (type id : ℕ) :
    LoadedCu :=
  match kind with
  | .ptr => cu.addType (.pointer type) id
  | .typedef => cu.addType (.typedef (cuBtfStr name) type []) id
  | .volatile => cu.addType (.modifier .volatile type) id
  | .const => cu.addType (.modifier .const type) id
  | .restrict => cu.addType (.modifier .restrict type) id
  | .func => cu.addFunction ⟨cuBtfStr name, type⟩ id
  | .typeTag | .typeAttr => cu.addType (.llvmAnnotationType "" type) id

/-- `create_new_variable`, where `BTF_VAR_GLOBAL_ALLOCATED` is 1 -/
def createNewVariable (cu : LoadedCu) (name : String) (linkage type id : ℕ) : LoadedCu :=
  cu.addVariable ⟨cuBtfStr (some name), linkage = 1, type⟩ id

/-! ## The two loops -/

/-- One round of the loop of `btf__load_types`. -/
def createNew (cu : LoadedCu) (id : ℕ) : BtfType → LoadedCu
  | .int name size encoding => createNewBaseType cu name size encoding .none id
  | .float name size => createNewBaseType cu name size .none .single id
  | .ref kind name type => createNewRef cu kind name type id
  | .fwd name isUnion => createNewForwardDecl cu name isUnion id
  | .array type _ nelems => createNewArray cu type nelems id
  | .composite isUnion name size members => createNewComposite cu isUnion name size members id
  | .enum name size values => createNewEnumeration cu name size values id
  | .enum64 name size isSigned values => createNewEnumeration64 cu name size isSigned values id
  | .funcProto ret params => createNewSubroutineType cu ret params id
  | .var name linkage type => createNewVariable cu name linkage type id
  | .datasec .. | .declTag .. | .locParam .. | .locProto .. | .locsec .. => cu

def BtfType.isDeclTag : BtfType → Bool
  | .declTag .. => true
  | _ => false

/-- The first loop of `btf__load_types`, from a type on.  Nothing is assigned to `err`
for a declaration tag. -/
def createAll (err : ℤ) (id : ℕ) (cu : LoadedCu) : List BtfType → Except ℤ LoadedCu
  | [] => .ok cu
  | type :: rest =>
      let err := if type.isDeclTag then err else 0
      if err < 0 then .error err else createAll err (id + 1) (createNew cu id type) rest

/-- `ftype__parameter` -/
def ftypeParameter (ftype : Ftype) (componentIdx : ℤ) : Bool :=
  0 ≤ componentIdx ∧ componentIdx < ftype.parms.length

/-- `function__parameter` -/
def functionParameter (cu : LoadedCu) (func : LoadedFunction) (componentIdx : ℤ) :
    Option TagRef :=
  if componentIdx < 0 then none
  else
    match cu.typesTable.entry func.type with
    | some (.subroutine ftype) =>
        if ftypeParameter ftype componentIdx then some (.parameter func.type componentIdx.toNat)
        else none
    | _ => none

/-- The tag that `process_decl_tag` gives the attribute to.  The result of `cu__type` is
overwritten before it is looked at. -/
def declTagTarget (cu : LoadedCu) (type : ℕ) (componentIdx : ℤ) : Option TagRef :=
  let other := (cu.tagsTable.entry type).map fun _ => TagRef.tag type
  match cu.functionsTable.entry type with
  | some func =>
      if 0 ≤ componentIdx then functionParameter cu func componentIdx
      else some (.function type)
  | none => other

/-- `process_decl_tag`: a tag that is not found is warned about. -/
def processDeclTag (cu : LoadedCu) (value : String) (type : ℕ) (componentIdx : ℤ) :
    LoadedCu :=
  match declTagTarget cu type componentIdx with
  | some tag =>
      { cu with
        attributes := Function.update cu.attributes tag
          (cu.attributes tag ++ [cuBtfStr (some value)]) }
  | none => cu

/-- The second loop of `btf__load_types`. -/
def processDeclTags (cu : LoadedCu) : List BtfType → LoadedCu
  | [] => cu
  | .declTag value type componentIdx :: rest =>
      processDeclTags (processDeclTag cu value type componentIdx) rest
  | _ :: rest => processDeclTags cu rest

/-- `btf__load_types`.  What `err` holds before the first loop is not known. -/
def btfLoadTypes (err : ℤ) (types : List BtfType) : Except ℤ LoadedCu := do
  let cu ← createAll err 1 .new types
  return processDeclTags cu types

/-! ## The table after the first loop -/

/-- The tags of all types, from an id on. -/
def loadedFrom (id : ℕ) (cu : LoadedCu) : List BtfType → LoadedCu
  | [] => cu
  | type :: rest => loadedFrom (id + 1) (createNew cu id type) rest

theorem createAll_ok {err : ℤ} (h : 0 ≤ err) (id : ℕ) (cu : LoadedCu)
    (types : List BtfType) : createAll err id cu types = .ok (loadedFrom id cu types) := by
  induction types generalizing err id cu with
  | nil => rfl
  | cons type rest ih =>
      have herr : 0 ≤ if type.isDeclTag then err else 0 := by
        split
        · exact h
        · exact le_refl 0
      rw [createAll, if_neg (not_lt.mpr herr), ih herr, loadedFrom]

section CreateNew

variable {cu : LoadedCu} {id i : ℕ} {type : BtfType}

@[simp] theorem addType_types (tag : Tag) :
    (cu.addType tag id).typesTable = cu.typesTable.addWithId (some tag) id := rfl

@[simp] theorem addType_functions (tag : Tag) :
    (cu.addType tag id).functionsTable = cu.functionsTable := rfl

@[simp] theorem addType_tags (tag : Tag) : (cu.addType tag id).tagsTable = cu.tagsTable := rfl

@[simp] theorem addType_attributes (tag : Tag) :
    (cu.addType tag id).attributes = cu.attributes := rfl

/-- Loading a type adds a type under its id, adds something else, or nothing. -/
theorem createNew_cases (cu : LoadedCu) (id : ℕ) (type : BtfType) :
    (∃ tag, createNew cu id type = cu.addType tag id) ∨
      (∃ func, createNew cu id type = cu.addFunction func id) ∨
        (∃ var, createNew cu id type = cu.addVariable var id) ∨ createNew cu id type = cu := by
  cases type with
  | ref kind name type =>
      cases kind with
      | func => exact Or.inr (Or.inl ⟨_, rfl⟩)
      | _ => exact Or.inl ⟨_, rfl⟩
  | var name linkage type => exact Or.inr (Or.inr (Or.inl ⟨_, rfl⟩))
  | datasec name size vars => exact Or.inr (Or.inr (Or.inr rfl))
  | declTag value type componentIdx => exact Or.inr (Or.inr (Or.inr rfl))
  | locParam size flags values => exact Or.inr (Or.inr (Or.inr rfl))
  | locProto params => exact Or.inr (Or.inr (Or.inr rfl))
  | locsec name entries => exact Or.inr (Or.inr (Or.inr rfl))
  | _ => exact Or.inl ⟨_, rfl⟩

/-- Loading a type leaves the entries of all other ids as they are. -/
theorem createNew_of_ne (cu : LoadedCu) (type : BtfType) (h : i ≠ id) :
    (createNew cu id type).typesTable.entry i = cu.typesTable.entry i ∧
      (createNew cu id type).functionsTable.entry i = cu.functionsTable.entry i ∧
        (createNew cu id type).tagsTable.entry i = cu.tagsTable.entry i := by
  rcases createNew_cases cu id type with ⟨x, hx⟩ | ⟨x, hx⟩ | ⟨x, hx⟩ | hx
  · rw [hx]
    exact ⟨PtrTable.entry_addWithId_of_ne _ _ h, rfl, rfl⟩
  · rw [hx]
    exact ⟨rfl, PtrTable.entry_addWithId_of_ne _ _ h, rfl⟩
  · rw [hx]
    exact ⟨rfl, rfl, PtrTable.entry_addWithId_of_ne _ _ h⟩
  · rw [hx]
    exact ⟨rfl, rfl, rfl⟩

theorem createNew_attributes : (createNew cu id type).attributes = cu.attributes := by
  rcases createNew_cases cu id type with ⟨x, hx⟩ | ⟨x, hx⟩ | ⟨x, hx⟩ | hx <;> rw [hx] <;> rfl

end CreateNew

section LoadedFrom

variable {cu : LoadedCu} {id i : ℕ} {types : List BtfType}

theorem loadedFrom_append (id : ℕ) (cu : LoadedCu) (xs ys : List BtfType) :
    loadedFrom id cu (xs ++ ys) = loadedFrom (id + xs.length) (loadedFrom id cu xs) ys := by
  induction xs generalizing id cu with
  | nil => rfl
  | cons x xs ih =>
      have hlen : id + (x :: xs).length = id + 1 + xs.length := by
        rw [List.length_cons]
        omega
      rw [List.cons_append, loadedFrom, ih, loadedFrom, hlen]

theorem loadedFrom_attributes : (loadedFrom id cu types).attributes = cu.attributes := by
  induction types generalizing id cu with
  | nil => rfl
  | cons type rest ih => rw [loadedFrom, ih, createNew_attributes]

/-- Loading types leaves the entries of smaller ids as they are. -/
theorem loadedFrom_of_lt (cu : LoadedCu) (h : i < id) :
    (loadedFrom id cu types).typesTable.entry i = cu.typesTable.entry i ∧
      (loadedFrom id cu types).functionsTable.entry i = cu.functionsTable.entry i ∧
        (loadedFrom id cu types).tagsTable.entry i = cu.tagsTable.entry i := by
  induction types generalizing id cu with
  | nil => exact ⟨rfl, rfl, rfl⟩
  | cons type rest ih =>
      obtain ⟨htypes, hfunctions, htags⟩ := ih (createNew cu id type) (Nat.lt_succ_of_lt h)
      obtain ⟨htypes', hfunctions', htags'⟩ :=
        createNew_of_ne cu type (Nat.ne_of_lt h)
      rw [loadedFrom]
      exact ⟨htypes.trans htypes', hfunctions.trans hfunctions', htags.trans htags'⟩

/-- Loading types leaves the entries of larger ids as they are. -/
theorem loadedFrom_of_le (cu : LoadedCu) (types : List BtfType) (h : id + types.length ≤ i) :
    (loadedFrom id cu types).typesTable.entry i = cu.typesTable.entry i ∧
      (loadedFrom id cu types).functionsTable.entry i = cu.functionsTable.entry i ∧
        (loadedFrom id cu types).tagsTable.entry i = cu.tagsTable.entry i := by
  induction types generalizing id cu with
  | nil => exact ⟨rfl, rfl, rfl⟩
  | cons type rest ih =>
      rw [List.length_cons] at h
      have hle : id + 1 + rest.length ≤ i := by omega
      have hne : i ≠ id := by omega
      obtain ⟨htypes, hfunctions, htags⟩ := ih (createNew cu id type) hle
      obtain ⟨htypes', hfunctions', htags'⟩ := createNew_of_ne cu type hne
      rw [loadedFrom]
      exact ⟨htypes.trans htypes', hfunctions.trans hfunctions', htags.trans htags'⟩

end LoadedFrom

/-- The CU loaded for all types of a BTF. -/
abbrev loadedTypes (types : List BtfType) : LoadedCu := loadedFrom 1 .new types

/-- After loading, the entries of an id are those that its type was given. -/
theorem loadedTypes_entry (pre post : List BtfType) (type : BtfType) :
    let cu := loadedTypes (pre ++ type :: post)
    let cu' := createNew (loadedTypes pre) (pre.length + 1) type
    cu.typesTable.entry (pre.length + 1) = cu'.typesTable.entry (pre.length + 1) ∧
      cu.functionsTable.entry (pre.length + 1) = cu'.functionsTable.entry (pre.length + 1) ∧
        cu.tagsTable.entry (pre.length + 1) = cu'.tagsTable.entry (pre.length + 1) := by
  intro cu cu'
  have hcu : cu = loadedFrom (pre.length + 1 + 1) cu' post := by
    rw [show cu = loadedFrom 1 .new (pre ++ type :: post) from rfl, loadedFrom_append,
      Nat.add_comm 1 pre.length]
    rfl
  rw [hcu]
  exact loadedFrom_of_lt _ (Nat.lt_succ_self _)

theorem processDeclTags_typesTable (cu : LoadedCu) (types : List BtfType) :
    (processDeclTags cu types).typesTable = cu.typesTable := by
  induction types generalizing cu with
  | nil => rfl
  | cons type rest ih =>
      cases type with
      | declTag value type componentIdx =>
          rw [processDeclTags, ih]
          unfold processDeclTag
          split <;> rfl
      | _ => exact ih cu

theorem createAll_cases (err : ℤ) (id : ℕ) (cu : LoadedCu) (types : List BtfType) :
    createAll err id cu types = .ok (loadedFrom id cu types) ∨
      createAll err id cu types = .error err := by
  induction types generalizing id cu with
  | nil => exact Or.inl rfl
  | cons type rest ih =>
      rw [createAll, loadedFrom]
      by_cases hkind : type.isDeclTag = true
      · rw [if_pos hkind]
        split
        · exact Or.inr rfl
        · exact ih _ _
      · rw [if_neg hkind, if_neg (lt_irrefl 0), createAll_ok (le_refl 0)]
        exact Or.inl rfl

/-- Loading the types makes a type with the property under the id.  It does so whenever
it succeeds, and it succeeds if `err` is not negative at the start. -/
def LoadsTo (types : List BtfType) (id : ℕ) (P : Tag → Prop) : Prop :=
  (∃ cu, btfLoadTypes 0 types = .ok cu) ∧
    ∀ err cu, btfLoadTypes err types = .ok cu →
      ∃ tag, cu.typesTable.entry id = some tag ∧ P tag

theorem loadsTo_of_entry {types : List BtfType} {id : ℕ} {P : Tag → Prop} {tag : Tag}
    (h : (loadedTypes types).typesTable.entry id = some tag) (hP : P tag) :
    LoadsTo types id P := by
  constructor
  · refine ⟨processDeclTags (loadedTypes types) types, ?_⟩
    rw [btfLoadTypes, createAll_ok (le_refl 0)]
    rfl
  · intro err cu hcu
    refine ⟨tag, ?_, hP⟩
    rw [btfLoadTypes] at hcu
    rcases createAll_cases err 1 .new types with hall | hall
    · rw [hall] at hcu
      obtain rfl := Except.ok.inj hcu
      rw [processDeclTags_typesTable]
      exact h
    · rw [hall] at hcu
      cases hcu

end Pahole

import Pahole.BtfEncoder.AddTypes

/-!
# Encoding one tag

`btf_encoder__encode_tag` turns an entry of the types table into the BTF types it
takes.  Its plan is given tag by tag, and so are the types that the plan leaves
behind: as many as `tag__nr_btf_ids` predicts, the last one standing for the tag.
-/

namespace Pahole

open FallibleTable

/-! ## The encoder -/

/-- `btf_encoder__add_struct_type` -/
def addStructType (enc : Encoder) (ty : Aggregate) : BtfM Encoder ℤ :=
  andThen (addStruct (ty.kind = .unionType) ty.name ty.size) fun typeId =>
    orMinusOne
      (forEach (fun pos => addField pos.name (enc.tagType pos.type) pos.bitfieldSize
        pos.bitOffset) ty.dataMembers)
      (return typeId)

/-- The entries that `btf_encoder__add_enum_type` does not skip. -/
def Enumeration.values (etype : Enumeration) : List Enumerator :=
  etype.enumerators.filter Enumerator.isEnumerator

/-- `btf_encoder__add_enum_type` -/
def addEnumType (etype : Enumeration) (conf : ConfLoad) : BtfM Encoder ℤ :=
  andThen (addEnum etype.name etype conf) fun typeId =>
    orMinusOne (forEach (fun pos => addEnumVal pos.name pos.value conf) etype.values)
      (return typeId)

/-- The loop of `btf_encoder__encode_tag` over the dimensions of an array, innermost
first: `nelems`, then those of the list. -/
def addDimensions (indexType nelems : ℕ) : List ℕ → (type : ℕ) → BtfM Encoder ℤ
  | [], type => addArray type indexType nelems
  | n :: rest, type =>
      andThen (addArray type indexType nelems) fun id =>
        addDimensions indexType n rest (u32 id)

/-- `btf_encoder__encode_tag` -/
def encodeTag (conf : ConfLoad) (tag : Tag) : BtfM Encoder ℤ := do
  let enc := (← getTable).client
  let refTypeId := enc.tagType tag.type
  match tag with
  | .baseType bt => addBaseType enc.genFloats bt bt.name
  | .modifier .const _ => addRefType .const refTypeId none
  | .pointer _ => addRefType .ptr refTypeId none
  | .modifier .restrict _ => addRefType .restrict refTypeId none
  | .modifier .volatile _ => addRefType .volatile refTypeId none
  | .typedef name _ _ => addRefType .typedef refTypeId name
  | .llvmAnnotationType value _ => addRefType .typeTag refTypeId (some value)
  | .aggregate ty =>
      if ty.declaration then addFwdType ty.name (ty.kind = .unionType) else addStructType enc ty
  | .array _ nrEntries =>
      modifyClient fun enc => { enc with needIndexType := true }
      match nrEntries.reverse with
      | [] => addArray refTypeId enc.arrayIndexId 0
      | nelems :: rest => addDimensions enc.arrayIndexId nelems rest refTypeId
  | .enumeration ty => addEnumType ty conf
  | .subroutine ftype => addFuncProtoForFtype enc ftype
  | .unspecified => return 0
  | .modifier .atomic _ | .reference _ | .unsupported _ _ => return -1

/-! ## The plan of a tag -/

/-- The plan of a type that takes a single call. -/
abbrev typePlan (t : BtfType) : BtfPlan Encoder := callPlan .type (.append t)

/-- The BTF type that a struct, union or class starts from. -/
def Aggregate.btfStart (ty : Aggregate) : BtfType :=
  .composite (ty.kind = .unionType) ty.name ty.size []

/-- The BTF members of a struct, union or class. -/
def Aggregate.btfMembers (ref : TypeId → ℕ) (ty : Aggregate) : List BtfMember :=
  ty.dataMembers.map fun pos => ⟨pos.name, ref pos.type, pos.bitOffset, pos.bitfieldSize⟩

/-- The plan of a struct, union or class. -/
def Aggregate.plan (ref : TypeId → ℕ) (ty : Aggregate) : BtfPlan Encoder :=
  if ty.declaration then typePlan (.fwd ty.name (ty.kind = .unionType))
  else buildPlan .type .type ty.btfStart BtfType.addField (ty.btfMembers ref)

/-- The BTF type that an enumeration starts from. -/
def Enumeration.btfStart (etype : Enumeration) (conf : ConfLoad) : BtfType :=
  let size := bitsRoundupBytes etype.size
  if size ≤ 4 ∨ conf.skipEncodingBtfEnum64 then .enum etype.name size []
  else .enum64 etype.name size etype.isSigned []

/-- The calls for the dimensions of an array after the innermost: each refers to the
array added before it. -/
def dimensionsPlan (indexType : ℕ) (dims : List ℕ) : BtfPlan Encoder :=
  dims.map fun nelems =>
    .call .type fun t => .append (.array (u32 (lastId t)) indexType nelems)

/-- The plan of an array with the given dimensions, innermost first. -/
def arrayPlan (ref indexType : ℕ) : List ℕ → BtfPlan Encoder
  | [] => typePlan (.array ref indexType 0)
  | nelems :: rest =>
      typePlan (.array ref indexType nelems) ++ dimensionsPlan indexType rest

/-- The BTF parameters of a subroutine type. -/
def Ftype.btfParams (ref : TypeId → ℕ) (ftype : Ftype) : List BtfParam :=
  ftype.parms.map (fun p => ⟨p.name, ref p.type⟩) ++
    if ftype.unspecParms then [⟨none, 0⟩] else []

/-- How the references of a CU and its array indexes are encoded. -/
structure Resolution where
  ref : TypeId → ℕ
  arrayIndexId : ℕ

def Encoder.resolution (enc : Encoder) : Resolution := ⟨enc.tagType, enc.arrayIndexId⟩

/-- The plan of a tag.  It depends on the encoder by `genFloats` only, besides the
resolution of references. -/
def Tag.plan (res : Resolution) (genFloats : Bool) (conf : ConfLoad) :
    Tag → BtfPlan Encoder
  | .baseType bt => appendPlan (bt.btfType genFloats bt.name)
  | .modifier .const type => typePlan (.ref .const none (res.ref type))
  | .pointer type => typePlan (.ref .ptr none (res.ref type))
  | .modifier .restrict type => typePlan (.ref .restrict none (res.ref type))
  | .modifier .volatile type => typePlan (.ref .volatile none (res.ref type))
  | .typedef name type _ => typePlan (.ref .typedef name (res.ref type))
  | .llvmAnnotationType value type => typePlan (.ref .typeTag (some value) (res.ref type))
  | .aggregate ty => ty.plan res.ref
  | .array type nrEntries =>
      .set (fun t => { t.client with needIndexType := true }) ::
        arrayPlan (res.ref type) res.arrayIndexId nrEntries.reverse
  | .enumeration ty =>
      buildPlan .type .type (ty.btfStart conf)
        (fun e => BtfType.addEnumValue e.name (enumValue e.value conf)) ty.values
  | .subroutine ftype => protoPlan (res.ref ftype.type) (ftype.btfParams res.ref)
  | .unspecified => []
  | .modifier .atomic _ | .reference _ | .unsupported _ _ => [Step.abort]

/-- The value that `btf_encoder__encode_tag` returns when no call fails. -/
def Tag.val : Tag → Table BtfType Encoder → ℤ
  | .unspecified => fun _ => 0
  | _ => lastId

theorem makes_addStructType (enc : Encoder) (ty : Aggregate) (s : Btf Encoder) :
    Makes (addStructType enc ty) s
      (buildPlan .type .type ty.btfStart BtfType.addField (ty.btfMembers enc.tagType))
      lastId := by
  have h := makes_build .type (addStruct (ty.kind = .unionType) ty.name ty.size)
    (f := fun pos : ClassMember => BtfType.addField
      ⟨pos.name, enc.tagType pos.type, pos.bitOffset, pos.bitfieldSize⟩) rfl
    (makes_addLogged .type rfl ty.btfStart)
    (fun pos => makes_addField pos.name (enc.tagType pos.type) pos.bitfieldSize pos.bitOffset)
    ty.dataMembers s
  have hplan : buildPlan (β := Encoder) .type .type ty.btfStart BtfType.addField
      (ty.btfMembers enc.tagType) =
      buildPlan .type .type ty.btfStart (fun pos : ClassMember => BtfType.addField
        ⟨pos.name, enc.tagType pos.type, pos.bitOffset, pos.bitfieldSize⟩)
        ty.dataMembers := by
    simp [buildPlan, editPlan, Aggregate.btfMembers, List.flatMap_map]
  rw [hplan]
  exact h

theorem makes_addEnumType (ty : Enumeration) (conf : ConfLoad) (s : Btf Encoder) :
    Makes (addEnumType ty conf) s
      (buildPlan .type .type (ty.btfStart conf)
        (fun e => BtfType.addEnumValue e.name (enumValue e.value conf)) ty.values)
      lastId := by
  have hadd : addEnum (β := Encoder) ty.name ty conf = addLogged (ty.btfStart conf) := by
    unfold addEnum Enumeration.btfStart
    dsimp only
    split <;> rfl
  unfold addEnumType
  rw [hadd]
  exact makes_build .type _
    (f := fun e : Enumerator => BtfType.addEnumValue e.name (enumValue e.value conf)) rfl
    (makes_addLogged .type rfl _) (fun e => makes_addEnumVal e.name e.value conf)
    ty.values s

theorem makes_addDimensions (indexType nelems : ℕ) (rest : List ℕ) (type : ℕ)
    (s : Btf Encoder) :
    Makes (addDimensions indexType nelems rest type) s
      (typePlan (.array type indexType nelems) ++ dimensionsPlan indexType rest)
      lastId := by
  induction rest generalizing nelems type s with
  | nil =>
      rw [show dimensionsPlan indexType [] = [] from rfl, List.append_nil]
      exact makes_addLogged _ rfl _ s
  | cons n rest ih =>
      exact Follows.andThen (makes_addLogged _ rfl _ s) fun s' _ _ => ih n _ s'

theorem makes_encodeTag (conf : ConfLoad) (tag : Tag) (s : Btf Encoder) :
    Makes (encodeTag conf tag) s
      (tag.plan s.table.client.resolution s.table.client.genFloats conf) tag.val := by
  cases tag with
  | baseType bt => exact makes_addBaseType _ bt bt.name s
  | pointer type => exact makes_addLogged _ rfl _ s
  | reference type => exact follows_abort (by decide) s
  | modifier kind type =>
      cases kind with
      | const => exact makes_addLogged _ rfl _ s
      | volatile => exact makes_addLogged _ rfl _ s
      | restrict => exact makes_addLogged _ rfl _ s
      | atomic => exact follows_abort (by decide) s
  | typedef name type annots => exact makes_addLogged _ rfl _ s
  | llvmAnnotationType value type => exact makes_addLogged _ rfl _ s
  | aggregate ty =>
      refine Runs.of_eq (q := if ty.declaration then addFwdType ty.name (ty.kind = .unionType)
        else addStructType s.table.client ty) ?_ ?_
      · simp only [encodeTag, getTable, bind, EStateM.bind]
      change Makes _ s (ty.plan _) lastId
      unfold Aggregate.plan
      split
      · exact makes_addLogged _ rfl _ s
      · exact makes_addStructType s.table.client ty s
  | array type nrEntries =>
      set enc := s.table.client
      set s' := s.setClient { enc with needIndexType := true }
      change Makes _ s (.set _ :: arrayPlan _ _ nrEntries.reverse) lastId
      refine Runs.set (q := match nrEntries.reverse with
        | [] => addArray (enc.tagType type) enc.arrayIndexId 0
        | nelems :: rest =>
            addDimensions enc.arrayIndexId nelems rest (enc.tagType type)) ?_ ?_
      · simp only [encodeTag, getTable, modifyClient, bind, EStateM.bind]
        rfl
      cases nrEntries.reverse with
      | nil => exact makes_addLogged _ rfl _ s'
      | cons nelems rest => exact makes_addDimensions _ nelems rest _ s'
  | enumeration ty => exact makes_addEnumType ty conf s
  | subroutine ftype => exact makes_addFuncProtoForFtype s.table.client ftype s
  | unspecified => exact follows_return (le_refl 0) s
  | unsupported tag type => exact follows_abort (by decide) s

/-! ## The BTF after a plan -/

/-- The arrays for the dimensions after the innermost one, given the id of the array
before them. -/
def dimensionTypes (indexType : ℕ) : (prev : ℕ) → List ℕ → List BtfType
  | _, [] => []
  | prev, nelems :: rest =>
      .array prev indexType nelems :: dimensionTypes indexType (prev + 1) rest

/-- The arrays for the given dimensions, innermost first, when the first of them
gets the id `next`. -/
def arrayTypes (ref indexType next : ℕ) : List ℕ → List BtfType
  | [] => [.array ref indexType 0]
  | nelems :: rest => .array ref indexType nelems :: dimensionTypes indexType next rest

/-- The BTF types that a tag turns into, when the first of them gets the id `next`. -/
def Tag.btfTypes (res : Resolution) (genFloats : Bool) (conf : ConfLoad) (next : ℕ) :
    Tag → List BtfType
  | .baseType bt => (bt.btfType genFloats bt.name).toList
  | .modifier .const type => [.ref .const none (res.ref type)]
  | .pointer type => [.ref .ptr none (res.ref type)]
  | .modifier .restrict type => [.ref .restrict none (res.ref type)]
  | .modifier .volatile type => [.ref .volatile none (res.ref type)]
  | .typedef name type _ => [.ref .typedef name (res.ref type)]
  | .llvmAnnotationType value type => [.ref .typeTag (some value) (res.ref type)]
  | .aggregate ty =>
      if ty.declaration then [.fwd ty.name (ty.kind = .unionType)]
      else [.composite (ty.kind = .unionType) ty.name ty.size (ty.btfMembers res.ref)]
  | .array type nrEntries =>
      arrayTypes (res.ref type) res.arrayIndexId next nrEntries.reverse
  | .enumeration ty =>
      [built (ty.btfStart conf)
        (fun e => BtfType.addEnumValue e.name (enumValue e.value conf)) ty.values]
  | .subroutine ftype => [.funcProto (res.ref ftype.type) (ftype.btfParams res.ref)]
  | .unspecified | .modifier .atomic _ | .reference _ | .unsupported _ _ => []

/-- Whether a tag can be expressed in BTF. -/
def Tag.encodable (genFloats : Bool) : Tag → Bool
  | .baseType bt => (bt.btfType genFloats bt.name).isSome
  | .modifier .atomic _ | .reference _ | .unsupported _ _ => false
  | _ => true

def Tag.isArray : Tag → Bool
  | .array _ _ => true
  | _ => false

/-- Encoding an array sets `need_index_type`. -/
def Tag.noted (enc : Encoder) : Tag → Encoder
  | .array _ _ => { enc with needIndexType := true }
  | _ => enc

theorem built_addField (isUnion : Bool) (name : Option String) (size : ℕ)
    (start members : List BtfMember) :
    built (.composite isUnion name size start) BtfType.addField members =
      .composite isUnion name size (start ++ members) :=
  built_appends (fun _ _ => rfl) start members

theorem built_addFuncParam (ret : ℕ) (start params : List BtfParam) :
    built (.funcProto ret start) BtfType.addFuncParam params =
      .funcProto ret (start ++ params) :=
  built_appends (fun _ _ => rfl) start params

theorem length_dimensionTypes (indexType prev : ℕ) (dims : List ℕ) :
    (dimensionTypes indexType prev dims).length = dims.length := by
  induction dims generalizing prev with
  | nil => rfl
  | cons n rest ih => simp [dimensionTypes, ih]

/-- The encoder emits as many types for a tag as the prediction counts. -/
theorem Tag.length_btfTypes {res : Resolution} {genFloats : Bool} {conf : ConfLoad}
    {next : ℕ} {tag : Tag} (h : tag.encodable genFloats = true) :
    (tag.btfTypes res genFloats conf next).length = tag.nrBtfIds := by
  cases tag with
  | baseType bt =>
      obtain ⟨t, ht⟩ := Option.isSome_iff_exists.mp h
      simp [Tag.btfTypes, ht, Tag.nrBtfIds]
  | modifier kind type =>
      cases kind with
      | atomic => simp [Tag.encodable] at h
      | const => rfl
      | volatile => rfl
      | restrict => rfl
  | aggregate ty =>
      simp only [Tag.btfTypes]
      split <;> rfl
  | array type nrEntries =>
      have hlen : nrEntries.length = nrEntries.reverse.length := by simp
      simp only [Tag.btfTypes, Tag.nrBtfIds]
      cases hrev : nrEntries.reverse with
      | nil =>
          rw [hlen, hrev]
          rfl
      | cons n rest =>
          rw [hlen, hrev]
          simp [arrayTypes, length_dimensionTypes]
  | reference type => simp [Tag.encodable] at h
  | unsupported tag type => simp [Tag.encodable] at h
  | pointer type => rfl
  | typedef name type annots => rfl
  | llvmAnnotationType value type => rfl
  | enumeration ty => rfl
  | subroutine ftype => rfl
  | unspecified => rfl

theorem run_typePlan (u : BtfType) (t : Table BtfType Encoder) :
    (typePlan u).run t = { t with items := t.items ++ [u] } := rfl

theorem run_dimensionsPlan (indexType : ℕ) (dims : List ℕ) (t : Table BtfType Encoder)
    (hsmall : t.cnt + dims.length ≤ 4294967296) (hpos : 0 < t.items.length) :
    (dimensionsPlan indexType dims).run t =
      { t with items := t.items ++ dimensionTypes indexType (t.cnt - 1) dims } := by
  induction dims generalizing t with
  | nil => simp [dimensionsPlan, dimensionTypes]
  | cons n rest ih =>
      have hlast : u32 (lastId t) = t.cnt - 1 := by
        have : lastId t = ((t.cnt - 1 : ℕ) : ℤ) := by
          simp only [lastId, Table.cnt]
          omega
        rw [this]
        refine u32_of_lt ?_
        simp only [List.length_cons] at hsmall
        omega
      have hcnt : (t.served (.append (.array (u32 (lastId t)) indexType n))).cnt - 1 =
          t.cnt - 1 + 1 := by
        rw [cnt_served_append]
        simp only [Table.cnt]
        omega
      have hrec := ih (t.served (.append (.array (u32 (lastId t)) indexType n)))
        (by
          rw [cnt_served_append]
          simp only [List.length_cons] at hsmall
          omega)
        (by simp [Table.served, Op.apply])
      simp only [dimensionsPlan, List.map_cons, run_cons, Table.after] at hrec ⊢
      rw [hrec, hcnt]
      simp only [Table.served, Op.apply, dimensionTypes, hlast, List.append_assoc,
        List.cons_append, List.nil_append]

theorem cnt_dimensionsPlan (indexType : ℕ) (dims : List ℕ) (t : Table BtfType Encoder) :
    ((dimensionsPlan indexType dims).run t).cnt = t.cnt + dims.length := by
  induction dims generalizing t with
  | nil => rfl
  | cons n rest ih =>
      simp only [dimensionsPlan, List.map_cons, run_cons, Table.after] at ih ⊢
      rw [ih, cnt_served_append, List.length_cons]
      omega

theorem run_arrayPlan (ref indexType : ℕ) (dims : List ℕ) (t : Table BtfType Encoder)
    (hsmall : t.cnt + dims.length ≤ 4294967296) :
    (arrayPlan ref indexType dims).run t =
      { t with items := t.items ++ arrayTypes ref indexType t.cnt dims } := by
  cases dims with
  | nil => rfl
  | cons n rest =>
      have hrest := run_dimensionsPlan indexType rest
        { t with items := t.items ++ [.array ref indexType n] }
        (by
          simp only [Table.cnt, List.length_cons, List.length_append, List.length_nil] at hsmall ⊢
          omega)
        (by simp)
      have hcnt : Table.cnt { t with items := t.items ++ [.array ref indexType n] } - 1 =
          t.cnt := by
        simp [Table.cnt]
        omega
      rw [hcnt] at hrest
      simp only [arrayPlan, run_append, run_typePlan, hrest, arrayTypes, List.append_assoc,
        List.cons_append, List.nil_append]

/-- The plan of a tag, when no call fails, appends the BTF types of the tag. -/
theorem Tag.run_plan {res : Resolution} {genFloats : Bool} {conf : ConfLoad} {tag : Tag}
    (t : Table BtfType Encoder)
    (hsmall : tag.isArray = true → t.cnt + tag.nrBtfIds ≤ 4294967296) :
    (tag.plan res genFloats conf).run t =
      { t with
        items := t.items ++ tag.btfTypes res genFloats conf t.cnt
        client := tag.noted t.client } := by
  cases tag with
  | baseType bt =>
      simp only [Tag.plan, appendPlan, Tag.btfTypes, Tag.noted]
      cases bt.btfType genFloats bt.name with
      | none => simp [Step.abort, Table.after]
      | some u => rfl
  | modifier kind type =>
      cases kind with
      | atomic => simp [Tag.plan, Tag.btfTypes, Step.abort, Table.after, Tag.noted]
      | const => rfl
      | volatile => rfl
      | restrict => rfl
  | aggregate ty =>
      simp only [Tag.plan, Aggregate.plan, Tag.btfTypes, Tag.noted]
      split
      · rfl
      · rw [run_buildPlan, Aggregate.btfStart, built_addField, List.nil_append]
  | array type nrEntries =>
      simp only [Tag.plan, run_cons]
      rw [run_arrayPlan]
      · rfl
      · have hdims : nrEntries.reverse.length ≤ Tag.nrBtfIds (.array type nrEntries) := by
          simp only [Tag.nrBtfIds, List.length_reverse]
          split <;> omega
        have := hsmall rfl
        change t.cnt + nrEntries.reverse.length ≤ 4294967296
        omega
  | enumeration ty => exact run_buildPlan _ _ _ _ _ t
  | subroutine ftype =>
      simp only [Tag.plan, protoPlan, Tag.btfTypes, Tag.noted]
      rw [run_buildPlan, built_addFuncParam, List.nil_append]
  | reference type => simp [Tag.plan, Tag.btfTypes, Step.abort, Table.after, Tag.noted]
  | unsupported tag type => simp [Tag.plan, Tag.btfTypes, Step.abort, Table.after, Tag.noted]
  | unspecified => simp [Tag.plan, Tag.btfTypes, Tag.noted]
  | pointer type => rfl
  | typedef name type annots => rfl
  | llvmAnnotationType value type => rfl

/-- The plan of a tag takes as many ids as the prediction counts. -/
theorem Tag.cnt_run_plan {res : Resolution} {genFloats : Bool} {conf : ConfLoad} {tag : Tag}
    (t : Table BtfType Encoder) (h : tag.encodable genFloats = true) :
    ((tag.plan res genFloats conf).run t).cnt = t.cnt + tag.nrBtfIds := by
  by_cases harr : tag.isArray = true
  · cases tag with
    | array type nrEntries =>
        have hlen : nrEntries.length = nrEntries.reverse.length := by simp
        simp only [Tag.plan, run_cons, Tag.nrBtfIds]
        cases hrev : nrEntries.reverse with
        | nil =>
            rw [hlen, hrev]
            exact cnt_served_append _ _
        | cons n rest =>
            rw [hlen, hrev]
            simp only [arrayPlan, run_append, cnt_dimensionsPlan, callPlan, run_cons,
              run_nil, Table.after, cnt_served_append, List.length_cons]
            simp only [Table.cnt]
            split <;> omega
    | _ => simp [Tag.isArray] at harr
  · rw [Tag.run_plan t fun h => absurd h harr]
    have hlen : (tag.btfTypes res genFloats conf t.cnt).length = _ := Tag.length_btfTypes h
    rw [← hlen]
    simp only [Table.cnt, List.length_append]
    omega

theorem Tag.client_run_plan {res : Resolution} {genFloats : Bool} {conf : ConfLoad}
    {tag : Tag} (t : Table BtfType Encoder) :
    ((tag.plan res genFloats conf).run t).client = tag.noted t.client := by
  by_cases harr : tag.isArray = true
  · cases tag with
    | array type nrEntries =>
        simp only [Tag.plan, run_cons]
        rw [run_client]
        · rfl
        · intro f hf
          cases hrev : nrEntries.reverse with
          | nil => simp [hrev, arrayPlan, callPlan] at hf
          | cons n rest => simp [hrev, arrayPlan, callPlan, dimensionsPlan] at hf
    | _ => simp [Tag.isArray] at harr
  · rw [Tag.run_plan t fun h => absurd h harr]

theorem Tag.heard_plan {stops : CallSite → Bool} {res : Resolution} {genFloats : Bool}
    {conf : ConfLoad} {tag : Tag} (htype : stops .type = true)
    (hproto : stops .funcProto = true) : (tag.plan res genFloats conf).Heard stops := by
  have hcall : ∀ u, (typePlan u).Heard stops := fun u => heard_callPlan.mpr htype
  cases tag with
  | baseType bt =>
      simp only [Tag.plan, appendPlan]
      cases bt.btfType genFloats bt.name with
      | none => simp [Step.abort]
      | some u => exact hcall u
  | modifier kind type => cases kind <;> simp [Tag.plan, hcall, Step.abort]
  | aggregate ty =>
      simp only [Tag.plan, Aggregate.plan]
      split
      · exact hcall _
      · exact heard_append.mpr ⟨hcall _, heard_editPlan htype⟩
  | array type nrEntries =>
      simp only [Tag.plan, heard_set]
      cases nrEntries.reverse with
      | nil => exact hcall _
      | cons n rest =>
          refine heard_append.mpr ⟨hcall _, ?_⟩
          simp [dimensionsPlan, Plan.Heard, Plan.sites, htype]
  | enumeration ty => exact heard_append.mpr ⟨hcall _, heard_editPlan htype⟩
  | subroutine ftype =>
      exact heard_append.mpr ⟨heard_callPlan.mpr hproto, heard_editPlan htype⟩
  | reference type => simp [Tag.plan, Step.abort]
  | unsupported tag type => simp [Tag.plan, Step.abort]
  | unspecified => exact heard_nil
  | pointer type => exact hcall _
  | typedef name type annots => exact hcall _
  | llvmAnnotationType value type => exact hcall _

/-- A plan that is carried out to its end is that of a tag BTF can express. -/
theorem Tag.encodable_of_exec {stops : CallSite → Bool} {res : Resolution}
    {genFloats : Bool} {conf : ConfLoad} {tag : Tag} {s s' : Btf Encoder}
    (h : exec stops (tag.plan res genFloats conf) s = (.done, s')) :
    tag.encodable genFloats = true := by
  cases tag with
  | baseType bt =>
      simp only [Tag.plan, appendPlan] at h
      cases hbt : bt.btfType genFloats bt.name with
      | none => simp [hbt, Step.abort, exec] at h
      | some u => simp [Tag.encodable, hbt]
  | modifier kind type =>
      cases kind with
      | atomic => simp [Tag.plan, Step.abort, exec] at h
      | const => rfl
      | volatile => rfl
      | restrict => rfl
  | reference type => simp [Tag.plan, Step.abort, exec] at h
  | unsupported tag type => simp [Tag.plan, Step.abort, exec] at h
  | _ => rfl

/-! ## The BTF after a plan that is cut short -/

/-- The references of a list of types, in the order they are written. -/
def refsOf (items : List BtfType) : List ℕ := items.flatMap BtfType.refs

@[simp] theorem refsOf_nil : refsOf [] = [] := rfl

@[simp] theorem refsOf_append (xs ys : List BtfType) :
    refsOf (xs ++ ys) = refsOf xs ++ refsOf ys := by
  simp [refsOf]

@[simp] theorem refsOf_singleton (u : BtfType) : refsOf [u] = u.refs := by
  simp [refsOf]

theorem editPlan_eq_map {β γ : Type} (site : CallSite) (f : γ → BtfType → BtfType)
    (xs : List γ) :
    (editPlan site f xs : BtfPlan β) = xs.map fun x => .call site fun _ => .editLast (f x) := by
  induction xs with
  | nil => rfl
  | cons x xs ih =>
      simp only [editPlan, List.flatMap_cons, callPlan, List.map_cons] at ih ⊢
      rw [ih]
      rfl

/-- An initial part of the plan of a type that is filled in leaves the type with some
of what comes first. -/
theorem prefix_buildPlan {β γ : Type} {site₁ site₂ : CallSite} {u : BtfType}
    {f : γ → BtfType → BtfType} {xs : List γ} {part : BtfPlan β} (t : Table BtfType β)
    (h : part <+: buildPlan site₁ site₂ u f xs) :
    (part.run t).items = t.items ∨
      ∃ k, (part.run t).items = t.items ++ [built u f (xs.take k)] := by
  rw [buildPlan, callPlan, List.cons_append, List.nil_append, List.prefix_cons_iff] at h
  rcases h with rfl | ⟨edits, rfl, hedits⟩
  · exact Or.inl rfl
  · rw [editPlan_eq_map] at hedits
    have htake := List.prefix_iff_eq_take.mp hedits
    rw [← List.map_take, ← editPlan_eq_map] at htake
    refine Or.inr ⟨edits.length, ?_⟩
    have hrun := congrArg Table.items
      (run_buildPlan site₁ site₂ u f (xs.take edits.length) t)
    rw [buildPlan, ← htake] at hrun
    exact hrun

theorem prefix_callPlan {β : Type} {site : CallSite} {u : BtfType} {part : BtfPlan β}
    (t : Table BtfType β) (h : part <+: callPlan site (.append u)) :
    (part.run t).items = t.items ∨ (part.run t).items = t.items ++ [u] := by
  rw [callPlan, List.prefix_cons_iff] at h
  rcases h with rfl | ⟨more, rfl, hmore⟩
  · exact Or.inl rfl
  · obtain rfl := List.prefix_nil.mp hmore
    exact Or.inr rfl

/-- An ENUM refers to no type. -/
theorem refs_built_enum (etype : Enumeration) (conf : ConfLoad) (values : List Enumerator) :
    (built (etype.btfStart conf)
      (fun e => BtfType.addEnumValue e.name (enumValue e.value conf)) values).refs = [] := by
  have hkeep : ∀ u : BtfType, (∃ n size vs, u = .enum n size vs) ∨
      (∃ n size signed vs, u = .enum64 n size signed vs) →
      (built u (fun e => BtfType.addEnumValue e.name (enumValue e.value conf))
        values).refs = [] := by
    induction values with
    | nil =>
        rintro u (⟨n, size, vs, rfl⟩ | ⟨n, size, signed, vs, rfl⟩) <;> rfl
    | cons e values ih =>
        rintro u (⟨n, size, vs, rfl⟩ | ⟨n, size, signed, vs, rfl⟩)
        · exact ih _ (Or.inl ⟨n, size, _, rfl⟩)
        · exact ih _ (Or.inr ⟨n, size, signed, _, rfl⟩)
  apply hkeep
  unfold Enumeration.btfStart
  dsimp only
  split
  · exact Or.inl ⟨_, _, _, rfl⟩
  · exact Or.inr ⟨_, _, _, _, rfl⟩

theorem prefix_dimensionTypes (indexType prev : ℕ) (dims : List ℕ) (k : ℕ) :
    dimensionTypes indexType prev (dims.take k) <+: dimensionTypes indexType prev dims := by
  induction dims generalizing prev k with
  | nil => simp
  | cons n rest ih =>
      cases k with
      | zero => exact List.nil_prefix
      | succ k =>
          rw [List.take_succ_cons, dimensionTypes, dimensionTypes]
          exact (List.prefix_cons_inj _).mpr (ih (prev + 1) k)

theorem prefix_refsOf {xs ys : List BtfType} (h : xs <+: ys) : refsOf xs <+: refsOf ys := by
  obtain ⟨zs, rfl⟩ := h
  rw [refsOf_append]
  exact List.prefix_append _ _

theorem prefix_arrayPlan {ref indexType : ℕ} {dims : List ℕ} {part : BtfPlan Encoder}
    (t : Table BtfType Encoder) (h : part <+: arrayPlan ref indexType dims)
    (hsmall : (part.run t).cnt = t.cnt ∨ (part.run t).cnt ≤ 4294967296) :
    ∃ ts, (part.run t).items = t.items ++ ts ∧ ts <+: arrayTypes ref indexType t.cnt dims := by
  cases dims with
  | nil =>
      rcases prefix_callPlan t h with hitems | hitems
      · exact ⟨[], by simpa using hitems, List.nil_prefix⟩
      · exact ⟨_, hitems, List.prefix_rfl⟩
  | cons n rest =>
      rw [arrayPlan, typePlan, callPlan, List.cons_append, List.nil_append,
        List.prefix_cons_iff] at h
      rcases h with rfl | ⟨more, rfl, hmore⟩
      · exact ⟨[], by simp, List.nil_prefix⟩
      · have htake : more = dimensionsPlan indexType (rest.take more.length) := by
          have := List.prefix_iff_eq_take.mp hmore
          rwa [dimensionsPlan, ← List.map_take] at this
        set k := more.length
        rw [htake] at hsmall ⊢
        have hcnt := cnt_dimensionsPlan indexType (rest.take k)
          (t.served (.append (.array ref indexType n)))
        have hrun := run_arrayPlan ref indexType (n :: rest.take k) t (by
          simp only [run_cons, Table.after, hcnt, cnt_served_append] at hsmall
          simp only [List.length_cons]
          omega)
        refine ⟨arrayTypes ref indexType t.cnt (n :: rest.take k),
          congrArg Table.items hrun, ?_⟩
        rw [arrayTypes, arrayTypes]
        exact (List.prefix_cons_inj _).mpr (prefix_dimensionTypes _ _ _ _)

/-- A plan that is cut short has written an initial part of the references. -/
theorem Tag.prefix_plan {res : Resolution} {genFloats : Bool} {conf : ConfLoad} {tag : Tag}
    {part : BtfPlan Encoder} (t : Table BtfType Encoder)
    (h : part <+: tag.plan res genFloats conf)
    (hsmall : (part.run t).cnt = t.cnt ∨ (part.run t).cnt ≤ 4294967296) :
    ∃ ts, (part.run t).items = t.items ++ ts ∧
      refsOf ts <+: refsOf (tag.btfTypes res genFloats conf t.cnt) := by
  have hnothing : (part.run t).items = t.items → ∃ ts, (part.run t).items = t.items ++ ts ∧
      refsOf ts <+: refsOf (tag.btfTypes res genFloats conf t.cnt) :=
    fun hitems => ⟨[], by simpa using hitems, List.nil_prefix⟩
  have hcall : ∀ u, part <+: typePlan u → tag.btfTypes res genFloats conf t.cnt = [u] →
      ∃ ts, (part.run t).items = t.items ++ ts ∧
        refsOf ts <+: refsOf (tag.btfTypes res genFloats conf t.cnt) := by
    intro u hpart htypes
    rcases prefix_callPlan t hpart with hitems | hitems
    · exact hnothing hitems
    · exact ⟨[u], hitems, by rw [htypes]⟩
  have habort : part <+: [Step.abort] → (part.run t).items = t.items := by
    intro hpart
    rw [List.prefix_cons_iff] at hpart
    rcases hpart with rfl | ⟨more, rfl, hmore⟩
    · rfl
    · obtain rfl := List.prefix_nil.mp hmore
      rfl
  cases tag with
  | baseType bt =>
      simp only [Tag.plan, appendPlan] at h
      cases hbt : bt.btfType genFloats bt.name with
      | none =>
          rw [hbt] at h
          exact hnothing (habort h)
      | some u =>
          rw [hbt] at h
          exact hcall u h (by simp [Tag.btfTypes, hbt])
  | modifier kind type =>
      cases kind with
      | atomic => exact hnothing (habort h)
      | const => exact hcall _ h rfl
      | volatile => exact hcall _ h rfl
      | restrict => exact hcall _ h rfl
  | aggregate ty =>
      simp only [Tag.plan, Aggregate.plan] at h
      by_cases hdecl : ty.declaration
      · rw [if_pos hdecl] at h
        exact hcall _ h (by simp only [Tag.btfTypes, if_pos hdecl])
      · rw [if_neg hdecl] at h
        rcases prefix_buildPlan t h with hitems | ⟨k, hitems⟩
        · exact hnothing hitems
        · refine ⟨_, hitems, ?_⟩
          rw [Aggregate.btfStart, built_addField]
          simp only [Tag.btfTypes, if_neg hdecl, refsOf_singleton, BtfType.refs,
            List.nil_append, List.map_take]
          exact List.take_prefix _ _
  | array type nrEntries =>
      simp only [Tag.plan] at h
      rw [List.prefix_cons_iff] at h
      rcases h with rfl | ⟨more, rfl, hmore⟩
      · exact hnothing rfl
      · obtain ⟨ts, hitems, hts⟩ := prefix_arrayPlan
          { t with client := { t.client with needIndexType := true } } hmore hsmall
        exact ⟨ts, hitems, prefix_refsOf hts⟩
  | enumeration ty =>
      rcases prefix_buildPlan t h with hitems | ⟨k, hitems⟩
      · exact hnothing hitems
      · refine ⟨_, hitems, ?_⟩
        rw [refsOf_singleton, refs_built_enum]
        exact List.nil_prefix
  | subroutine ftype =>
      rcases prefix_buildPlan t h with hitems | ⟨k, hitems⟩
      · exact hnothing hitems
      · refine ⟨_, hitems, ?_⟩
        rw [built_addFuncParam]
        simp only [Tag.btfTypes, refsOf_singleton, BtfType.refs, List.nil_append,
          List.map_take]
        exact (List.prefix_cons_inj _).mpr (List.take_prefix _ _)
  | reference type => exact hnothing (habort h)
  | unsupported tag type => exact hnothing (habort h)
  | unspecified => exact hnothing (by rw [List.prefix_nil.mp h]; rfl)
  | pointer type => exact hcall _ h rfl
  | typedef name type annots => exact hcall _ h rfl
  | llvmAnnotationType value type => exact hcall _ h rfl

/-! ## Return values for arrays and enumerations -/

/-- The tags whose plan is a series of calls that all report their failure. -/
def Tag.isPlain : Tag → Bool
  | .array _ _ => true
  | .enumeration _ => true
  | _ => false

theorem Tag.heard_of_plain {stops : CallSite → Bool} {res : Resolution} {genFloats : Bool}
    {conf : ConfLoad} {tag : Tag} (htype : stops .type = true) (hplain : tag.isPlain = true) :
    (tag.plan res genFloats conf).Heard stops := by
  cases tag with
  | array type nrEntries =>
      simp only [Tag.plan, heard_set]
      cases nrEntries.reverse with
      | nil => exact heard_callPlan.mpr htype
      | cons n rest =>
          refine heard_append.mpr ⟨heard_callPlan.mpr htype, ?_⟩
          simp [dimensionsPlan, Plan.Heard, Plan.sites, htype]
  | enumeration ty => exact heard_append.mpr ⟨heard_callPlan.mpr htype, heard_editPlan htype⟩
  | _ => simp [Tag.isPlain] at hplain

theorem Tag.check_of_plain {res : Resolution} {genFloats : Bool} {conf : ConfLoad} {tag : Tag}
    (hplain : tag.isPlain = true) (ok : Table BtfType Encoder → Bool) :
    Step.check ok ∉ tag.plan res genFloats conf := by
  cases tag with
  | array type nrEntries =>
      simp only [Tag.plan]
      cases nrEntries.reverse with
      | nil => simp [arrayPlan, callPlan]
      | cons n rest => simp [arrayPlan, callPlan, dimensionsPlan]
  | enumeration ty => simp [Tag.plan, buildPlan, callPlan, editPlan]
  | _ => simp [Tag.isPlain] at hplain

/-- Encoding an array or an enumeration returns a negative value, or the id of the last
of the types that are now there.  The latter is so when no call fails. -/
theorem encodeTag_returns (conf : ConfLoad) (tag : Tag) (hplain : tag.isPlain = true)
    (s : Btf Encoder) :
    ∃ id s', encodeTag conf tag s = .ok id s' ∧
      (s.Serves tag.nrBtfIds → 0 ≤ id) ∧
      (0 ≤ id → id = lastId s'.table ∧ s'.table.cnt ≤ intMax + 1 ∧
        s'.table = (tag.plan s.table.client.resolution s.table.client.genFloats conf).run
          s.table) := by
  set plan := tag.plan s.table.client.resolution s.table.client.genFloats conf with hplan
  have hencodable : tag.encodable s.table.client.genFloats = true := by
    cases tag with
    | array type nrEntries => rfl
    | enumeration ty => rfl
    | _ => simp [Tag.isPlain] at hplain
  have hval : tag.val = lastId := by
    cases tag with
    | array type nrEntries => rfl
    | enumeration ty => rfl
    | _ => simp [Tag.isPlain] at hplain
  have hcnt : (plan.run s.table).cnt = s.table.cnt + tag.nrBtfIds :=
    Tag.cnt_run_plan s.table hencodable
  have hpos : 0 < tag.nrBtfIds := by
    cases tag with
    | array type nrEntries =>
        simp only [Tag.nrBtfIds]
        split <;> omega
    | enumeration ty => exact Nat.one_pos
    | _ => simp [Tag.isPlain] at hplain
  rcases (makes_encodeTag conf tag s).returns (Tag.heard_of_plain (by rfl) hplain) with
    ⟨s', hrun, hval', hexec, htable⟩ | ⟨⟨r, s', hrun, hr⟩, hexec⟩
  · refine ⟨_, s', hrun, fun _ => hval', fun _ => ⟨by rw [hval], ?_, htable⟩⟩
    rcases exec_cnt hexec with hsame | hfits
    · rw [htable, hcnt] at hsame
      omega
    · exact hfits
  · refine ⟨r, s', hrun, fun hserves => ?_, fun hid => absurd hid (not_le.mpr hr)⟩
    exact absurd (exec_done_of_serves (Tag.check_of_plain hplain) hserves (le_of_eq hcnt)) hexec

end Pahole

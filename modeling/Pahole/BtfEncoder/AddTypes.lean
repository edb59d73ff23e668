import Pahole.BtfEncoder.State

/-!
# Adding types to the BTF

The `btf_encoder__add_*` functions: one libbpf call or a short series of them,
with the log line that reads the type just added.  Every function comes with the
plan of its calls, from which the later modules reason.
-/

namespace Pahole

open FallibleTable

/-- The fields of `struct conf_load` that the encoder reads. -/
structure ConfLoad where
  skipEncodingBtfEnum64 : Bool
  skipEncodingBtfInconsistentProto : Bool
  btfGenInlines : Bool
  deriving DecidableEq, Repr

/-- `BITS_ROUNDUP_BYTES` -/
def bitsRoundupBytes (bits : ℕ) : ℕ := bits / 8 + if bits % 8 = 0 then 0 else 1

/-- `KSYM_NAME_LEN` -/
def ksymNameLen : ℕ := 128

/-- `strncpy` into a buffer of `KSYM_NAME_LEN` bytes whose last byte is zero. -/
def ksymCopy (name : String) : String := String.ofList (name.toList.take (ksymNameLen - 1))

variable {β : Type}

/-- Append a type and log it unless the call failed. -/
def addLogged (t : BtfType) : BtfM β ℤ := appendRead (fun id => decide (0 < id)) t

/-- `btf_encoder__add_float` -/
def addFloat (bt : BaseType) (name : Option String) : BtfM β ℤ :=
  addLogged (.float name (bitsRoundupBytes bt.bitSize))

/-- Sizes that libbpf and the kernel do not take for an integer. -/
def irregularIntSize (byteSz : ℕ) : Bool :=
  byteSz = 0 ∨ byteSz &&& (byteSz - 1) ≠ 0 ∨ 16 < byteSz

/-- `btf_encoder__add_base_type` -/
def addBaseType (genFloats : Bool) (bt : BaseType) (name : Option String) : BtfM β ℤ :=
  if ¬bt.isSigned ∧ ¬bt.isBool ∧ bt.floatType ≠ .none ∧ genFloats then
    if bt.floatType = .single ∨ bt.floatType = .double ∨ bt.floatType = .ldbl then
      addFloat bt name
    else return -1
  else
    let encoding : IntEncoding :=
      if bt.isSigned then .signed else if bt.isBool then .bool else .none
    let byteSz := bitsRoundupBytes bt.bitSize
    if irregularIntSize byteSz then
      addLogged (.int (some "__SANITIZED_FAKE_INT__") 4 encoding)
    else addLogged (.int name byteSz encoding)

/-- `btf_encoder__add_ref_type`, less `BTF_KIND_FWD` -/
def addRefType (kind : RefKind) (type : ℕ) (name : Option String) : BtfM β ℤ :=
  addLogged (.ref kind name type)

/-- `btf_encoder__add_ref_type` with `BTF_KIND_FWD` -/
def addFwdType (name : Option String) (isUnion : Bool) : BtfM β ℤ :=
  addLogged (.fwd name isUnion)

/-- `btf_encoder__add_array` -/
def addArray (type indexType nelems : ℕ) : BtfM β ℤ :=
  addLogged (.array type indexType nelems)

/-- `btf_encoder__add_field` -/
def addField (name : Option String) (type bitfieldSize offset : ℕ) : BtfM β ℤ :=
  editLast (BtfType.addField ⟨name, type, offset, bitfieldSize⟩)

/-- `btf_encoder__add_struct` -/
def addStruct (isUnion : Bool) (name : Option String) (size : ℕ) : BtfM β ℤ :=
  addLogged (.composite isUnion name size [])

/-- `btf_encoder__add_enum` -/
def addEnum (name : Option String) (etype : Enumeration) (conf : ConfLoad) : BtfM β ℤ :=
  let size := bitsRoundupBytes etype.size
  if size ≤ 4 ∨ conf.skipEncodingBtfEnum64 then addLogged (.enum name size [])
  else addLogged (.enum64 name size etype.isSigned [])

/-- `(int64_t)x` -/
def i64 (x : ℕ) : ℤ := Int.bmod x 18446744073709551616

/-- `btf_encoder__add_enum_val` -/
def addEnumVal (name : String) (value : ℕ) (conf : ConfLoad) : BtfM β ℤ :=
  if conf.skipEncodingBtfEnum64 then editLast (BtfType.addEnumValue name (u32 value))
  else editLast (BtfType.addEnumValue name (i64 value))

/-- `btf_encoder__add_func_param` -/
def addFuncParam (name : Option String) (type : ℕ) : BtfM β ℤ :=
  orMinusOne (editLast (BtfType.addFuncParam ⟨name, type⟩)) (return 0)

/-- `btf_encoder__emit_func_proto`.  The id is kept in a `uint32_t`, so a failed
call counts as one that returned an id. -/
def emitFuncProto (typeId : ℕ) : BtfM β ℤ :=
  appendRead (fun ret => decide (0 < u32 ret)) (.funcProto typeId [])

/-- The parameters of `btf_encoder__add_func_proto_for_ftype`, in order. -/
def protoParams (enc : Encoder) (ftype : Ftype) : List BtfParam :=
  ftype.parms.map (fun p => ⟨p.name, enc.tagType p.type⟩) ++
    if ftype.unspecParms then [⟨none, 0⟩] else []

/-- `btf_encoder__add_func_proto_for_ftype` -/
def addFuncProtoForFtype (enc : Encoder) (ftype : Ftype) : BtfM β ℤ :=
  andThen (emitFuncProto (enc.tagType ftype.type)) fun id =>
    orMinusOne
      (forEach (fun p => addFuncParam p.name p.type) (protoParams enc ftype))
      (return id)

/-- The parameters of `btf_encoder__add_func_proto_for_state`, in order. -/
def FuncState.protoParams (state : FuncState) : List BtfParam :=
  (state.parms.take state.nrParms).map fun p => ⟨some (ksymCopy p.name), p.typeId⟩

/-- `btf_encoder__add_func_proto_for_state` -/
def addFuncProtoForState (state : FuncState) : BtfM β ℤ :=
  andThen (emitFuncProto state.retTypeId) fun id =>
    orMinusOne (forEach (fun p => addFuncParam p.name p.type) state.protoParams)
      (return id)

/-- `btf_encoder__add_var` -/
def addVar (type : ℕ) (name : String) (linkage : ℕ) : BtfM β ℤ :=
  addLogged (.var name linkage type)

/-- `btf_encoder__add_decl_tag` -/
def addDeclTag (value : String) (type : ℕ) (componentIdx : ℤ) : BtfM β ℤ :=
  addLogged (.declTag value type componentIdx)

/-- The variables of a section, as `qsort` leaves them for
`btf_encoder__add_datasec`: the count is a `uint16_t`, and the comparison is the
difference of two unsigned offsets taken as an `int`. -/
def ElfSecinfo.sortedVars (sec : ElfSecinfo) : List VarSecinfo :=
  (sec.secinfo.take (sec.secinfo.length % 65536)).mergeSort fun a b =>
    decide (Int.bmod ((a.offset : ℤ) - b.offset) 4294967296 ≤ 0)

/-- The size of a DATASEC: where its last variable ends. -/
def ElfSecinfo.datasecSz (sec : ElfSecinfo) : ℕ :=
  match sec.sortedVars.getLast? with
  | some vsi => u32 (vsi.offset + vsi.size)
  | none => 0

/-- `btf_encoder__add_datasec`.  A failed `btf__add_datasec` is logged, and the
variables are added all the same. -/
def addDatasec (sec : ElfSecinfo) : BtfM β ℤ := do
  let id ← addLogged (.datasec sec.name sec.datasecSz [])
  orMinusOne
    (forEach (fun v => orMinusOne (editLast (BtfType.addVarInfo v)) (return 0))
      sec.sortedVars)
    (return id)

/-! ## The plans of the types -/

section Plans

variable {site : CallSite}

theorem makes_addLogged (site : CallSite) (hsite : site.reaction = .propagate) (t : BtfType) (s : Btf β) :
    Makes (addLogged t) s (callPlan site (.append t)) lastId :=
  follows_appendRead hsite (fun id h => by simp; omega) t s

/-- The BTF type that `btf_encoder__add_base_type` adds, if it adds one. -/
def BaseType.btfType (genFloats : Bool) (bt : BaseType) (name : Option String) :
    Option BtfType :=
  let byteSz := bitsRoundupBytes bt.bitSize
  if ¬bt.isSigned ∧ ¬bt.isBool ∧ bt.floatType ≠ .none ∧ genFloats then
    if bt.floatType = .single ∨ bt.floatType = .double ∨ bt.floatType = .ldbl then
      some (.float name byteSz)
    else none
  else
    let encoding : IntEncoding :=
      if bt.isSigned then .signed else if bt.isBool then .bool else .none
    if irregularIntSize byteSz then
      some (.int (some "__SANITIZED_FAKE_INT__") 4 encoding)
    else some (.int name byteSz encoding)

theorem addBaseType_eq (genFloats : Bool) (bt : BaseType) (name : Option String) :
    addBaseType (β := β) genFloats bt name =
      match bt.btfType genFloats name with
      | some t => addLogged t
      | none => return -1 := by
  unfold addBaseType BaseType.btfType addFloat
  split
  · split <;> rfl
  · dsimp only
    split <;> rfl

/-- Append a type, or stop with an error when there is none to append. -/
def appendPlan (t : Option BtfType) : BtfPlan β :=
  match t with
  | some t => callPlan .type (.append t)
  | none => [Step.abort]

theorem makes_addBaseType (genFloats : Bool) (bt : BaseType) (name : Option String)
    (s : Btf β) :
    Makes (addBaseType genFloats bt name) s (appendPlan (bt.btfType genFloats name))
      lastId := by
  rw [addBaseType_eq]
  cases bt.btfType genFloats name with
  | some t => exact makes_addLogged _ rfl t s
  | none => exact follows_abort (by decide) s

/-- The plan of a loop that edits the last type once for each element. -/
def editPlan {γ : Type} (site : CallSite) (f : γ → BtfType → BtfType) (xs : List γ) :
    BtfPlan β :=
  xs.flatMap fun x => callPlan site (.editLast (f x))

theorem makes_editAll {γ : Type} {body : γ → BtfM β ℤ} {f : γ → BtfType → BtfType}
    (hbody : ∀ x s, Makes (body x) s (callPlan site (.editLast (f x))) fun _ => 0)
    (xs : List γ) (s : Btf β) :
    Makes (forEach body xs) s (editPlan site f xs) fun _ => 0 :=
  Follows.forEach hbody xs s

theorem makes_addFuncParam (hsite : site.reaction = .propagate) (p : BtfParam)
    (s : Btf β) :
    Makes (addFuncParam p.name p.type) s
      (callPlan site (.editLast (BtfType.addFuncParam p))) fun _ => 0 := by
  have h := Follows.orMinusOne (follows_editLast hsite (BtfType.addFuncParam p) s)
    fun s' _ => follows_return (le_refl (0 : ℤ)) s'
  exact h

/-- The plan of adding a type and then filling it in. -/
def buildPlan {γ : Type} (site₁ site₂ : CallSite) (t : BtfType)
    (f : γ → BtfType → BtfType) (xs : List γ) : BtfPlan β :=
  callPlan site₁ (.append t) ++ editPlan site₂ f xs

/-- The type that a loop of edits makes of the type it starts from. -/
def built {γ : Type} (t : BtfType) (f : γ → BtfType → BtfType) (xs : List γ) : BtfType :=
  xs.foldl (fun u x => f x u) t

/-- Edits that append to a list in a type append all of theirs. -/
theorem built_appends {γ : Type} {f : γ → BtfType → BtfType} {make : List γ → BtfType}
    (hf : ∀ acc x, f x (make acc) = make (acc ++ [x])) (start xs : List γ) :
    built (make start) f xs = make (start ++ xs) := by
  rw [built]
  induction xs generalizing start with
  | nil => rw [List.append_nil, List.foldl_nil]
  | cons x xs ih => rw [List.foldl_cons, hf, ih, List.append_assoc, List.singleton_append]

theorem run_editPlan {γ : Type} (f : γ → BtfType → BtfType) (xs : List γ)
    (t : Table BtfType β) :
    (editPlan site f xs).run t =
      { t with items := t.items.modifyLast fun u => built u f xs } := by
  induction xs generalizing t with
  | nil =>
      have hid : t.items.modifyLast (fun u => u) = t.items := by
        rcases List.eq_nil_or_concat t.items with h | ⟨init, x, h⟩
        · rw [h]
          rfl
        · rw [h, List.concat_eq_append, List.modifyLast_concat]
      simp only [editPlan, List.flatMap_nil, run_nil, built, List.foldl_nil, hid]
  | cons x xs ih =>
      have hcomp : ∀ items : List BtfType,
          (items.modifyLast (f x)).modifyLast (fun u => built u f xs) =
            items.modifyLast fun u => built u f (x :: xs) := by
        intro items
        rcases List.eq_nil_or_concat items with h | ⟨init, y, h⟩
        · rw [h]
          rfl
        · rw [h]
          simp only [List.concat_eq_append, List.modifyLast_concat]
          rfl
      simp only [editPlan, List.flatMap_cons, callPlan, List.cons_append, List.nil_append,
        run_cons] at ih ⊢
      rw [ih]
      simp only [Table.after, Table.served, Op.apply, hcomp]

theorem run_buildPlan {γ : Type} (site₁ site₂ : CallSite) (u : BtfType)
    (f : γ → BtfType → BtfType) (xs : List γ) (t : Table BtfType β) :
    (buildPlan site₁ site₂ u f xs).run t =
      { t with items := t.items ++ [built u f xs] } := by
  simp only [buildPlan, callPlan, run_append, run_cons, run_nil, run_editPlan, Table.after,
    Table.served, Op.apply, List.modifyLast_concat]

theorem heard_callPlan {stops : CallSite → Bool} {op : Op BtfType} :
    (callPlan (β := β) site op).Heard stops ↔ stops site = true := by
  simp [callPlan]

theorem heard_editPlan {γ : Type} {stops : CallSite → Bool} {f : γ → BtfType → BtfType}
    {xs : List γ} (h : stops site = true) : (editPlan (β := β) site f xs).Heard stops :=
  heard_flatMap fun _ _ => heard_callPlan.mpr h

/-- Adding a type and then filling it in returns the id of the type. -/
theorem makes_build {γ : Type} {site₁ : CallSite} (site₂ : CallSite) (add : BtfM β ℤ)
    {body : γ → BtfM β ℤ} {u : BtfType} {f : γ → BtfType → BtfType}
    (hsite : site₂.reaction = .propagate)
    (hadd : ∀ s, Makes add s (callPlan site₁ (.append u)) lastId)
    (hbody : ∀ x s, Makes (body x) s (callPlan site₂ (.editLast (f x))) fun _ => 0)
    (xs : List γ) (s : Btf β) :
    Makes (andThen add fun id => orMinusOne (forEach body xs) (return id)) s
      (buildPlan site₁ site₂ u f xs) lastId := by
  refine Follows.andThen (hadd s) fun s' _ hpos => ?_
  have hloop := Follows.orMinusOne (makes_editAll hbody xs s')
    fun s'' _ => follows_return hpos s''
  rw [List.append_nil] at hloop
  refine Runs.congr_val hloop fun s'' hout => ?_
  have hheard : (editPlan (β := β) site₂ f xs).Heard (stopsAt CallSite.reaction) :=
    heard_editPlan (by simp [stopsAt, hsite])
  have htable := (exec_done hheard hout).1
  rw [run_editPlan] at htable
  simp [htable, lastId, Table.cnt, length_modifyLast]

theorem makes_addField (name : Option String) (type bitfieldSize offset : ℕ) (s : Btf β) :
    Makes (addField name type bitfieldSize offset) s
      (callPlan .type (.editLast (BtfType.addField ⟨name, type, offset, bitfieldSize⟩)))
      fun _ => 0 :=
  follows_editLast rfl _ s

/-- The value that `btf_encoder__add_enum_val` gives to libbpf. -/
def enumValue (value : ℕ) (conf : ConfLoad) : ℤ :=
  if conf.skipEncodingBtfEnum64 then u32 value else i64 value

theorem makes_addEnumVal (name : String) (value : ℕ) (conf : ConfLoad) (s : Btf β) :
    Makes (addEnumVal name value conf) s
      (callPlan .type (.editLast (BtfType.addEnumValue name (enumValue value conf))))
      fun _ => 0 := by
  unfold addEnumVal enumValue
  split
  · exact follows_editLast rfl _ s
  · exact follows_editLast rfl _ s

theorem makes_emitFuncProto (typeId : ℕ) (s : Btf β) :
    Makes (emitFuncProto typeId) s (callPlan .funcProto (.append (.funcProto typeId [])))
      lastId := by
  refine follows_appendRead_crash rfl ?_ _ s
  intro e
  have hneg := e.neg
  have hlower := e.lower
  have hpos : 0 < u32 e.code := by
    unfold u32
    omega
  exact decide_eq_true hpos

/-- The plan of a function prototype. -/
def protoPlan (ret : ℕ) (params : List BtfParam) : BtfPlan β :=
  buildPlan .funcProto .type (.funcProto ret []) BtfType.addFuncParam params

theorem makes_addFuncProtoForFtype (enc : Encoder) (ftype : Ftype) (s : Btf β) :
    Makes (addFuncProtoForFtype enc ftype) s
      (protoPlan (enc.tagType ftype.type) (protoParams enc ftype)) lastId :=
  makes_build _ _ rfl (makes_emitFuncProto _) (makes_addFuncParam rfl) _ s

theorem makes_addFuncProtoForState (state : FuncState) (s : Btf β) :
    Makes (addFuncProtoForState state) s
      (protoPlan state.retTypeId state.protoParams) lastId :=
  makes_build _ _ rfl (makes_emitFuncProto _) (makes_addFuncParam rfl) _ s

/-- The plan of tagging a type with annotations, when `k` types were appended after
it. -/
def declTagsPlan : (k : ℕ) → List LlvmAnnotation → BtfPlan β
  | _, [] => []
  | k, annot :: rest =>
      .call .declTag (fun t =>
        .append (.declTag annot.value (u32 (lastId t - k)) annot.componentIdx)) ::
      declTagsPlan (k + 1) rest

theorem makes_declTags (id : ℤ) (k : ℕ) (annots : List LlvmAnnotation) (s : Btf β)
    (hid : lastId s.table - k = id) :
    Makes (forEach (fun annot => addDeclTag annot.value (u32 id) annot.componentIdx) annots)
      s (declTagsPlan k annots) fun _ => 0 := by
  induction annots generalizing k s with
  | nil => exact follows_return (le_refl 0) s
  | cons annot rest ih =>
      have hcall : Makes (addDeclTag annot.value (u32 id) annot.componentIdx) s
          [.call .declTag fun t =>
            .append (.declTag annot.value (u32 (lastId t - k)) annot.componentIdx)]
          lastId := by
        rw [← hid]
        exact makes_addLogged .declTag rfl _ s
      refine Follows.andThen hcall fun s' hout _ => ih (k + 1) s' ?_
      have htable := (exec_done (by simp [stopsAt, CallSite.reaction]) hout).1
      simp only [run_cons, run_nil, Table.after] at htable
      rw [htable, lastId_served_append, ← hid, lastId]
      push_cast
      ring

theorem heard_declTagsPlan {stops : CallSite → Bool} (h : stops .declTag = true) (k : ℕ)
    (annots : List LlvmAnnotation) : (declTagsPlan (β := β) k annots).Heard stops := by
  induction annots generalizing k with
  | nil => exact heard_nil
  | cons annot rest ih => exact heard_call.mpr ⟨h, ih (k + 1)⟩

theorem cnt_declTagsPlan (k : ℕ) (annots : List LlvmAnnotation) (t : Table BtfType β) :
    ((declTagsPlan k annots).run t).cnt = t.cnt + annots.length := by
  induction annots generalizing k t with
  | nil => rfl
  | cons annot rest ih =>
      rw [declTagsPlan, run_cons, ih, Table.after, cnt_served_append, List.length_cons]
      omega

end Plans

end Pahole

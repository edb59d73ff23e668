import Pahole.BtfEncoder.SaveFunc

/-!
# The functions, inline expansions and variables of a CU

The part of `btf_encoder__encode_cu` after the types: which functions and inline
expansions are saved, and which variables become `BTF_KIND_VAR`s.
-/

namespace Pahole

open FallibleTable

/-! ## Functions -/

/-- `ftype__has_arg_names` -/
def Ftype.hasArgNames (ftype : Ftype) : Bool := ftype.parms.all fun param => param.name.isSome

/-- `ftype__has_uncertain_arg_loc`: a packed struct is passed on the stack. -/
def Cu.hasUncertainArgLoc (cu : Cu) (ftype : Ftype) : Bool :=
  if ftype.parms.length < cu.nrRegisterParams then false
  else
    (ftype.parms.drop cu.nrRegisterParams).any fun param =>
      match (cu.types.type? param.type).bind Tag.structName? with
      | some (some _) => cu.isPacked param.type
      | _ => false

/-- The function to save for an entry of the function table, if it is not skipped. -/
def Cu.functionToSave (cu : Cu) (funcs : ElfFunctions) (fn : Function) :
    Option (Function × ElfPtr) :=
  if fn.declaration then none
  else if ¬fn.proto.hasArgNames then none
  else if funcs.entries = [] then none
  else
    match fn.name with
    | none => none
    | some name =>
        match funcs.findFunction name with
        | none => none
        | some func =>
            let uncertain := fn.proto.uncertainParmLoc || cu.hasUncertainArgLoc fn.proto
            some ({ fn with proto := { fn.proto with uncertainParmLoc := uncertain } }, func)

/-- The functions of a CU that are saved. -/
def Cu.functionsToSave (cu : Cu) (funcs : ElfFunctions) : List (Function × ElfPtr) :=
  cu.functions.filterMap (cu.functionToSave funcs)

/-! ## Inline expansions -/

/-- `filter_name` -/
def filterName (name : String) : Bool :=
  ["__UNIQUE_ID", "__tpstrtab_", "__exitcall_", "__gendwarfksyms_ptr_",
    "__func_stack_frame_non_standard_"].any fun s => s.toList.isPrefixOf name.toList

/-- `DW_OP_reg0` -/
def dwOpReg0 : ℤ := 80

/-- A zeroed `struct loc_param`. -/
def LocParam.zero : LocParam := ⟨0, [], 0⟩

/-- `btf_encoder__add_loc_param`.  The flags are those of `BTF_LOC_PARAM_*`. -/
def locParamOf (param : Parameter) (base : ℕ) : LocParam :=
  let size := if param.locSize ≠ 0 then param.locSize else 8
  let offsetFlags := if param.locOffset ≠ 0 then 0x20 ||| 0x1 else 0
  let derefFlags := if param.locDeref then 0x10 else 0
  let offsetValues := if param.locOffset ≠ 0 then [u32 param.locOffset] else []
  if (param.locConstValue ∨ param.hasConstValue) ∧ param.locSize ≠ 0 then
    if 8 < size then LocParam.zero
    else
      let value := if param.locAddr ∧ base ≤ param.locValue then param.locValue - base
        else param.locValue
      { size := size
        flags := 0x2 ||| (if param.locAddr then 0x4 else 0) |||
          (if param.locSigned then 0x1 else 0)
        values := u32 value :: if 4 < size then [u32 (value / 4294967296)] else [] }
  else if dwOpReg0 ≤ param.locReg ∧ dwOpReg0 ≤ param.locReg2 then
    ⟨0x8, [u32 (param.locReg - dwOpReg0), u32 (param.locReg2 - dwOpReg0)], size⟩
  else if dwOpReg0 ≤ param.locReg then
    ⟨0x8 ||| derefFlags ||| offsetFlags, u32 (param.locReg - dwOpReg0) :: offsetValues, size⟩
  else if param.locStack then
    ⟨0x8 ||| derefFlags ||| offsetFlags, uint32Max :: offsetValues, size⟩
  else LocParam.zero

/-- The search of `get_elf_section`, from section `i` on. -/
def elfSectionFrom (addr i : ℕ) : List ElfSecinfo → ℕ
  | [] => 0
  | sec :: rest =>
      if sec.holdsVariables ∧ sec.addr ≤ addr ∧ addr - sec.addr < sec.sz then i
      else elfSectionFrom addr (i + 1) rest

/-- `get_elf_section`, which leaves the `SHT_NULL` section out. -/
def Encoder.getElfSection (enc : Encoder) (addr : ℕ) : ℕ :=
  elfSectionFrom addr 1 enc.secinfo.tail

/-- The executable section that DWFL finds for an address, and the offset in it. -/
def Encoder.dwflPlace (enc : Encoder) (elf : Elf) (addr : ℕ) : Option (ℕ × ℕ) :=
  (elf.addressSection addr).bind fun (idx, offset) =>
    (enc.secinfo[idx]?).bind fun sec =>
      if idx ≠ 0 ∧ sec.execinstr ∧ offset ≤ uint32Max then some (idx, offset) else none

/-- The executable section of an address in an `ET_DYN` file, matched by its own
address. -/
def Encoder.dynPlace (enc : Encoder) (elf : Elf) (addr : ℕ) : Option (ℕ × ℕ) :=
  if elf.isDyn then
    let idx := enc.getElfSection addr
    (enc.secinfo[idx]?).bind fun sec =>
      if idx ≠ 0 ∧ sec.execinstr ∧ addr - sec.addr ≤ uint32Max then
        some (idx, addr - sec.addr)
      else none
  else none

/-- `btf_encoder__inline_addr_to_section` -/
def Encoder.inlineAddrToSection (enc : Encoder) (elf : Elf) (addr : ℕ) : Option (ℕ × ℕ) :=
  (enc.dwflPlace elf addr).or (enc.dynPlace elf addr)

/-- The `params` of the location that `btf_encoder__add_inline_expansion` builds. -/
def InlineExpansion.locParams (ie : InlineExpansion) (ftype : Ftype) (base : ℕ) :
    List LocParam :=
  ie.parms.foldl (fun params param => params.set param.idx (locParamOf param base))
    (List.replicate (ftype.parms.length + ftype.unspecParms.toNat) LocParam.zero)

/-- The function and the locations that `btf_encoder__add_inline_expansion` saves for an
expansion, if any. -/
def Encoder.inlineToSave (enc : Encoder) (elf : Option Elf) (ie : InlineExpansion) :
    Option (Function × Loc) :=
  match elf, ie.name, ie.function with
  | some elf, some name, some fn =>
      if filterName name then none
      else
        (enc.inlineAddrToSection elf ie.addr).map fun (idx, offset) =>
          (fn, ⟨name, ie.locParams fn.proto enc.addrBase, 0, 0, idx, offset⟩)
  | _, _, _ => none

/-! ## Variables -/

/-- `isalpha` -/
def isAlpha (c : Char) : Bool := ('a' ≤ c ∧ c ≤ 'z') ∨ ('A' ≤ c ∧ c ≤ 'Z')

/-- `btf_name_char_ok` -/
def btfNameCharOk (c : Char) (first : Bool) : Bool :=
  c = '_' ∨ c = '.' ∨ isAlpha c ∨ (¬first ∧ '0' ≤ c ∧ c ≤ '9')

/-- `btf_name_valid` -/
def btfNameValid (name : String) : Bool :=
  match name.toList with
  | [] => false
  | c :: rest =>
      btfNameCharOk c true ∧ rest.length < ksymNameLen ∧
        rest.all fun c => btfNameCharOk c false

/-- `variable_in_sec` -/
def variableInSec (symtab : List ElfSym) (name : String) (shndx : ℕ) : Bool :=
  symtab.any fun sym => sym.secIdx = shndx ∧ sym.isObject ∧ sym.name = some name

/-- A variable that is encoded: the section it is in and its place there. -/
structure VarPlace where
  name : String
  shndx : ℕ
  offset : ℕ
  size : ℕ
  deriving DecidableEq, Repr

/-- The decision of `btf_encoder__encode_cu_variables` on a variable. -/
inductive VarVerdict where
  | skip
  /-- give up on the CU -/
  | reject
  | encode (place : VarPlace)
  deriving DecidableEq, Repr

/-- The checks of `btf_encoder__encode_cu_variables` on a variable. -/
def Encoder.varVerdict (enc : Encoder) (symtab : List ElfSym) (cu : Cu) (var : Variable) :
    VarVerdict :=
  if var.declaration ∧ var.spec.isNone then .skip
  else if ¬var.topLevel ∨ var.artificial ∨ ¬var.scopeGlobal then .skip
  else
    let shndx := enc.getElfSection var.addr
    match enc.secinfo[shndx]? with
    | none => .skip
    | some sec =>
        if shndx = 0 ∨ ¬sec.included then .skip
        else
          let addr := var.addr - sec.addr
          let decl := var.described
          match decl.name with
          | none => .skip
          | some name =>
              if filterName name then .skip
              else if addr = 0 ∧ ¬variableInSec symtab name shndx then .skip
              else if ¬btfNameValid name then if enc.force then .skip else .reject
              else if decl.type = 0 then if enc.force then .skip else .reject
              else
                let size := cu.typeSize decl.type
                if size = 0 ∨ uint32Max < size then .skip
                else if uint32Max < addr then .skip
                else .encode ⟨name, shndx, addr, size⟩

/-- `btf_encoder__add_var_secinfo` -/
def Encoder.addVarSecinfo (enc : Encoder) (shndx : ℕ) (si : VarSecinfo) : Encoder :=
  { enc with
    secinfo := enc.secinfo.modify shndx fun sec =>
      { sec with secinfo := sec.secinfo ++ [si] } }

/-- `BTF_VAR_STATIC`, `BTF_VAR_GLOBAL_ALLOCATED` -/
def VariableSpec.linkage (decl : VariableSpec) : ℕ := if decl.external then 1 else 0

/-- The encoding of one variable by `btf_encoder__encode_cu_variables`. -/
def encodeVariable (decl : VariableSpec) (place : VarPlace) : BtfM Encoder ℤ := do
  let enc := (← getTable).client
  elseMinusOne (addVar (enc.tagType decl.type) place.name decl.linkage) fun id =>
    elseMinusOne
      (forEach (fun annot => addDeclTag annot.value (u32 id) annot.componentIdx)
        decl.annots) fun _ => do
      modifyClient fun enc =>
        enc.addVarSecinfo place.shndx ⟨u32 id, place.offset, place.size⟩
      return 0

/-- The body of the loop of `btf_encoder__encode_cu_variables`. -/
def encodeCuVariable (symtab : List ElfSym) (cu : Cu) (var : Variable) :
    BtfM Encoder ℤ := do
  let enc := (← getTable).client
  match enc.varVerdict symtab cu var with
  | .skip => return 0
  | .reject => return -1
  | .encode place => encodeVariable var.described place

/-! ## Plans -/

/-- The plan of encoding one variable. -/
def variablePlan (ref : TypeId → ℕ) (decl : VariableSpec) (place : VarPlace) :
    BtfPlan Encoder :=
  callPlan .var (.append (.var place.name decl.linkage (ref decl.type))) ++
    (declTagsPlan 0 decl.annots ++
      [.set fun t => t.client.addVarSecinfo place.shndx
        ⟨u32 (lastId t - decl.annots.length), place.offset, place.size⟩])

theorem makes_encodeVariable (decl : VariableSpec) (place : VarPlace) (s : Btf Encoder) :
    Makes (encodeVariable decl place) s
      (variablePlan s.table.client.tagType decl place) fun _ => 0 := by
  refine Runs.getTable (Follows.elseMinusOne (makes_addLogged _ rfl _ s) fun s' _ _ => ?_)
  refine Follows.elseMinusOne
    (makes_declTags (lastId s'.table) 0 decl.annots s' (by simp)) fun s'' hout _ => ?_
  refine Runs.set (q := return 0) ?_ (follows_return (le_refl 0) _)
  have htable := (exec_done (heard_declTagsPlan rfl 0 decl.annots) hout).1
  have hid : lastId s''.table - decl.annots.length = lastId s'.table := by
    rw [htable, lastId, cnt_declTagsPlan, lastId]
    push_cast
    ring
  simp only [bind, EStateM.bind, modifyClient, hid]

end Pahole

import Mathlib.Data.List.SplitBy
import Pahole.BtfEncoder.AddTypes
import Pahole.BtfEncoder.ElfFunctions
import Pahole.BtfEncoder.TypesMatch

/-!
# Encoding the saved functions

`btf_encoder__add_saved_funcs`: the saved states are sorted, the states of one ELF
function that are next to each other are combined, and each of these groups is
either skipped or stands for one FUNC.  What becomes of a group is decided before
anything is added for it; that decision is a function of the states and the BTF.
-/

namespace Pahole

open FallibleTable

/-- The environment of the encoder: `qsort`, the functions that libbpf has, and stack memory. -/
structure Host where
  qsort : Qsort
  /-- whether libbpf has `btf__add_type_attr` -/
  hasTypeAttr : Bool
  /-- whether libbpf has the functions for LOC_PARAM, LOC_PROTO and LOCSEC -/
  hasLocs : Bool
  /-- what an uninitialised buffer of `KSYM_NAME_LEN` bytes has from its last byte on -/
  stackTail : String

/-- Any value stands for an `elf_function` behind a pointer that is not one. -/
def ElfFunction.null : ElfFunction := ⟨"", [], false, false, 0⟩

namespace Encoder

/-- `state->elf`.  The states of `func_states` were saved with a function. -/
def elfOf (enc : Encoder) (state : FuncState) : ElfFunction :=
  (state.elf.bind enc.elfFunction?).getD ElfFunction.null

/-- `saved_functions_cmp` -/
def savedFunctionsCmp (enc : Encoder) (a b : FuncState) : ℤ :=
  let ret := strcmp (enc.elfOf a).name (enc.elfOf b).name
  if ret ≠ 0 then ret else (decide (a.addr = 0)).toNat - (decide (b.addr = 0)).toNat

end Encoder

/-- `btf__type_by_id`, where it finds a type of this encoder. -/
def typeById (t : Table BtfType Encoder) : ℕ → Option BtfType := t.entry?

/-- More rounds than there are pairs of types to compare. -/
def matchFuel (t : Table BtfType Encoder) : ℕ := t.cnt * t.cnt + 1

/-! ## Combining the states of a function -/

/-- `saved_functions_combine`, for states of the same ELF function. -/
def savedFunctionsCombine (t : Table BtfType Encoder) (a b : FuncState) :
    Except Crash (FuncState × FuncState) :=
  let unexpected := a.unexpectedReg || b.unexpectedReg
  let inconsistent := a.inconsistentProto || b.inconsistentProto
  let uncertain := a.uncertainParmLoc || b.uncertainParmLoc
  let reordered := a.reorderedParm || b.reorderedParm
  let merged (inconsistent : Bool) (state : FuncState) : FuncState :=
    { state with
      unexpectedReg := unexpected
      inconsistentProto := inconsistent
      uncertainParmLoc := uncertain
      reorderedParm := reordered }
  if (¬t.client.trueSignature ∨ (a.addr ≠ 0 ↔ b.addr ≠ 0)) ∧
      ¬unexpected ∧ ¬inconsistent ∧ ¬reordered then
    match funcsMatch (typeById t) (matchFuel t) a b with
    | .ok same => .ok (merged (!same) a, merged (!same) b)
    | .error crash => .error crash
  else .ok (merged inconsistent a, merged inconsistent b)

/-- The loop that combines the states of a group with its first one. -/
def combineAll (t : Table BtfType Encoder) (a : FuncState) :
    List FuncState → Except Crash (FuncState × List FuncState)
  | [] => .ok (a, [])
  | b :: rest =>
      match savedFunctionsCombine t a b with
      | .error crash => .error crash
      | .ok (a, b) =>
          match combineAll t a rest with
          | .error crash => .error crash
          | .ok (a, rest) => .ok (a, b :: rest)

/-! ## Deciding about a group -/

/-- The states that `btf_encoder__add_true_signature` adds. -/
def FuncState.isTrue (state : FuncState) : Bool :=
  state.sym.isSome && !state.unexpectedReg && !state.uncertainParmLoc && !state.ambiguousAddr

/-- `btf_encoder_func_state__skip_optimized_parms` -/
def FuncState.skipOptimizedParms (state : FuncState) (trueSignature : Bool) : Bool :=
  !trueSignature && state.optimizedParms && (state.signatureChanged || state.optimizedSymbol)

/-- Whether a state has the address of one of the function's symbols. -/
def FuncState.atSymbol (state : FuncState) (elf : ElfFunction) : Bool :=
  elf.syms.any fun sym => state.addr = sym.addr

/-- `btf_encoder__select_canonical_state` of the states `a :: rest` -/
def selectCanonicalState (trueSignature : Bool) (elf : ElfFunction) (a : FuncState)
    (rest : List FuncState) : FuncState :=
  let atSymbols := (a :: rest).filter fun state => state.atSymbol elf
  match atSymbols.find? fun state => !state.skipOptimizedParms trueSignature with
  | some state => state
  | none => atSymbols.head?.getD a

/-- Whether `btf_encoder__add_saved_funcs` has a reason to skip a group with the first
state `state`. -/
def skipReason (trueSignature skipInconsistent : Bool) (elf : ElfFunction)
    (state canonical : FuncState) : Bool :=
  state.unexpectedReg || (skipInconsistent && state.inconsistentProto) ||
    state.uncertainParmLoc || state.reorderedParm ||
    canonical.skipOptimizedParms trueSignature || elf.ambiguousAddr

/-- The decision on a group: which of its states a FUNC is added for. -/
inductive Verdict where
  /-- its true signature is added -/
  | trueSignature (state : FuncState)
  | skip
  | canonical (state : FuncState)
  deriving DecidableEq, Repr

/-- The decision on the combined states `a :: rest`. -/
def combinedVerdict (enc : Encoder) (skipInconsistent : Bool) (a : FuncState)
    (rest : List FuncState) : Verdict :=
  let elf := enc.elfOf a
  match if enc.trueSignature then (a :: rest).find? FuncState.isTrue else none with
  | some state => .trueSignature state
  | none =>
      let canonical :=
        if rest.isEmpty then a else selectCanonicalState enc.trueSignature elf a rest
      if skipReason enc.trueSignature skipInconsistent elf a canonical then .skip
      else .canonical canonical

/-- The decision on a group, after its states are combined. -/
def groupVerdict (t : Table BtfType Encoder) (skipInconsistent : Bool) :
    List FuncState → Except Crash Verdict
  | [] => .ok .skip
  | a :: rest =>
      match combineAll t a rest with
      | .error crash => .error crash
      | .ok (a, rest) => .ok (combinedVerdict t.client skipInconsistent a rest)

/-! ## Adding a function -/

/-- `strncpy` of an annotation into a buffer whose last byte is left as it is. -/
def annotCopy (stackTail value : String) : String :=
  if value.length < ksymNameLen - 1 then value else ksymCopy value ++ stackTail

/-- The annotations as `btf_encoder__add_func` adds them. -/
def FuncState.copiedAnnots (state : FuncState) (stackTail : String) : List LlvmAnnotation :=
  state.annots.map fun a => { a with value := annotCopy stackTail a.value }

/-- The name of the FUNC of a state. -/
def FuncState.funcName (state : FuncState) (enc : Encoder) : String :=
  match state.sym with
  | some sym => if enc.trueSignature then sym.name else (enc.elfOf state).name
  | none => (enc.elfOf state).name

/-- Note that a FUNC was added for a state. -/
def Encoder.noteFunc (enc : Encoder) (state : FuncState) : Encoder :=
  { enc with funcsAdded := enc.funcsAdded ++ state.elf.toList }

/-- `btf_encoder__add_func` -/
def addFunc (host : Host) (state : FuncState) : BtfM Encoder ℤ := do
  let enc := (← getTable).client
  elseMinusOne (addFuncProtoForState state) fun protoId =>
    elseMinusOne (addRefType .func (u32 protoId) (some (state.funcName enc))) fun fnId => do
    modifyClient fun enc => enc.noteFunc state
    elseMinusOne
      (forEach (fun annot => addDeclTag annot.value (u32 fnId) annot.componentIdx)
        (state.copiedAnnots host.stackTail)) fun _ =>
    return fnId

/-! ## Adding a kfunc -/

def kfFastcall : ℕ := 4096
def kfArenaRet : ℕ := 8192
def kfArenaArg1 : ℕ := 16384
def kfArenaArg2 : ℕ := 32768

/-- `-EINVAL` -/
def einval : ℤ := -22

/-- `-ENOTSUP` -/
def enotsup : ℤ := -95

/-- `btf__tag_bpf_arena_ptr` -/
def tagBpfArenaPtr (ptrId : ℕ) : BtfM Encoder ℤ := do
  let t ← getTable
  if ptrId = 0 then return einval
  else
    match typeById t ptrId with
    | none => throw .nullDeref
    | some (.ref .ptr _ type) =>
        andThen (append (.ref .typeAttr (some "address_space(1)") type)) fun taggedTypeId =>
          append (.ref .ptr none (u32 taggedTypeId))
    | some _ => return einval

/-- `btf__tag_bpf_arena_arg`, going on with the state it changes. -/
def tagBpfArenaArg (state : FuncState) (idx : ℕ) (k : FuncState → BtfM Encoder ℤ) :
    BtfM Encoder ℤ :=
  if state.nrParms ≤ idx then return einval
  else
    andThen (tagBpfArenaPtr (state.parms.getD idx ⟨"", 0⟩).typeId) fun id =>
      k { state with parms := state.parms.modify idx fun p => { p with typeId := u32 id } }

/-- `btf__add_bpf_arena_type_tags`, going on with the state it changes. -/
def addBpfArenaTypeTags (host : Host) (flags : ℕ) (state : FuncState)
    (k : FuncState → BtfM Encoder ℤ) : BtfM Encoder ℤ :=
  if ¬host.hasTypeAttr then return enotsup
  else
    let arg2 := fun state =>
      if flags &&& kfArenaArg2 ≠ 0 then tagBpfArenaArg state 1 k else k state
    let arg1 := fun state =>
      if flags &&& kfArenaArg1 ≠ 0 then tagBpfArenaArg state 0 arg2 else arg2 state
    if flags &&& kfArenaRet ≠ 0 then
      andThen (tagBpfArenaPtr state.retTypeId) fun retTypeId =>
        arg1 { state with retTypeId := u32 retTypeId }
    else arg1 state

/-- `btf__add_kfunc_decl_tag` -/
def addKfuncDeclTag (tag : String) (id : ℕ) : BtfM Encoder ℤ :=
  andThen (append (.declTag tag id (-1))) fun _ => return 0

/-- `btf__tag_kfunc` -/
def tagKfunc (flags id : ℕ) : BtfM Encoder ℤ :=
  andThen (addKfuncDeclTag "bpf_kfunc" id) fun _ =>
    if flags &&& kfFastcall ≠ 0 then addKfuncDeclTag "bpf_fastcall" id else return 0

/-- `btf_encoder__add_bpf_kfunc` -/
def addBpfKfunc (host : Host) (state : FuncState) : BtfM Encoder ℤ := do
  let enc := (← getTable).client
  let flags := (enc.elfOf state).kfuncFlags
  let add := fun state =>
    elseMinusOne (addFunc host state) fun fnId =>
      if enc.tagKfuncs ∧ ¬enc.skipEncodingDeclTag then tagKfunc flags (u32 fnId)
      else return 0
  if enc.tagKfuncs ∧ enc.encodeAttributes then addBpfArenaTypeTags host flags state add
  else add state

/-! ## All saved functions -/

/-- One round of the loop of `btf_encoder__add_saved_funcs`. -/
def addGroup (host : Host) (skipInconsistent : Bool) (group : List FuncState) :
    BtfM Encoder ℤ := do
  let t ← getTable
  match groupVerdict t skipInconsistent group with
  | .error crash => throw crash
  | .ok .skip => return 0
  | .ok (.trueSignature state) => addFunc host state
  | .ok (.canonical state) =>
      if (t.client.elfOf state).kfunc then addBpfKfunc host state else addFunc host state

/-- The states of one ELF function that are next to each other. -/
def stateGroups (states : List FuncState) : List (List FuncState) :=
  states.splitBy fun a b => a.elf = b.elf

/-- `btf_encoder__delete_func_states` of `func_states` -/
def Encoder.deleteFuncStates (enc : Encoder) : Encoder := { enc with funcStates := [] }

/-- The groups of `btf_encoder__add_saved_funcs`, in its order. -/
def Encoder.savedGroups (qsort : Qsort) (enc : Encoder) : List (List FuncState) :=
  stateGroups (qsort.sort enc.savedFunctionsCmp enc.funcStates)

/-- `btf_encoder__add_saved_funcs`.  A value that is not negative tells its caller
nothing. -/
def addSavedFuncs (host : Host) (skipInconsistent : Bool) : BtfM Encoder ℤ := do
  let enc := (← getTable).client
  let err ← forEach (addGroup host skipInconsistent) (enc.savedGroups host.qsort)
  modifyClient Encoder.deleteFuncStates
  return err

end Pahole

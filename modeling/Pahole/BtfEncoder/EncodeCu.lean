import Pahole.BtfEncoder.CuSymbols
import Pahole.BtfEncoder.EncodeTag

/-!
# Encoding a CU

`btf_encoder__encode_cu`: the ids are predicted, the types are encoded and checked
against the prediction, and the declaration tags, functions, inline expansions and
variables follow.
-/

namespace Pahole

open FallibleTable

/-- The annotations that `btf_encoder__encode_cu` turns into declaration tags. -/
def Tag.declTags : Tag → List LlvmAnnotation
  | .aggregate ty => if ty.kind = .classType then [] else ty.annots
  | .typedef _ _ annots => annots
  | _ => []

/-- The `int` that is made up when arrays need an index type and the CU has none. -/
def indexInt : BaseType :=
  { name := none
    bitSize := 32
    nameHasEncoding := false
    isSigned := true
    isBool := false
    isVarargs := false
    floatType := .none }

namespace Encoder

/-- The start of `btf_encoder__encode_cu`, when the next type gets the id `cnt`. -/
def startCu (enc : Encoder) (cnt : ℕ) (cu : Cu) : Encoder :=
  let enc := { enc with
    typeIdOff := u32 ((cnt : ℤ) - 1)
    typeIdNullAdj := nullAdj cu.types }
  let enc := enc.precomputeBtfIds cu.types
  if enc.hasIndexType then enc
  else
    match cu.types.findBaseTypeByName "int" with
    | some id => { enc with hasIndexType := true, arrayIndexId := enc.tagType id }
    | none =>
        let nr := cu.types.length
        { enc with
          hasIndexType := false
          arrayIndexId := u32 (enc.typeIdOff + nr - enc.nullAdjAt nr - enc.btfIdSkipped +
            enc.btfIdExtra) }

/-- The end of `btf_encoder__encode_cu`. -/
def finishCu (enc : Encoder) : Encoder :=
  { enc with
    typeIdNullAdj := none
    btfIdMap := none
    btfIdExtra := 0
    btfIdSkipped := 0 }

/-- The slot of `btf_id_map`, unless it is missing or zero. -/
def mappedId? (enc : Encoder) (coreId : ℕ) : Option ℕ :=
  match enc.btfIdMap with
  | none => none
  | some map =>
      if map.length ≤ coreId ∨ map.getD coreId 0 = 0 then none
      else some (map.getD coreId 0)

end Encoder

def report (r : Report) : Prog BtfType Encoder Unit :=
  modifyClient fun enc => { enc with reports := enc.reports ++ [r] }

/-- The body of the loop of `btf_encoder__encode_cu` over the types. -/
def encodeCuType (conf : ConfLoad) (coreId : ℕ) (pos : Tag) : BtfM Encoder ℤ := do
  let btfTypeId ← encodeTag conf pos
  if btfTypeId = 0 then return 0
  else if btfTypeId < 0 then return -1
  else
    match (← getTable).client.btfIdMap with
    | none => return 0
    | some map =>
        if coreId < map.length then
          let expected := map.getD coreId 0
          if expected = 0 then
            report (.unexpectedEmit coreId)
            return -1
          else if u32 btfTypeId ≠ expected then
            report (.idDrift coreId)
            return -1
          else return 0
        else return 0

/-- Add the index type if it is needed and lacking; `has_index_type` is set even if the call
fails. -/
def addIndexType : Prog BtfType Encoder Unit := do
  let enc := (← getTable).client
  if enc.needIndexType ∧ ¬enc.hasIndexType then
    let _ ← addBaseType enc.genFloats indexInt (some "int")
    modifyClient fun enc => { enc with hasIndexType := true }
  else return ()

/-- The loop of `btf_encoder__encode_cu` that adds declaration tags. -/
def encodeCuDeclTags (cu : Cu) : BtfM Encoder ℤ := do
  let enc := (← getTable).client
  forEach (fun (coreId, pos) =>
    match enc.mappedId? coreId with
    | none => return 0
    | some btfTypeId =>
        forEach (fun annot : LlvmAnnotation =>
          addDeclTag annot.value btfTypeId annot.componentIdx) pos.declTags) cu.types.entries

/-- `btf_encoder__add_inline_expansion`, for an expansion with a name and a function
that is not filtered out. -/
def addInlineExpansion (cu : Cu) (ie : InlineExpansion) : BtfM Encoder ℤ := do
  let enc := (← getTable).client
  match enc.inlineToSave cu.elf ie with
  | none => return 0
  | some (fn, loc) => saveFunc fn none (some loc)

/-- `btf_encoder__encode_cu` after its start. -/
def encodeCuBody (conf : ConfLoad) (cu : Cu) (funcs : ElfFunctions) : BtfM Encoder ℤ :=
  andThen (forEach (fun (coreId, pos) => encodeCuType conf coreId pos) cu.types.entries)
    fun _ => do
  addIndexType
  elseZero (encodeCuDeclTags cu) <|
    andThen (forEach (fun (fn, func) => saveFunc fn (some func) none)
      (cu.functionsToSave funcs)) fun _ =>
    andThen (forEach (addInlineExpansion cu) (if conf.btfGenInlines then cu.inlines else []))
      fun _ => do
    let enc := (← getTable).client
    andThen (forEach (encodeCuVariable funcs.symtab cu)
      (if enc.encodeVars then cu.vars else [])) fun _ =>
    return 1

/-- `btf_encoder__encode_cu` -/
def encodeCu (qsort : Qsort) (conf : ConfLoad) (cu : Cu) : BtfM Encoder ℤ := do
  let t ← getTable
  match t.client.elfFunctions qsort cu.elf with
  | none =>
      modifyClient Encoder.finishCu
      return -1
  | some (funcs, enc) =>
      modifyClient fun _ => enc.startCu t.cnt cu
      let err ← encodeCuBody conf cu funcs
      modifyClient Encoder.finishCu
      return err

/-- `btf_encoder__encode_cu` gives up when the ELF functions cannot be read. -/
theorem encodeCu_none {qsort : Qsort} {conf : ConfLoad} {cu : Cu} {s : Btf Encoder}
    (h : s.table.client.elfFunctions qsort cu.elf = none) :
    encodeCu qsort conf cu s = .ok (-1) (s.setClient s.table.client.finishCu) := by
  simp only [encodeCu, bind, EStateM.bind, getTable, h, modifyClient, pure, EStateM.pure]

/-- The session in which the types of a CU are encoded. -/
def startSession (cu : Cu) (enc : Encoder) (s : Btf Encoder) : Btf Encoder :=
  s.setClient (enc.startCu s.table.cnt cu)

theorem encodeCu_some {qsort : Qsort} {conf : ConfLoad} {cu : Cu} {s : Btf Encoder}
    {funcs : ElfFunctions} {enc : Encoder}
    (h : s.table.client.elfFunctions qsort cu.elf = some (funcs, enc)) :
    encodeCu qsort conf cu s =
      match encodeCuBody conf cu funcs (startSession cu enc s) with
      | .ok r s' => .ok r (s'.setClient s'.table.client.finishCu)
      | .error e s' => .error e s' := by
  simp only [encodeCu, bind, EStateM.bind, getTable, h, modifyClient, pure, EStateM.pure,
    startSession]
  cases encodeCuBody conf cu funcs (s.setClient (enc.startCu s.table.cnt cu)) <;> rfl

theorem elfFunctions_eq {qsort : Qsort} {enc enc' : Encoder} {elf : Option Elf}
    {funcs : ElfFunctions} (h : enc.elfFunctions qsort elf = some (funcs, enc')) :
    ∃ list, enc' = { enc with elfFunctionsList := list } := by
  unfold Encoder.elfFunctions at h
  cases elf with
  | none => simp at h
  | some elf =>
      simp only at h
      cases hfind : enc.findElfFunctions elf.id with
      | some found =>
          simp only [hfind, Option.some.injEq, Prod.mk.injEq] at h
          exact ⟨enc.elfFunctionsList, h.2.symm⟩
      | none =>
          simp only [hfind] at h
          obtain ⟨found, -, hfound⟩ := Option.map_eq_some_iff.mp h
          exact ⟨_, (Prod.mk.inj hfound).2.symm⟩

end Pahole

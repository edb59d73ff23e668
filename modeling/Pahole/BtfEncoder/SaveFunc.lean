import Pahole.BtfEncoder.AddTypes
import Pahole.BtfEncoder.ElfFunctions

/-!
# Saving functions

Functions are not encoded with their CU.  `btf_encoder__save_func` records a state
for each of them, with type ids already translated, and adds the names it needs
to the string table.
-/

namespace Pahole

open FallibleTable

/-- A zeroed `struct btf_encoder_func_parm`. -/
def FuncParm.zero : FuncParm := ⟨"", 0⟩

/-- A zeroed `struct llvm_annotation` of a state. -/
def LlvmAnnotation.zero : LlvmAnnotation := ⟨"", 0⟩

/-- Write the elements of a list to an array, with an index kept in a `uint8_t`. -/
def writeFrom {γ : Type} (idx : ℕ) : List γ → List γ → List γ
  | [], arr => arr
  | x :: xs, arr => writeFrom ((idx + 1) % 256) xs (arr.set idx x)

/-- Whether `btf_encoder__save_func` leaves a parameter out. -/
def Parameter.leftOut (trueSignature : Bool) (ftype : Ftype) (param : Parameter) : Bool :=
  (ftype.reorderedParm ∧ (¬param.hasLoc ∨ param.optimized)) ∨
    (trueSignature ∧ ftype.signatureChanged ∧ param.optimized)

/-- The name under which a parameter is saved. -/
def Parameter.savedName (trueSignature : Bool) (ftype : Ftype) (param : Parameter) : String :=
  match param.name with
  | none => ""
  | some name =>
      match param.trueSigMemberName with
      | some field =>
          if trueSignature ∧ ftype.signatureChanged then name ++ "__" ++ field else name
      | none => name

/-- The parameters that `btf_encoder__save_func` saves. -/
def Ftype.savedParms (trueSignature : Bool) (hasLoc : Bool) (ftype : Ftype) :
    List Parameter :=
  if hasLoc then ftype.parms
  else ftype.parms.filter fun param => ¬param.leftOut trueSignature ftype

/-- The `parms` of a saved state.  Room is made for every parameter of the function,
the variable arguments counting as one. -/
def Ftype.stateParms (ref : TypeId → ℕ) (trueSignature hasLoc : Bool) (ftype : Ftype) :
    List FuncParm :=
  let room := ftype.parms.length + ftype.unspecParms.toNat
  let saved := ftype.savedParms trueSignature hasLoc
  let parms := writeFrom 0
    (saved.map fun param => ⟨param.savedName trueSignature ftype, ref param.type⟩)
    (List.replicate room FuncParm.zero)
  if ftype.unspecParms then
    parms.modify (saved.length % 256) fun p => { p with typeId := 0 }
  else parms

/-- The symbol that a state records: one at the function's address with a suffix. -/
def ElfFunction.trueSymbol? (func : ElfFunction) (addr : ℕ) : Option ElfFunctionSym :=
  func.syms.find? fun sym => addr = sym.addr ∧ (dotSuffix? sym.name).isSome

/-- Whether a symbol at the function's address names an optimized copy. -/
def ElfFunction.optimizedSymbol (func : ElfFunction) (addr : ℕ) : Bool :=
  func.syms.any fun sym => addr = sym.addr ∧ strContainsOptimizedFnSuffix sym.name

/-- The state that `btf_encoder__save_func` fills in. -/
def Encoder.funcState (ref : TypeId → ℕ) (enc : Encoder) (fn : Function)
    (func : Option ElfPtr) (loc : Option Loc) : FuncState :=
  let ftype := fn.proto
  let symbols := if fn.addr ≠ 0 then func.bind enc.elfFunction? else none
  { elf := func
    sym := if enc.trueSignature then symbols.bind fun f => f.trueSymbol? fn.addr else none
    loc := loc
    addr := fn.addr
    nrParms := (ftype.savedParms enc.trueSignature loc.isSome).length +
      ftype.unspecParms.toNat
    optimizedParms := ftype.optimizedParms
    unexpectedReg := ftype.unexpectedReg
    inconsistentProto := ftype.inconsistentProto
    uncertainParmLoc := ftype.uncertainParmLoc
    reorderedParm := ftype.reorderedParm
    signatureChanged := ftype.signatureChanged
    optimizedSymbol := (symbols.map fun f => f.optimizedSymbol fn.addr).getD false
    ambiguousAddr := false
    retTypeId := ref ftype.type
    parms := ftype.stateParms ref enc.trueSignature loc.isSome
    annots :=
      if loc.isSome then []
      else writeFrom 0 fn.annots (List.replicate fn.annots.length LlvmAnnotation.zero) }

/-- Append a state to `loc_states` or `func_states`. -/
def Encoder.pushState (enc : Encoder) (state : FuncState) : Encoder :=
  if state.loc.isSome then { enc with locStates := enc.locStates ++ [state] }
  else { enc with funcStates := enc.funcStates ++ [state] }

/-- `btf__add_str`.  The offset of a string is represented by the string. -/
def addStr (_ : String) : BtfM Encoder ℤ := perform .touch

/-- The strings that `btf_encoder__save_func` adds, in order. -/
def savedStrings (trueSignature : Bool) (fn : Function) (loc : Option Loc) : List String :=
  (fn.proto.savedParms trueSignature loc.isSome).map
      (Parameter.savedName trueSignature fn.proto) ++
    if loc.isSome then [] else fn.annots.map LlvmAnnotation.value

/-- `btf_encoder__save_func`.  The state is dropped when a string cannot be added. -/
def saveFunc (fn : Function) (func : Option ElfPtr) (loc : Option Loc) :
    BtfM Encoder ℤ := do
  let enc := (← getTable).client
  andThen (forEach addStr (savedStrings enc.trueSignature fn loc)) fun _ => do
    modifyClient fun enc => enc.pushState (enc.funcState enc.tagType fn func loc)
    return 0

/-- The plan of saving a function. -/
def saveFuncPlan (trueSignature : Bool) (fn : Function) (func : Option ElfPtr)
    (loc : Option Loc) : BtfPlan Encoder :=
  (savedStrings trueSignature fn loc).flatMap (fun _ => callPlan .str .touch) ++
    [.set fun t =>
      t.client.pushState (t.client.funcState t.client.tagType fn func loc)]

theorem makes_saveFunc (fn : Function) (func : Option ElfPtr) (loc : Option Loc)
    (s : Btf Encoder) :
    Makes (saveFunc fn func loc) s
      (saveFuncPlan s.table.client.trueSignature fn func loc) fun _ => 0 := by
  set strings := savedStrings s.table.client.trueSignature fn loc
  have hloop : Makes (forEach addStr strings) s
      (strings.flatMap fun _ => callPlan .str .touch) fun _ => 0 :=
    Follows.forEach (v := fun _ _ => 0) (fun _ s => follows_touch rfl s) strings s
  refine Runs.getTable (Follows.andThen hloop fun s' _ _ => ?_)
  exact Runs.set (q := return 0) rfl (follows_return (le_refl 0) _)

end Pahole

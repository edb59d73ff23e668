import Mathlib.Data.List.Basic
import Pahole.Support.Inheritance

/-!
# Names and types along abstract origins

What the tags of functions and parameters take from the tags that they refer to, while the
tables of a CU are recoded.
-/

namespace Pahole

open Inheritance

/-- `struct parameter`.  One without `DW_AT_type` refers to another one, and has no name
in the DIE. -/
inductive ParamTag where
  | own (name : Option String) (type : ℕ)
  | concrete (abstractOrigin : ℕ)

/-- `struct inline_expansion`; its function and its parameters. -/
structure ExpansionTag where
  origin : ℕ
  params : List ℕ

/-- An inline expansion or a parameter in the blocks of a function. -/
inductive BlockItem where
  | expansion (exp : ExpansionTag)
  | param (p : ℕ)

/-- `struct function`.  The type is 0 without `DW_AT_type`. -/
structure FunctionTag where
  name : Option String
  type : ℕ
  abstractOrigin : Option ℕ
  specification : Option ℕ
  params : List ℕ
  block : List BlockItem

/-- An entry of `types_table` or `tags_table`.  A namespace or class is the sequence of
its functions and subroutine types. -/
inductive RecodeEntry where
  | param (p : ℕ)
  | expansion (exp : ExpansionTag)
  | proto (params : List ℕ)
  | member (f : ℕ)

/-- The tag that a function refers to. -/
def FunctionTag.origin (fn : FunctionTag) : Option ℕ := fn.abstractOrigin.or fn.specification

/-- A CU before its types are recoded.  Every reference resolves, and no chain of them is
cyclic. -/
structure FunctionsCu where
  function : ℕ → FunctionTag
  param : ℕ → ParamTag
  rank : ℕ → ℕ
  paramRank : ℕ → ℕ
  acyclic : ∀ i j, (function i).origin = some j → rank j < rank i
  acyclicParams : ∀ p o, param p = .concrete o → paramRank o < paramRank p
  types : List RecodeEntry
  tags : List RecodeEntry
  functions : List ℕ

/-- The names and types of functions and parameters. -/
structure FunctionTags where
  fnName : ℕ → Option String
  fnType : ℕ → ℕ
  paramName : ℕ → Option String
  paramType : ℕ → ℕ

def ParamTag.name : ParamTag → Option String
  | .own name _ => name
  | .concrete _ => none

def ParamTag.type : ParamTag → ℕ
  | .own _ type => type
  | .concrete _ => 0

def ParamTag.origin : ParamTag → Option ℕ
  | .own _ _ => none
  | .concrete o => some o

namespace FunctionsCu

variable (cu : FunctionsCu)

def start : FunctionTags where
  fnName f := (cu.function f).name
  fnType _ := 0
  paramName p := (cu.param p).name
  paramType _ := 0

/-- `function__recode_dwarf_name` -/
def recodeName (s : FunctionTags) (f : ℕ) : FunctionTags :=
  if (s.fnName f).isSome then s
  else
    match (cu.function f).origin with
    | none => s
    | some j => { s with fnName := Function.update s.fnName f (s.fnName j) }

/-- `parameter__recode_dwarf_type` -/
def recodeParam (s : FunctionTags) (p : ℕ) : FunctionTags :=
  match cu.param p with
  | .own _ type => { s with paramType := Function.update s.paramType p type }
  | .concrete o =>
      { s with
        paramName := Function.update s.paramName p (s.paramName o)
        paramType := Function.update s.paramType p (s.paramType o) }

/-- A parameter in a block, in `lexblock__recode_dwarf_types`. -/
def recodeBlockParam (s : FunctionTags) (p : ℕ) : FunctionTags :=
  match cu.param p with
  | .own _ type =>
      if type = 0 then s else { s with paramType := Function.update s.paramType p type }
  | .concrete _ => cu.recodeParam s p

/-- A parameter in `tags_table`, in `tag__recode_dwarf_type`. -/
def recodeTableParam (s : FunctionTags) (p : ℕ) : FunctionTags :=
  { s with paramType := Function.update s.paramType p (cu.param p).type }

/-- `ftype__recode_dwarf_types` -/
def recodeParams (s : FunctionTags) (params : List ℕ) : FunctionTags :=
  params.foldl cu.recodeParam s

/-- `inline_expansion__recode_dwarf_types` -/
def recodeExpansion (s : FunctionTags) (exp : ExpansionTag) : FunctionTags :=
  let s := cu.recodeName s exp.origin
  let s := cu.recodeParams s (cu.function exp.origin).params
  cu.recodeParams s exp.params

def recodeBlockItem (s : FunctionTags) : BlockItem → FunctionTags
  | .expansion exp => cu.recodeExpansion s exp
  | .param p => cu.recodeBlockParam s p

/-- The end of `tag__recode_dwarf_type`, for a function. -/
def recodeReturnType (s : FunctionTags) (f : ℕ) : FunctionTags :=
  { s with fnType := Function.update s.fnType f (cu.function f).type }

/-- `tag__recode_dwarf_type` of a function. -/
def recodeFunction (s : FunctionTags) (f : ℕ) : FunctionTags :=
  if (s.fnName f).isNone && (cu.function f).origin.isNone then s
  else
    let s := cu.recodeName s f
    let s := (cu.function f).block.foldl cu.recodeBlockItem s
    let s := cu.recodeParams s (cu.function f).params
    cu.recodeReturnType s f

/-- The type of a function in `namespace__recode_dwarf_types`. -/
def recodeMemberType (s : FunctionTags) (f : ℕ) : FunctionTags :=
  if (cu.function f).type = 0 then s else cu.recodeReturnType s f

/-- `tag__recode_dwarf_type` of an entry of the other tables. -/
def recodeEntry (s : FunctionTags) : RecodeEntry → FunctionTags
  | .param p => cu.recodeTableParam s p
  | .expansion exp => cu.recodeExpansion s exp
  | .proto params => cu.recodeParams s params
  | .member f => cu.recodeMemberType (cu.recodeParams s (cu.function f).params) f

/-- `cu__recode_dwarf_types` -/
def recode : FunctionTags :=
  cu.functions.foldl cu.recodeFunction
    (cu.tags.foldl cu.recodeEntry (cu.types.foldl cu.recodeEntry cu.start))

/-- The return type in `cu__resolve_func_ret_types_optimized`. -/
def resolveReturnType (s : FunctionTags) (f : ℕ) : FunctionTags :=
  if s.fnType f ≠ 0 then s
  else
    match (cu.function f).abstractOrigin with
    | none => s
    | some j => { s with fnType := Function.update s.fnType f (s.fnType j) }

/-- `cu__resolve_func_ret_types_optimized`, after the types have been recoded. -/
def resolved : FunctionTags := cu.functions.foldl cu.resolveReturnType cu.recode

/-! ## The ends of the chains -/

def nextName (f : ℕ) : Option ℕ :=
  if (cu.function f).name.isSome then none else (cu.function f).origin

def nextType (f : ℕ) : Option ℕ := if (cu.function f).type ≠ 0 then none else (cu.function f).origin

def endName : ℕ → Option String := endOf cu.nextName (fun f => (cu.function f).name) cu.rank

def endType : ℕ → ℕ := endOf cu.nextType (fun f => (cu.function f).type) cu.rank

def endParamName : ℕ → Option String :=
  endOf (fun p => (cu.param p).origin) (fun p => (cu.param p).name) cu.paramRank

def endParamType : ℕ → ℕ :=
  endOf (fun p => (cu.param p).origin) (fun p => (cu.param p).type) cu.paramRank

/-- Every function has the name, the return type and the parameters that are found at the
end of its chain. -/
structure AtEnds : Prop where
  names : ∀ f ∈ cu.functions, cu.resolved.fnName f = cu.endName f
  returnTypes : ∀ f ∈ cu.functions, cu.resolved.fnType f = cu.endType f
  paramNames : ∀ f ∈ cu.functions, ∀ p ∈ (cu.function f).params,
    cu.resolved.paramName p = cu.endParamName p
  paramTypes : ∀ f ∈ cu.functions, ∀ p ∈ (cu.function f).params,
    cu.resolved.paramType p = cu.endParamType p

/-! ## The order of the steps -/

end FunctionsCu

/-- A step of the recoding of the tables. -/
inductive RecodeStep where
  | name (f : ℕ)
  | param (p : ℕ)
  | blockParam (p : ℕ)
  | tableParam (p : ℕ)
  | returnType (f : ℕ)
  | memberType (f : ℕ)
  | resolve (f : ℕ)

namespace FunctionsCu

variable (cu : FunctionsCu)

def step (s : FunctionTags) : RecodeStep → FunctionTags
  | .name f => cu.recodeName s f
  | .param p => cu.recodeParam s p
  | .blockParam p => cu.recodeBlockParam s p
  | .tableParam p => cu.recodeTableParam s p
  | .returnType f => cu.recodeReturnType s f
  | .memberType f => cu.recodeMemberType s f
  | .resolve f => cu.resolveReturnType s f

def expansionSteps (exp : ExpansionTag) : List RecodeStep :=
  .name exp.origin :: (cu.function exp.origin).params.map .param ++ exp.params.map .param

def blockItemSteps : BlockItem → List RecodeStep
  | .expansion exp => cu.expansionSteps exp
  | .param p => [.blockParam p]

def functionSteps (f : ℕ) : List RecodeStep :=
  if (cu.function f).name.isNone && (cu.function f).origin.isNone then []
  else
    .name f :: (cu.function f).block.flatMap cu.blockItemSteps ++
      (cu.function f).params.map .param ++ [.returnType f]

def entrySteps : RecodeEntry → List RecodeStep
  | .param p => [.tableParam p]
  | .expansion exp => cu.expansionSteps exp
  | .proto params => params.map .param
  | .member f => (cu.function f).params.map .param ++ [.memberType f]

def recodeSteps : List RecodeStep :=
  cu.types.flatMap cu.entrySteps ++ cu.tags.flatMap cu.entrySteps ++
    cu.functions.flatMap cu.functionSteps

def steps : List RecodeStep := cu.recodeSteps ++ cu.functions.map .resolve

/-- The visits of a step to the names of functions. -/
def nameVisits : RecodeStep → List (Visit ℕ)
  | .name f => ((cu.function f).origin.map fun j => .fill f j).toList
  | _ => []

/-- The visits of a step to the return types.  A specification is not followed. -/
def typeVisits : RecodeStep → List (Visit ℕ)
  | .returnType f => if (cu.function f).type = 0 then [.clear f] else [.load f]
  | .memberType f => if (cu.function f).type = 0 then [] else [.load f]
  | .resolve f => ((cu.function f).abstractOrigin.map fun j => .fill f j).toList
  | _ => []

/-- The visits of a step to the names of parameters. -/
def paramNameVisits : RecodeStep → List (Visit ℕ)
  | .param p | .blockParam p => ((cu.param p).origin.map fun o => .copy p o).toList
  | _ => []

/-- The visits of a step to the types of parameters.  One that refers to another one loses its
type when it is met in `tags_table`. -/
def paramTypeVisits : RecodeStep → List (Visit ℕ)
  | .param p =>
      match cu.param p with
      | .own _ _ => [.load p]
      | .concrete o => [.copy p o]
  | .blockParam p =>
      match cu.param p with
      | .own _ type => if type = 0 then [] else [.load p]
      | .concrete o => [.copy p o]
  | .tableParam p =>
      match cu.param p with
      | .own _ _ => [.load p]
      | .concrete _ => [.clear p]
  | _ => []

/-- For each function and parameter, the visits contain the entries of its chain in the order
from its end, or the chain has no value at its end. -/
structure InOrder : Prop where
  names : ∀ f ∈ cu.functions,
    Arrived (fun f => (cu.function f).name.isSome = true)
      (cu.steps.flatMap cu.nameVisits).reverse f ∨ cu.endName f = none
  returnTypes : ∀ f ∈ cu.functions,
    Arrived (fun _ => False) (cu.steps.flatMap cu.typeVisits).reverse f ∨ cu.endType f = 0
  paramNames : ∀ f ∈ cu.functions, ∀ p ∈ (cu.function f).params,
    Arrived (fun p => (cu.param p).origin = none)
      (cu.steps.flatMap cu.paramNameVisits).reverse p ∨ cu.endParamName p = none
  paramTypes : ∀ f ∈ cu.functions, ∀ p ∈ (cu.function f).params,
    Arrived (fun _ => False) (cu.steps.flatMap cu.paramTypeVisits).reverse p ∨
      cu.endParamType p = 0

section Steps

variable {cu} {s : FunctionTags}

/-- A function that refers to nothing keeps its name. -/
def KeepsNames (cu : FunctionsCu) (s : FunctionTags) : Prop :=
  ∀ f, (cu.function f).origin = none → s.fnName f = (cu.function f).name

theorem fnName_recodeParam (s : FunctionTags) (p : ℕ) :
    (cu.recodeParam s p).fnName = s.fnName ∧ (cu.recodeParam s p).fnType = s.fnType := by
  unfold recodeParam
  cases cu.param p <;> exact ⟨rfl, rfl⟩

theorem fnName_recodeBlockParam (s : FunctionTags) (p : ℕ) :
    (cu.recodeBlockParam s p).fnName = s.fnName ∧
      (cu.recodeBlockParam s p).fnType = s.fnType := by
  unfold recodeBlockParam
  cases cu.param p with
  | own name type =>
      simp only
      split <;> exact ⟨rfl, rfl⟩
  | concrete o => exact fnName_recodeParam s p

theorem fnName_step (s : FunctionTags) (e : RecodeStep) :
    (cu.step s e).fnName =
      (cu.nameVisits e).foldl (visit (fun f => (cu.function f).name) none) s.fnName := by
  cases e with
  | name f =>
      simp only [step, recodeName, nameVisits]
      cases horigin : (cu.function f).origin with
      | none => split <;> rfl
      | some j =>
          simp only [Option.map_some, Option.toList_some, List.foldl_cons, List.foldl_nil, visit]
          cases hname : s.fnName f with
          | none => rfl
          | some name => simp
  | param p => exact (fnName_recodeParam s p).1
  | blockParam p => exact (fnName_recodeBlockParam s p).1
  | memberType f =>
      simp only [step, recodeMemberType, nameVisits, List.foldl_nil]
      split <;> rfl
  | resolve f =>
      simp only [step, resolveReturnType, nameVisits, List.foldl_nil]
      split
      · rfl
      · cases (cu.function f).abstractOrigin <;> rfl
  | _ => rfl

theorem fnType_step (s : FunctionTags) (e : RecodeStep) :
    (cu.step s e).fnType =
      (cu.typeVisits e).foldl (visit (fun f => (cu.function f).type) 0) s.fnType := by
  cases e with
  | name f =>
      simp only [step, recodeName, typeVisits, List.foldl_nil]
      split
      · rfl
      · cases (cu.function f).origin <;> rfl
  | param p => exact (fnName_recodeParam s p).2
  | blockParam p => exact (fnName_recodeBlockParam s p).2
  | tableParam p => rfl
  | returnType f =>
      simp only [step, recodeReturnType, typeVisits]
      split
      · rename_i hzero
        simp only [List.foldl_cons, List.foldl_nil, visit, hzero]
      · rfl
  | memberType f =>
      simp only [step, recodeMemberType, typeVisits]
      split <;> rfl
  | resolve f =>
      simp only [step, resolveReturnType, typeVisits]
      cases (cu.function f).abstractOrigin with
      | none => split <;> rfl
      | some j =>
          simp only [Option.map_some, Option.toList_some, List.foldl_cons, List.foldl_nil, visit]
          by_cases hzero : s.fnType f = 0 <;> simp [hzero]

theorem paramName_step (s : FunctionTags) (e : RecodeStep) :
    (cu.step s e).paramName =
      (cu.paramNameVisits e).foldl (visit (fun p => (cu.param p).name) none) s.paramName := by
  cases e with
  | name f =>
      simp only [step, recodeName, paramNameVisits, List.foldl_nil]
      split
      · rfl
      · cases (cu.function f).origin <;> rfl
  | param p =>
      simp only [step, recodeParam, paramNameVisits]
      cases cu.param p <;> rfl
  | blockParam p =>
      simp only [step, recodeBlockParam, recodeParam, paramNameVisits]
      cases cu.param p with
      | own name type =>
          simp only [ParamTag.origin, Option.map_none, Option.toList_none, List.foldl_nil]
          split <;> rfl
      | concrete o => rfl
  | memberType f =>
      simp only [step, recodeMemberType, paramNameVisits, List.foldl_nil]
      split <;> rfl
  | resolve f =>
      simp only [step, resolveReturnType, paramNameVisits, List.foldl_nil]
      split
      · rfl
      · cases (cu.function f).abstractOrigin <;> rfl
  | _ => rfl

theorem paramType_step (s : FunctionTags) (e : RecodeStep) :
    (cu.step s e).paramType =
      (cu.paramTypeVisits e).foldl (visit (fun p => (cu.param p).type) 0) s.paramType := by
  cases e with
  | name f =>
      simp only [step, recodeName, paramTypeVisits, List.foldl_nil]
      split
      · rfl
      · cases (cu.function f).origin <;> rfl
  | param p =>
      simp only [step, recodeParam, paramTypeVisits]
      cases hp : cu.param p <;> simp [visit, hp, ParamTag.type]
  | blockParam p =>
      simp only [step, recodeBlockParam, recodeParam, paramTypeVisits]
      cases hp : cu.param p with
      | own name type =>
          simp only
          split <;> simp [visit, hp, ParamTag.type]
      | concrete o => simp [visit]
  | tableParam p =>
      simp only [step, recodeTableParam, paramTypeVisits]
      cases hp : cu.param p <;> simp [visit, hp, ParamTag.type]
  | memberType f =>
      simp only [step, recodeMemberType, paramTypeVisits, List.foldl_nil]
      split <;> rfl
  | resolve f =>
      simp only [step, resolveReturnType, paramTypeVisits, List.foldl_nil]
      split
      · rfl
      · cases (cu.function f).abstractOrigin <;> rfl
  | _ => rfl

/-- If a step visits a component, a list of steps makes all of its visits in order. -/
theorem component_steps {α : Type} [DecidableEq α] {component : FunctionTags → ℕ → α}
    {own : ℕ → α} {unset : α} {visits : RecodeStep → List (Visit ℕ)}
    (hstep : ∀ s e, component (cu.step s e) =
      (visits e).foldl (visit own unset) (component s)) (es : List RecodeStep) :
    component (es.foldl cu.step s) =
      (es.flatMap visits).reverse.foldr (fun v σ => visit own unset σ v) (component s) := by
  rw [List.foldr_reverse]
  induction es generalizing s with
  | nil => rfl
  | cons e es ih => rw [List.foldl_cons, ih, hstep, List.flatMap_cons, List.foldl_append]

theorem KeepsNames.step (h : cu.KeepsNames s) (e : RecodeStep) : cu.KeepsNames (cu.step s e) := by
  intro f hf
  rw [fnName_step]
  cases e with
  | name g =>
      cases horigin : (cu.function g).origin with
      | none =>
          simp only [nameVisits, horigin]
          exact h f hf
      | some j =>
          have hne : f ≠ g := by
            rintro rfl
            rw [hf] at horigin
            cases horigin
          simp only [nameVisits, horigin, Option.map_some, Option.toList_some, List.foldl_cons,
            List.foldl_nil, visit]
          split
          · rw [Function.update_of_ne hne]
            exact h f hf
          · exact h f hf
  | _ => exact h f hf

theorem KeepsNames.steps (h : cu.KeepsNames s) (es : List RecodeStep) :
    cu.KeepsNames (es.foldl cu.step s) := by
  induction es generalizing s with
  | nil => exact h
  | cons e es ih => exact ih (h.step e)

theorem recodeParams_eq (s : FunctionTags) (params : List ℕ) :
    cu.recodeParams s params = (params.map .param).foldl cu.step s := by
  rw [List.foldl_map]
  rfl

theorem recodeExpansion_eq (s : FunctionTags) (exp : ExpansionTag) :
    cu.recodeExpansion s exp = (cu.expansionSteps exp).foldl cu.step s := by
  simp only [recodeExpansion, expansionSteps, List.cons_append, List.foldl_cons,
    List.foldl_append, recodeParams_eq]
  rfl

theorem recodeBlock_eq (s : FunctionTags) (items : List BlockItem) :
    items.foldl cu.recodeBlockItem s = (items.flatMap cu.blockItemSteps).foldl cu.step s := by
  induction items generalizing s with
  | nil => rfl
  | cons item items ih =>
      rw [List.foldl_cons, ih, List.flatMap_cons, List.foldl_append]
      cases item with
      | expansion exp => rw [recodeBlockItem, recodeExpansion_eq, blockItemSteps]
      | param p => rfl

theorem recodeFunction_eq (h : cu.KeepsNames s) (f : ℕ) :
    cu.recodeFunction s f = (cu.functionSteps f).foldl cu.step s := by
  have hearly : ((s.fnName f).isNone && (cu.function f).origin.isNone) =
      ((cu.function f).name.isNone && (cu.function f).origin.isNone) := by
    cases horigin : (cu.function f).origin with
    | none => rw [h f horigin]
    | some j => simp
  unfold recodeFunction functionSteps
  rw [hearly]
  split
  · rfl
  · simp only [List.cons_append, List.append_assoc, List.foldl_cons, List.foldl_append,
      recodeBlock_eq, recodeParams_eq]
    rfl

theorem recodeEntries_eq (s : FunctionTags) (entries : List RecodeEntry) :
    entries.foldl cu.recodeEntry s = (entries.flatMap cu.entrySteps).foldl cu.step s := by
  induction entries generalizing s with
  | nil => rfl
  | cons entry entries ih =>
      rw [List.foldl_cons, ih, List.flatMap_cons, List.foldl_append]
      cases entry with
      | param p => rfl
      | expansion exp => rw [recodeEntry, recodeExpansion_eq, entrySteps]
      | proto params => rw [recodeEntry, recodeParams_eq, entrySteps]
      | member f =>
          rw [recodeEntry, recodeParams_eq, entrySteps, List.foldl_append]
          rfl

theorem recodeFunctions_eq (h : cu.KeepsNames s) (fs : List ℕ) :
    fs.foldl cu.recodeFunction s = (fs.flatMap cu.functionSteps).foldl cu.step s := by
  induction fs generalizing s with
  | nil => rfl
  | cons f fs ih =>
      rw [List.foldl_cons, recodeFunction_eq h, List.flatMap_cons, List.foldl_append]
      exact ih (h.steps _)

theorem recode_eq : cu.recode = cu.recodeSteps.foldl cu.step cu.start := by
  have hstart : cu.KeepsNames cu.start := fun _ _ => rfl
  unfold recode recodeSteps
  rw [List.foldl_append, List.foldl_append, recodeEntries_eq, recodeEntries_eq,
    recodeFunctions_eq ((hstart.steps _).steps _)]

theorem resolved_eq : cu.resolved = cu.steps.foldl cu.step cu.start := by
  unfold resolved steps
  rw [List.foldl_append, recode_eq, List.foldl_map]
  rfl

end Steps

/-! ## Values after the visits -/

section Settles

variable {cu}

theorem nextName_rank (f g : ℕ) (h : cu.nextName f = some g) : cu.rank g < cu.rank f := by
  unfold nextName at h
  split at h
  · nomatch h
  · exact cu.acyclic f g h

theorem nextType_rank (f g : ℕ) (h : cu.nextType f = some g) : cu.rank g < cu.rank f := by
  unfold nextType at h
  split at h
  · nomatch h
  · exact cu.acyclic f g h

theorem param_origin_rank (p o : ℕ) (h : (cu.param p).origin = some o) :
    cu.paramRank o < cu.paramRank p := by
  refine cu.acyclicParams p o ?_
  cases hp : cu.param p with
  | own name type =>
      rw [hp] at h
      nomatch h
  | concrete o' =>
      rw [hp] at h
      rw [Option.some.inj h]

theorem mem_nameVisits {e : RecodeStep} {v : Visit ℕ} (h : v ∈ cu.nameVisits e) :
    ∃ f j, v = .fill f j ∧ (cu.function f).origin = some j := by
  cases e with
  | name f =>
      simp only [nameVisits, Option.mem_toList, Option.map_eq_some_iff] at h
      obtain ⟨j, horigin, rfl⟩ := h
      exact ⟨f, j, rfl, horigin⟩
  | _ => exact absurd h List.not_mem_nil

variable (cu) in
theorem settled_names :
    Settled none cu.endName (Arrived (fun f => (cu.function f).name.isSome = true)
      (cu.steps.flatMap cu.nameVisits).reverse) cu.resolved.fnName := by
  have hnamed : ∀ f, (cu.function f).name.isSome = true →
      cu.endName f = (cu.function f).name := fun f hf => by
    refine endOf_of_none ?_
    rw [nextName, if_pos hf]
  rw [resolved_eq, component_steps fnName_step]
  refine settled_visits ⟨fun f hf => (hnamed f hf).symm, fun f hf => ?_⟩ fun v hv => ?_
  · exact Option.not_isSome_iff_eq_none.mp hf
  · have hfill : ∀ v ∈ (cu.steps.flatMap cu.nameVisits).reverse,
        ∃ f j, v = .fill f j ∧ (cu.function f).origin = some j := by
      intro v hv
      obtain ⟨e, -, hv⟩ := List.mem_flatMap.mp (List.mem_reverse.mp hv)
      exact mem_nameVisits hv
    obtain ⟨f, j, rfl, horigin⟩ := hfill v hv
    by_cases hf : (cu.function f).name.isSome = true
    · refine Or.inr ⟨hf, ?_, fun hmem => ?_, fun j hmem => ?_⟩
      · rw [hnamed f hf]
        exact Option.isSome_iff_ne_none.mp hf
      · obtain ⟨_, _, heq, -⟩ := hfill _ hmem
        nomatch heq
      · obtain ⟨_, _, heq, -⟩ := hfill _ hmem
        nomatch heq
    · refine Or.inl (endOf_link nextName_rank ?_)
      rw [nextName, if_neg hf, horigin]

theorem own_type_of_origin (p : ℕ) (h : (cu.param p).origin = none) :
    cu.endParamType p = (cu.param p).type ∧ cu.endParamName p = (cu.param p).name :=
  ⟨endOf_of_none h, endOf_of_none h⟩

theorem param_copies {p o : ℕ} (h : (cu.param p).origin = some o) :
    cu.endParamType p = cu.endParamType o ∧ cu.endParamName p = cu.endParamName o :=
  ⟨endOf_link param_origin_rank h, endOf_link param_origin_rank h⟩

variable (cu) in
theorem settled_paramNames :
    Settled none cu.endParamName (Arrived (fun p => (cu.param p).origin = none)
      (cu.steps.flatMap cu.paramNameVisits).reverse) cu.resolved.paramName := by
  rw [resolved_eq, component_steps paramName_step]
  refine settled_visits ⟨fun p hp => (own_type_of_origin p hp).2.symm, fun p hp => ?_⟩
    fun v hv => ?_
  · change (cu.param p).name = none
    cases hparam : cu.param p with
    | own name type =>
        rw [hparam] at hp
        exact absurd rfl hp
    | concrete o => rfl
  · obtain ⟨e, -, hv⟩ := List.mem_flatMap.mp (List.mem_reverse.mp hv)
    have hcopy : ∀ p, v ∈ ((cu.param p).origin.map fun o => Visit.copy p o).toList →
        Leads (fun p => (cu.param p).name) none (fun p => (cu.param p).origin = none)
          cu.endParamName (cu.steps.flatMap cu.paramNameVisits).reverse v := by
      intro p hv
      simp only [Option.mem_toList, Option.map_eq_some_iff] at hv
      obtain ⟨o, horigin, rfl⟩ := hv
      exact (param_copies horigin).2
    cases e with
    | param p => exact hcopy p hv
    | blockParam p => exact hcopy p hv
    | _ => exact absurd hv List.not_mem_nil

variable (cu) in
theorem settled_paramTypes :
    Settled 0 cu.endParamType (Arrived (fun _ => False)
      (cu.steps.flatMap cu.paramTypeVisits).reverse) cu.resolved.paramType := by
  rw [resolved_eq, component_steps paramType_step]
  refine settled_visits ⟨fun _ h => h.elim, fun _ _ => rfl⟩ fun v hv => ?_
  obtain ⟨e, -, hv⟩ := List.mem_flatMap.mp (List.mem_reverse.mp hv)
  have hload : ∀ p name type, cu.param p = .own name type →
      (cu.param p).type = cu.endParamType p := by
    intro p name type hp
    refine (own_type_of_origin p ?_).1.symm
    rw [hp]
    rfl
  have hcopy : ∀ p o, cu.param p = .concrete o → cu.endParamType p = cu.endParamType o := by
    intro p o hp
    refine (param_copies ?_).1
    rw [hp]
    rfl
  cases e with
  | param p =>
      simp only [paramTypeVisits] at hv
      cases hp : cu.param p with
      | own name type =>
          simp only [hp, List.mem_singleton] at hv
          subst hv
          exact hload p name type hp
      | concrete o =>
          simp only [hp, List.mem_singleton] at hv
          subst hv
          exact hcopy p o hp
  | blockParam p =>
      simp only [paramTypeVisits] at hv
      cases hp : cu.param p with
      | own name type =>
          simp only [hp] at hv
          split at hv
          · exact absurd hv List.not_mem_nil
          · obtain rfl := List.mem_singleton.mp hv
            exact hload p name type hp
      | concrete o =>
          simp only [hp, List.mem_singleton] at hv
          subst hv
          exact hcopy p o hp
  | tableParam p =>
      simp only [paramTypeVisits] at hv
      cases hp : cu.param p with
      | own name type =>
          simp only [hp, List.mem_singleton] at hv
          subst hv
          exact hload p name type hp
      | concrete o =>
          simp only [hp, List.mem_singleton] at hv
          subst hv
          trivial
  | _ => exact absurd hv List.not_mem_nil

/-- The steps that recode a function load its own type, or clear it if it has none. -/
theorem mem_typeVisits_recode {e : RecodeStep} (he : e ∈ cu.recodeSteps) {v : Visit ℕ}
    (h : v ∈ cu.typeVisits e) :
    ∃ f, (v = .load f ∧ (cu.function f).type ≠ 0) ∨
      (v = .clear f ∧ (cu.function f).type = 0) := by
  cases e with
  | returnType f =>
      simp only [typeVisits] at h
      split at h
      · rename_i hzero
        exact ⟨f, Or.inr ⟨List.mem_singleton.mp h, hzero⟩⟩
      · rename_i hne
        exact ⟨f, Or.inl ⟨List.mem_singleton.mp h, hne⟩⟩
  | memberType f =>
      simp only [typeVisits] at h
      split at h
      · exact absurd h List.not_mem_nil
      · rename_i hne
        exact ⟨f, Or.inl ⟨List.mem_singleton.mp h, hne⟩⟩
  | resolve f =>
      exfalso
      have hentry : ∀ entry, RecodeStep.resolve f ∉ cu.entrySteps entry := by
        intro entry
        cases entry <;> simp [entrySteps, expansionSteps]
      have hitem : ∀ item, RecodeStep.resolve f ∉ cu.blockItemSteps item := by
        intro item
        cases item <;> simp [blockItemSteps, expansionSteps]
      have hfunction : ∀ g, RecodeStep.resolve f ∉ cu.functionSteps g := by
        intro g
        unfold functionSteps
        split
        · exact List.not_mem_nil
        · simp [hitem]
      simp only [recodeSteps, List.mem_append, List.mem_flatMap] at he
      rcases he with (⟨entry, -, h⟩ | ⟨entry, -, h⟩) | ⟨g, -, h⟩
      · exact hentry entry h
      · exact hentry entry h
      · exact hfunction g h
  | _ => exact absurd h List.not_mem_nil

theorem mem_typeVisits_resolve {e : RecodeStep} (he : e ∈ cu.functions.map .resolve)
    {v : Visit ℕ} (h : v ∈ cu.typeVisits e) :
    ∃ f ∈ cu.functions, ∃ j, v = .fill f j ∧ (cu.function f).origin = some j := by
  obtain ⟨f, hf, rfl⟩ := List.mem_map.mp he
  simp only [typeVisits, Option.mem_toList, Option.map_eq_some_iff] at h
  obtain ⟨j, horigin, rfl⟩ := h
  refine ⟨f, hf, j, rfl, ?_⟩
  rw [FunctionTag.origin, horigin, Option.some_or]

theorem endType_of_ne {f : ℕ} (h : (cu.function f).type ≠ 0) :
    cu.endType f = (cu.function f).type := by
  refine endOf_of_none ?_
  rw [nextType, if_pos h]

/-- A function with a type and a chain has its type when the tables have been recoded. -/
theorem arrived_type {f j : ℕ} (hf : f ∈ cu.functions)
    (horigin : (cu.function f).origin = some j) (htype : (cu.function f).type ≠ 0) :
    Arrived (fun _ => False) (cu.recodeSteps.flatMap cu.typeVisits).reverse f := by
  have hvisit : ∀ v ∈ (cu.recodeSteps.flatMap cu.typeVisits).reverse,
      ∃ g, (v = .load g ∧ (cu.function g).type ≠ 0) ∨
        (v = .clear g ∧ (cu.function g).type = 0) := by
    intro v hv
    obtain ⟨e, he, hv⟩ := List.mem_flatMap.mp (List.mem_reverse.mp hv)
    exact mem_typeVisits_recode he hv
  refine arrived_of_load (List.mem_reverse.mpr (List.mem_flatMap.mpr
    ⟨.returnType f, ?_, ?_⟩)) (fun hmem => ?_) fun j hmem => ?_
  · unfold recodeSteps
    refine List.mem_append_right _ (List.mem_flatMap.mpr ⟨f, hf, ?_⟩)
    unfold functionSteps
    rw [if_neg (by simp [horigin])]
    simp
  · simp [typeVisits, htype]
  · obtain ⟨g, ⟨heq, -⟩ | ⟨heq, hzero⟩⟩ := hvisit _ hmem
    · nomatch heq
    · cases heq
      exact htype hzero
  · obtain ⟨g, ⟨heq, -⟩ | ⟨heq, -⟩⟩ := hvisit _ hmem
    · nomatch heq
    · nomatch heq

variable (cu) in
theorem settled_types :
    Settled 0 cu.endType (Arrived (fun _ => False)
      (cu.steps.flatMap cu.typeVisits).reverse) cu.resolved.fnType := by
  have hrecoded : Settled 0 cu.endType (Arrived (fun _ => False)
      (cu.recodeSteps.flatMap cu.typeVisits).reverse) cu.recode.fnType := by
    rw [recode_eq, component_steps fnType_step]
    refine settled_visits ⟨fun _ h => h.elim, fun _ _ => rfl⟩ fun v hv => ?_
    obtain ⟨e, he, hv⟩ := List.mem_flatMap.mp (List.mem_reverse.mp hv)
    obtain ⟨f, ⟨rfl, hne⟩ | ⟨rfl, -⟩⟩ := mem_typeVisits_recode he hv
    · exact (endType_of_ne hne).symm
    · trivial
  have hresolved : cu.resolved = (cu.functions.map .resolve).foldl cu.step cu.recode := by
    unfold resolved
    rw [List.foldl_map]
    rfl
  have hfill : ∀ v ∈ ((cu.functions.map RecodeStep.resolve).flatMap cu.typeVisits).reverse,
      ∃ f ∈ cu.functions, ∃ j, v = .fill f j ∧ (cu.function f).origin = some j := by
    intro v hv
    obtain ⟨e, he, hv⟩ := List.mem_flatMap.mp (List.mem_reverse.mp hv)
    exact mem_typeVisits_resolve he hv
  have hleads : ∀ v ∈ ((cu.functions.map RecodeStep.resolve).flatMap cu.typeVisits).reverse,
      Leads (fun f => (cu.function f).type) 0
        (Arrived (fun _ => False) (cu.recodeSteps.flatMap cu.typeVisits).reverse) cu.endType
        ((cu.functions.map RecodeStep.resolve).flatMap cu.typeVisits).reverse v := by
    intro v hv
    obtain ⟨f, hf, j, rfl, horigin⟩ := hfill v hv
    by_cases htype : (cu.function f).type = 0
    · refine Or.inl (endOf_link nextType_rank ?_)
      rw [nextType, if_neg (not_not.mpr htype), horigin]
    · refine Or.inr ⟨arrived_type hf horigin htype, ?_, fun hmem => ?_, fun j hmem => ?_⟩
      · rw [endType_of_ne htype]
        exact htype
      · obtain ⟨_, -, _, heq, -⟩ := hfill _ hmem
        nomatch heq
      · obtain ⟨_, -, _, heq, -⟩ := hfill _ hmem
        nomatch heq
  have hall := settled_visits hrecoded hleads
  rw [hresolved, component_steps fnType_step]
  unfold steps
  rw [List.flatMap_append, List.reverse_append]
  exact ⟨fun f hf => hall.there f ((arrived_append _ _ f).mp hf),
    fun f hf => hall.absent f fun h => hf ((arrived_append _ _ f).mpr h)⟩

end Settles

/-- A concrete function, its abstract instance and the declaration of that, in this order
in the table of functions. -/
def chainOfThree : FunctionsCu where
  function f :=
    if f = 0 then ⟨none, 0, some 1, none, [], []⟩
    else if f = 1 then ⟨none, 0, none, some 2, [], []⟩
    else ⟨some "f", 0, none, none, [], []⟩
  param _ := .own none 0
  rank f := if f = 0 then 2 else if f = 1 then 1 else 0
  paramRank _ := 0
  acyclic := by
    intro i j h
    by_cases h0 : i = 0
    · subst h0
      obtain rfl := Option.some.inj h
      decide
    · by_cases h1 : i = 1
      · subst h1
        obtain rfl := Option.some.inj h
        decide
      · simp [h0, h1, FunctionTag.origin] at h
  acyclicParams := by
    intro p o h
    nomatch h
  types := []
  tags := []
  functions := [0, 1, 2]

end FunctionsCu

end Pahole

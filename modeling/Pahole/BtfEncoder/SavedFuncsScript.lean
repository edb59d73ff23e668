import Pahole.BtfEncoder.SavedFuncs

/-!
# The script of the saved functions

The calls that `btf_encoder__add_saved_funcs` makes, group by group, as the BTF it
finds decides.
-/

namespace Pahole

open FallibleTable

abbrev BtfScript (β : Type) := Script CallSite BtfType β

/-- The script of a plan. -/
abbrev planScript {β : Type} (plan : BtfPlan β) : BtfScript β :=
  exec (stopsAt CallSite.reaction) plan

/-- The program ends as the script does, and stops at every failing call. -/
abbrev Obeys {β : Type} (p : BtfM β ℤ) (s : Btf β) (val : Table BtfType β → ℤ)
    (script : BtfScript β) : Prop :=
  Ends false CallSite.reaction p s val (script s)

section Func

variable {host : Host} {state : FuncState} {s s' : Btf Encoder}

/-- The plan of a FUNC. -/
def addFuncPlan (enc : Encoder) (host : Host) (state : FuncState) : BtfPlan Encoder :=
  protoPlan state.retTypeId state.protoParams ++
    ([.call .func fun t =>
        .append (.ref .func (some (state.funcName enc)) (u32 (lastId t)))] ++
      (.set (fun t => t.client.noteFunc state) ::
        (declTagsPlan 0 (state.copiedAnnots host.stackTail) ++ [])))

/-- The id of the FUNC, once its annotations are added. -/
def funcId (host : Host) (state : FuncState) (t : Table BtfType Encoder) : ℤ :=
  lastId t - (state.copiedAnnots host.stackTail).length

theorem makes_addFunc (host : Host) (state : FuncState) (s : Btf Encoder) :
    Makes (addFunc host state) s (addFuncPlan s.table.client host state)
      (funcId host state) := by
  refine Runs.getTable (Follows.elseMinusOne (makes_addFuncProtoForState state s)
    fun s₁ _ _ => ?_)
  have hfunc : Makes (addRefType .func (u32 (lastId s₁.table))
        (some (state.funcName s.table.client))) s₁
      [.call .func fun t =>
        .append (.ref .func (some (state.funcName s.table.client)) (u32 (lastId t)))]
      lastId := makes_addLogged .func rfl _ s₁
  refine Follows.elseMinusOne hfunc fun s₂ _ hpos => ?_
  set s₃ := s₂.setClient (s₂.table.client.noteFunc state) with hs₃
  refine Runs.set (q := elseMinusOne (forEach (fun annot : LlvmAnnotation =>
      addDeclTag annot.value (u32 (lastId s₂.table)) annot.componentIdx)
      (state.copiedAnnots host.stackTail)) fun _ => return lastId s₂.table) rfl ?_
  refine Follows.elseMinusOne (makes_declTags (lastId s₂.table) 0 _ s₃ (by simp [lastId, hs₃,
    Session.setClient, Table.cnt])) fun s₄ hout _ => ?_
  refine Runs.congr_val (follows_return hpos s₄) fun s' hs' => ?_
  obtain ⟨-, rfl⟩ := Prod.mk.inj hs'
  have htable := (exec_done (heard_declTagsPlan rfl 0 _) hout).1
  have hcnt : s₄.table.cnt = s₂.table.cnt + (state.copiedAnnots host.stackTail).length := by
    rw [htable, cnt_declTagsPlan]
    rfl
  simp only [funcId, lastId, hcnt]
  push_cast
  ring

theorem heard_addFuncPlan (enc : Encoder) (host : Host) (state : FuncState) :
    (addFuncPlan enc host state).Heard (stopsAt CallSite.reaction) := by
  have hproto : (protoPlan (β := Encoder) state.retTypeId state.protoParams).Heard
      (stopsAt CallSite.reaction) :=
    heard_append.mpr ⟨heard_callPlan.mpr rfl, heard_editPlan rfl⟩
  have htags : (declTagsPlan (β := Encoder) 0 (state.copiedAnnots host.stackTail)).Heard
      (stopsAt CallSite.reaction) := heard_declTagsPlan rfl 0 _
  simp only [addFuncPlan, heard_append, heard_call, heard_set, heard_nil, and_true]
  exact ⟨hproto, rfl, htags⟩

end Func

/-! ## Kfuncs -/

section Kfunc

/-- The script of tagging a pointer. -/
def arenaPtrScript (ptrId : ℕ) : BtfScript Encoder :=
  Script.look fun t =>
    if ptrId = 0 then Script.abort
    else
      match typeById t ptrId with
      | none => Script.crash .nullDeref
      | some (.ref .ptr _ type) =>
          planScript
            (callPlan .arena (.append (.ref .typeAttr (some "address_space(1)") type)) ++
              [.call .arena fun t => .append (.ref .ptr none (u32 (lastId t)))])
      | some _ => Script.abort

/-- The script of tagging an argument, before that of what follows. -/
def arenaArgScript (state : FuncState) (idx : ℕ) (next : FuncState → BtfScript Encoder) :
    BtfScript Encoder :=
  if state.nrParms ≤ idx then Script.abort
  else
    (arenaPtrScript (state.parms.getD idx ⟨"", 0⟩).typeId).seq <| Script.look fun t =>
      next { state with
        parms := state.parms.modify idx fun p => { p with typeId := u32 (lastId t) } }

/-- The script of tagging what a kfunc's flags ask for, before that of what follows. -/
def arenaScript (host : Host) (flags : ℕ) (state : FuncState)
    (next : FuncState → BtfScript Encoder) : BtfScript Encoder :=
  if ¬host.hasTypeAttr then Script.abort
  else
    let arg2 := fun state =>
      if flags &&& kfArenaArg2 ≠ 0 then arenaArgScript state 1 next else next state
    let arg1 := fun state =>
      if flags &&& kfArenaArg1 ≠ 0 then arenaArgScript state 0 arg2 else arg2 state
    if flags &&& kfArenaRet ≠ 0 then
      (arenaPtrScript state.retTypeId).seq <| Script.look fun t =>
        arg1 { state with retTypeId := u32 (lastId t) }
    else arg1 state

/-- The plan of the declaration tags of a kfunc whose FUNC is `id`. -/
def tagKfuncPlan (flags id : ℕ) : BtfPlan Encoder :=
  callPlan .declTag (.append (.declTag "bpf_kfunc" id (-1))) ++
    if flags &&& kfFastcall ≠ 0 then
      callPlan .declTag (.append (.declTag "bpf_fastcall" id (-1)))
    else []

/-- The script of a kfunc. -/
def kfuncScript (host : Host) (enc : Encoder) (state : FuncState) : BtfScript Encoder :=
  let flags := (enc.elfOf state).kfuncFlags
  let add := fun state => (Script.look fun t => planScript (addFuncPlan t.client host state)).seq <|
    Script.look fun t =>
      if enc.tagKfuncs ∧ ¬enc.skipEncodingDeclTag then
        planScript (tagKfuncPlan flags (u32 (funcId host state t)))
      else Script.nil
  if enc.tagKfuncs ∧ enc.encodeAttributes then arenaScript host flags state add else add state

variable {host : Host} {state : FuncState}

theorem obeys_return {r : ℤ} (hr : 0 ≤ r) (s : Btf Encoder) :
    Obeys (return r) s (fun _ => r) Script.nil :=
  ⟨rfl, hr⟩

theorem obeys_abort {r : ℤ} (hr : r < 0) (s : Btf Encoder) (val : Table BtfType Encoder → ℤ) :
    Obeys (return r) s val Script.abort :=
  ⟨r, rfl, hr⟩

theorem obeys_arenaPtr (ptrId : ℕ) (s : Btf Encoder) :
    Obeys (tagBpfArenaPtr ptrId) s lastId (arenaPtrScript ptrId) := by
  have habort : Obeys (return einval) s lastId Script.abort := obeys_abort (by decide) s _
  have happend : ∀ (u : BtfType) (s : Btf Encoder),
      Makes (append u) s (callPlan .arena (.append u)) lastId := fun u s =>
    follows_append rfl u s
  refine Ends.of_eq (q := if ptrId = 0 then return einval else
    match typeById s.table ptrId with
    | none => throw .nullDeref
    | some (.ref .ptr _ type) =>
        andThen (append (.ref .typeAttr (some "address_space(1)") type)) fun taggedTypeId =>
          append (.ref .ptr none (u32 taggedTypeId))
    | some _ => return einval) rfl ?_
  by_cases hzero : ptrId = 0
  · simp only [arenaPtrScript, Script.look, hzero, ↓reduceIte]
    exact habort
  · simp only [arenaPtrScript, Script.look, hzero, ↓reduceIte]
    cases hfind : typeById s.table ptrId with
    | none => exact rfl
    | some u =>
        cases u with
        | ref kind name type =>
            cases kind with
            | ptr =>
                refine Follows.andThen (happend _ s) fun s' _ _ => ?_
                exact happend (.ref .ptr none (u32 (lastId s'.table))) s'
            | _ => exact habort
        | _ => exact habort

theorem obeys_arenaArg {state : FuncState} {idx : ℕ} {k : FuncState → BtfM Encoder ℤ}
    {next : FuncState → BtfScript Encoder} {val : Table BtfType Encoder → ℤ}
    (hk : ∀ state s, Obeys (k state) s val (next state)) (s : Btf Encoder) :
    Obeys (tagBpfArenaArg state idx k) s val (arenaArgScript state idx next) := by
  unfold tagBpfArenaArg arenaArgScript
  split
  · exact obeys_abort (by decide) s val
  · exact Ends.andThen (obeys_arenaPtr _ s) fun s' _ _ => hk _ s'

theorem obeys_arena {host : Host} {flags : ℕ} {state : FuncState}
    {k : FuncState → BtfM Encoder ℤ} {next : FuncState → BtfScript Encoder}
    {val : Table BtfType Encoder → ℤ}
    (hk : ∀ state s, Obeys (k state) s val (next state)) (s : Btf Encoder) :
    Obeys (addBpfArenaTypeTags host flags state k) s val
      (arenaScript host flags state next) := by
  have harg2 : ∀ (state : FuncState) (s : Btf Encoder),
      Obeys (if flags &&& kfArenaArg2 ≠ 0 then tagBpfArenaArg state 1 k else k state) s val
        (if flags &&& kfArenaArg2 ≠ 0 then arenaArgScript state 1 next else next state) := by
    intro state s
    split
    · exact obeys_arenaArg hk s
    · exact hk state s
  set k2 : FuncState → BtfM Encoder ℤ := fun state =>
    if flags &&& kfArenaArg2 ≠ 0 then tagBpfArenaArg state 1 k else k state
  set next2 : FuncState → BtfScript Encoder := fun state =>
    if flags &&& kfArenaArg2 ≠ 0 then arenaArgScript state 1 next else next state
  have harg1 : ∀ (state : FuncState) (s : Btf Encoder),
      Obeys (if flags &&& kfArenaArg1 ≠ 0 then tagBpfArenaArg state 0 k2 else k2 state) s val
        (if flags &&& kfArenaArg1 ≠ 0 then arenaArgScript state 0 next2 else next2 state) := by
    intro state s
    split
    · exact obeys_arenaArg harg2 s
    · exact harg2 state s
  unfold addBpfArenaTypeTags arenaScript
  split
  · exact obeys_abort (by decide) s val
  · dsimp only
    split
    · exact Ends.andThen (obeys_arenaPtr _ s) fun s' _ _ => harg1 _ s'
    · exact harg1 state s

theorem makes_tagKfunc (flags id : ℕ) (s : Btf Encoder) :
    Makes (tagKfunc flags id) s (tagKfuncPlan flags id) fun _ => 0 := by
  have htag : ∀ (tag : String) (s : Btf Encoder),
      Makes (addKfuncDeclTag tag id) s (callPlan .declTag (.append (.declTag tag id (-1))))
        fun _ => 0 := fun tag s =>
    Follows.andThen (follows_append rfl _ s) fun s' _ _ => follows_return (le_refl 0) s'
  refine Follows.andThen (htag "bpf_kfunc" s) fun s' _ _ => ?_
  split
  · exact htag "bpf_fastcall" s'
  · exact follows_return (le_refl 0) s'

theorem obeys_kfunc (host : Host) (state : FuncState) (s : Btf Encoder) :
    Obeys (addBpfKfunc host state) s (fun _ => 0)
      (kfuncScript host s.table.client state) := by
  set enc := s.table.client with henc
  set flags := (enc.elfOf state).kfuncFlags
  have hadd : ∀ (state : FuncState) (s : Btf Encoder),
      Obeys (elseMinusOne (addFunc host state) fun fnId =>
          if enc.tagKfuncs ∧ ¬enc.skipEncodingDeclTag then tagKfunc flags (u32 fnId)
          else return 0) s (fun _ => 0)
        ((Script.look fun t => planScript (addFuncPlan t.client host state)).seq <|
          Script.look fun t =>
            if enc.tagKfuncs ∧ ¬enc.skipEncodingDeclTag then
              planScript (tagKfuncPlan flags (u32 (funcId host state t)))
            else Script.nil) := by
    intro state s
    refine Ends.elseMinusOne (makes_addFunc host state s) fun s' _ _ => ?_
    simp only [Script.look]
    split
    · exact makes_tagKfunc flags _ s'
    · exact obeys_return (le_refl 0) s'
  refine Ends.of_eq (q := if enc.tagKfuncs ∧ enc.encodeAttributes then
    addBpfArenaTypeTags host flags state _ else _) rfl ?_
  unfold kfuncScript
  dsimp only
  split
  · exact obeys_arena hadd s
  · exact hadd state s

end Kfunc

/-! ## Groups -/

/-- The script of a group of states. -/
def groupScript (host : Host) (skipInconsistent : Bool) (group : List FuncState) :
    BtfScript Encoder :=
  Script.look fun t =>
    match groupVerdict t skipInconsistent group with
    | .error crash => Script.crash crash
    | .ok .skip => Script.nil
    | .ok (.trueSignature state) => planScript (addFuncPlan t.client host state)
    | .ok (.canonical state) =>
        if (t.client.elfOf state).kfunc then kfuncScript host t.client state
        else planScript (addFuncPlan t.client host state)

/-- The script of all groups. -/
def groupsScript (host : Host) (skipInconsistent : Bool) (groups : List (List FuncState)) :
    BtfScript Encoder :=
  Script.each (groupScript host skipInconsistent) groups

/-- The value that adding a group returns. -/
def groupVal (host : Host) (skipInconsistent : Bool) (group : List FuncState)
    (t : Table BtfType Encoder) : Table BtfType Encoder → ℤ :=
  match groupVerdict t skipInconsistent group with
  | .ok (.trueSignature state) => funcId host state
  | .ok (.canonical state) =>
      if (t.client.elfOf state).kfunc then fun _ => 0 else funcId host state
  | _ => fun _ => 0

theorem obeys_addGroup (host : Host) (skipInconsistent : Bool) (group : List FuncState)
    (s : Btf Encoder) :
    Obeys (addGroup host skipInconsistent group) s
      (groupVal host skipInconsistent group s.table)
      (groupScript host skipInconsistent group) := by
  refine Ends.of_eq (q := match groupVerdict s.table skipInconsistent group with
    | .error crash => throw crash
    | .ok .skip => return 0
    | .ok (.trueSignature state) => addFunc host state
    | .ok (.canonical state) =>
        if (s.table.client.elfOf state).kfunc then addBpfKfunc host state
        else addFunc host state) rfl ?_
  simp only [groupScript, Script.look, groupVal]
  cases groupVerdict s.table skipInconsistent group with
  | error crash => exact rfl
  | ok verdict =>
      cases verdict with
      | skip => exact obeys_return (le_refl 0) s
      | trueSignature state => exact makes_addFunc host state s
      | canonical state =>
          cases hkfunc : (s.table.client.elfOf state).kfunc with
          | true =>
              simp only [hkfunc, ↓reduceIte]
              exact obeys_kfunc host state s
          | false =>
              simp only [hkfunc, Bool.false_eq_true, ↓reduceIte]
              exact makes_addFunc host state s

/-! ## Failures are heard -/

section Loud

variable {host : Host}

theorem loud_arenaPtr (ptrId : ℕ) : (arenaPtrScript ptrId).Loud := by
  refine Script.loud_look fun t => ?_
  split
  · exact Script.loud_abort
  · split
    · exact Script.loud_crash _
    · refine Script.loud_exec (heard_append.mpr ⟨heard_callPlan.mpr rfl, ?_⟩)
      exact heard_call.mpr ⟨rfl, heard_nil⟩
    · exact Script.loud_abort

theorem loud_arenaArg {state : FuncState} {idx : ℕ} {next : FuncState → BtfScript Encoder}
    (hnext : ∀ state, (next state).Loud) : (arenaArgScript state idx next).Loud := by
  unfold arenaArgScript
  split
  · exact Script.loud_abort
  · exact Script.loud_seq (loud_arenaPtr _) (Script.loud_look fun _ => hnext _)

theorem loud_arena {flags : ℕ} {state : FuncState} {next : FuncState → BtfScript Encoder}
    (hnext : ∀ state, (next state).Loud) : (arenaScript host flags state next).Loud := by
  have harg2 : ∀ state, (if flags &&& kfArenaArg2 ≠ 0 then arenaArgScript state 1 next
      else next state).Loud := by
    intro state
    split
    · exact loud_arenaArg hnext
    · exact hnext state
  set next2 : FuncState → BtfScript Encoder := fun state =>
    if flags &&& kfArenaArg2 ≠ 0 then arenaArgScript state 1 next else next state
  have harg1 : ∀ state, (if flags &&& kfArenaArg1 ≠ 0 then arenaArgScript state 0 next2
      else next2 state).Loud := by
    intro state
    split
    · exact loud_arenaArg harg2
    · exact harg2 state
  unfold arenaScript
  split
  · exact Script.loud_abort
  · dsimp only
    split
    · exact Script.loud_seq (loud_arenaPtr _) (Script.loud_look fun _ => harg1 _)
    · exact harg1 state

theorem loud_kfunc (enc : Encoder) (state : FuncState) :
    (kfuncScript host enc state).Loud := by
  set flags := (enc.elfOf state).kfuncFlags
  have hadd : ∀ state : FuncState,
      ((Script.look fun t => planScript (addFuncPlan t.client host state)).seq <|
        Script.look fun t =>
          if enc.tagKfuncs ∧ ¬enc.skipEncodingDeclTag then
            planScript (tagKfuncPlan flags (u32 (funcId host state t)))
          else Script.nil).Loud := by
    intro state
    refine Script.loud_seq (Script.loud_look fun t => ?_) (Script.loud_look fun t => ?_)
    · exact Script.loud_exec (heard_addFuncPlan t.client host state)
    · split
      · refine Script.loud_exec (heard_append.mpr ⟨heard_callPlan.mpr rfl, ?_⟩)
        split
        · exact heard_callPlan.mpr rfl
        · exact heard_nil
      · exact Script.loud_nil
  unfold kfuncScript
  dsimp only
  split
  · exact loud_arena hadd
  · exact hadd state

theorem loud_group (skipInconsistent : Bool) (group : List FuncState) :
    (groupScript host skipInconsistent group).Loud := by
  refine Script.loud_look fun t => ?_
  split
  · exact Script.loud_crash _
  · exact Script.loud_nil
  · exact Script.loud_exec (heard_addFuncPlan _ _ _)
  · split
    · exact loud_kfunc _ _
    · exact Script.loud_exec (heard_addFuncPlan _ _ _)

theorem loud_groups (skipInconsistent : Bool) (groups : List (List FuncState)) :
    (groupsScript host skipInconsistent groups).Loud :=
  Script.loud_each (loud_group skipInconsistent) groups

end Loud

end Pahole

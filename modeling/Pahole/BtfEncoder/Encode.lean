import Pahole.BtfEncoder.SavedFuncsScript

/-!
# The end of encoding

`btf_encoder__encode` adds what was gathered from all CUs: the saved functions, the
locations of inline expansions and the sections of variables.
-/

namespace Pahole

open FallibleTable

/-! ## Locations of inline expansions -/

/-- Any value stands for a `loc` behind a pointer that is not one. -/
def Loc.null : Loc := ⟨"", [], 0, 0, 0, 0⟩

/-- `state->loc`.  The states of `loc_states` were saved with one. -/
def FuncState.locOf (state : FuncState) : Loc := state.loc.getD Loc.null

/-- `btf_encoder__loc_state_cmp` -/
def locStateCmp (a b : FuncState) : ℤ :=
  let la := a.locOf
  let lb := b.locOf
  if la.sectionIdx ≠ lb.sectionIdx then if la.sectionIdx < lb.sectionIdx then -1 else 1
  else if la.sectionOffset ≠ lb.sectionOffset then
    if la.sectionOffset < lb.sectionOffset then -1 else 1
  else 0

/-- Add a LOC_PARAM with its values.  Zero stands for location data that are not
available. -/
def addLocParam (p : LocParam) : BtfM Encoder ℤ :=
  if p.size = 0 then return 0
  else
    andThen (append (.locParam p.size p.flags [])) fun id =>
      andThen (forEach (fun v => editLast (BtfType.addLocValue v)) p.values) fun _ =>
        return id

/-- Add the LOC_PARAMs of a location, and go on with `param_ids`. -/
def addLocParams : List LocParam → (List ℤ → BtfM Encoder ℤ) → BtfM Encoder ℤ
  | [], k => k []
  | p :: ps, k => andThen (addLocParam p) fun id => addLocParams ps fun ids => k (id :: ids)

/-- `loc->func_id = ..., loc->loc_proto_id = ...` in the i-th state. -/
def Encoder.setLocIds (enc : Encoder) (i : ℕ) (funcId locProtoId : ℤ) : Encoder :=
  { enc with
    locStates := enc.locStates.modify i fun state =>
      { state with
        loc := state.loc.map fun loc =>
          { loc with funcId := funcId, locProtoId := locProtoId } } }

/-- The first loop of `btf_encoder__add_locsec`, for the i-th state.  The ids are kept
when both are there; no one asks for them otherwise. -/
def addLocState (state : FuncState) (i : ℕ) : BtfM Encoder ℤ :=
  andThen (addFuncProtoForState state) fun proto =>
    andThen (append (.ref .func (some state.locOf.name) (u32 proto))) fun funcId =>
      addLocParams state.locOf.params fun paramIds =>
        andThen (append (.locProto [])) fun locProtoId =>
          andThen (forEach (fun id => editLast (BtfType.addLocProtoParam id)) paramIds)
            fun _ => do
          modifyClient fun enc => enc.setLocIds i funcId locProtoId
          return 0

/-- The entry of a location in its LOCSEC. -/
def Loc.entry (loc : Loc) : LocsecEntry :=
  ⟨u32 loc.funcId, u32 loc.locProtoId, loc.sectionOffset⟩

/-- `inline` and the name of a section -/
def Encoder.locsecName (enc : Encoder) (idx : ℕ) : String :=
  "inline" ++ ((enc.secinfo[idx]?).map ElfSecinfo.name).getD ""

/-- The second loop of `btf_encoder__add_locsec`, with the section before. -/
def addLocsecEntries (enc : Encoder) (sectionIdx : ℕ) : List FuncState → BtfM Encoder ℤ
  | [] => return 0
  | state :: rest =>
      let loc := state.locOf
      let add := andThen (editLast (BtfType.addLocsecLoc loc.entry)) fun _ =>
        addLocsecEntries enc loc.sectionIdx rest
      if loc.sectionIdx ≠ sectionIdx then
        andThen (append (.locsec (enc.locsecName loc.sectionIdx) [])) fun _ => add
      else add

/-- `btf_encoder__delete_func_states` of `loc_states` -/
def Encoder.deleteLocStates (enc : Encoder) : Encoder := { enc with locStates := [] }

/-- `btf_encoder__add_locsec` -/
def addLocsec (host : Host) : BtfM Encoder ℤ := do
  let enc := (← getTable).client
  if enc.locStates.isEmpty then return 0
  else if ¬host.hasLocs then return enotsup
  else
    let states := host.qsort.sort locStateCmp enc.locStates
    modifyClient fun enc => { enc with locStates := states }
    andThen (forEach (fun (state, i) => addLocState state i) states.zipIdx) fun _ => do
      let enc := (← getTable).client
      andThen (addLocsecEntries enc uint32Max enc.locStates) fun _ => do
        modifyClient Encoder.deleteLocStates
        return 0

/-! ## `btf_encoder__encode` -/

/-- The loop of `btf_encoder__encode` over the sections.  What adding a section returns
is not looked at. -/
def addDatasecs : List ElfSecinfo → BtfM Encoder Unit
  | [] => return ()
  | sec :: rest => do
      let _ ← addDatasec sec
      addDatasecs rest

/-- The sections that variables were gathered for. -/
def Encoder.datasecs (enc : Encoder) : List ElfSecinfo :=
  enc.secinfo.tail.filter fun sec => !sec.secinfo.isEmpty

/-- `btf_encoder__encode`.  `finish` is what deduplicating the BTF and writing it
returns. -/
def encode (host : Host) (finish : Table BtfType Encoder → ℤ) (skipInconsistent : Bool) :
    BtfM Encoder ℤ :=
  andThen (addSavedFuncs host skipInconsistent) fun _ =>
    andThen (addLocsec host) fun _ => do
    let enc := (← getTable).client
    addDatasecs enc.datasecs
    let t ← getTable
    if t.cnt = 1 then return 0 else return finish t

/-! ## The script of `btf_encoder__encode` -/

/-- Go on with the id of the type just added. -/
def withLastId (next : ℤ → BtfScript Encoder) : BtfScript Encoder :=
  Script.look fun t => next (lastId t)

def locParamScript (p : LocParam) (next : ℤ → BtfScript Encoder) : BtfScript Encoder :=
  if p.size = 0 then next 0
  else
    (planScript (callPlan .loc (.append (.locParam p.size p.flags [])))).seq <|
      withLastId fun id =>
        (planScript (editPlan .loc BtfType.addLocValue p.values)).seq (next id)

def locParamsScript : List LocParam → (List ℤ → BtfScript Encoder) → BtfScript Encoder
  | [], next => next []
  | p :: ps, next => locParamScript p fun id => locParamsScript ps fun ids => next (id :: ids)

def locStateScript (state : FuncState) (i : ℕ) : BtfScript Encoder :=
  (planScript (protoPlan state.retTypeId state.protoParams)).seq <| withLastId fun proto =>
    (planScript (callPlan .func
        (.append (.ref .func (some state.locOf.name) (u32 proto))))).seq <|
      withLastId fun funcId =>
        locParamsScript state.locOf.params fun paramIds =>
          (planScript (callPlan .loc (.append (.locProto [])))).seq <|
            withLastId fun locProtoId =>
              (planScript (editPlan .loc BtfType.addLocProtoParam paramIds)).seq <|
                planScript [.set fun t => t.client.setLocIds i funcId locProtoId]

def locsecEntriesPlan (enc : Encoder) (sectionIdx : ℕ) :
    List FuncState → BtfPlan Encoder
  | [] => []
  | state :: rest =>
      let loc := state.locOf
      let add := callPlan .loc (.editLast (BtfType.addLocsecLoc loc.entry)) ++
        locsecEntriesPlan enc loc.sectionIdx rest
      if loc.sectionIdx ≠ sectionIdx then
        callPlan .loc (.append (.locsec (enc.locsecName loc.sectionIdx) [])) ++ add
      else add

def locsecScript (host : Host) : BtfScript Encoder :=
  Script.look fun t =>
    if t.client.locStates.isEmpty then Script.nil
    else if ¬host.hasLocs then Script.abort
    else
      let states := host.qsort.sort locStateCmp t.client.locStates
      (planScript [.set fun t => { t.client with locStates := states }]).seq <|
        (Script.each (fun (state, i) => locStateScript state i) states.zipIdx).seq <|
          Script.look fun t =>
            (planScript (locsecEntriesPlan t.client uint32Max t.client.locStates)).seq <|
              planScript [.set fun t => t.client.deleteLocStates]

/-- The plan of a DATASEC. -/
def datasecPlan (sec : ElfSecinfo) : BtfPlan Encoder :=
  buildPlan .datasec .varInfo (.datasec sec.name sec.datasecSz []) BtfType.addVarInfo
    sec.sortedVars

end Pahole

import Pahole.BtfEncoder.ErrorReports
import Pahole.BtfEncoder.LocParams
import Pahole.Support.KeyRuns
import Pahole.Support.Success

/-!
# Inline sites

What `btf_encoder__add_locsec` makes of the inline expansions that were saved: for each a
FUNC and a LOC_PROTO with its prototype and the locations of its parameters, and for each
section one LOCSEC, which lists the expansions in the section by their offsets.
-/

namespace Pahole

open FallibleTable KeyRuns

/-- An inline expansion with the ids of its FUNC and its LOC_PROTO. -/
structure InlineSite where
  state : FuncState
  func : ℕ
  locProto : ℕ

namespace InlineSite

def loc (site : InlineSite) : Loc := site.state.locOf

/-- The state once the ids are in its `loc`. -/
def saved (site : InlineSite) : FuncState :=
  { site.state with
    loc := site.state.loc.map fun loc =>
      { loc with funcId := site.func, locProtoId := site.locProto } }

/-- The entry of an expansion in its LOCSEC. -/
def entry (site : InlineSite) : LocsecEntry := ⟨site.func, site.locProto, site.loc.sectionOffset⟩

/-- `id` is that of a LOC_PARAM with the size, flags and values of `p`, or 0 when `p` has size
0, the mark of a location that is not available. -/
def IsLocation (t : Table BtfType Encoder) (p : LocParam) (id : ℤ) : Prop :=
  if p.size = 0 then id = 0
  else 0 < id ∧ t.entry? id.toNat = some (.locParam p.size p.flags p.values)

/-- The table has the FUNC and the FUNC_PROTO of an expansion, and a LOC_PROTO with one location
id for each parameter. -/
structure Encoded (t : Table BtfType Encoder) (site : InlineSite) : Prop where
  func : ∃ proto, t.entry? site.func = some (.ref .func (some site.loc.name) proto) ∧
    t.entry? proto = some (.funcProto site.state.retTypeId site.state.protoParams)
  locations : ∃ ids, t.entry? site.locProto = some (.locProto ids) ∧
    List.Forall₂ (IsLocation t) site.loc.params ids

end InlineSite

/-- The LOCSEC of a section. -/
def Encoder.locsecOf (enc : Encoder) (sec : ℕ × List InlineSite) : BtfType :=
  .locsec (enc.locsecName sec.1) (sec.2.map InlineSite.entry)

/-- Every saved expansion is emitted in exactly one LOCSEC, that of its section, where the
expansions are in ascending order of offsets. -/
structure SitesEmitted (t t' : Table BtfType Encoder) (sites : List InlineSite)
    (sections : List (ℕ × List InlineSite)) : Prop where
  saved : (sites.map InlineSite.state).Perm t.client.locStates
  encoded : ∀ site ∈ sites, site.Encoded t'
  locsecs : ∃ types : List BtfType, (∀ name entries, BtfType.locsec name entries ∉ types) ∧
    t'.items = t.items ++ types ++ sections.map t.client.locsecOf
  once : sections.flatMap Prod.snd = sites
  inSection : ∀ sec ∈ sections, ∀ site ∈ sec.2, site.loc.sectionIdx = sec.1
  distinct : sections.Pairwise fun sec sec' => sec.1 < sec'.1
  inOrder : ∀ sec ∈ sections, sec.2.Pairwise fun site site' =>
    site.loc.sectionOffset ≤ site'.loc.sectionOffset

/-! ## The types of an expansion -/

section Types

variable {s s' : Btf Encoder} {r : ℤ}

/-- The LOC_PARAMs of a location. -/
def paramTypes (ps : List LocParam) : List BtfType :=
  (ps.filter fun p => p.size ≠ 0).map fun p => .locParam p.size p.flags p.values

/-- The location ids, from the id that is next. -/
def paramIds (next : ℕ) : List LocParam → List ℤ
  | [] => []
  | p :: ps => if p.size = 0 then 0 :: paramIds next ps else next :: paramIds (next + 1) ps

/-- The types that an expansion adds from an id on. -/
def FuncState.types (state : FuncState) (next : ℕ) : List BtfType :=
  [.funcProto state.retTypeId state.protoParams, .ref .func (some state.locOf.name) next] ++
    paramTypes state.locOf.params ++ [.locProto (paramIds (next + 2) state.locOf.params)]

/-- The expansion with the ids it has then. -/
def FuncState.site (state : FuncState) (next : ℕ) : InlineSite :=
  ⟨state, next + 1, next + 2 + (paramTypes state.locOf.params).length⟩

theorem foldl_addLocValue (size flags : ℕ) (values : List ℕ) :
    values.foldl (fun u v => BtfType.addLocValue v u) (.locParam size flags []) =
      .locParam size flags values :=
  built_appends (fun _ _ => rfl) [] values

theorem foldl_addLocProtoParam (ids : List ℤ) :
    ids.foldl (fun u id => BtfType.addLocProtoParam id u) (.locProto []) = .locProto ids :=
  built_appends (fun _ _ => rfl) [] ids

theorem succeeds_addFuncProtoForState {state : FuncState}
    (h : Succeeds (addFuncProtoForState state) s r s') :
    r = s.table.cnt ∧
      s'.table = s.table.extend [.funcProto state.retTypeId state.protoParams] := by
  obtain ⟨hdone, hr⟩ :=
    (makes_addFuncProtoForState state s).done_of_nonneg h.run h.nonneg
  have hheard : (protoPlan (β := Encoder) state.retTypeId state.protoParams).Heard
      (stopsAt CallSite.reaction) :=
    heard_append.mpr ⟨heard_callPlan.mpr rfl, heard_editPlan rfl⟩
  have htable := (exec_done hheard hdone).1
  rw [protoPlan, run_buildPlan, built_addFuncParam, List.nil_append] at htable
  refine ⟨?_, htable⟩
  have hcnt : s'.table.cnt = s.table.cnt + 1 := by
    rw [htable]
    exact cnt_extend
  rw [hr, lastId, hcnt]
  omega

/-- The LOC_PARAMs are added in the order of the parameters. -/
theorem succeeds_addLocParams {ps : List LocParam} {k : List ℤ → BtfM Encoder ℤ}
    (h : Succeeds (addLocParams ps k) s r s') :
    ∃ s₁, s₁.table = s.table.extend (paramTypes ps) ∧
      Succeeds (k (paramIds s.table.cnt ps)) s₁ r s' := by
  induction ps generalizing k s with
  | nil => exact ⟨s, extend_nil.symm, h⟩
  | cons p ps ih =>
      rw [addLocParams, addLocParam] at h
      by_cases hsize : p.size = 0
      · rw [if_pos hsize] at h
        obtain ⟨_, _, hreturn, hrest⟩ := Succeeds.andThen h
        obtain ⟨rfl, rfl⟩ := Succeeds.return hreturn
        obtain ⟨s₁, htable, hk⟩ := ih hrest
        refine ⟨s₁, ?_, ?_⟩
        · rw [htable, paramTypes, paramTypes, List.filter_cons_of_neg (by simp [hsize])]
        · rwa [paramIds, if_pos hsize]
      · rw [if_neg hsize, andThen_assoc] at h
        simp only [andThen_assoc] at h
        obtain ⟨s₁, -, htable₁, hk⟩ := Succeeds.appendThen h
        obtain ⟨_, _, hreturn, hrest⟩ := Succeeds.andThen hk
        obtain ⟨rfl, rfl⟩ := Succeeds.return hreturn
        obtain ⟨s₂, htable₂, hk⟩ := ih hrest
        rw [foldl_addLocValue] at htable₁
        refine ⟨s₂, ?_, ?_⟩
        · rw [htable₂, htable₁, extend_extend, paramTypes, paramTypes,
            List.filter_cons_of_pos (by simp [hsize])]
          rfl
        · rw [htable₁, cnt_extend] at hk
          rwa [paramIds, if_neg hsize]

/-- The types of an expansion are added, and its ids kept. -/
theorem succeeds_addLocState {state : FuncState} {i : ℕ}
    (h : Succeeds (addLocState state i) s r s') :
    (state.site s.table.cnt).locProto ≤ intMax ∧
      s'.table =
        { s.table.extend (state.types s.table.cnt) with
          client := s.table.client.setLocIds i (state.site s.table.cnt).func
            (state.site s.table.cnt).locProto } := by
  rw [addLocState] at h
  obtain ⟨_, s₁, hproto, h⟩ := Succeeds.andThen h
  obtain ⟨rfl, htable₁⟩ := succeeds_addFuncProtoForState hproto
  obtain ⟨_, s₂, hfunc, h⟩ := Succeeds.andThen h
  obtain ⟨rfl, hcnt, htable₂⟩ := Succeeds.append hfunc
  obtain ⟨s₃, htable₃, h⟩ := succeeds_addLocParams h
  obtain ⟨s₄, hproto, htable₄, h⟩ := Succeeds.appendThen h
  have hcnt₁ : s₁.table.cnt = s.table.cnt + 1 := by rw [htable₁, cnt_extend]; rfl
  have hcnt₂ : s₂.table.cnt = s.table.cnt + 2 := by rw [htable₂, cnt_extend, hcnt₁]; rfl
  have hcnt₃ : s₃.table.cnt = (state.site s.table.cnt).locProto := by
    rw [htable₃, cnt_extend, hcnt₂]
    rfl
  have hu32 : u32 s.table.cnt = s.table.cnt := u32_of_lt (by rw [intMax] at hcnt; omega)
  have htable : s₄.table = s.table.extend (state.types s.table.cnt) := by
    rw [htable₄, hcnt₂, foldl_addLocProtoParam, htable₃, htable₂, htable₁, hu32, extend_extend,
      extend_extend, extend_extend]
    rfl
  refine ⟨hcnt₃ ▸ hproto, ?_⟩
  obtain ⟨-, rfl⟩ := EStateM.Result.ok.inj h.run
  have hclient : s₄.table.client = s.table.client := by rw [htable, client_extend]
  rw [hcnt₁, hcnt₃, ← htable, ← hclient]
  rfl

/-- The expansions with their ids, and the types they add, from an id on. -/
def sitesFrom : ℕ → List FuncState → List InlineSite
  | _, [] => []
  | next, state :: rest =>
      state.site next :: sitesFrom (next + (state.types next).length) rest

def sitesTypes : ℕ → List FuncState → List BtfType
  | _, [] => []
  | next, state :: rest =>
      state.types next ++ sitesTypes (next + (state.types next).length) rest

theorem modify_length {α : Type} (f : α → α) (done rest : List α) (x : α) :
    (done ++ x :: rest).modify done.length f = done ++ f x :: rest := by
  induction done with
  | nil => rfl
  | cons y done ih =>
      rw [List.cons_append, List.length_cons, List.modify_succ_cons, ih, List.cons_append]

/-- The first loop appends the types of the states and writes their ids into them. -/
theorem succeeds_addLocStates {done states : List FuncState}
    (hstates : s.table.client.locStates = done ++ states)
    (h : Succeeds (forEach (fun x => addLocState x.1 x.2) (states.zipIdx done.length)) s r s') :
    (∀ site ∈ sitesFrom s.table.cnt states, site.locProto ≤ intMax) ∧
      s'.table =
        { s.table.extend (sitesTypes s.table.cnt states) with
          client :=
            { s.table.client with
              locStates := done ++ (sitesFrom s.table.cnt states).map InlineSite.saved } } := by
  induction states generalizing done s r with
  | nil =>
      obtain ⟨-, rfl⟩ := Succeeds.return h
      refine ⟨fun site hsite => absurd hsite List.not_mem_nil, ?_⟩
      rw [sitesTypes, extend_nil, sitesFrom, List.map_nil, ← hstates]
  | cons state rest ih =>
      rw [List.zipIdx_cons, forEach] at h
      obtain ⟨_, s₁, hstate, hrest⟩ := Succeeds.andThen h
      obtain ⟨hint, htable⟩ := succeeds_addLocState hstate
      have hext : (s.table.extend (state.types s.table.cnt)).cnt =
          s.table.cnt + (state.types s.table.cnt).length := cnt_extend
      have hcnt : s₁.table.cnt = s.table.cnt + (state.types s.table.cnt).length := by
        rw [htable]
        exact hext
      have hset : s₁.table.client.locStates =
          (done ++ [(state.site s.table.cnt).saved]) ++ rest := by
        rw [htable]
        change s.table.client.locStates.modify done.length _ = _
        rw [hstates, modify_length, List.append_assoc]
        rfl
      have hlength : (done ++ [(state.site s.table.cnt).saved]).length = done.length + 1 :=
        List.length_append
      obtain ⟨hints, htable'⟩ := ih hset (by rwa [hlength])
      rw [hcnt] at hints htable'
      refine ⟨List.forall_mem_cons.mpr ⟨hint, hints⟩, ?_⟩
      rw [htable', htable, sitesTypes, ← extend_extend, sitesFrom, List.map_cons,
        List.append_assoc]
      rfl

theorem map_state_sitesFrom (next : ℕ) (states : List FuncState) :
    (sitesFrom next states).map InlineSite.state = states := by
  induction states generalizing next with
  | nil => rfl
  | cons state rest ih => rw [sitesFrom, List.map_cons, ih]; rfl

theorem func_lt_locProto {next : ℕ} {states : List FuncState} :
    ∀ site ∈ sitesFrom next states, site.func < site.locProto := by
  induction states generalizing next with
  | nil => exact fun site hsite => absurd hsite List.not_mem_nil
  | cons state rest ih =>
      refine List.forall_mem_cons.mpr ⟨?_, ih⟩
      change next + 1 < next + 2 + _
      omega

theorem locsec_notMem_sitesTypes {next : ℕ} {states : List FuncState} (name : String)
    (entries : List LocsecEntry) : BtfType.locsec name entries ∉ sitesTypes next states := by
  induction states generalizing next with
  | nil => exact List.not_mem_nil
  | cons state rest ih =>
      rw [sitesTypes, List.mem_append, not_or]
      exact ⟨by simp [FuncState.types, paramTypes], ih⟩

end Types

/-! ## The types in the table -/

section InTable

variable {t : Table BtfType Encoder} {next : ℕ}

/-- The table has `types` under consecutive ids from `next` on. -/
def HasFrom (t : Table BtfType Encoder) (next : ℕ) (types : List BtfType) : Prop :=
  ∀ k u, types[k]? = some u → t.entry? (next + k) = some u

theorem hasFrom_append {us vs : List BtfType} (h : HasFrom t next (us ++ vs)) :
    HasFrom t next us ∧ HasFrom t (next + us.length) vs := by
  constructor
  · intro k u hu
    obtain ⟨hlt, -⟩ := List.getElem?_eq_some_iff.mp hu
    exact h k u (by rwa [List.getElem?_append_left hlt])
  · intro k u hu
    have hentry := h (us.length + k) u (by
      rwa [List.getElem?_append_right (Nat.le_add_right _ _), Nat.add_sub_cancel_left])
    rwa [Nat.add_assoc]

theorem hasFrom_cons {u : BtfType} {us : List BtfType} (h : HasFrom t next (u :: us)) :
    t.entry? next = some u ∧ HasFrom t (next + 1) us := by
  have happend : HasFrom t next ([u] ++ us) := h
  exact ⟨h 0 u rfl, (hasFrom_append happend).2⟩

theorem forall₂_isLocation {ps : List LocParam} (hpos : 0 < next)
    (h : HasFrom t next (paramTypes ps)) :
    List.Forall₂ (InlineSite.IsLocation t) ps (paramIds next ps) := by
  induction ps generalizing next with
  | nil => exact List.Forall₂.nil
  | cons p ps ih =>
      rw [paramTypes] at h
      by_cases hsize : p.size = 0
      · rw [List.filter_cons_of_neg (by simp [hsize])] at h
        rw [paramIds, if_pos hsize]
        exact List.Forall₂.cons (by rw [InlineSite.IsLocation, if_pos hsize]) (ih hpos h)
      · rw [List.filter_cons_of_pos (by simp [hsize]), List.map_cons] at h
        obtain ⟨hentry, hrest⟩ := hasFrom_cons h
        rw [paramIds, if_neg hsize]
        refine List.Forall₂.cons ?_ (ih (Nat.succ_pos next) hrest)
        rw [InlineSite.IsLocation, if_neg hsize, Int.toNat_natCast]
        exact ⟨Int.natCast_pos.mpr hpos, hentry⟩

theorem encoded_site {state : FuncState} (hpos : 0 < next)
    (h : HasFrom t next (state.types next)) : (state.site next).Encoded t := by
  obtain ⟨hfirst, hproto⟩ := hasFrom_append h
  obtain ⟨hfuncs, hparams⟩ := hasFrom_append hfirst
  obtain ⟨hfuncProto, hfunc⟩ := hasFrom_cons hfuncs
  refine ⟨⟨next, (hasFrom_cons hfunc).1, hfuncProto⟩,
    ⟨paramIds (next + 2) state.locOf.params, ?_, forall₂_isLocation (by omega) hparams⟩⟩
  have hentry := (hasFrom_cons hproto).1
  rwa [List.length_append, ← Nat.add_assoc] at hentry

theorem encoded_sitesFrom {states : List FuncState} (hpos : 0 < next)
    (h : HasFrom t next (sitesTypes next states)) :
    ∀ site ∈ sitesFrom next states, site.Encoded t := by
  induction states generalizing next with
  | nil => exact fun site hsite => absurd hsite List.not_mem_nil
  | cons state rest ih =>
      obtain ⟨hstate, hrest⟩ := hasFrom_append h
      exact List.forall_mem_cons.mpr
        ⟨encoded_site hpos hstate, ih (Nat.add_pos_left hpos _) hrest⟩

end InTable

/-! ## The sections -/

section Sections

variable {enc : Encoder} {site : InlineSite}

/-- The section that an expansion is in. -/
def InlineSite.sectionIdx (site : InlineSite) : ℕ := site.loc.sectionIdx

theorem sectionIdx_saved : site.saved.locOf.sectionIdx = site.sectionIdx := by
  rw [InlineSite.saved, InlineSite.sectionIdx, InlineSite.loc, FuncState.locOf, FuncState.locOf]
  cases site.state.loc <;> rfl

theorem entry_saved (hloc : site.state.loc.isSome) (hlt : site.func < site.locProto)
    (hint : site.locProto ≤ intMax) : site.saved.locOf.entry = site.entry := by
  rw [intMax] at hint
  obtain ⟨loc, hsome⟩ := Option.isSome_iff_exists.mp hloc
  rw [InlineSite.saved, FuncState.locOf, InlineSite.entry, InlineSite.loc, FuncState.locOf, hsome,
    Loc.entry]
  simp only [Option.map_some, Option.getD_some]
  rw [u32_of_lt (by omega), u32_of_lt (by omega)]

/-- An expansion goes to the end of the LOCSEC that is last. -/
theorem run_addLocsecLoc (site : InlineSite) {sec : ℕ × List InlineSite} {init : List BtfType}
    {t : Table BtfType Encoder} (ht : t.items = init ++ [enc.locsecOf sec]) :
    (callPlan .loc (.editLast (BtfType.addLocsecLoc site.entry)) : BtfPlan Encoder).run t =
      { t with items := init ++ [enc.locsecOf (sec.1, sec.2 ++ [site])] } := by
  rw [callPlan, run_cons, run_nil]
  change { t with items := t.items.modifyLast (BtfType.addLocsecLoc site.entry) } = _
  rw [ht, List.modifyLast_concat, Encoder.locsecOf, Encoder.locsecOf, List.map_append]
  rfl

/-- An expansion in another section goes to a LOCSEC of its own. -/
theorem run_newSection {idx : ℕ} {site : InlineSite} {rest : List FuncState}
    {t : Table BtfType Encoder} (hidx : site.sectionIdx ≠ idx)
    (hsite : site.saved.locOf.entry = site.entry) :
    (locsecEntriesPlan enc idx (site.saved :: rest)).run t =
      (locsecEntriesPlan enc site.sectionIdx rest).run
        { t with items := t.items ++ [enc.locsecOf (site.sectionIdx, [site])] } := by
  have hnew : (callPlan .loc (.append (.locsec (enc.locsecName site.sectionIdx) [])) :
      BtfPlan Encoder).run t = t.extend [enc.locsecOf (site.sectionIdx, [])] := rfl
  have hitems : (t.extend [enc.locsecOf (site.sectionIdx, [])]).items =
      t.items ++ [enc.locsecOf (site.sectionIdx, [])] := rfl
  have hadd := run_addLocsecLoc site hitems
  dsimp only [List.nil_append, Table.extend] at hadd
  rw [locsecEntriesPlan, sectionIdx_saved, hsite, if_pos hidx, run_append, run_append, hnew,
    Table.extend, hadd]

/-- The second loop cuts the expansions where the section changes. -/
theorem run_locsecEntriesPlan {idx : ℕ} {run sites : List InlineSite} {init : List BtfType}
    {t : Table BtfType Encoder} (ht : t.items = init ++ [enc.locsecOf (idx, run)])
    (hentry : ∀ site ∈ sites, site.saved.locOf.entry = site.entry) :
    (locsecEntriesPlan enc idx (sites.map InlineSite.saved)).run t =
      { t with
        items := init ++ (runsFrom InlineSite.sectionIdx idx run sites).map enc.locsecOf } := by
  induction sites generalizing idx run init t with
  | nil =>
      rw [List.map_nil, locsecEntriesPlan, run_nil, runsFrom, List.map_singleton, ← ht]
  | cons site rest ih =>
      obtain ⟨hsite, hrest⟩ := List.forall_mem_cons.mp hentry
      rw [List.map_cons, runsFrom]
      by_cases hidx : site.sectionIdx = idx
      · rw [locsecEntriesPlan, sectionIdx_saved, hsite, if_neg (not_not.mpr hidx),
          if_neg (not_not.mpr hidx), run_append, run_addLocsecLoc site ht, hidx]
        exact ih rfl hrest
      · have happend (types : List BtfType) : init ++ [enc.locsecOf (idx, run)] ++ types =
            init ++ enc.locsecOf (idx, run) :: types := by
          rw [List.append_assoc, List.singleton_append]
        rw [run_newSection hidx hsite, if_pos hidx, List.map_cons, ih rfl hrest, ← happend, ← ht]

/-- The second loop appends one LOCSEC for each run of sites in one section. -/
theorem run_locsecEntriesPlan_start {idx : ℕ} {sites : List InlineSite}
    {t : Table BtfType Encoder} (hidx : ∀ site ∈ sites, site.sectionIdx ≠ idx)
    (hentry : ∀ site ∈ sites, site.saved.locOf.entry = site.entry) :
    (locsecEntriesPlan enc idx (sites.map InlineSite.saved)).run t =
      t.extend ((runs InlineSite.sectionIdx sites).map enc.locsecOf) := by
  cases sites with
  | nil => exact extend_nil.symm
  | cons site rest =>
      obtain ⟨hsite, hrest⟩ := List.forall_mem_cons.mp hentry
      rw [List.map_cons, run_newSection (hidx site List.mem_cons_self) hsite,
        run_locsecEntriesPlan rfl hrest]
      rfl

theorem heard_locsecEntriesPlan {idx : ℕ} {states : List FuncState} :
    (locsecEntriesPlan enc idx states).Heard (stopsAt CallSite.reaction) := by
  induction states generalizing idx with
  | nil => exact fun site hsite => absurd hsite List.not_mem_nil
  | cons state rest ih =>
      have hloc (op : Op BtfType) : (callPlan (β := Encoder) .loc op).Heard
          (stopsAt CallSite.reaction) := heard_callPlan.mpr rfl
      rw [locsecEntriesPlan]
      split
      · exact heard_append.mpr ⟨hloc _, heard_append.mpr ⟨hloc _, ih⟩⟩
      · exact heard_append.mpr ⟨hloc _, ih⟩

theorem locStateCmp_nonpos_iff {a b : FuncState} :
    locStateCmp a b ≤ 0 ↔
      a.locOf.sectionIdx < b.locOf.sectionIdx ∨
        a.locOf.sectionIdx = b.locOf.sectionIdx ∧
          a.locOf.sectionOffset ≤ b.locOf.sectionOffset := by
  rw [locStateCmp]
  split_ifs <;> omega

theorem comparator_locStateCmp : Comparator locStateCmp where
  total a b := by
    rw [locStateCmp_nonpos_iff, locStateCmp_nonpos_iff]
    omega
  trans a b c := by
    rw [locStateCmp_nonpos_iff, locStateCmp_nonpos_iff, locStateCmp_nonpos_iff]
    omega

/-- In expansions that are sorted each section has one run, which is sorted by offset. -/
theorem sections_of_sorted {sites : List InlineSite}
    (hsorted : sites.Pairwise fun a b => locStateCmp a.state b.state ≤ 0) :
    (runs InlineSite.sectionIdx sites).Pairwise (fun sec sec' => sec.1 < sec'.1) ∧
      ∀ sec ∈ runs InlineSite.sectionIdx sites, sec.2.Pairwise fun site site' =>
        site.loc.sectionOffset ≤ site'.loc.sectionOffset := by
  constructor
  · refine pairwise_runs (hsorted.imp fun {a b} h => ?_)
    rcases locStateCmp_nonpos_iff.mp h with hlt | ⟨heq, -⟩
    · exact hlt.le
    · exact heq.le
  · intro sec hsec
    have hsub := hsorted.sublist (sublist_of_mem_runs hsec)
    refine hsub.imp_of_mem fun {a b} ha hb h => ?_
    have heq : a.sectionIdx = b.sectionIdx :=
      (keyOf_runs sec hsec a ha).trans (keyOf_runs sec hsec b hb).symm
    rcases locStateCmp_nonpos_iff.mp h with hlt | ⟨-, hle⟩
    · exact absurd heq hlt.ne
    · exact hle

end Sections

/-! ## Encoding and printing -/

section Emitted

variable {host : Host} {s s' : Btf Encoder}

/-- A state that was saved for an expansion in a section. -/
def FuncState.IsInline (state : FuncState) : Prop :=
  state.loc.isSome ∧ state.locOf.sectionIdx < uint32Max

/-- The two loops of `btf_encoder__add_locsec`, over the sorted states. -/
def addSortedLocs (states : List FuncState) : BtfM Encoder ℤ := do
  modifyClient fun enc => { enc with locStates := states }
  andThen (forEach (fun x => addLocState x.1 x.2) states.zipIdx) fun _ => do
    let enc := (← getTable).client
    andThen (addLocsecEntries enc uint32Max enc.locStates) fun _ => do
      modifyClient Encoder.deleteLocStates
      return 0

theorem addLocsec_eq (host : Host) (s : Btf Encoder) :
    addLocsec host s =
      (if s.table.client.locStates.isEmpty then return 0
      else if ¬host.hasLocs then return enotsup
      else addSortedLocs (host.qsort.sort locStateCmp s.table.client.locStates) :
        BtfM Encoder ℤ) s := rfl

/-- When `btf_encoder__add_locsec` returns zero, both of its loops have succeeded. -/
theorem succeeds_addLocsec (hne : s.table.client.locStates ≠ [])
    (h : addLocsec host s = .ok 0 s') :
    ∃ (v w : ℤ) (s₁ s₂ : Btf Encoder),
      Succeeds (forEach (fun x => addLocState x.1 x.2)
          (host.qsort.sort locStateCmp s.table.client.locStates).zipIdx)
        (s.setClient { s.table.client with
          locStates := host.qsort.sort locStateCmp s.table.client.locStates }) v s₁ ∧
      Succeeds (addLocsecEntries s₁.table.client uint32Max s₁.table.client.locStates) s₁ w s₂ ∧
      s' = s₂.setClient s₂.table.client.deleteLocStates := by
  rw [addLocsec_eq, if_neg (by simpa using hne)] at h
  by_cases hlocs : ¬host.hasLocs
  · rw [if_pos hlocs] at h
    have hzero : enotsup = 0 := (EStateM.Result.ok.inj h).1
    exact absurd hzero (by decide)
  · rw [if_neg hlocs] at h
    have hall : Succeeds (andThen (forEach (fun x => addLocState x.1 x.2)
          (host.qsort.sort locStateCmp s.table.client.locStates).zipIdx) fun _ => do
        let enc := (← getTable).client
        andThen (addLocsecEntries enc uint32Max enc.locStates) fun _ => do
          modifyClient Encoder.deleteLocStates
          return 0)
        (s.setClient { s.table.client with
          locStates := host.qsort.sort locStateCmp s.table.client.locStates }) 0 s' :=
      ⟨h, le_refl 0⟩
    obtain ⟨v, s₁, hstates, hrest⟩ := Succeeds.andThen hall
    have hentries : Succeeds (andThen (addLocsecEntries s₁.table.client uint32Max
        s₁.table.client.locStates) fun _ => do
          modifyClient Encoder.deleteLocStates
          return 0) s₁ 0 s' := ⟨hrest.run, hrest.nonneg⟩
    obtain ⟨w, s₂, hentries, hlast⟩ := Succeeds.andThen hentries
    exact ⟨v, w, s₁, s₂, hstates, hentries, (EStateM.Result.ok.inj hlast.run).2.symm⟩

/-- Two loops over the sorted states emit the expansions. -/
theorem sitesEmitted_of_loops {states : List FuncState} {v w : ℤ} {s₁ s₂ : Btf Encoder}
    (hperm : states.Perm s.table.client.locStates)
    (hsorted : states.Pairwise fun a b => locStateCmp a b ≤ 0)
    (hsaved : ∀ state ∈ states, state.IsInline)
    (hstates : Succeeds (forEach (fun x => addLocState x.1 x.2) states.zipIdx)
      (s.setClient { s.table.client with locStates := states }) v s₁)
    (hentries : Succeeds
      (addLocsecEntries s₁.table.client uint32Max s₁.table.client.locStates) s₁ w s₂) :
    SitesEmitted s.table s₂.table (sitesFrom s.table.cnt states)
      (runs InlineSite.sectionIdx (sitesFrom s.table.cnt states)) := by
  have hcnt : (s.setClient { s.table.client with locStates := states }).table.cnt =
      s.table.cnt := rfl
  have hlist : (s.setClient { s.table.client with locStates := states }).table.client.locStates =
      [] ++ states := rfl
  obtain ⟨hints, htable₁⟩ := succeeds_addLocStates hlist hstates
  rw [hcnt] at hints htable₁
  have hmap := map_state_sitesFrom s.table.cnt states
  have hsite (site : InlineSite) (hsite : site ∈ sitesFrom s.table.cnt states) :
      site.state.IsInline := hsaved _ (hmap ▸ List.mem_map_of_mem hsite)
  have hentry (site : InlineSite) (hmem : site ∈ sitesFrom s.table.cnt states) :
      site.saved.locOf.entry = site.entry :=
    entry_saved (hsite site hmem).1 (func_lt_locProto site hmem) (hints site hmem)
  have hlocs : s₁.table.client.locStates =
      (sitesFrom s.table.cnt states).map InlineSite.saved := by rw [htable₁]; rfl
  have hdone := ((makes_locsecEntries s₁.table.client uint32Max s₁.table.client.locStates
    s₁).done_of_nonneg hentries.run hentries.nonneg).1
  have htable₂ := (exec_done heard_locsecEntriesPlan hdone).1
  rw [hlocs, run_locsecEntriesPlan_start (fun site hmem => (hsite site hmem).2.ne) hentry,
    htable₁] at htable₂
  have hitems : s₂.table.items =
      s.table.items ++ sitesTypes s.table.cnt states ++
        (runs InlineSite.sectionIdx (sitesFrom s.table.cnt states)).map
          s.table.client.locsecOf := by
    rw [htable₂]
    rfl
  have hentries (id : ℕ) : s₂.table.entry? id =
      Table.entry? ((s.table.extend (sitesTypes s.table.cnt states)).extend
        ((runs InlineSite.sectionIdx (sitesFrom s.table.cnt states)).map
          s.table.client.locsecOf)) id := by
    rw [htable₂]
    rfl
  have hfrom : HasFrom s₂.table s.table.cnt (sitesTypes s.table.cnt states) := by
    intro k u hu
    rw [hentries]
    exact extend_entry ((extend_entry_cnt k).trans hu)
  have horder : (sitesFrom s.table.cnt states).Pairwise fun a b =>
      locStateCmp a.state b.state ≤ 0 := by
    rw [← hmap] at hsorted
    exact List.pairwise_map.mp hsorted
  have hpos : 0 < s.table.cnt := Nat.succ_pos _
  exact
    { saved := hmap.symm ▸ hperm
      encoded := encoded_sitesFrom hpos hfrom
      locsecs := ⟨sitesTypes s.table.cnt states, fun name entries =>
        locsec_notMem_sitesTypes name entries, hitems⟩
      once := flatMap_runs _
      inSection := fun sec hsec site hmem => keyOf_runs sec hsec site hmem
      distinct := (sections_of_sorted horder).1
      inOrder := (sections_of_sorted horder).2 }

/-- The expansions are emitted when `btf_encoder__add_locsec` returns zero. -/
theorem sitesEmitted_of_addLocsec (hsaved : ∀ state ∈ s.table.client.locStates, state.IsInline)
    (h : addLocsec host s = .ok 0 s') :
    ∃ sites sections, SitesEmitted s.table s'.table sites sections := by
  by_cases hne : s.table.client.locStates = []
  · have hrun : addLocsec host s = .ok 0 s := by
      change (if s.table.client.locStates.isEmpty then return 0 else _ : BtfM Encoder ℤ) s = _
      rw [if_pos (by rw [hne]; rfl)]
      rfl
    obtain ⟨-, rfl⟩ := EStateM.Result.ok.inj (hrun.symm.trans h)
    exact ⟨[], [],
      { saved := by rw [hne, List.map_nil]
        encoded := fun site hsite => absurd hsite List.not_mem_nil
        locsecs := ⟨[], fun _ _ => List.not_mem_nil, by simp⟩
        once := rfl
        inSection := fun sec hsec => absurd hsec List.not_mem_nil
        distinct := List.Pairwise.nil
        inOrder := fun sec hsec => absurd hsec List.not_mem_nil }⟩
  · obtain ⟨v, w, s₁, s₂, hstates, hentries, rfl⟩ := succeeds_addLocsec hne h
    have hperm := host.qsort.perm locStateCmp s.table.client.locStates
    have hemitted := sitesEmitted_of_loops hperm
      (host.qsort.sorted _ _ comparator_locStateCmp)
      (fun state hstate => hsaved state (hperm.mem_iff.mp hstate)) hstates hentries
    exact ⟨_, _,
      { saved := hemitted.saved
        encoded := fun site hsite =>
          ⟨(hemitted.encoded site hsite).func, (hemitted.encoded site hsite).locations⟩
        locsecs := hemitted.locsecs
        once := hemitted.once
        inSection := hemitted.inSection
        distinct := hemitted.distinct
        inOrder := hemitted.inOrder }⟩

end Emitted

/-! ## Reading them back -/

/-- The location that `btf_inline_site__fprintf` prints for an id, `none` for one that is not
available. -/
def shownLocation (t : Table BtfType Encoder) (objectAddrBase : BitVec 64) (id : ℤ) :
    Option ShownLoc :=
  if id = 0 then none
  else
    match t.entry? id.toNat with
    | some (.locParam size flags values) => btfInlineSiteFprintfLoc size flags values objectAddrBase
    | _ => none

/-- The locations that `btf_inline_site__fprintf` prints for an expansion. -/
def InlineSite.shownLocations (t : Table BtfType Encoder) (objectAddrBase : BitVec 64)
    (site : InlineSite) : Option (List (Option ShownLoc)) :=
  match t.entry? site.locProto with
  | some (.locProto ids) => some (ids.map (shownLocation t objectAddrBase))
  | _ => none

/-- `p` is the encoding of a location that the loader keeps, relative to `base`, or the zero
record where there is none. -/
def EncodedAs (base : ℕ) : Option Location → LocParam → Prop
  | none, p => p = LocParam.zero
  | some loc, p =>
      loc.Kept ∧ ∃ name type idx, p = locParamOf (loc.keep (Parameter.new name type idx)) base

/-- A state saved for an expansion whose LOC_PARAMs encode `locations` one for one. -/
structure FuncState.SavedWith (base : ℕ) (state : FuncState) (locations : List (Option Location)) :
    Prop where
  isInline : state.IsInline
  params : List.Forall₂ (EncodedAs base) locations state.locOf.params

section ReadBack

variable {t : Table BtfType Encoder} {lowest : BitVec 64}

/-- The location that is printed for a LOC_PARAM. -/
def shownParam (objectAddrBase : BitVec 64) (p : LocParam) : Option ShownLoc :=
  if p.size = 0 then none else p.shown objectAddrBase

theorem shownLocation_of_isLocation {p : LocParam} {id : ℤ} (h : InlineSite.IsLocation t p id) :
    shownLocation t lowest id = shownParam lowest p := by
  rw [InlineSite.IsLocation] at h
  rw [shownLocation, shownParam]
  by_cases hsize : p.size = 0
  · rw [if_pos hsize] at h
    rw [if_pos hsize, if_pos h]
  · rw [if_neg hsize] at h
    rw [if_neg hsize, if_neg h.1.ne', h.2]
    rfl

theorem map_shownLocation {ps : List LocParam} {ids : List ℤ}
    (h : List.Forall₂ (InlineSite.IsLocation t) ps ids) :
    ids.map (shownLocation t lowest) = ps.map (shownParam lowest) := by
  induction h with
  | nil => rfl
  | cons hhead _ ih => rw [List.map_cons, List.map_cons, ih, shownLocation_of_isLocation hhead]

theorem shownLocations_of_encoded {site : InlineSite} (h : site.Encoded t) :
    site.shownLocations t lowest = some (site.loc.params.map (shownParam lowest)) := by
  obtain ⟨ids, hproto, hlocations⟩ := h.locations
  rw [InlineSite.shownLocations, hproto]
  exact congrArg some (map_shownLocation hlocations)

theorem shownParam_eq_iff {location : Option Location} {p : LocParam}
    (h : EncodedAs (encoderAddrBase lowest).toNat location p) :
    shownParam lowest p = location.map Location.shown ↔
      ∀ loc, location = some loc → loc.Survives lowest := by
  cases location with
  | none =>
      obtain rfl : p = LocParam.zero := h
      exact iff_of_true rfl fun loc hloc => absurd hloc (Option.some_ne_none loc).symm
  | some loc =>
      obtain ⟨hkept, name, type, idx, rfl⟩ := h
      rw [shownParam, if_neg (size_ne_zero hkept), Option.map_some, shown_iff_survives hkept]
      simp

theorem map_shownParam_eq_iff {locations : List (Option Location)} {ps : List LocParam}
    (h : List.Forall₂ (EncodedAs (encoderAddrBase lowest).toNat) locations ps) :
    ps.map (shownParam lowest) = locations.map (Option.map Location.shown) ↔
      ∀ loc, some loc ∈ locations → loc.Survives lowest := by
  induction h with
  | nil => exact iff_of_true rfl fun loc hloc => absurd hloc List.not_mem_nil
  | cons hhead htail ih =>
      rw [List.map_cons, List.map_cons, List.cons.injEq, shownParam_eq_iff hhead, ih]
      constructor
      · rintro ⟨hfst, hrest⟩ loc hloc
        rcases List.mem_cons.mp hloc with heq | hmem
        · exact hfst loc heq.symm
        · exact hrest loc hmem
      · intro hall
        exact ⟨fun loc hloc => hall loc (List.mem_cons.mpr (Or.inl hloc.symm)),
          fun loc hloc => hall loc (List.mem_cons_of_mem _ hloc)⟩

/-- For each expansion of `sites` the locations printed are those of its parameters. -/
def SitesShown (t : Table BtfType Encoder) (lowest : BitVec 64)
    (locations : FuncState → List (Option Location)) (sites : List InlineSite) : Prop :=
  ∀ site ∈ sites,
    site.shownLocations t lowest = some ((locations site.state).map (Option.map Location.shown))

theorem sitesShown_iff {locations : FuncState → List (Option Location)} {sites : List InlineSite}
    (hencoded : ∀ site ∈ sites, site.Encoded t)
    (hsaved : ∀ site ∈ sites,
      site.state.SavedWith (encoderAddrBase lowest).toNat (locations site.state)) :
    SitesShown t lowest locations sites ↔
      ∀ site ∈ sites, ∀ loc, some loc ∈ locations site.state → loc.Survives lowest := by
  refine forall₂_congr fun site hsite => ?_
  rw [shownLocations_of_encoded (hencoded site hsite), Option.some.injEq]
  exact map_shownParam_eq_iff (hsaved site hsite).params

end ReadBack

section Claim

variable {host : Host} {s s' : Btf Encoder} {lowest : BitVec 64}

/-- The expansions survive exactly when the locations of their parameters do: a constant that
fits its size, and an address that is not below the lowest one. -/
theorem inlineSites_survive_iff {locations : FuncState → List (Option Location)}
    (hsaved : ∀ state ∈ s.table.client.locStates,
      state.SavedWith (encoderAddrBase lowest).toNat (locations state))
    (h : addLocsec host s = .ok 0 s') :
    (∃ sites sections, SitesEmitted s.table s'.table sites sections ∧
        SitesShown s'.table lowest locations sites) ↔
      ∀ state ∈ s.table.client.locStates, ∀ loc, some loc ∈ locations state →
        loc.Survives lowest := by
  have hmem {sites : List InlineSite}
      (hperm : (sites.map InlineSite.state).Perm s.table.client.locStates) :
      ∀ site ∈ sites, site.state ∈ s.table.client.locStates := fun site hsite =>
    hperm.mem_iff.mp (List.mem_map_of_mem hsite)
  constructor
  · rintro ⟨sites, sections, hemitted, hshown⟩ state hstate loc hloc
    obtain ⟨site, hsite, rfl⟩ := List.mem_map.mp (hemitted.saved.mem_iff.mpr hstate)
    have hall := (sitesShown_iff hemitted.encoded fun site hsite =>
      hsaved _ (hmem hemitted.saved site hsite)).mp hshown
    exact hall site hsite loc hloc
  · intro hsurvive
    obtain ⟨sites, sections, hemitted⟩ :=
      sitesEmitted_of_addLocsec (fun state hstate => (hsaved state hstate).isInline) h
    refine ⟨sites, sections, hemitted, ?_⟩
    refine (sitesShown_iff hemitted.encoded fun site hsite =>
      hsaved _ (hmem hemitted.saved site hsite)).mpr fun site hsite => ?_
    exact hsurvive _ (hmem hemitted.saved site hsite)

/-- The LOC_PARAM of a location that the loader kept, or that is not available. -/
def encodedParam : Option Location → LocParam
  | none => LocParam.zero
  | some loc => locParamOf (loc.keep (Parameter.new none 0 0)) 8192

/-- An expansion at some place, with the locations of its parameters. -/
def InlineSite.withParams (name : String) (sectionIdx sectionOffset : ℕ)
    (locations : List (Option Location)) : FuncState where
  elf := none
  sym := none
  loc := some ⟨name, locations.map encodedParam, 0, 0, sectionIdx, sectionOffset⟩
  addr := 0
  nrParms := 0
  optimizedParms := false
  unexpectedReg := false
  inconsistentProto := false
  uncertainParmLoc := false
  reorderedParm := false
  signatureChanged := false
  optimizedSymbol := false
  ambiguousAddr := false
  retTypeId := 0
  parms := []
  annots := []

/-- A session in which no call fails. -/
def sessionWith (states : List FuncState) : Btf Encoder :=
  quietSession.setClient { Encoder.plain with locStates := states }

def Host.withLocs : Host := ⟨Qsort.stable, false, true, ""⟩

theorem addLocsec_sessionWith {state : FuncState} {states : List FuncState}
    (hsorted : (state :: states).Pairwise fun a b => decide (locStateCmp a b ≤ 0) = true) :
    addLocsec Host.withLocs (sessionWith (state :: states)) =
      addSortedLocs (state :: states) (sessionWith (state :: states)) := by
  rw [addLocsec_eq]
  change addSortedLocs ((state :: states).mergeSort fun a b => decide (locStateCmp a b ≤ 0))
    (sessionWith (state :: states)) = _
  rw [List.mergeSort_of_pairwise hsorted]

theorem savedWith_withParams {name : String} {sectionIdx sectionOffset : ℕ}
    {locations : List (Option Location)} (hidx : sectionIdx < uint32Max)
    (hkept : ∀ loc, some loc ∈ locations → loc.Kept) :
    (InlineSite.withParams name sectionIdx sectionOffset locations).SavedWith
      (encoderAddrBase 8192).toNat locations where
  isInline := ⟨rfl, hidx⟩
  params := by
    change List.Forall₂ _ locations (locations.map encodedParam)
    refine List.forall₂_map_right_iff.mpr (List.forall₂_same.mpr fun location hlocation => ?_)
    cases location with
    | none => rfl
    | some loc => exact ⟨hkept loc hlocation, none, 0, 0, rfl⟩

/-- Parameters in two sections: an address above the lowest one, one that is not available, a
constant, and a negative constant. -/
def sitesLocations (state : FuncState) : List (Option Location) :=
  if state.locOf.name = "f" then [some (.addr 12288 8), none, some (.const 5 4 false)]
  else [some (.const (-7) 4 true), some (.addr 16384 8)]

def twoSites : List FuncState :=
  [InlineSite.withParams "f" 1 16 [some (.addr 12288 8), none, some (.const 5 4 false)],
    InlineSite.withParams "g" 2 32 [some (.const (-7) 4 true), some (.addr 16384 8)]]

theorem savedWith_twoSites : ∀ state ∈ (sessionWith twoSites).table.client.locStates,
    state.SavedWith (encoderAddrBase 8192).toNat (sitesLocations state) := by
  refine List.forall_mem_cons.mpr ⟨?_, List.forall_mem_singleton.mpr ?_⟩
  · refine savedWith_withParams (by decide) fun loc hloc => ?_
    simp only [List.mem_cons, Option.some.injEq, reduceCtorEq, List.not_mem_nil, or_false,
      false_or] at hloc
    rcases hloc with rfl | rfl
    · exact ⟨by decide, by decide⟩
    · exact ⟨by decide, by decide⟩
  · refine savedWith_withParams (by decide) fun loc hloc => ?_
    simp only [List.mem_cons, Option.some.injEq, List.not_mem_nil, or_false] at hloc
    rcases hloc with rfl | rfl
    · exact ⟨by decide, by decide⟩
    · exact ⟨by decide, by decide⟩

theorem survives_twoSites : ∀ state ∈ (sessionWith twoSites).table.client.locStates,
    ∀ loc, some loc ∈ sitesLocations state → loc.Survives 8192 := by
  refine List.forall_mem_cons.mpr ⟨fun loc hloc => ?_, List.forall_mem_singleton.mpr
    fun loc hloc => ?_⟩
  · change some loc ∈ [some (.addr 12288 8), none, some (.const 5 4 false)] at hloc
    simp only [List.mem_cons, Option.some.injEq, reduceCtorEq, List.not_mem_nil, or_false,
      false_or] at hloc
    rcases hloc with rfl | rfl
    · exact ⟨by decide, by decide, by decide⟩
    · simp [Location.Survives]
  · change some loc ∈ [some (.const (-7) 4 true), some (.addr 16384 8)] at hloc
    simp only [List.mem_cons, Option.some.injEq, List.not_mem_nil, or_false] at hloc
    rcases hloc with rfl | rfl
    · rw [Location.Survives, if_pos (by decide)]
      decide
    · exact ⟨by decide, by decide, by decide⟩

/-- Whether a run returns zero. -/
def returnsZero (r : EStateM.Result Crash (Btf Encoder) ℤ) : Bool :=
  match r with
  | .ok r _ => r = 0
  | .error _ _ => false

theorem eq_ok_of_returnsZero {r : EStateM.Result Crash (Btf Encoder) ℤ}
    (h : returnsZero r = true) : ∃ s', r = .ok 0 s' := by
  cases r with
  | ok r s' => exact ⟨s', by rw [of_decide_eq_true h]⟩
  | error crash s' => cases h

theorem addLocsec_twoSites : ∃ s', addLocsec Host.withLocs (sessionWith twoSites) = .ok 0 s' := by
  rw [twoSites, addLocsec_sessionWith (by decide)]
  exact eq_ok_of_returnsZero (by decide +kernel)

/-- Two expansions in two sections come out with the locations of all their parameters. -/
theorem inlineSites_survive_iff_twoSites :
    ∃ s' sites sections, addLocsec Host.withLocs (sessionWith twoSites) = .ok 0 s' ∧
      SitesEmitted (sessionWith twoSites).table s'.table sites sections ∧
        SitesShown s'.table 8192 sitesLocations sites := by
  obtain ⟨s', hrun⟩ := addLocsec_twoSites
  obtain ⟨sites, sections, hsites⟩ :=
    (inlineSites_survive_iff savedWith_twoSites hrun).mpr survives_twoSites
  exact ⟨s', sites, sections, hrun, hsites⟩

/-- An address below the lowest one is encoded as it is, and read back from the lowest one
on. -/
theorem not_forall_inlineSites_survive :
    ¬∀ (host : Host) (s s' : Btf Encoder) (lowest : BitVec 64)
        (locations : FuncState → List (Option Location)),
      (∀ state ∈ s.table.client.locStates,
        state.SavedWith (encoderAddrBase lowest).toNat (locations state)) →
      addLocsec host s = .ok 0 s' →
      ∃ sites sections, SitesEmitted s.table s'.table sites sections ∧
        SitesShown s'.table lowest locations sites := by
  intro hall
  let state := InlineSite.withParams "f" 1 16 [some (.addr 4096 8)]
  have hrun : ∃ s', addLocsec Host.withLocs (sessionWith [state]) = .ok 0 s' := by
    rw [addLocsec_sessionWith (List.pairwise_singleton _ _)]
    exact ⟨_, rfl⟩
  have hsaved : ∀ st ∈ (sessionWith [state]).table.client.locStates,
      st.SavedWith (encoderAddrBase 8192).toNat [some (.addr 4096 8)] := by
    refine List.forall_mem_singleton.mpr (savedWith_withParams (by decide) fun loc hloc => ?_)
    obtain rfl := Option.some.inj (List.mem_singleton.mp hloc)
    exact ⟨by decide, by decide⟩
  obtain ⟨s', hrun⟩ := hrun
  obtain ⟨sites, sections, hemitted, hshown⟩ :=
    hall Host.withLocs _ s' 8192 (fun _ => [some (.addr 4096 8)]) hsaved hrun
  have hstate : state ∈ sites.map InlineSite.state :=
    hemitted.saved.mem_iff.mpr (List.mem_singleton.mpr rfl)
  obtain ⟨site, hsite, heq⟩ := List.mem_map.mp hstate
  have hshows := hshown site hsite
  rw [shownLocations_of_encoded (hemitted.encoded site hsite), InlineSite.loc, heq] at hshows
  exact absurd hshows (by decide)

end Claim

end Pahole

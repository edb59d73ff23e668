import Pahole.BtfEncoder.CuPlan
import Pahole.BtfEncoder.Encode

/-!
# Which errors are reported

When a libbpf call fails, `btf_encoder__encode_cu` and `btf_encoder__encode` report it
unless it is one of a few calls: this module says exactly which.
-/

namespace Pahole

open FallibleTable

/-! ## The locations follow their script -/

section Locsec

variable {host : Host} {s : Btf Encoder}

theorem makes_appendLoc (u : BtfType) (s : Btf Encoder) :
    Makes (append u) s (callPlan .loc (.append u)) lastId := follows_append rfl u s

theorem makes_editLoc {γ : Type} (f : γ → BtfType → BtfType) (xs : List γ)
    (s : Btf Encoder) :
    Makes (forEach (fun x => editLast (f x)) xs) s (editPlan .loc f xs) fun _ => 0 :=
  makes_editAll (fun x s => follows_editLast rfl (f x) s) xs s

theorem obeys_locParam {p : LocParam} {k : ℤ → BtfM Encoder ℤ} {next : ℤ → BtfScript Encoder}
    {val : Table BtfType Encoder → ℤ} (hk : ∀ id s, Obeys (k id) s val (next id))
    (s : Btf Encoder) :
    Obeys (andThen (addLocParam p) k) s val (locParamScript p next) := by
  unfold addLocParam locParamScript
  by_cases hsize : p.size = 0
  · simp only [hsize, ↓reduceIte]
    exact Ends.of_eq (andThen_return (le_refl 0) k s) (hk 0 s)
  · simp only [hsize, ↓reduceIte, andThen_assoc]
    refine Ends.andThen (makes_appendLoc _ s) fun s₁ _ hpos => ?_
    refine Ends.andThen (makes_editLoc BtfType.addLocValue p.values s₁) fun s₂ _ _ => ?_
    exact Ends.of_eq (andThen_return hpos k s₂) (hk _ s₂)

theorem obeys_locParams {ps : List LocParam} {k : List ℤ → BtfM Encoder ℤ}
    {next : List ℤ → BtfScript Encoder} {val : Table BtfType Encoder → ℤ}
    (hk : ∀ ids s, Obeys (k ids) s val (next ids)) (s : Btf Encoder) :
    Obeys (addLocParams ps k) s val (locParamsScript ps next) := by
  induction ps generalizing k next s with
  | nil => exact hk [] s
  | cons p ps ih =>
      exact obeys_locParam (fun id s => ih (fun ids s => hk (id :: ids) s) s) s

theorem obeys_locState (state : FuncState) (i : ℕ) (s : Btf Encoder) :
    Obeys (addLocState state i) s (fun _ => 0) (locStateScript state i) := by
  refine Ends.andThen (makes_addFuncProtoForState state s) fun s₁ _ _ => ?_
  have hfunc : ∀ (u : BtfType) (s : Btf Encoder),
      Makes (append u) s (callPlan .func (.append u)) lastId := fun u s => follows_append rfl u s
  refine Ends.andThen (hfunc _ s₁) fun s₂ _ _ => ?_
  refine obeys_locParams (fun ids s => ?_) s₂
  refine Ends.andThen (makes_appendLoc _ s) fun s₃ _ _ => ?_
  refine Ends.andThen (makes_editLoc BtfType.addLocProtoParam ids s₃) fun s₄ _ _ => ?_
  exact ⟨rfl, le_refl 0⟩

theorem makes_locsecEntries (enc : Encoder) (idx : ℕ) (states : List FuncState)
    (s : Btf Encoder) :
    Makes (addLocsecEntries enc idx states) s (locsecEntriesPlan enc idx states)
      fun _ => 0 := by
  induction states generalizing idx s with
  | nil => exact follows_return (le_refl 0) s
  | cons state rest ih =>
      have hadd : ∀ s : Btf Encoder,
          Makes (andThen (editLast (BtfType.addLocsecLoc state.locOf.entry)) fun _ =>
            addLocsecEntries enc state.locOf.sectionIdx rest) s
            (callPlan .loc (.editLast (BtfType.addLocsecLoc state.locOf.entry)) ++
              locsecEntriesPlan enc state.locOf.sectionIdx rest) fun _ => 0 := fun s =>
        Follows.andThen (follows_editLast rfl _ s) fun s' _ _ => ih _ s'
      simp only [addLocsecEntries, locsecEntriesPlan]
      split
      · exact Follows.andThen (makes_appendLoc _ s) fun s' _ _ => hadd s'
      · exact hadd s

theorem obeys_locsec (host : Host) (s : Btf Encoder) :
    Obeys (addLocsec host) s (fun _ => 0) (locsecScript host) := by
  unfold locsecScript addLocsec
  refine Ends.of_eq (q := if s.table.client.locStates.isEmpty then return 0 else _) rfl ?_
  simp only [Script.look]
  split
  · exact obeys_return (le_refl 0) s
  · split
    · exact obeys_abort (by decide) s _
    · set states := host.qsort.sort locStateCmp s.table.client.locStates
      set s₁ := s.setClient { s.table.client with locStates := states }
      have hstates : Obeys (forEach (fun x => addLocState x.1 x.2) states.zipIdx) s₁
          (fun _ => 0) (Script.each (fun x => locStateScript x.1 x.2) states.zipIdx) :=
        Ends.forEach (fun x s => ⟨_, obeys_locState x.1 x.2 s⟩) states.zipIdx s₁
      have hall : Obeys (andThen (forEach (fun x => addLocState x.1 x.2)
            states.zipIdx) fun _ => do
          let enc := (← getTable).client
          andThen (addLocsecEntries enc uint32Max enc.locStates) fun _ => do
            modifyClient Encoder.deleteLocStates
            return 0) s₁ (fun _ => 0)
          ((Script.each (fun x => locStateScript x.1 x.2) states.zipIdx).seq <|
            Script.look fun t =>
              (planScript (locsecEntriesPlan t.client uint32Max t.client.locStates)).seq <|
                planScript [.set fun t => t.client.deleteLocStates]) := by
        refine Ends.andThen hstates fun s₂ _ _ => ?_
        refine Ends.of_eq (q := andThen (addLocsecEntries s₂.table.client uint32Max
          s₂.table.client.locStates) fun _ => _) rfl ?_
        refine Ends.andThen (makes_locsecEntries _ _ _ s₂) fun s₃ _ _ => ?_
        exact ⟨rfl, le_refl 0⟩
      exact Ends.of_eq rfl hall

end Locsec

/-! ## Sections -/

section Datasecs

/-- Every call of a plan that fails ends it. -/
abbrev strict : CallSite → Bool := fun _ => true

theorem heard_strict {β : Type} (plan : BtfPlan β) : plan.Heard strict := fun _ _ => rfl

/-- The plan of the DATASECs. -/
def datasecsPlan (secs : List ElfSecinfo) : BtfPlan Encoder := secs.flatMap datasecPlan

/-- A program that hides errors, next to a plan that stops at them: it returns, in the session
of the plan if that is done, and otherwise in one where a call has failed. -/
def Hides {ρ : Type} (p : BtfM Encoder ρ) (plan : BtfPlan Encoder) (s : Btf Encoder) : Prop :=
  ∃ r s', p s = .ok r s' ∧ (s.failed = true → s'.failed = true) ∧
    ∀ o s'', exec strict plan s = (o, s'') →
      (o = .done → s' = s'') ∧ (o ≠ .done → s'.failed = true)

theorem strict_ne_aborted {γ : Type} {f : γ → BtfType → BtfType} {xs : List γ}
    {s s' : Btf Encoder} : exec strict (editPlan .varInfo f xs) s ≠ (.aborted, s') := by
  refine exec_ne_aborted fun ok h => ?_
  obtain ⟨x, -, hx⟩ := List.mem_flatMap.mp h
  simp [callPlan] at hx

theorem hides_varInfos (vars : List VarSecinfo) (s : Btf Encoder) :
    Hides (forEach (fun v => orMinusOne (editLast (BtfType.addVarInfo v)) (return 0)) vars)
      (editPlan .varInfo BtfType.addVarInfo vars) s := by
  have hedit : ∀ (v : VarSecinfo) (s : Btf Encoder),
      Makes (orMinusOne (editLast (BtfType.addVarInfo v)) (return 0)) s
        (callPlan .varInfo (.editLast (BtfType.addVarInfo v))) fun _ => 0 := fun v s =>
    Follows.orMinusOne (follows_editLast rfl _ s) fun s' _ => follows_return (le_refl 0) s'
  have hfollows := makes_editAll hedit vars s
  have hsame : exec (stopsAt CallSite.reaction) (editPlan .varInfo BtfType.addVarInfo vars) s =
      exec strict (editPlan .varInfo BtfType.addVarInfo vars) s := by
    refine exec_congr (fun site hsite => ?_) s
    have hheard : (editPlan (β := Encoder) .varInfo BtfType.addVarInfo vars).Heard
        (stopsAt CallSite.reaction) := heard_editPlan rfl
    exact hheard site hsite
  unfold Makes Follows Runs at hfollows
  rw [hsame] at hfollows
  rcases hout : exec strict (editPlan .varInfo BtfType.addVarInfo vars) s with ⟨o, s'⟩
  rw [hout] at hfollows
  have hend : ∃ r, forEach (fun v => orMinusOne (editLast (BtfType.addVarInfo v))
      (return 0)) vars s = .ok r s' := by
    cases o with
    | done => exact ⟨_, hfollows.1⟩
    | aborted => exact absurd hout strict_ne_aborted
    | crashed crash => exact absurd hout exec_ne_crashed
    | stopped site =>
        obtain ⟨-, hmem, -⟩ := exec_stopped hout
        have hsite : site = .varInfo := by
          simp only [editPlan, Plan.sites, List.mem_filterMap, List.mem_flatMap] at hmem
          obtain ⟨step, ⟨x, -, hstep⟩, hsite⟩ := hmem
          simp only [callPlan, List.mem_singleton] at hstep
          subst hstep
          exact (Option.some.inj hsite).symm
        subst hsite
        obtain ⟨r, hrun, -⟩ := hfollows
        exact ⟨r, hrun⟩
  obtain ⟨r, hrun⟩ := hend
  refine ⟨r, s', hrun, exec_failed hout, ?_⟩
  rintro o₁ s₁ hout₁
  obtain ⟨rfl, rfl⟩ := Prod.mk.inj (hout.symm.trans hout₁)
  refine ⟨fun _ => rfl, fun hne => ?_⟩
  cases o with
  | done => exact absurd rfl hne
  | aborted => exact absurd hout strict_ne_aborted
  | crashed crash => exact absurd hout exec_ne_crashed
  | stopped site => exact (exec_stopped hout).1

theorem hides_addDatasec (sec : ElfSecinfo) (s : Btf Encoder) :
    Hides (addDatasec sec) (datasecPlan sec) s := by
  have hrest : ∀ (id : ℤ) (s₁ : Btf Encoder), addLogged (.datasec sec.name sec.datasecSz []) s =
      .ok id s₁ → ∃ r s', addDatasec sec s = .ok r s' ∧ (s₁.failed = true → s'.failed = true) ∧
        ∀ o s'', exec strict (editPlan .varInfo BtfType.addVarInfo sec.sortedVars) s₁ =
          (o, s'') → (o = .done → s' = s'') ∧ (o ≠ .done → s'.failed = true) := by
    intro id s₁ hrun
    obtain ⟨r, s', hvars, hfailed, hplan⟩ := hides_varInfos sec.sortedVars s₁
    refine ⟨if r ≠ 0 then -1 else id, s', ?_, hfailed, hplan⟩
    simp only [addDatasec, bind, EStateM.bind, hrun, orMinusOne] at hvars ⊢
    rw [hvars]
    by_cases hr : r = 0 <;> simp [hr, pure, EStateM.pure]
  cases hf : s.nextFailure (.append (.datasec sec.name sec.datasecSz [])) with
  | none =>
      obtain ⟨r, s', hrun, hfailed, hplan⟩ := hrest _ _ (appendRead_ok hf)
      refine ⟨r, s', hrun, hfailed, fun o s'' hout => hplan o s'' ?_⟩
      simpa [datasecPlan, buildPlan, callPlan, exec, hf] using hout
  | some e =>
      have hneg := e.neg
      have hread : decide (0 < e.code) = false := by simp; omega
      obtain ⟨r, s', hrun, hfailed, -⟩ := hrest e.code s.refused (by
        rw [addLogged, appendRead_refused hf, hread]
        rfl)
      refine ⟨r, s', hrun, fun _ => hfailed rfl, fun o s'' hout => ⟨?_, fun _ => hfailed rfl⟩⟩
      intro hdone
      simp [datasecPlan, buildPlan, callPlan, exec, hf] at hout
      rw [← hout.1] at hdone
      simp at hdone

theorem hides_addDatasecs (secs : List ElfSecinfo) (s : Btf Encoder) :
    Hides (addDatasecs secs) (datasecsPlan secs) s := by
  induction secs generalizing s with
  | nil =>
      refine ⟨(), s, rfl, id, fun o s'' hout => ?_⟩
      obtain ⟨rfl, rfl⟩ := Prod.mk.inj hout
      exact ⟨fun _ => rfl, fun h => absurd rfl h⟩
  | cons sec rest ih =>
      obtain ⟨r, s₁, hrun, hfailed, hplan⟩ := hides_addDatasec sec s
      obtain ⟨⟨⟩, s₂, hrun₂, hfailed₂, hplan₂⟩ := ih s₁
      refine ⟨(), s₂, ?_, fun h => hfailed₂ (hfailed h), fun o s'' hout => ?_⟩
      · simp only [addDatasecs, bind, EStateM.bind, hrun, hrun₂]
      · rw [datasecsPlan, List.flatMap_cons, exec_append] at hout
        rcases hsec : exec strict (datasecPlan sec) s with ⟨o₁, s₃⟩
        obtain ⟨hsame, hbad⟩ := hplan o₁ s₃ hsec
        rw [hsec] at hout
        cases o₁ with
        | done =>
            obtain rfl := hsame rfl
            exact hplan₂ o s'' hout
        | _ =>
            obtain ⟨rfl, rfl⟩ := Prod.mk.inj hout
            exact ⟨fun h => by simp at h, fun _ => hfailed₂ (hbad (by simp))⟩

end Datasecs

/-! ## Reported errors -/

/-- A failed call is reported: no crash comes of it, and the value returned `tells`. -/
def ErrorsReported (tells : ℤ → Prop) (p : BtfM Encoder ℤ) (s : Btf Encoder) : Prop :=
  match p s with
  | .ok r s' => s'.failed = true → tells r
  | .error _ s' => s'.failed = false

/-- A session in which no call has failed yet. -/
def fresh (s : Btf Encoder) : Btf Encoder := { s with failed := false }

/-- The call that ends the work on a CU, if any, is one whose failure is passed on, and
the work is not done after a failed call. -/
def CuHeard (qsort : Qsort) (conf : ConfLoad) (cu : Cu) (s : Btf Encoder) : Prop :=
  match s.table.client.elfFunctions qsort cu.elf with
  | none => True
  | some (funcs, enc) =>
      match exec (stopsAt CallSite.reaction)
          (cuPlan conf (enc.startCu s.table.cnt cu) cu funcs) (startSession cu enc s) with
      | (.done, s') => s'.failed = false
      | (.stopped site, _) => site ≠ .funcProto ∧ site ≠ .typeDeclTag
      | _ => True

/-- The script of the saved functions and the locations. -/
def encodeScript (host : Host) (skipInconsistent : Bool) : BtfScript Encoder :=
  Script.look fun t =>
    (groupsScript host skipInconsistent (t.client.savedGroups host.qsort)).seq <|
      (planScript [.set fun t => t.client.deleteFuncStates]).seq (locsecScript host)

/-- The value that `btf_encoder__encode` returns at its end, with the BTF `t`: that of `finish`,
and zero when there is no type. -/
def finishVal (finish : Table BtfType Encoder → ℤ) (t : Table BtfType Encoder) : ℤ :=
  if t.cnt = 1 then 0 else finish t

/-- The call that ends the work before the sections, if any, is not one for a function
prototype, and no call for a section fails, unless what follows has an error to report. -/
def EncodeHeard (host : Host) (finish : Table BtfType Encoder → ℤ) (skipInconsistent : Bool)
    (s : Btf Encoder) : Prop :=
  let (o, s₁) := encodeScript host skipInconsistent s
  o ≠ .stopped .funcProto ∧
    (o = .done → (exec strict (datasecsPlan s₁.table.client.datasecs) s₁).1 = .done ∨
      finishVal finish (finalSession (addDatasecs s₁.table.client.datasecs s₁)).table ≠ 0)

section Reports

variable {host : Host} {conf : ConfLoad} {cu : Cu} {s : Btf Encoder}

/-- Errors of a program are reported if and only if its plan is done without a failure, or stops
at neither a FUNC_PROTO nor the declaration tag of a type. -/
theorem reported_of_runs {p : BtfM Encoder ℤ} {plan : BtfPlan Encoder}
    {o : Outcome CallSite} {s' : Btf Encoder}
    (hruns : Runs true CallSite.reaction p s plan fun _ => 1)
    (hout : exec (stopsAt CallSite.reaction) plan s = (o, s')) :
    ErrorsReported (· < 0) p s ↔
      match o with
      | .done => s'.failed = false
      | .stopped site => site ≠ .funcProto ∧ site ≠ .typeDeclTag
      | _ => True := by
  unfold Runs at hruns
  rw [hout] at hruns
  cases o with
  | done =>
      obtain ⟨hrun, -⟩ := hruns
      simp [ErrorsReported, hrun]
  | aborted =>
      obtain ⟨r, hrun, hr⟩ := hruns
      simp [ErrorsReported, hrun, hr]
  | crashed crash => exact absurd hout exec_ne_crashed
  | stopped site =>
      obtain ⟨hfailed, -, -⟩ := exec_stopped hout
      rw [ends_stopped] at hruns
      cases site with
      | funcProto =>
          have hrun : p s = .error .nullDeref s' := hruns
          simp [ErrorsReported, hrun, hfailed]
      | typeDeclTag =>
          have hrun : p s = .ok 0 s' := hruns.2
          simp [ErrorsReported, hrun, hfailed]
      | indexInt => exact hruns.elim
      | datasec => exact hruns.elim
      | _ =>
          obtain ⟨r, hrun, hr⟩ := hruns
          simp [ErrorsReported, hrun, hr]

theorem encodeCu_reports_iff (qsort : Qsort) (conf : ConfLoad) (cu : Cu) (s : Btf Encoder) :
    ErrorsReported (· < 0) (encodeCu qsort conf cu) s ↔ CuHeard qsort conf cu s := by
  cases hfuncs : s.table.client.elfFunctions qsort cu.elf with
  | none => simp [ErrorsReported, CuHeard, hfuncs, encodeCu_none hfuncs]
  | some found =>
      obtain ⟨funcs, enc⟩ := found
      have hruns : Runs true CallSite.reaction (encodeCuBody conf cu funcs)
          (startSession cu enc s) (cuPlan conf (enc.startCu s.table.cnt cu) cu funcs)
          fun _ => 1 :=
        runs_encodeCuBody rfl fun hne => predicts_startCu enc s.table.cnt cu hne
      rcases hout : exec (stopsAt CallSite.reaction)
          (cuPlan conf (enc.startCu s.table.cnt cu) cu funcs) (startSession cu enc s) with ⟨o, s'⟩
      have hbody := reported_of_runs hruns hout
      have hsame : ErrorsReported (· < 0) (encodeCu qsort conf cu) s ↔
          ErrorsReported (· < 0) (encodeCuBody conf cu funcs) (startSession cu enc s) := by
        simp only [ErrorsReported, encodeCu_some hfuncs]
        cases encodeCuBody conf cu funcs (startSession cu enc s) with
        | ok r s' => rfl
        | error e s' => rfl
      rw [hsame, hbody]
      simp only [CuHeard, hfuncs, hout]
      cases o <;> rfl

/-- The sites at which a script that is obeyed can stop: at a prototype the program
crashes, and elsewhere it returns an error. -/
theorem ends_stopped_cases {p : BtfM Encoder ℤ} {s s' : Btf Encoder}
    {val : Table BtfType Encoder → ℤ} {site : CallSite}
    (h : Ends false CallSite.reaction p s val (.stopped site, s')) :
    (site = .funcProto ∧ p s = .error .nullDeref s') ∨
      (site ≠ .funcProto ∧ ∃ r, p s = .ok r s' ∧ r < 0) := by
  rw [ends_stopped] at h
  cases site with
  | funcProto => exact Or.inl ⟨rfl, h⟩
  | typeDeclTag => exact absurd h.1 Bool.false_ne_true
  | indexInt => exact h.elim
  | datasec => exact h.elim
  | _ => exact Or.inr ⟨by simp, h⟩

/-- A program whose script is not done returns an error, or crashes with the failure noted only
at a FUNC_PROTO. -/
theorem reported_of_obeys {p : BtfM Encoder ℤ} {s s' : Btf Encoder}
    {val : Table BtfType Encoder → ℤ} {script : BtfScript Encoder} {o : Outcome CallSite}
    (hp : Obeys p s val script) (hloud : script.Loud) (hs : s.failed = false)
    (hout : script s = (o, s')) (ho : o ≠ .done) :
    (∃ r, p s = .ok r s' ∧ r < 0 ∧ o ≠ .stopped .funcProto) ∨
      (∃ crash, p s = .error crash s' ∧ (s'.failed = true ↔ o = .stopped .funcProto)) := by
  have hfailed := hloud s o s' hout hs
  unfold Obeys at hp
  rw [hout] at hp
  cases o with
  | done => exact absurd rfl ho
  | aborted =>
      obtain ⟨r, hrun, hr⟩ := hp
      exact Or.inl ⟨r, hrun, hr, by simp⟩
  | crashed crash => exact Or.inr ⟨crash, hp, by simp [hfailed]⟩
  | stopped site =>
      rcases ends_stopped_cases hp with ⟨rfl, hrun⟩ | ⟨hsite, r, hrun, hr⟩
      · exact Or.inr ⟨_, hrun, by simp [hfailed]⟩
      · exact Or.inl ⟨r, hrun, hr, by simpa using hsite⟩

theorem loud_locParam {p : LocParam} {next : ℤ → BtfScript Encoder}
    (hnext : ∀ id, (next id).Loud) : (locParamScript p next).Loud := by
  unfold locParamScript
  split
  · exact hnext 0
  · refine Script.loud_seq (Script.loud_exec (heard_callPlan.mpr rfl)) ?_
    exact Script.loud_look fun t =>
      Script.loud_seq (Script.loud_exec (heard_editPlan rfl)) (hnext _)

theorem loud_locParams {ps : List LocParam} {next : List ℤ → BtfScript Encoder}
    (hnext : ∀ ids, (next ids).Loud) : (locParamsScript ps next).Loud := by
  induction ps generalizing next with
  | nil => exact hnext []
  | cons p ps ih => exact loud_locParam fun id => ih fun ids => hnext (id :: ids)

theorem loud_locState (state : FuncState) (i : ℕ) : (locStateScript state i).Loud := by
  have hproto : (protoPlan (β := Encoder) state.retTypeId state.protoParams).Heard
      (stopsAt CallSite.reaction) :=
    heard_append.mpr ⟨heard_callPlan.mpr rfl, heard_editPlan rfl⟩
  refine Script.loud_seq (Script.loud_exec hproto) (Script.loud_look fun t => ?_)
  refine Script.loud_seq (Script.loud_exec (heard_callPlan.mpr rfl)) (Script.loud_look fun t => ?_)
  refine loud_locParams fun ids => ?_
  refine Script.loud_seq (Script.loud_exec (heard_callPlan.mpr rfl)) (Script.loud_look fun t => ?_)
  exact Script.loud_seq (Script.loud_exec (heard_editPlan rfl))
    (Script.loud_exec (heard_set.mpr heard_nil))

theorem heard_locsecEntries (enc : Encoder) (idx : ℕ) (states : List FuncState) :
    (locsecEntriesPlan enc idx states).Heard (stopsAt CallSite.reaction) := by
  induction states generalizing idx with
  | nil => exact heard_nil
  | cons state rest ih =>
      simp only [locsecEntriesPlan]
      split
      · simp only [heard_append]
        exact ⟨heard_callPlan.mpr rfl, heard_callPlan.mpr rfl, ih _⟩
      · exact heard_append.mpr ⟨heard_callPlan.mpr rfl, ih _⟩

theorem loud_locsec (host : Host) : (locsecScript host).Loud := by
  refine Script.loud_look fun t => ?_
  split
  · exact Script.loud_nil
  · split
    · exact Script.loud_abort
    · refine Script.loud_seq (Script.loud_exec (heard_set.mpr heard_nil)) ?_
      refine Script.loud_seq (Script.loud_each (fun x : FuncState × ℕ => loud_locState x.1 x.2) _) ?_
      exact Script.loud_look fun t =>
        Script.loud_seq (Script.loud_exec (heard_locsecEntries _ _ _))
          (Script.loud_exec (heard_set.mpr heard_nil))

/-- The end of `btf_encoder__encode`, after the saved functions and the locations. -/
theorem reported_finish (finish : Table BtfType Encoder → ℤ) {s : Btf Encoder}
    (hs : s.failed = false) :
    ErrorsReported (· ≠ 0) (do
        let enc := (← getTable).client
        addDatasecs enc.datasecs
        let t ← getTable
        if t.cnt = 1 then return 0 else return finish t) s ↔
      (exec strict (datasecsPlan s.table.client.datasecs) s).1 = .done ∨
        finishVal finish (finalSession (addDatasecs s.table.client.datasecs s)).table ≠ 0 := by
  obtain ⟨⟨⟩, s', hrun, -, hplan⟩ := hides_addDatasecs s.table.client.datasecs s
  have hval : (do
        let enc := (← getTable).client
        addDatasecs enc.datasecs
        let t ← getTable
        if t.cnt = 1 then return 0 else return finish t : BtfM Encoder ℤ) s =
      .ok (finishVal finish s'.table) s' := by
    simp only [bind, EStateM.bind, getTable, hrun, finishVal]
    split <;> rfl
  rcases hout : exec strict (datasecsPlan s.table.client.datasecs) s with ⟨o, s''⟩
  obtain ⟨hdone, hbad⟩ := hplan o s'' hout
  simp only [ErrorsReported, hval, hrun, finalSession]
  by_cases ho : o = .done
  · have hfailed : s'.failed = false := by
      rw [hdone ho, ← hs]
      rw [ho] at hout
      exact (exec_done (heard_strict _) hout).2
    simp [ho, hfailed]
  · simp [ho, hbad ho]

/-- A program that a failing call stops before `k` reports it if and only if the call is not one
for a FUNC_PROTO. -/
theorem reported_stopped {p : BtfM Encoder ℤ} {k : ℤ → BtfM Encoder ℤ} {s s' : Btf Encoder}
    {val : Table BtfType Encoder → ℤ} {script : BtfScript Encoder} {o : Outcome CallSite}
    (hp : Obeys p s val script) (hloud : script.Loud) (hs : s.failed = false)
    (hout : script s = (o, s')) (ho : o ≠ .done) :
    ErrorsReported (· ≠ 0) (andThen p k) s ↔ o ≠ .stopped .funcProto := by
  rcases reported_of_obeys hp hloud hs hout ho with ⟨r, hrun, hr, hsite⟩ | ⟨crash, hrun, hfailed⟩
  · have hne : r ≠ 0 := by omega
    simp only [ErrorsReported, andThen, bind, EStateM.bind, hrun, if_pos hr]
    exact ⟨fun _ => hsite, fun _ _ => hne⟩
  · simp only [ErrorsReported, andThen, bind, EStateM.bind, hrun]
    rw [← Bool.not_eq_true, hfailed]

/-- After the saved functions `btf_encoder__encode` reports its errors if and only if its script
does not stop at a FUNC_PROTO and, where it is done, the DATASECs are added or writing the BTF
fails. -/
theorem reported_locsec (host : Host) (finish : Table BtfType Encoder → ℤ) {s : Btf Encoder}
    (hs : s.failed = false) {o : Outcome CallSite} {s₁ : Btf Encoder}
    (hout : locsecScript host s = (o, s₁)) :
    ErrorsReported (· ≠ 0) (andThen (addLocsec host) fun _ => do
        let enc := (← getTable).client
        addDatasecs enc.datasecs
        let t ← getTable
        if t.cnt = 1 then return 0 else return finish t) s ↔
      o ≠ .stopped .funcProto ∧
        (o = .done → (exec strict (datasecsPlan s₁.table.client.datasecs) s₁).1 = .done ∨
          finishVal finish
            (finalSession (addDatasecs s₁.table.client.datasecs s₁)).table ≠ 0) := by
  have hobeys := obeys_locsec host s
  by_cases ho : o = .done
  · subst ho
    have hs₁ : s₁.failed = false := by simpa using loud_locsec host s _ s₁ hout hs
    unfold Obeys at hobeys
    rw [hout] at hobeys
    have hrest := reported_finish finish hs₁
    have hsame : ErrorsReported (· ≠ 0) (andThen (addLocsec host) fun _ => do
        let enc := (← getTable).client
        addDatasecs enc.datasecs
        let t ← getTable
        if t.cnt = 1 then return 0 else return finish t) s ↔
        (exec strict (datasecsPlan s₁.table.client.datasecs) s₁).1 = .done ∨
          finishVal finish
            (finalSession (addDatasecs s₁.table.client.datasecs s₁)).table ≠ 0 := by
      rw [← hrest]
      simp only [ErrorsReported, andThen, bind, EStateM.bind, hobeys.1]
      rfl
    rw [hsame]
    simp
  · rw [reported_stopped hobeys (loud_locsec host) hs hout ho]
    simp [ho]

theorem encode_reports_iff (host : Host) (finish : Table BtfType Encoder → ℤ)
    (skipInconsistent : Bool) {s : Btf Encoder} (hs : s.failed = false) :
    ErrorsReported (· ≠ 0) (encode host finish skipInconsistent) s ↔
      EncodeHeard host finish skipInconsistent s := by
  set groups := s.table.client.savedGroups host.qsort with hgroups
  have hobeys : Obeys (forEach (addGroup host skipInconsistent) groups) s (fun _ => 0)
      (groupsScript host skipInconsistent groups) :=
    Ends.forEach (fun group s => ⟨_, obeys_addGroup host skipInconsistent group s⟩) groups s
  have hstart : addSavedFuncs host skipInconsistent s =
      match forEach (addGroup host skipInconsistent) groups s with
      | .ok r s' => .ok r (s'.setClient s'.table.client.deleteFuncStates)
      | .error e s' => .error e s' := by
    simp only [addSavedFuncs, bind, EStateM.bind, getTable, modifyClient, hgroups]
    cases forEach (addGroup host skipInconsistent) _ s <;> rfl
  have hloud : (groupsScript host skipInconsistent groups).Loud :=
    loud_groups skipInconsistent groups
  rcases hout : groupsScript host skipInconsistent groups s with ⟨o, s₁⟩
  have hscript : encodeScript host skipInconsistent s =
      proceed (o, s₁) ((planScript [.set fun t => t.client.deleteFuncStates]).seq
        (locsecScript host)) := by
    rw [← hout]
    rfl
  by_cases ho : o = .done
  · subst ho
    have hs₁ : s₁.failed = false := by simpa using hloud s _ s₁ hout hs
    unfold Obeys at hobeys
    rw [hout] at hobeys
    set s₂ := s₁.setClient s₁.table.client.deleteFuncStates with hs₂
    have hsaved : addSavedFuncs host skipInconsistent s = .ok 0 s₂ := by
      rw [hstart, hobeys.1]
    have hscript₂ : encodeScript host skipInconsistent s = locsecScript host s₂ := hscript
    rcases hlocsec : locsecScript host s₂ with ⟨o₃, s₃⟩
    have hrest := reported_locsec host finish (s := s₂) hs₁ hlocsec
    simp only [EncodeHeard, hscript₂, hlocsec]
    rw [← hrest]
    simp only [ErrorsReported, encode, andThen, bind, EStateM.bind, hsaved]
    rfl
  · have hheard : EncodeHeard host finish skipInconsistent s ↔ o ≠ .stopped .funcProto := by
      have hstop : encodeScript host skipInconsistent s = (o, s₁) := by
        rw [hscript]
        cases o with
        | done => exact absurd rfl ho
        | _ => rfl
      simp only [EncodeHeard, hstop]
      simp [ho]
    rw [hheard, ← reported_stopped (k := fun _ => return 0) hobeys hloud hs hout ho]
    simp only [ErrorsReported, encode, andThen, bind, EStateM.bind, hstart]
    rcases reported_of_obeys hobeys hloud hs hout ho with ⟨r, hrun, hr, -⟩ | ⟨crash, hrun, -⟩
    · simp only [hrun, if_pos hr]
      rfl
    · simp only [hrun]

end Reports

/-- `btf_encoder__encode_cu` reports a failed call if and only if the call that ends its work is
one whose failure is passed on, and `btf_encoder__encode` does if and only if no failure for a
prototype ends its loop and none for a section is left unreported. -/
theorem encode_errors_reported_iff (host : Host) (conf : ConfLoad) (cu : Cu)
    (finish : Table BtfType Encoder → ℤ) (s₁ s₂ : Btf Encoder) :
    (ErrorsReported (· < 0) (encodeCu host.qsort conf cu) (fresh s₁) ↔
      CuHeard host.qsort conf cu (fresh s₁)) ∧
    (ErrorsReported (· ≠ 0)
        (encode host finish conf.skipEncodingBtfInconsistentProto) (fresh s₂) ↔
      EncodeHeard host finish conf.skipEncodingBtfInconsistentProto (fresh s₂)) :=
  ⟨encodeCu_reports_iff host.qsort conf cu (fresh s₁),
    encode_reports_iff host finish conf.skipEncodingBtfInconsistentProto rfl⟩

/-! ## Errors that are not reported -/

/-- A CU that has nothing but types. -/
def typesCu (types : TypesTable) : Cu where
  addrSize := 8
  types := types
  functions := []
  vars := []
  inlines := []
  nrRegisterParams := 6
  isPacked := fun _ => false
  elf := some ⟨0, some [], false, fun _ => none⟩
  varTypes := by simp

/-- The session in which the n-th call fails. -/
def failingAt (n : ℕ) (enc : Encoder) : Btf Encoder :=
  { fails := fun k => if k = n then some enomem else none
    made := 0
    failed := false
    table := ⟨0, [], enc⟩ }

/-- A type declaration with a tag: when the tag cannot be added, encoding the CU
returns zero. -/
theorem encodeCu_declTag_dropped : ¬ErrorsReported (· < 0)
    (encodeCu Qsort.stable ⟨false, false, false⟩
      (typesCu [none, some (.typedef (some "t") 0 [⟨"tag", -1⟩])]))
    (fresh (failingAt 1 Encoder.plain)) := by
  intro h
  have hreturned : true = true → (0 : ℤ) < 0 := h
  exact absurd (hreturned rfl) (by decide)

end Pahole

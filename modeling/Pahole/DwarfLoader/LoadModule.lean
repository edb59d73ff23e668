import Pahole.DwarfLoader.QueueWakeups

/-!
# The errors of loading a module

The type units of a module come first, and then its CUs: merged into one, or by the worker
threads, whose results `dwarf_cus__process_cus` joins.  `cus__load_module` returns an error of
the threads only when the stealer asked for the abort.
-/

namespace Pahole

open Workers

namespace Worker

/-- The worker is about to return `DWARF_CB_ABORT`, or has. -/
def quits : Worker → Bool
  | .leaving | .signalling | .returned false => true
  | _ => false

/-- The worker has a thread that has not returned. -/
def runs : Worker → Bool
  | .uncreated | .returned _ => false
  | _ => true

end Worker

namespace JobQueue

variable {n : ℕ}

/-! ## The threads that are joined -/

/-- The threads are created in order and joined in the opposite one. -/
structure Joining (q : JobQueue n) : Prop where
  later : ∀ v : Fin n, q.created < v → q.workers v = .uncreated
  unjoined : q.created ≤ n → q.toJoin = n
  joined : ∀ v : Fin n, q.toJoin ≤ v → (q.workers v).runs = false

/-- Where the stealer asked for an abort, a worker that is still to be joined returns
`DWARF_CB_ABORT`, or an error has been noted for good. -/
def Told (q : JobQueue n) : Prop :=
  q.lskStatus = .abort →
    (∃ v : Fin n, v < q.toJoin ∧ (q.workers v).quits = true) ∨ (q.created = n + 1 ∧ q.error ≠ 0)

/-- When the stealer has asked to stop no other CU is stolen. -/
structure Stopped (q : JobQueue n) : Prop where
  last : q.lskStatus ≠ .keepit →
    q.steals.length = q.nextCuId + 1 ∧ q.stolen q.nextCuId = 0
  status : q.lskStatus = .abort ↔ q.aborted = true

section Joins

variable {q q' : JobQueue n} {w v : Fin n} {p p' : Worker} {ws : Fin n → Worker}
  {wrap : ℕ → ℕ} {limit total : ℕ} {kind : StepKind}

theorem joining_start : (start limit : JobQueue n).Joining where
  later _ _ := rfl
  unjoined _ := rfl
  joined v hv := absurd v.isLt (not_lt.mpr hv)

theorem Joining.of_update (h : q.Joining) (hw : q.workers w = p)
    (hq' : q'.workers = Function.update q.workers w p') (hruns : p.runs = true)
    (hcreated : q'.created = q.created) (hjoin : q'.toJoin = q.toJoin) : q'.Joining where
  later v hv := by
    have hbefore := h.later v (hcreated ▸ hv)
    have hother : v ≠ w := by
      rintro rfl
      rw [hw] at hbefore
      rw [hbefore] at hruns
      cases hruns
    rw [hq', Function.update_of_ne hother, hbefore]
  unjoined hle := hjoin.trans (h.unjoined (hcreated ▸ hle))
  joined v hv := by
    have hbefore := h.joined v (hjoin ▸ hv)
    have hother : v ≠ w := by
      rintro rfl
      rw [hw, hruns] at hbefore
      cases hbefore
    rw [hq', Function.update_of_ne hother, hbefore]

theorem Joining.of_signals (h : q.Joining) (hw : q.workers w = p)
    (hsignals : Signals (Function.update q.workers w p') ws) (hruns : p.runs = true) :
    JobQueue.Joining { q with workers := ws } := by
  have hmoved : (q.goTo w p').Joining := h.of_update hw rfl hruns rfl rfl
  cases hsignals with
  | wakes v hv => exact hmoved.of_update hv rfl rfl rfl rfl
  | unheard _ => exact hmoved

theorem Joining.of_workers (h : q.Joining) (hworkers : q'.workers = q.workers)
    (hcreated : q'.created = q.created ∨ q.created < q'.created)
    (hunjoined : q'.created ≤ n → q'.toJoin = n)
    (hjoined : ∀ v : Fin n, q'.toJoin ≤ v → (q.workers v).runs = false) : q'.Joining where
  later v hv := by
    rw [hworkers]
    exact h.later v (by omega)
  unjoined := hunjoined
  joined v hv := by
    rw [hworkers]
    exact hjoined v hv

theorem Joining.step (h : q.Joining) (hstep : QueueStep wrap total kind q q') : q'.Joining := by
  cases hstep with
  | signalAdded hw hsignals => exact h.of_signals hw hsignals rfl
  | signalAbort hw hsignals => exact h.of_signals hw hsignals rfl
  | @create _ w hw hturn =>
      have hnew : q.toJoin = n := h.unjoined (by
        have := w.isLt
        omega)
      refine ⟨fun v hv => ?_, h.unjoined, fun v hv => ?_⟩
      · have hother : v ≠ w := by
          rintro rfl
          change q.created < v at hv
          omega
        change Function.update q.workers w _ v = _
        rw [Function.update_of_ne hother]
        exact h.later v hv
      · have hlt := v.isLt
        change q.toJoin ≤ v at hv
        omega
  | noteCreated hw hturn =>
      have hnew : q.toJoin = n := h.unjoined (by omega)
      exact h.of_workers rfl (Or.inr (Nat.lt_succ_self _)) (fun _ => hnew) h.joined
  | allCreated hturn =>
      refine h.of_workers rfl (Or.inr ?_) (fun hle => absurd hle (by simp)) h.joined
      exact Nat.lt_succ_of_le hturn.le
  | @createFails _ w err hw hturn herr =>
      have hlt := w.isLt
      refine h.of_workers rfl (Or.inr ?_) (fun hle => absurd hle (by simp)) fun v hv => ?_
      · exact Nat.lt_succ_of_lt (hturn ▸ hlt)
      · change (w : ℕ) ≤ v at hv
        rcases Nat.lt_or_eq_of_le hv with hless | heq
        · rw [h.later v (hturn ▸ hless)]
          rfl
        · rw [← Fin.ext heq, hw]
          rfl
  | @join _ w hcreated hturn hw =>
      refine h.of_workers rfl (Or.inl rfl) (fun hle => ?_) fun v hv => ?_
      · change q.created ≤ n at hle
        omega
      · change (w : ℕ) ≤ v at hv
        rcases Nat.lt_or_eq_of_le hv with hless | heq
        · exact h.joined v (by omega)
        · rw [← Fin.ext heq, hw]
          rfl
  | @joinAborted _ w hcreated hturn hw =>
      refine h.of_workers rfl (Or.inl rfl) (fun hle => ?_) fun v hv => ?_
      · change q.created ≤ n at hle
        omega
      · change (w : ℕ) ≤ v at hv
        rcases Nat.lt_or_eq_of_le hv with hless | heq
        · exact h.joined v (by omega)
        · rw [← Fin.ext heq, hw]
          rfl
  | enqueue hw | lock hw | load hw | dequeue hw | giveUp hw | wait hw | wake hw | relock hw
  | seeError hw | nextCu hw | noMemory hw | noCuDie hw | badCu hw | noMoreCus hw | recode hw
  | recodeFails hw | fail hw | steal hw | stealStops hw | incNextCuId hw | returnOk hw
  | stopEarly hw | storeAbort hw => exact h.of_update hw rfl rfl rfl rfl

/-! ## What the stealer asked for -/

/-- A move of a worker that leaves the error as it is, or notes one. -/
theorem Told.of_update (h : q.Told) (hw : q.workers w = p)
    (hq' : q'.workers = Function.update q.workers w p')
    (hquits : p.quits = true → p'.quits = true) (hcreated : q'.created = q.created)
    (hjoin : q'.toJoin = q.toJoin) (hlsk : q'.lskStatus = q.lskStatus)
    (herror : q'.error = 0 → q.error = 0) : q'.Told := by
  intro hset
  rcases h (hlsk ▸ hset) with ⟨v, hv, hplace⟩ | ⟨hall, hnoted⟩
  · refine Or.inl ⟨v, hjoin ▸ hv, ?_⟩
    rw [hq', Function.update_apply]
    split
    · next heq => exact hquits (by rwa [← hw, ← heq])
    · exact hplace
  · exact Or.inr ⟨hcreated.trans hall, fun hzero => hnoted (herror hzero)⟩

theorem Told.of_signals (h : q.Told) (hw : q.workers w = p)
    (hsignals : Signals (Function.update q.workers w p') ws)
    (hquits : p.quits = true → p'.quits = true) : JobQueue.Told { q with workers := ws } := by
  have hmoved : (q.goTo w p').Told := h.of_update hw rfl hquits rfl rfl rfl id
  cases hsignals with
  | wakes v hv => exact hmoved.of_update hv rfl nofun rfl rfl rfl id
  | unheard _ => exact hmoved

theorem Told.step (h : q.Told) (hfitting : q.Fitting) (hjoining : q.Joining)
    (hstep : QueueStep wrap total kind q q') : q'.Told := by
  cases hstep with
  | signalAdded hw hsignals => exact h.of_signals hw hsignals nofun
  | signalAbort hw hsignals => exact h.of_signals hw hsignals fun _ => rfl
  | noMemory hw herror hlt =>
      exact h.of_update hw rfl nofun rfl rfl rfl fun hzero =>
        absurd hzero (show (12 : ℤ) ≠ 0 by decide)
  | fail hw =>
      exact h.of_update hw rfl nofun rfl rfl rfl fun hzero => absurd hzero (hfitting.place hw)
  | @stealStops _ w cu lsk hw hlsk =>
      refine fun _ => Or.inl ⟨w, ?_, ?_⟩
      · by_contra hle
        have hruns := hjoining.joined w (not_lt.mp hle)
        rw [hw] at hruns
        cases hruns
      · change (Function.update q.workers w .leaving w).quits = true
        rw [Function.update_self]
        rfl
  | storeAbort hw => exact h.of_update hw rfl (fun _ => rfl) rfl rfl rfl id
  | @noteCreated _ w hw hturn =>
      have hlt := w.isLt
      intro hset
      rcases h hset with hquits | ⟨hall, -⟩
      · exact Or.inl hquits
      · omega
  | allCreated hturn =>
      intro hset
      rcases h hset with hquits | ⟨hall, -⟩
      · exact Or.inl hquits
      · omega
  | @createFails _ w err hw hturn herr =>
      have hlt := w.isLt
      intro hset
      rcases h hset with ⟨v, hv, hplace⟩ | ⟨hall, -⟩
      · refine Or.inl ⟨v, ?_, hplace⟩
        by_contra hle
        have hnone : q.workers v = .uncreated := by
          rcases Nat.lt_or_eq_of_le (not_lt.mp hle) with hless | heq
          · exact hjoining.later v (hturn ▸ hless)
          · rw [← Fin.ext heq, hw]
        change (q.workers v).quits = true at hplace
        rw [hnone] at hplace
        cases hplace
      · omega
  | @join _ w hcreated hturn hw =>
      intro hset
      rcases h hset with ⟨v, hv, hplace⟩ | hnoted
      · refine Or.inl ⟨v, ?_, hplace⟩
        have hother : v ≠ w := by
          rintro rfl
          rw [hw] at hplace
          cases hplace
        have hne : (v : ℕ) ≠ w := fun heq => hother (Fin.ext heq)
        change (v : ℕ) < w
        omega
      · exact Or.inr hnoted
  | joinAborted hcreated hturn hw => exact fun _ => Or.inr ⟨hcreated, show (1 : ℤ) ≠ 0 by decide⟩
  | enqueue hw | lock hw | load hw | dequeue hw | giveUp hw | wait hw | wake hw | relock hw
  | seeError hw | nextCu hw | noCuDie hw | badCu hw | noMoreCus hw | recode hw | recodeFails hw
  | steal hw | incNextCuId hw | returnOk hw | stopEarly hw | create hw =>
      exact h.of_update hw rfl nofun rfl rfl rfl id

theorem Stopped.of_moves (h : q.Stopped) (hmoves : q.Moves p p' q')
    (hstolen : ∀ k, p'.hasStolen k = p.hasStolen k) (hsteals : q'.steals = q.steals)
    (hnext : q'.nextCuId = q.nextCuId) (hlsk : q'.lskStatus = q.lskStatus)
    (haborted : q'.aborted = q.aborted) : q'.Stopped where
  last hset := by
    have hmoved := hmoves.stolen q.nextCuId
    rw [hstolen] at hmoved
    obtain ⟨hlength, hnone⟩ := h.last (hlsk ▸ hset)
    rw [hsteals, hnext]
    exact ⟨hlength, by omega⟩
  status := by
    rw [hlsk, haborted]
    exact h.status

theorem Stopped.of_workers (h : q.Stopped) (hworkers : q'.workers = q.workers)
    (hsteals : q'.steals = q.steals) (hnext : q'.nextCuId = q.nextCuId)
    (hlsk : q'.lskStatus = q.lskStatus) (haborted : q'.aborted = q.aborted) : q'.Stopped where
  last hset := by
    rw [hsteals, hnext, stolen, hworkers]
    exact h.last (hlsk ▸ hset)
  status := by
    rw [hlsk, haborted]
    exact h.status

theorem Stopped.of_keepit (h : q.Stopped) (hkeepit : q.lskStatus = .keepit)
    (hlsk : q'.lskStatus = q.lskStatus) (haborted : q'.aborted = q.aborted) : q'.Stopped where
  last hset := absurd (hlsk.trans hkeepit) hset
  status := by
    rw [hlsk, haborted]
    exact h.status

/-- While a CU is being stolen the stealer has not asked to stop. -/
theorem Stopped.keepit_of_stealing (h : q.Stopped) (hordered : q.Ordered limit total) {cu : ℕ}
    (hw : q.workers w = .stealing cu) : q.lskStatus = .keepit := by
  by_contra hset
  obtain ⟨hlength, -⟩ := h.last hset
  obtain ⟨-, -, hlength', -⟩ := hordered.stealing_eq hw
  omega

theorem Stopped.keepit_of_stolen (h : q.Stopped) (hordered : q.Ordered limit total) {cu : ℕ}
    (hw : q.workers w = .stolen cu) : q.lskStatus = .keepit := by
  by_contra hset
  obtain ⟨-, hnone⟩ := h.last hset
  obtain ⟨rfl, hone, -⟩ := hordered.stolen_eq hw
  omega

theorem Stopped.stealStops (h : q.Stopped) (hordered : q.Ordered limit total) {cu : ℕ}
    {lsk : LoadSteal} (hw : q.workers w = .stealing cu)
    (hmoves : q.Moves (.stealing cu) .leaving q')
    (hsteals : q'.steals = q.steals ++ [cu]) (hnext : q'.nextCuId = q.nextCuId)
    (hlsk : q'.lskStatus = lsk)
    (haborted : q'.aborted = (q.aborted || decide (lsk = LoadSteal.abort))) : q'.Stopped where
  last _ := by
    obtain ⟨rfl, hone, hlength, -⟩ := hordered.stealing_eq hw
    have honce := hordered.once q.nextCuId
    have hmoved : q'.stolen q.nextCuId = q.stolen q.nextCuId := hmoves.stolen q.nextCuId
    rw [hsteals, hnext, List.length_append, List.length_singleton, hlength]
    exact ⟨rfl, by omega⟩
  status := by
    have hbefore : q.aborted = false := by
      have hkeepit := h.keepit_of_stealing hordered hw
      cases haborted : q.aborted with
      | false => rfl
      | true => cases hkeepit.symm.trans (h.status.mpr haborted)
    rw [hlsk, haborted, hbefore, Bool.false_or, decide_eq_true_iff]

theorem Stopped.step (h : q.Stopped) (hordered : q.Ordered limit total)
    (hstep : QueueStep wrap total kind q q') : q'.Stopped := by
  cases hstep with
  | signalAdded hw hsignals =>
      exact h.of_moves (.of_signals hw hsignals) (fun _ => rfl) rfl rfl rfl rfl
  | signalAbort hw hsignals =>
      exact h.of_moves (.of_signals hw hsignals) (fun _ => rfl) rfl rfl rfl rfl
  | @dequeue _ w abort job jobs hw hfound =>
      refine h.of_moves (.of_update hw rfl) (fun k => ?_) rfl rfl rfl rfl
      cases job <;> rfl
  | seeError hw herror =>
      refine h.of_moves (.of_update hw rfl) (fun k => ?_) rfl rfl rfl rfl
      unfold workerOfError
      split_ifs <;> rfl
  | steal hw => exact h.of_keepit (h.keepit_of_stealing hordered hw) rfl rfl
  | stealStops hw hlsk => exact h.stealStops hordered hw (.of_update hw rfl) rfl rfl rfl rfl
  | incNextCuId hw hfree => exact h.of_keepit (h.keepit_of_stolen hordered hw) rfl rfl
  | noteCreated | allCreated | createFails | join | joinAborted =>
      exact h.of_workers rfl rfl rfl rfl rfl
  | enqueue hw | lock hw | load hw | giveUp hw | wait hw | wake hw | relock hw | nextCu hw
  | noMemory hw | noCuDie hw | badCu hw | noMoreCus hw | recode hw | recodeFails hw | fail hw
  | returnOk hw | stopEarly hw | storeAbort hw | create hw =>
      exact h.of_moves (.of_update hw rfl) (fun _ => rfl) rfl rfl rfl rfl

/-- What holds in every run, whatever fails. -/
structure Accounted (limit total : ℕ) (q : JobQueue n) : Prop where
  ordered : q.Ordered limit total
  fitting : q.Fitting
  joining : q.Joining
  told : q.Told
  stopped : q.Stopped

theorem accounted_start : (start limit : JobQueue n).Accounted limit total where
  ordered := ordered_start
  fitting := fitting_start
  joining := joining_start
  told := nofun
  stopped := ⟨fun hset => absurd rfl hset, iff_of_false nofun nofun⟩

theorem Accounted.step (h : q.Accounted limit total) (hstep : QueueStep id total kind q q') :
    q'.Accounted limit total where
  ordered := h.ordered.step (fun _ _ => rfl) hstep
  fitting := h.fitting.step hstep
  joining := h.joining.step hstep
  told := h.told.step h.fitting h.joining hstep
  stopped := h.stopped.step h.ordered hstep

theorem accounted_of_plain {kinds : StepKind → Prop} (h : PlainReaches n limit total kinds q) :
    q.Accounted limit total := by
  induction h with
  | refl => exact accounted_start
  | tail _ hstep ih =>
      obtain ⟨kind, -, hstep⟩ := hstep
      exact ih.step hstep

/-- When all threads are joined `dwarf_cus__process_cus` returns an error with `LSK__ABORT` in
`lsk_status` exactly where the stealer returned `LSK__ABORT` for a CU. -/
theorem Accounted.aborted_iff (h : q.Accounted limit total) (hjoined : q.toJoin = 0) :
    (q.error ≠ 0 ∧ q.lskStatus = .abort) ↔ q.aborted = true := by
  rw [← h.stopped.status]
  refine ⟨fun hset => hset.2, fun hset => ⟨?_, hset⟩⟩
  rcases h.told hset with ⟨v, hv, -⟩ | ⟨-, hnoted⟩
  · omega
  · exact hnoted

end Joins

/-- The module has been loaded by the threads, and all of them are joined. -/
def Done (limit total : ℕ) (q : JobQueue n) : Prop :=
  QueueReaches n limit total (fun _ => True) q ∧ q.created = n + 1 ∧ q.toJoin = 0

theorem Done.aborted_iff {limit total : ℕ} {q : JobQueue n} (h : q.Done limit total)
    (hsmall : limit < 2 ^ 32) : (q.error ≠ 0 ∧ q.lskStatus = .abort) ↔ q.aborted = true := by
  obtain ⟨hreaches, -, hjoined⟩ := h
  obtain ⟨q', hplain, rfl⟩ := exists_plain (Or.inl hsmall) hreaches
  exact (accounted_of_plain hplain).aborted_iff hjoined

end JobQueue

/-! ## `cus__load_module` -/

/-- `DWARF_CB_ABORT` -/
def dwarfCbAbort : ℤ := 1

/-- What the callees of `__cus__load_debug_types` return, and the stealer for the type CU. -/
structure TypeUnits where
  /-- `cu__new`, `cu__set_common` or `dwarf_cu__new` fails -/
  newFails : Bool
  /-- what `die__process` returns for each unit -/
  errs : List ℤ
  /-- `dwarf_next_unit` fails after these units -/
  broken : Bool
  /-- what `cu__recode_dwarf_types` returns -/
  recode : ℤ
  /-- what `conf->steal` returns, and `LSK__KEEPIT` where there is no stealer -/
  lsk : LoadSteal

/-- A unit in the loop of `cus__merge_and_process_cu`. -/
structure MergedUnit where
  /-- `dwarf_child` finds a child of its DIE -/
  hasChild : Bool
  /-- `conf->early_cu_filter` returns `NULL` -/
  filtered : Bool
  /-- what `die__process_unit` returns -/
  err : ℤ

/-- What the callees of `cus__merge_and_process_cu` return, and the stealer for the merged CU. -/
structure MergedCus where
  units : List MergedUnit
  /-- `dwarf_nextcu` or `dwarf_offdie` fails after these units -/
  broken : Bool
  /-- an allocation or `cu__set_common` fails -/
  newFails : Bool
  /-- the partial units of the alternate file cannot be added or processed -/
  altFails : Bool
  /-- what `cu__recode_dwarf_types` returns -/
  recode : ℤ
  /-- what `cu__resolve_func_ret_types_optimized` returns -/
  resolve : ℤ
  /-- what `cus__steal_now` returns -/
  lsk : LoadSteal

/-- A loop over units that is left at the first error. -/
def processUnits : List ℤ → ℤ
  | [] => 0
  | err :: errs => if err ≠ 0 then dwarfCbAbort else processUnits errs

/-- `__cus__load_debug_types` -/
def loadDebugTypes (t : TypeUnits) : ℤ :=
  match t.errs with
  | [] => 0
  | err :: errs =>
      if t.newFails then dwarfCbAbort
      else if processUnits (err :: errs) ≠ 0 then dwarfCbAbort
      else if t.recode ≠ 0 then dwarfCbAbort
      else 0

/-- What stops the loop of `cus__merge_and_process_cu` at a unit. -/
def MergedUnit.result (unit : MergedUnit) : ℤ :=
  if unit.hasChild then if unit.filtered then 0 else unit.err else 0

/-- `cus__merge_and_process_cu` -/
def mergeAndProcessCu (m : MergedCus) : ℤ :=
  match m.units with
  | [] => 0
  | unit :: units =>
      if m.newFails then dwarfCbAbort
      else if m.altFails then dwarfCbAbort
      else if processUnits ((unit :: units).map MergedUnit.result) ≠ 0 then dwarfCbAbort
      else if m.recode ≠ 0 then dwarfCbAbort
      else if m.resolve ≠ 0 then dwarfCbAbort
      else if m.lsk = .abort then dwarfCbAbort
      else 0

/-- The two ways of loading the CUs of a module. -/
inductive ModuleCus (n : ℕ) where
  /-- `cus__merge_and_process_cu` -/
  | merged (m : MergedCus)
  /-- `dwarf_cus__process_cus`, when the threads are joined -/
  | threads (q : JobQueue n)

section Modules

variable {n : ℕ}

/-- `res` and `lsk_worker_status` of `cus__load_module` after the CUs. -/
def ModuleCus.results : ModuleCus n → ℤ × LoadSteal
  | .merged m => (mergeAndProcessCu m, .abort)
  | .threads q => (q.error, q.lskStatus)

/-- `cus__load_module` -/
def cusLoadModule (t : TypeUnits) (cus : ModuleCus n) : ℤ :=
  if loadDebugTypes t ≠ 0 then loadDebugTypes t
  else
    let (res, lskWorkerStatus) := cus.results
    if res ≠ 0 ∧ lskWorkerStatus = .abort then res else 0

/-- A type unit cannot be decoded. -/
def TypeUnits.Fails (t : TypeUnits) : Prop :=
  t.errs ≠ [] ∧ (t.newFails = true ∨ (∃ err ∈ t.errs, err ≠ 0) ∨ t.recode ≠ 0)

/-- The stealer returns `LSK__ABORT` for the type CU. -/
def TypeUnits.Aborts (t : TypeUnits) : Prop := t.errs ≠ [] ∧ t.lsk = .abort

/-- The merged CU cannot be decoded. -/
def MergedCus.Fails (m : MergedCus) : Prop :=
  m.units ≠ [] ∧ (m.newFails = true ∨ m.altFails = true ∨ (∃ unit ∈ m.units, unit.result ≠ 0) ∨
    m.recode ≠ 0 ∨ m.resolve ≠ 0)

/-- The stealer returns `LSK__ABORT` for the merged CU. -/
def MergedCus.Aborts (m : MergedCus) : Prop := m.units ≠ [] ∧ m.lsk = .abort

/-- A CU cannot be decoded. -/
def ModuleCus.Fails : ModuleCus n → Prop
  | .merged m => m.Fails ∨ m.broken = true
  | .threads q => q.failed = true

/-- The stealer returns `LSK__ABORT` for a CU. -/
def ModuleCus.Aborts : ModuleCus n → Prop
  | .merged m => m.Aborts
  | .threads q => q.aborted = true

/-- The failures and aborts that are passed on: those of the merged CU, and the stealer's aborts
in the threads. -/
def ModuleCus.PassedOn : ModuleCus n → Prop
  | .merged m => m.Fails ∨ m.Aborts
  | .threads q => q.aborted = true

/-- The failures that are lost: a broken header after the units that are merged, and every one
in the threads. -/
def ModuleCus.Lost : ModuleCus n → Prop
  | .merged m => m.broken = true
  | .threads q => q.failed = true

/-- The threads, if there are any, have loaded a file of `total` CUs and are joined. -/
def ModuleCus.Loaded (limit total : ℕ) : ModuleCus n → Prop
  | .merged _ => True
  | .threads q => q.Done limit total

/-- What is asked of `cus__load_module`: no failure and no abort is swallowed. -/
def NotSwallowed (t : TypeUnits) (cus : ModuleCus n) : Prop :=
  t.Fails ∨ t.broken = true ∨ t.Aborts ∨ cus.Fails ∨ cus.Aborts → cusLoadModule t cus ≠ 0

theorem processUnits_ne_zero {errs : List ℤ} : processUnits errs ≠ 0 ↔ ∃ err ∈ errs, err ≠ 0 := by
  induction errs with
  | nil => simp [processUnits]
  | cons err errs ih =>
      rw [processUnits, List.exists_mem_cons_iff, ← ih]
      by_cases herr : err = 0
      · simp [herr]
      · simp [herr, dwarfCbAbort]

theorem loadDebugTypes_ne_zero (t : TypeUnits) : loadDebugTypes t ≠ 0 ↔ t.Fails := by
  unfold loadDebugTypes TypeUnits.Fails
  cases herrs : t.errs with
  | nil => simp
  | cons err errs =>
      rw [← processUnits_ne_zero]
      split_ifs <;> simp_all [dwarfCbAbort]

theorem mergeAndProcessCu_ne_zero (m : MergedCus) :
    mergeAndProcessCu m ≠ 0 ↔ m.Fails ∨ m.Aborts := by
  have hunits : (∃ unit ∈ m.units, unit.result ≠ 0) ↔
      processUnits (m.units.map MergedUnit.result) ≠ 0 := by
    rw [processUnits_ne_zero]
    simp
  unfold mergeAndProcessCu MergedCus.Fails MergedCus.Aborts
  rw [hunits]
  cases hcus : m.units with
  | nil => simp
  | cons unit units =>
      split_ifs <;> simp_all [dwarfCbAbort]

/-- After the type units `cus__load_module` returns an error where one is passed on. -/
theorem ModuleCus.results_iff {limit total : ℕ} {cus : ModuleCus n} (h : cus.Loaded limit total)
    (hsmall : limit < 2 ^ 32) : (cus.results.1 ≠ 0 ∧ cus.results.2 = .abort) ↔ cus.PassedOn := by
  cases cus with
  | merged m => exact (and_iff_left rfl).trans (mergeAndProcessCu_ne_zero m)
  | threads q => exact JobQueue.Done.aborted_iff h hsmall

theorem cusLoadModule_ne_zero {limit total : ℕ} (t : TypeUnits) {cus : ModuleCus n}
    (h : cus.Loaded limit total) (hsmall : limit < 2 ^ 32) :
    cusLoadModule t cus ≠ 0 ↔ t.Fails ∨ cus.PassedOn := by
  rw [← loadDebugTypes_ne_zero, ← cus.results_iff h hsmall]
  unfold cusLoadModule
  by_cases htypes : loadDebugTypes t = 0
  · rw [if_neg (not_not.mpr htypes)]
    by_cases hres : cus.results.1 ≠ 0 ∧ cus.results.2 = .abort
    · simp only [if_pos hres, iff_true_right (Or.inr hres)]
      exact hres.1
    · simp [htypes, hres]
  · rw [if_pos htypes]
    exact iff_of_true htypes (Or.inl htypes)

/-- The errors of a module are reported exactly where a failure or an abort is passed on, or
none is lost. -/
theorem notSwallowed_iff (nrJobs total : ℕ) (hjobs : nrJobs < 2 ^ 31) (t : TypeUnits)
    (cus : ModuleCus (nrWorkers nrJobs)) (h : cus.Loaded (decodedCusLimit nrJobs) total) :
    NotSwallowed t cus ↔
      t.Fails ∨ cus.PassedOn ∨ (t.broken = false ∧ ¬t.Aborts ∧ ¬cus.Lost) := by
  have hsmall : decodedCusLimit nrJobs < 2 ^ 32 := by
    unfold decodedCusLimit
    split <;> omega
  have hevents : cus.Fails ∨ cus.Aborts ↔ cus.PassedOn ∨ cus.Lost := by
    cases cus with
    | merged m => exact or_right_comm
    | threads q => exact or_comm
  rw [NotSwallowed, cusLoadModule_ne_zero t h hsmall, hevents, ← Bool.not_eq_true]
  tauto

/-- The only thread cannot decode the only CU, and `dwarf_cus__process_cus` returns 1. -/
theorem reaches_failed : ∃ q : JobQueue 1, q.Done 2 1 ∧ q.failed = true ∧ q.aborted = false := by
  have hstart : QueueReaches 1 2 1 (fun _ => True) (JobQueue.start 2) := .refl
  have hcreated := hstart.tail ⟨.move, trivial, .create (w := 0) rfl rfl⟩
  have hnoted := hcreated.tail ⟨.move, trivial, .noteCreated (w := 0) nofun rfl⟩
  have hall := hnoted.tail ⟨.move, trivial, .allCreated rfl⟩
  have hlocked := hall.tail ⟨.move, trivial, .lock (w := 0) rfl rfl⟩
  have hloaded := hlocked.tail ⟨.move, trivial, .load (w := 0) rfl⟩
  have hdecode := hloaded.tail ⟨.work, trivial, .dequeue (w := 0) rfl rfl⟩
  have hcu := hdecode.tail ⟨.work, trivial, .nextCu (w := 0) rfl rfl (by decide)⟩
  have hfails := hcu.tail
    ⟨.failure, trivial, .recodeFails (w := 0) rfl (show (-22 : ℤ) ≠ 0 by decide)⟩
  have hfailed := hfails.tail ⟨.failure, trivial, .fail (w := 0) rfl⟩
  have hstops := hfailed.tail ⟨.failure, trivial, .stopEarly (w := 0) rfl (by decide)⟩
  have hstored := hstops.tail ⟨.failure, trivial, .storeAbort (w := 0) rfl⟩
  have hquit := hstored.tail ⟨.failure, trivial, .signalAbort (w := 0) rfl (.unheard (by decide))⟩
  have hjoined := hquit.tail ⟨.failure, trivial, .joinAborted (w := 0) rfl rfl rfl⟩
  exact ⟨_, ⟨hjoined, rfl, rfl⟩, rfl, rfl⟩

/-- The stealer wants no more of the first of two threads, and the other one finds no more CU. -/
theorem reaches_aborted : ∃ q : JobQueue 2, q.Done 4 1 ∧ q.aborted = true := by
  have hstart : QueueReaches 2 4 1 (fun _ => True) (JobQueue.start 4) := .refl
  have hcreated := hstart.tail ⟨.move, trivial, .create (w := 0) rfl rfl⟩
  have hnoted := hcreated.tail ⟨.move, trivial, .noteCreated (w := 0) nofun rfl⟩
  have hboth := hnoted.tail ⟨.move, trivial, .create (w := 1) rfl rfl⟩
  have hnoted' := hboth.tail ⟨.move, trivial, .noteCreated (w := 1) nofun rfl⟩
  have hall := hnoted'.tail ⟨.move, trivial, .allCreated rfl⟩
  have hlocked := hall.tail ⟨.move, trivial, .lock (w := 0) rfl rfl⟩
  have hloaded := hlocked.tail ⟨.move, trivial, .load (w := 0) rfl⟩
  have hdecode := hloaded.tail ⟨.work, trivial, .dequeue (w := 0) rfl rfl⟩
  have hcu := hdecode.tail ⟨.work, trivial, .nextCu (w := 0) rfl rfl (by decide)⟩
  have hdecoded := hcu.tail ⟨.move, trivial, .recode (w := 0) rfl⟩
  have hqueued := hdecoded.tail ⟨.work, trivial, .enqueue (w := 0) rfl rfl⟩
  have hadded := hqueued.tail ⟨.work, trivial, .signalAdded (w := 0) rfl (.unheard (by decide))⟩
  have hagain := hadded.tail ⟨.move, trivial, .load (w := 0) rfl⟩
  have hjob := hagain.tail ⟨.work, trivial, .dequeue (w := 0) rfl rfl⟩
  have hstops := hjob.tail
    ⟨.failure, trivial, .stealStops (w := 0) rfl (Or.inl rfl)⟩
  have hstored := hstops.tail ⟨.failure, trivial, .storeAbort (w := 0) rfl⟩
  have hquit := hstored.tail ⟨.failure, trivial, .signalAbort (w := 0) rfl (.unheard (by decide))⟩
  have hlocked' := hquit.tail ⟨.move, trivial, .lock (w := 1) rfl rfl⟩
  have hloaded' := hlocked'.tail ⟨.move, trivial, .load (w := 1) rfl⟩
  have hdecode' := hloaded'.tail ⟨.work, trivial, .dequeue (w := 1) rfl rfl⟩
  have hnone := hdecode'.tail ⟨.work, trivial, .noMoreCus (w := 1) rfl rfl rfl⟩
  have hreturned := hnone.tail ⟨.move, trivial, .returnOk (w := 1) rfl rfl⟩
  have hjoined' := hreturned.tail ⟨.move, trivial, .join (w := 1) rfl rfl rfl⟩
  have hjoined := hjoined'.tail ⟨.failure, trivial, .joinAborted (w := 0) rfl rfl rfl⟩
  exact ⟨_, ⟨hjoined, rfl, rfl⟩, rfl⟩

/-- A module with a type unit. -/
def oneTypeUnit : TypeUnits := ⟨false, [0], false, 0, .delete⟩

theorem notSwallowed_iff_aborted : ∃ q : JobQueue (nrWorkers 2), q.aborted = true ∧
    (NotSwallowed oneTypeUnit (.threads q) ↔
      oneTypeUnit.Fails ∨ (ModuleCus.threads q).PassedOn ∨
        (oneTypeUnit.broken = false ∧ ¬oneTypeUnit.Aborts ∧ ¬(ModuleCus.threads q).Lost)) := by
  obtain ⟨q, hdone, haborted⟩ := reaches_aborted
  exact ⟨q, haborted, notSwallowed_iff 2 1 (by decide) oneTypeUnit (.threads q) hdone⟩

theorem swallowed_by_threads : ¬∀ (nrJobs total : ℕ) (t : TypeUnits)
    (cus : ModuleCus (nrWorkers nrJobs)),
    cus.Loaded (decodedCusLimit nrJobs) total → NotSwallowed t cus := by
  obtain ⟨q, hdone, hfailed, haborted⟩ := reaches_failed
  intro hclaim
  have hmoved := hclaim 1 1 oneTypeUnit (.threads q) hdone
    (Or.inr (Or.inr (Or.inr (Or.inl hfailed))))
  have hnone := (hdone.aborted_iff (by decide)).not.mpr (by simp [haborted])
  exact hmoved (if_neg hnone)

end Modules

end Pahole

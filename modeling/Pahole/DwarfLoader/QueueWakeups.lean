import Pahole.DwarfLoader.QueueOrder

/-!
# Wakeups that are lost

A worker that leaves its loop early stores `abort` and signals without the mutex.  Another one
may have loaded `abort` before that and go to sleep after it: the signal is lost, and where no
other worker is left the sleeping ones are never woken.  The workers are also left asleep where
`dwarf_cus__process_cus` puts the result of `pthread_create` in the place of an error.  Without
these two no run is stuck.
-/

namespace Pahole

open Workers

namespace Worker

/-- The worker is going to store `abort`, or to signal that it has. -/
def leaves : Worker → ℕ
  | .leaving | .signalling => 1
  | _ => 0

/-- The worker has the mutex and has loaded `abort` as not set. -/
def isDrowsy : Worker → ℕ
  | .loaded false => 1
  | _ => 0

/-- The worker has failed and has not returned. -/
def warns : Worker → Bool
  | .failing _ | .leaving | .signalling | .crashed => true
  | _ => false

/-- What is known of `abort` and of errors where a worker is. -/
def Fits (abort : Bool) : Worker → Prop
  | .failing err => err ≠ 0
  | .loaded true | .signalling | .returned false => abort = true
  | _ => True

theorem Fits.mono {p : Worker} {abort abort' : Bool} (h : p.Fits abort)
    (habort : abort = true → abort' = true) : p.Fits abort' := by
  cases p with
  | loaded seen =>
      cases seen with
      | true => exact habort h
      | false => trivial
  | returned ok =>
      cases ok with
      | true => trivial
      | false => exact habort h
  | signalling => exact habort h
  | failing err => exact h
  | _ => trivial

theorem isDrowsy_le (p : Worker) : p.isDrowsy ≤ p.isInside ∧ p.isDrowsy ≤ p.isAwake := by
  cases p with
  | loaded seen =>
      cases seen with
      | true => exact ⟨Nat.zero_le _, Nat.zero_le _⟩
      | false => exact ⟨le_rfl, le_rfl⟩
  | _ => exact ⟨Nat.zero_le _, Nat.zero_le _⟩

end Worker

namespace JobQueue

variable {n : ℕ}

/-- A worker sleeps, and no thread is left that could wake it: all the others that were created
sleep or have returned, and no more are created. -/
def Stuck (q : JobQueue n) : Prop :=
  (∃ w, q.workers w = .asleep) ∧
    ∀ w, q.workers w = .asleep ∨ (∃ ok, q.workers w = .returned ok) ∨
      (q.workers w = .uncreated ∧ q.created = n + 1)

/-- The signal of a step for an abort is not lost: a worker sleeps, or none is between its load
of `abort` and its wait.  And an error that the step overwrites with 0 is no longer needed. -/
structure Heeds (q q' : JobQueue n) : Prop where
  signal : ∀ w, q.workers w = .signalling → q'.workers w = .returned false →
    (∃ v, q.workers v = .asleep) ∨
      ∀ v, q.workers v = .loaded false → tryDequeue q.nextCuId q.jobs ≠ none
  noted : q.error ≠ 0 → q'.error = 0 → q.abort = true ∨ ∃ v, (q.workers v).warns = true

/-- Something has failed, and someone knows of it. -/
def Alarmed (q : JobQueue n) : Prop :=
  q.abort = true ∨ (∃ w, (q.workers w).warns = true) ∨
    (q.error ≠ 0 ∧ ∃ w, q.workers w = .stopping)

/-- How many jobs a worker could take. -/
def wanted (q : JobQueue n) : ℕ := q.jobs.count .decode + q.queued q.nextCuId

def leavers (q : JobQueue n) : ℕ := tally Worker.leaves q.workers

/-- How many workers are going to sleep after `abort` was stored. -/
def doomed (q : JobQueue n) : ℕ :=
  if q.abort = true ∧ tryDequeue q.nextCuId q.jobs = none then tally Worker.isDrowsy q.workers
  else 0

/-- The places of the workers agree with `abort`, and the errors on their way are none. -/
def Fitting (q : JobQueue n) : Prop := ∀ w, (q.workers w).Fits q.abort

/-- A sleeping worker is woken when a job is there that it could take, and after an abort. -/
structure Alert (q : JobQueue n) : Prop where
  inside : tally Worker.isInside q.workers = q.locked.toNat
  calm : q.abort = false → 0 < q.asleep → q.wanted ≤ q.awake
  warned : q.abort = true → 0 < q.asleep + q.doomed →
    q.wanted + q.doomed + 1 ≤ q.awake + q.leavers

section Waking

variable {q q' : JobQueue n} {w v : Fin n} {p p' : Worker} {ws : Fin n → Worker} {job : Job}
  {wrap : ℕ → ℕ} {limit total : ℕ} {kind : StepKind}

theorem alert_start : (start limit : JobQueue n).Alert where
  inside := by simp [start, tally_const, Worker.isInside]
  calm _ hpos := by simp [asleep, start, tally_const, Worker.isAsleep] at hpos
  warned habort := by cases habort

theorem fitting_start : (start limit : JobQueue n).Fitting := fun _ => trivial

theorem Fitting.place (h : q.Fitting) (hw : q.workers w = p) : p.Fits q.abort :=
  hw ▸ h w

theorem Fitting.of_update (h : q.Fitting) (hq' : q'.workers = Function.update q.workers w p')
    (hp' : p'.Fits q'.abort) (habort : q.abort = true → q'.abort = true) : q'.Fitting := by
  intro v
  rw [hq', Function.update_apply]
  split
  · exact hp'
  · exact (h v).mono habort

theorem Fitting.of_signals (h : q.Fitting)
    (hsignals : Signals (Function.update q.workers w p') ws) (hp' : p'.Fits q.abort) :
    JobQueue.Fitting { q with workers := ws } := by
  have hmoved : (q.goTo w p').Fitting := h.of_update rfl hp' id
  cases hsignals with
  | wakes v hv => exact hmoved.of_update rfl trivial id
  | unheard _ => exact hmoved

theorem fits_worker (job : Job) (abort : Bool) : job.worker.Fits abort := by
  cases job with
  | decode => trivial
  | steal cu => trivial

theorem fits_workerOfError (err : ℤ) (abort : Bool) : (workerOfError err).Fits abort := by
  unfold workerOfError
  split_ifs with hneg
  · exact hneg.ne
  · trivial
  · trivial

theorem Fitting.step (h : q.Fitting) (hstep : QueueStep wrap total kind q q') : q'.Fitting := by
  cases hstep with
  | enqueue hw hfree => exact h.of_update rfl trivial id
  | signalAdded hw hsignals => exact h.of_signals hsignals trivial
  | lock hw hfree => exact h.of_update rfl trivial id
  | load hw =>
      refine h.of_update rfl ?_ id
      cases hset : q.abort with
      | true => exact hset
      | false => trivial
  | dequeue hw hfound => exact h.of_update rfl (fits_worker _ _) id
  | giveUp hw hnone => exact h.of_update rfl trivial id
  | wait hw hnone => exact h.of_update rfl trivial id
  | wake hw => exact h.of_update rfl trivial id
  | relock hw hfree => exact h.of_update rfl trivial id
  | seeError hw herror => exact h.of_update rfl (fits_workerOfError _ _) id
  | nextCu hw herror hlt => exact h.of_update rfl trivial id
  | noMemory hw herror hlt => exact h.of_update rfl (show (-1 : ℤ) ≠ 0 by decide) id
  | noCuDie hw herror hlt => exact h.of_update rfl trivial id
  | badCu hw herror => exact h.of_update rfl (show (-1 : ℤ) ≠ 0 by decide) id
  | noMoreCus hw herror hread => exact h.of_update rfl trivial id
  | recode hw => exact h.of_update rfl trivial id
  | recodeFails hw herr => exact h.of_update rfl herr id
  | fail hw => exact h.of_update rfl trivial id
  | steal hw => exact h.of_update rfl trivial id
  | stealStops hw hlsk => exact h.of_update rfl trivial id
  | incNextCuId hw hfree => exact h.of_update rfl trivial id
  | returnOk hw herror => exact h.of_update rfl trivial id
  | stopEarly hw herror => exact h.of_update rfl trivial id
  | storeAbort hw => exact h.of_update rfl rfl fun _ => rfl
  | signalAbort hw hsignals => exact h.of_signals hsignals (show q.abort = true from h.place hw)
  | create hw hturn => exact h.of_update rfl trivial id
  | noteCreated hw hturn => exact h
  | allCreated hturn => exact h
  | createFails hw hturn herr => exact h
  | join hcreated hturn hw => exact h
  | joinAborted hcreated hturn hw => exact h

theorem drowsy_le (q : JobQueue n) :
    tally Worker.isDrowsy q.workers ≤ tally Worker.isInside q.workers ∧
      tally Worker.isDrowsy q.workers ≤ q.awake := by
  unfold awake tally
  exact ⟨Finset.sum_le_sum fun w _ => (Worker.isDrowsy_le (q.workers w)).1,
    Finset.sum_le_sum fun w _ => (Worker.isDrowsy_le (q.workers w)).2⟩

theorem doomed_le (q : JobQueue n) : q.doomed ≤ tally Worker.isDrowsy q.workers := by
  unfold doomed
  split_ifs
  · exact le_rfl
  · exact Nat.zero_le _

theorem doomed_eq_zero (h : tally Worker.isDrowsy q.workers = 0) : q.doomed = 0 :=
  Nat.le_zero.mp (q.doomed_le.trans h.le)

/-- Where a worker is going to sleep there is no job that it could take. -/
theorem wanted_of_doomed (h : 0 < q.doomed) : q.wanted = 0 := by
  unfold doomed at h
  split_ifs at h with hnone
  · obtain ⟨hdecode, hsteal⟩ := count_of_none hnone.2
    rw [wanted, queued]
    omega
  · omega

theorem wanted_of_none (h : tryDequeue q.nextCuId q.jobs = none) : q.wanted = 0 := by
  obtain ⟨hdecode, hsteal⟩ := count_of_none h
  rw [wanted, queued]
  omega

theorem leavers_of_update (hw : q.workers w = p)
    (hq' : q'.workers = Function.update q.workers w p') :
    q'.leavers + p.leaves = q.leavers + p'.leaves := by
  have hleaves := tally_update Worker.leaves q.workers w p'
  rwa [hw, ← hq'] at hleaves

theorem inside_of_update (h : q.Alert) (hw : q.workers w = p)
    (hq' : q'.workers = Function.update q.workers w p')
    (hinside : p'.isInside + q.locked.toNat = p.isInside + q'.locked.toNat) :
    tally Worker.isInside q'.workers = q'.locked.toNat := by
  have hmoved := tally_update Worker.isInside q.workers w p'
  rw [hw, ← hq'] at hmoved
  have := h.inside
  omega

/-- A move of one worker that puts none to sleep keeps `Alert` where for every job that is added
there is a worker more. -/
theorem Alert.of_update (h : q.Alert) (hw : q.workers w = p)
    (hq' : q'.workers = Function.update q.workers w p') (habort : q'.abort = q.abort)
    (hinside : p'.isInside + q.locked.toNat = p.isInside + q'.locked.toNat)
    (hasleep : p'.isAsleep ≤ p.isAsleep) (hdoomed : q'.doomed ≤ q.doomed)
    (hcalm : q.abort = false → q'.wanted + p.isAwake ≤ q.wanted + p'.isAwake)
    (hwarned : q'.wanted + p.isAwake + p.leaves ≤ q.wanted + p'.isAwake + p'.leaves) :
    q'.Alert where
  inside := inside_of_update h hw hq' hinside
  calm hnone hpos := by
    obtain ⟨hup, hdown⟩ := awake_of_update hw hq'
    have hbefore := h.calm (habort ▸ hnone) (by omega)
    have := hcalm (habort ▸ hnone)
    omega
  warned hset hpos := by
    obtain ⟨hup, hdown⟩ := awake_of_update hw hq'
    have hleaves := leavers_of_update hw hq'
    have hbefore := h.warned (habort ▸ hset) (by omega)
    omega

theorem wanted_eq (hjobs : q'.jobs = q.jobs) (hnext : q'.nextCuId = q.nextCuId) :
    q'.wanted = q.wanted := by
  rw [wanted, wanted, queued, queued, hjobs, hnext]

/-- A move of one worker that leaves the jobs as they are. -/
theorem Alert.keep (h : q.Alert) (hw : q.workers w = p)
    (hq' : q'.workers = Function.update q.workers w p') (habort : q'.abort = q.abort)
    (hjobs : q'.jobs = q.jobs) (hnext : q'.nextCuId = q.nextCuId)
    (hinside : p'.isInside + q.locked.toNat = p.isInside + q'.locked.toNat)
    (hasleep : p'.isAsleep ≤ p.isAsleep) (hdrowsy : q.abort = true → p'.isDrowsy ≤ p.isDrowsy)
    (hcalm : q.abort = false → p.isAwake ≤ p'.isAwake)
    (hwarned : p.isAwake + p.leaves ≤ p'.isAwake + p'.leaves) : q'.Alert := by
  have hwanted := wanted_eq hjobs hnext
  refine h.of_update hw hq' habort hinside hasleep ?_ (fun hnone => ?_) ?_
  · have hmoved := tally_update Worker.isDrowsy q.workers w p'
    rw [hw, ← hq'] at hmoved
    unfold doomed
    rw [habort, hjobs, hnext]
    split_ifs with hset
    · have := hdrowsy hset.1
      omega
    · exact le_rfl
  · have := hcalm hnone
    omega
  · omega

/-- A step that moves no worker and changes no job. -/
theorem Alert.of_workers (h : q.Alert) (hworkers : q'.workers = q.workers)
    (habort : q'.abort = q.abort) (hlocked : q'.locked = q.locked) (hjobs : q'.jobs = q.jobs)
    (hnext : q'.nextCuId = q.nextCuId) : q'.Alert := by
  obtain ⟨hinside, hcalm, hwarned⟩ := h
  refine ⟨?_, ?_, ?_⟩
  · rwa [hworkers, hlocked]
  · rwa [asleep, awake, wanted_eq hjobs hnext, hworkers, habort]
  · rwa [asleep, awake, leavers, doomed, wanted_eq hjobs hnext, hworkers, habort, hjobs, hnext]

/-- Where the mutex is free no worker is drowsy. -/
theorem Alert.drowsy_eq (h : q.Alert) (hfree : q.locked = false) :
    tally Worker.isDrowsy q.workers = 0 := by
  have hle := q.drowsy_le.1
  rw [h.inside, hfree] at hle
  exact Nat.le_zero.mp hle

theorem drowsy_of_update (hw : q.workers w = p)
    (hq' : q'.workers = Function.update q.workers w p') :
    tally Worker.isDrowsy q'.workers + p.isDrowsy =
      tally Worker.isDrowsy q.workers + p'.isDrowsy := by
  have hmoved := tally_update Worker.isDrowsy q.workers w p'
  rwa [hw, ← hq'] at hmoved

theorem Alert.locked (h : q.Alert) (hw : q.workers w = p) (hp : p.isInside = 1) :
    q.locked = true := by
  have hle := le_tally Worker.isInside q.workers w
  rw [hw, hp, h.inside] at hle
  cases hlocked : q.locked with
  | true => rfl
  | false =>
      rw [hlocked] at hle
      cases hle

/-- The worker that has the mutex is the only one that can be drowsy. -/
theorem Alert.drowsy_le_of_inside (h : q.Alert) (hw : q.workers w = p) (hp : p.isInside = 1) :
    tally Worker.isDrowsy q.workers ≤ p.isDrowsy := by
  have hinside := tally_update Worker.isInside q.workers w .uncreated
  have hdrowsy := tally_update Worker.isDrowsy q.workers w .uncreated
  have hle := (drowsy_le (q.goTo w .uncreated)).1
  change tally Worker.isDrowsy (Function.update q.workers w .uncreated) ≤
    tally Worker.isInside (Function.update q.workers w .uncreated) at hle
  rw [hw] at hinside hdrowsy
  rw [hp, h.inside, h.locked hw hp] at hinside
  change _ + 1 = 1 + 0 at hinside
  change _ + p.isDrowsy = _ + 0 at hdrowsy
  omega

theorem Alert.addJob (h : q.Alert) (hw : q.workers w = .ready (some job)) (hfree : q.locked = false)
    (hq' : q'.workers = Function.update q.workers w .adding) (habort : q'.abort = q.abort)
    (hlocked : q'.locked = true) (hjobs : q'.jobs = addJob job q.jobs)
    (hnext : q'.nextCuId = q.nextCuId) : q'.Alert := by
  have hdrowsy := drowsy_of_update hw hq'
  rw [h.drowsy_eq hfree] at hdrowsy
  have hwanted : q'.wanted ≤ q.wanted + 1 := by
    have hdecode := count_addJob job q.jobs .decode
    have hsteal := count_addJob job q.jobs (.steal q.nextCuId)
    rw [wanted, wanted, queued, queued, hjobs, hnext]
    cases job with
    | decode =>
        rw [if_pos rfl] at hdecode
        rw [if_neg (Job.decode_ne_steal _)] at hsteal
        omega
    | steal cu =>
        rw [if_neg (Job.steal_ne_decode cu)] at hdecode
        split at hsteal <;> omega
  refine h.of_update hw hq' habort (by rw [hfree, hlocked]; rfl) le_rfl ?_ (fun _ => ?_) ?_
  · rw [doomed_eq_zero hdrowsy]
    exact Nat.zero_le _
  · change q'.wanted + 1 ≤ q.wanted + 2
    omega
  · change q'.wanted + 1 + 0 ≤ q.wanted + 2 + 0
    omega

theorem Alert.dequeue (h : q.Alert) {abort : Bool} (hw : q.workers w = .loaded abort)
    (hq' : q'.workers = Function.update q.workers w job.worker) (habort : q'.abort = q.abort)
    (hlocked : q'.locked = false)
    (hfound : tryDequeue q.nextCuId q.jobs = some (job, q'.jobs))
    (hnext : q'.nextCuId = q.nextCuId) : q'.Alert := by
  have hplace : job.worker.isInside = 0 ∧ job.worker.isAsleep = 0 ∧
      job.worker.isDrowsy = 0 ∧ job.worker.isAwake = 0 ∧ job.worker.leaves = 0 := by
    cases job with
    | decode => exact ⟨rfl, rfl, rfl, rfl, rfl⟩
    | steal cu => exact ⟨rfl, rfl, rfl, rfl, rfl⟩
  obtain ⟨hinside, hasleep, hdrowsy, hawake, hleaves⟩ := hplace
  have honly := h.drowsy_le_of_inside hw rfl
  have hmoved := drowsy_of_update hw hq'
  have hwanted : q'.wanted + 1 = q.wanted := by
    have hdecode := count_of_tryDequeue hfound .decode
    have hsteal := count_of_tryDequeue hfound (.steal q.nextCuId)
    rw [wanted, wanted, queued, queued, hnext]
    cases job with
    | decode =>
        rw [if_pos rfl] at hdecode
        rw [if_neg (Job.decode_ne_steal _)] at hsteal
        omega
    | steal cu =>
        have hturn : cu = q.nextCuId := of_decide_eq_true (viable_of_tryDequeue hfound)
        rw [if_neg (Job.steal_ne_decode cu)] at hdecode
        rw [if_pos (by rw [hturn])] at hsteal
        omega
  refine h.of_update hw hq' habort ?_ ?_ ?_ (fun _ => ?_) ?_
  · rw [hinside, h.locked hw rfl, hlocked]
    rfl
  · rw [hasleep]
    exact Nat.zero_le _
  · rw [doomed_eq_zero (by omega)]
    exact Nat.zero_le _
  · rw [hawake]
    change q'.wanted + 1 ≤ q.wanted + 0
    omega
  · rw [hawake, hleaves]
    change q'.wanted + 1 + 0 ≤ q.wanted + 0 + 0
    omega

/-- When its turn comes a CU may be in a job already, which its predecessor's worker sees. -/
theorem Alert.incNextCuId (h : q.Alert) (hordered : q.Ordered limit total) {cu : ℕ}
    (hw : q.workers w = .stolen cu) (hfree : q.locked = false)
    (hq' : q'.workers = Function.update q.workers w (.ready (some .decode)))
    (habort : q'.abort = q.abort) (hlocked : q'.locked = q.locked) (hjobs : q'.jobs = q.jobs)
    (hnext : q'.nextCuId = q.nextCuId + 1) : q'.Alert := by
  have hdrowsy := drowsy_of_update hw hq'
  rw [h.drowsy_eq hfree] at hdrowsy
  have honce := hordered.once (q.nextCuId + 1)
  have hwanted : q'.wanted ≤ q.wanted + 1 := by
    rw [wanted, wanted, hnext, queued, queued, hjobs, ← queued, ← queued]
    omega
  refine h.of_update hw hq' habort (by rw [hlocked]; rfl) le_rfl ?_ (fun _ => ?_) ?_
  · rw [doomed_eq_zero hdrowsy]
    exact Nat.zero_le _
  · change q'.wanted + 0 ≤ q.wanted + 1
    omega
  · change q'.wanted + 0 + 0 ≤ q.wanted + 1 + 0
    omega

theorem Alert.wait (h : q.Alert) (hw : q.workers w = .loaded false)
    (hnone : tryDequeue q.nextCuId q.jobs = none)
    (hq' : q'.workers = Function.update q.workers w .asleep) (habort : q'.abort = q.abort)
    (hlocked : q'.locked = false) (hjobs : q'.jobs = q.jobs)
    (hnext : q'.nextCuId = q.nextCuId) : q'.Alert := by
  have hwanted := (wanted_eq hjobs hnext).trans (wanted_of_none hnone)
  have honly := h.drowsy_le_of_inside hw rfl
  have hmoved := drowsy_of_update hw hq'
  change _ + 1 = _ + 0 at hmoved
  change _ ≤ 1 at honly
  refine ⟨inside_of_update h hw hq' (by rw [h.locked hw rfl, hlocked]; rfl), fun _ _ => ?_,
    fun hset _ => ?_⟩
  · rw [hwanted]
    exact Nat.zero_le _
  · have hdoomed : q.doomed = 1 := by
      unfold doomed
      rw [if_pos ⟨habort ▸ hset, hnone⟩]
      omega
    obtain ⟨hup, hdown⟩ := awake_of_update hw hq'
    have hleaves := leavers_of_update hw hq'
    change _ + 1 = _ + 0 at hup
    change _ + 0 = _ + 0 at hleaves
    have hbefore := h.warned (habort ▸ hset) (by omega)
    rw [doomed_eq_zero (by omega)]
    omega

/-- A signal wakes a worker unless none is asleep. -/
theorem awake_of_signals (hw : q.workers w = p)
    (hsignals : Signals (Function.update q.workers w p') q'.workers)
    (hp : p'.isAsleep = p.isAsleep) :
    q.asleep = 0 ∧ q'.asleep = 0 ∧ q'.awake + p.isAwake = q.awake + p'.isAwake ∨
      q'.asleep ≤ q.asleep ∧ q'.awake + p.isAwake = q.awake + p'.isAwake + 1 := by
  have hawake : tally Worker.isAwake (Function.update q.workers w p') + p.isAwake =
      q.awake + p'.isAwake := by
    rw [← hw]
    exact tally_update Worker.isAwake q.workers w p'
  have hasleep : tally Worker.isAsleep (Function.update q.workers w p') = q.asleep :=
    tally_update_of_eq (by rw [hw, hp])
  have hwakes := tally_awake hsignals
  rw [hasleep, ← asleep, ← awake] at hwakes
  omega

theorem Alert.signalAdded (h : q.Alert) (hw : q.workers w = .adding)
    (hsignals : Signals (Function.update q.workers w .looking) q'.workers)
    (habort : q'.abort = q.abort) (hlocked : q'.locked = q.locked) (hjobs : q'.jobs = q.jobs)
    (hnext : q'.nextCuId = q.nextCuId) : q'.Alert := by
  have hmoves : q.Moves .adding .looking q' := .of_signals hw hsignals
  have hleaves : q'.leavers = q.leavers := hmoves.tally Worker.leaves rfl
  have hinside : tally Worker.isInside q'.workers + 1 = tally Worker.isInside q.workers + 1 :=
    hmoves.tally Worker.isInside rfl
  have hdrowsy : tally Worker.isDrowsy q'.workers = tally Worker.isDrowsy q.workers :=
    hmoves.tally Worker.isDrowsy rfl
  have honly := h.drowsy_le_of_inside hw rfl
  have hdoomed : q'.doomed = 0 := doomed_eq_zero (hdrowsy.trans (Nat.le_zero.mp honly))
  have hwanted := wanted_eq hjobs hnext
  have hwakes := awake_of_signals hw hsignals rfl
  change _ ∧ _ ∧ q'.awake + 2 = q.awake + 1 ∨ _ ∧ q'.awake + 2 = q.awake + 1 + 1 at hwakes
  refine ⟨?_, fun hset hpos => ?_, fun hset hpos => ?_⟩
  · rw [hlocked, ← h.inside]
    omega
  · have hbefore := h.calm (habort ▸ hset) (by omega)
    omega
  · have hbefore := h.warned (habort ▸ hset) (by omega)
    omega

/-- The signal for an abort wakes a worker unless none is asleep or going to sleep. -/
theorem Alert.signalAbort (h : q.Alert) (hset : q.abort = true) (hw : q.workers w = .signalling)
    (hsignals : Signals (Function.update q.workers w (.returned false)) q'.workers)
    (hheeds : (∃ v, q.workers v = .asleep) ∨
      ∀ v, q.workers v = .loaded false → tryDequeue q.nextCuId q.jobs ≠ none)
    (habort : q'.abort = q.abort) (hlocked : q'.locked = q.locked) (hjobs : q'.jobs = q.jobs)
    (hnext : q'.nextCuId = q.nextCuId) : q'.Alert := by
  have hmoves : q.Moves .signalling (.returned false) q' := .of_signals hw hsignals
  have hleaves : q'.leavers + 1 = q.leavers := hmoves.tally Worker.leaves rfl
  have hinside : tally Worker.isInside q'.workers = tally Worker.isInside q.workers :=
    hmoves.tally Worker.isInside rfl
  have hdrowsy : tally Worker.isDrowsy q'.workers = tally Worker.isDrowsy q.workers :=
    hmoves.tally Worker.isDrowsy rfl
  have hdoomed : q'.doomed = q.doomed := by rw [doomed, doomed, habort, hjobs, hnext, hdrowsy]
  have hwanted := wanted_eq hjobs hnext
  have hwakes := awake_of_signals hw hsignals rfl
  change _ ∧ _ ∧ q'.awake = q.awake ∨ _ ∧ q'.awake = q.awake + 1 at hwakes
  refine ⟨?_, fun hnone => ?_, fun _ hpos => ?_⟩
  · rw [hlocked, ← h.inside, hinside]
  · rw [habort, hset] at hnone
    cases hnone
  · rcases hwakes with ⟨hzero, hzero', hsame⟩ | ⟨hdown, hup⟩
    · have hnone : q.doomed = 0 := by
        rcases hheeds with ⟨v, hv⟩ | hfound
        · have hsleeps := tally_eq_zero.mp hzero v
          rw [hv] at hsleeps
          cases hsleeps
        · unfold doomed
          split_ifs with hgone
          · refine tally_eq_zero.mpr fun v => ?_
            cases hp : q.workers v with
            | loaded seen =>
                cases seen with
                | true => rfl
                | false => exact absurd hgone.2 (hfound v hp)
            | _ => rfl
          · rfl
      omega
    · have hbefore := h.warned hset (by omega)
      omega

/-- A worker that stores `abort` is going to signal. -/
theorem Alert.storeAbort (h : q.Alert) (hw : q.workers w = .leaving)
    (hq' : q'.workers = Function.update q.workers w .signalling) (habort : q'.abort = true)
    (hlocked : q'.locked = q.locked) (hjobs : q'.jobs = q.jobs)
    (hnext : q'.nextCuId = q.nextCuId) : q'.Alert := by
  obtain ⟨hup, hdown⟩ := awake_of_update hw hq'
  have hleaves := leavers_of_update hw hq'
  have hdrowsy := drowsy_of_update hw hq'
  change q'.awake + 0 = q.awake + 0 at hup
  change q'.asleep + 0 = q.asleep + 0 at hdown
  change q'.leavers + 1 = q.leavers + 1 at hleaves
  change _ + 0 = _ + 0 at hdrowsy
  have hwanted := wanted_eq hjobs hnext
  refine ⟨inside_of_update h hw hq' (by rw [hlocked]; rfl), fun hnone => ?_, fun _ hpos => ?_⟩
  · rw [habort] at hnone
    cases hnone
  · cases hbefore : q.abort with
    | true =>
        have hdoomed : q'.doomed = q.doomed := by
          rw [doomed, doomed, habort, hbefore, hjobs, hnext]
          split_ifs <;> omega
        have := h.warned hbefore (by omega)
        omega
    | false =>
        have hpositive : 1 ≤ q.leavers := by
          refine le_trans ?_ (le_tally Worker.leaves q.workers w)
          rw [hw]
          exact le_rfl
        have hdrowsy' := q'.doomed_le
        have hsees := q'.drowsy_le.2
        rcases Nat.eq_zero_or_pos q'.doomed with hzero | hdoomed
        · have := h.calm hbefore (by omega)
          omega
        · have := wanted_of_doomed hdoomed
          omega

/-- A worker that finds an error noted has neither the mutex nor a job. -/
theorem workerOfError_place (err : ℤ) : (workerOfError err).isInside = 0 ∧
    (workerOfError err).isAsleep = 0 ∧ (workerOfError err).isDrowsy = 0 ∧
      (workerOfError err).isAwake = 0 ∧ (workerOfError err).leaves = 0 := by
  unfold workerOfError
  split_ifs <;> exact ⟨rfl, rfl, rfl, rfl, rfl⟩

theorem Alert.step (h : q.Alert) (hfitting : q.Fitting) (hordered : q.Ordered limit total)
    (hstep : QueueStep id total kind q q') (hheeds : q.Heeds q') : q'.Alert := by
  cases hstep with
  | enqueue hw hfree => exact h.addJob hw hfree rfl rfl rfl rfl rfl
  | signalAdded hw hsignals => exact h.signalAdded hw hsignals rfl rfl rfl rfl
  | lock hw hfree =>
      exact h.keep hw rfl rfl rfl rfl (by rw [hfree]; rfl) le_rfl (fun _ => le_rfl)
        (fun _ => le_rfl) le_rfl
  | load hw =>
      refine h.keep hw rfl rfl rfl rfl rfl le_rfl (fun hset => ?_) (fun _ => le_rfl) le_rfl
      rw [hset]
      exact le_rfl
  | dequeue hw hfound => exact h.dequeue hw rfl rfl rfl hfound rfl
  | giveUp hw hnone =>
      have hset : q.abort = true := hfitting.place hw
      refine h.keep hw rfl rfl rfl rfl (by rw [h.locked hw rfl]; rfl) le_rfl
        (fun _ => le_rfl) (fun hclear => ?_) le_rfl
      rw [hset] at hclear
      cases hclear
  | wait hw hnone => exact h.wait hw hnone rfl rfl rfl rfl rfl
  | wake hw =>
      exact h.keep hw rfl rfl rfl rfl rfl (Nat.zero_le _) (fun _ => le_rfl)
        (fun _ => Nat.zero_le _) (Nat.zero_le _)
  | relock hw hfree =>
      exact h.keep hw rfl rfl rfl rfl (by rw [hfree]; rfl) le_rfl (fun _ => le_rfl)
        (fun _ => le_rfl) le_rfl
  | seeError hw herror =>
      obtain ⟨hinside, hasleep, hdrowsy, hawake, hleaves⟩ := workerOfError_place q.error
      refine h.keep hw rfl rfl rfl rfl ?_ hasleep.le (fun _ => hdrowsy.le)
        (fun _ => Nat.zero_le _) (Nat.zero_le _)
      rw [hinside]
      rfl
  | nextCu hw herror hlt =>
      exact h.keep hw rfl rfl rfl rfl rfl le_rfl (fun _ => le_rfl) (fun _ => le_rfl) le_rfl
  | noMemory hw herror hlt =>
      exact h.keep hw rfl rfl rfl rfl rfl le_rfl (fun _ => le_rfl)
        (fun _ => le_rfl) le_rfl
  | noCuDie hw herror hlt =>
      exact h.keep hw rfl rfl rfl rfl rfl le_rfl (fun _ => le_rfl) (fun _ => le_rfl) le_rfl
  | badCu hw herror =>
      exact h.keep hw rfl rfl rfl rfl rfl le_rfl (fun _ => le_rfl)
        (fun _ => le_rfl) le_rfl
  | noMoreCus hw herror hread =>
      exact h.keep hw rfl rfl rfl rfl rfl le_rfl (fun _ => le_rfl) (fun _ => le_rfl) le_rfl
  | recode hw =>
      exact h.keep hw rfl rfl rfl rfl rfl le_rfl (fun _ => le_rfl) (fun _ => Nat.zero_le _)
        (Nat.zero_le _)
  | recodeFails hw herr =>
      exact h.keep hw rfl rfl rfl rfl rfl le_rfl (fun _ => le_rfl) (fun _ => le_rfl) le_rfl
  | fail hw =>
      exact h.keep hw rfl rfl rfl rfl rfl le_rfl (fun _ => le_rfl) (fun _ => le_rfl) le_rfl
  | steal hw =>
      exact h.keep hw rfl rfl rfl rfl rfl le_rfl (fun _ => le_rfl) (fun _ => le_rfl) le_rfl
  | stealStops hw hlsk =>
      exact h.keep hw rfl rfl rfl rfl rfl le_rfl (fun _ => le_rfl) (fun _ => le_rfl)
        (Nat.zero_le _)
  | incNextCuId hw hfree => exact h.incNextCuId hordered hw hfree rfl rfl rfl rfl rfl
  | returnOk hw herror =>
      exact h.keep hw rfl rfl rfl rfl rfl le_rfl (fun _ => le_rfl) (fun _ => le_rfl) le_rfl
  | stopEarly hw herror =>
      exact h.keep hw rfl rfl rfl rfl rfl le_rfl (fun _ => le_rfl) (fun _ => le_rfl)
        (Nat.zero_le _)
  | storeAbort hw => exact h.storeAbort hw rfl rfl rfl rfl rfl
  | @signalAbort _ w ws hw hsignals =>
      refine h.signalAbort (hfitting.place hw) hw hsignals (hheeds.signal w hw ?_) rfl rfl rfl rfl
      cases hsignals with
      | wakes v hv =>
          have hother : v ≠ w := by
            rintro rfl
            rw [Function.update_self] at hv
            cases hv
          change Function.update _ _ _ w = _
          rw [Function.update_of_ne hother.symm, Function.update_self]
      | unheard _ => exact Function.update_self ..
  | create hw hturn =>
      exact h.keep hw rfl rfl rfl rfl rfl le_rfl (fun _ => le_rfl) (fun _ => Nat.zero_le _)
        (Nat.zero_le _)
  | noteCreated hw hturn => exact h.of_workers rfl rfl rfl rfl rfl
  | allCreated hturn => exact h.of_workers rfl rfl rfl rfl rfl
  | createFails hw hturn herr => exact h.of_workers rfl rfl rfl rfl rfl
  | join hcreated hturn hw => exact h.of_workers rfl rfl rfl rfl rfl
  | joinAborted hcreated hturn hw => exact h.of_workers rfl rfl rfl rfl rfl

/-! ## Failures are known -/

theorem alarmed_of_update (hq' : q'.workers = Function.update q.workers w p')
    (hp' : p'.warns = true) : q'.Alarmed :=
  Or.inr (Or.inl ⟨w, by rw [hq', Function.update_self, hp']⟩)

/-- An alarm goes on where the worker that moves does not have it. -/
theorem Alarmed.of_update (h : q.Alarmed) (hw : q.workers w = p)
    (hq' : q'.workers = Function.update q.workers w p') (hwarns : p.warns = false)
    (hstops : p ≠ .stopping) (habort : q'.abort = q.abort) (herror : q'.error = q.error) :
    q'.Alarmed := by
  rcases h with hset | ⟨v, hv⟩ | ⟨hnoted, v, hv⟩
  · exact Or.inl (habort.trans hset)
  · have hother : v ≠ w := by
      rintro rfl
      rw [hw, hwarns] at hv
      cases hv
    exact Or.inr (Or.inl ⟨v, by rwa [hq', Function.update_of_ne hother]⟩)
  · have hother : v ≠ w := by
      rintro rfl
      exact hstops (hw.symm.trans hv)
    exact Or.inr (Or.inr ⟨herror ▸ hnoted, v, by rwa [hq', Function.update_of_ne hother]⟩)

theorem Alarmed.of_workers (h : q.Alarmed) (hworkers : q'.workers = q.workers)
    (habort : q'.abort = q.abort)
    (herror : q.error ≠ 0 → (∃ w, q.workers w = .stopping) → q'.error = 0 →
      q.abort = true ∨ ∃ w, (q.workers w).warns = true) : q'.Alarmed := by
  rw [Alarmed, hworkers, habort]
  rcases h with hset | hwarns | ⟨hnoted, hstops⟩
  · exact Or.inl hset
  · exact Or.inr (Or.inl hwarns)
  · by_cases hzero : q'.error = 0
    · rcases herror hnoted hstops hzero with hset | hwarns
      · exact Or.inl hset
      · exact Or.inr (Or.inl hwarns)
    · exact Or.inr (Or.inr ⟨hzero, hstops⟩)

theorem Alarmed.signalAdded (h : q.Alarmed) (hw : q.workers w = .adding)
    (hsignals : Signals (Function.update q.workers w .looking) ws) :
    JobQueue.Alarmed { q with workers := ws } := by
  have hmoved : (q.goTo w .looking).Alarmed := h.of_update hw rfl rfl nofun rfl rfl
  cases hsignals with
  | wakes v hv => exact hmoved.of_update hv rfl rfl nofun rfl rfl
  | unheard _ => exact hmoved

theorem Alarmed.step (h : q.Alarmed) (hfitting : q.Fitting) (hstep : QueueStep wrap total kind q q')
    (hheeds : q.Heeds q') : q'.Alarmed := by
  cases hstep with
  | enqueue hw hfree => exact h.of_update hw rfl rfl nofun rfl rfl
  | signalAdded hw hsignals => exact h.signalAdded hw hsignals
  | lock hw hfree => exact h.of_update hw rfl rfl nofun rfl rfl
  | load hw => exact h.of_update hw rfl rfl nofun rfl rfl
  | dequeue hw hfound => exact h.of_update hw rfl rfl nofun rfl rfl
  | giveUp hw hnone => exact alarmed_of_update rfl rfl
  | wait hw hnone => exact h.of_update hw rfl rfl nofun rfl rfl
  | wake hw => exact h.of_update hw rfl rfl nofun rfl rfl
  | relock hw hfree => exact h.of_update hw rfl rfl nofun rfl rfl
  | seeError hw herror => exact h.of_update hw rfl rfl nofun rfl rfl
  | nextCu hw herror hlt => exact h.of_update hw rfl rfl nofun rfl rfl
  | noMemory hw herror hlt => exact alarmed_of_update rfl rfl
  | noCuDie hw herror hlt => exact alarmed_of_update rfl rfl
  | badCu hw herror => exact alarmed_of_update rfl rfl
  | noMoreCus hw herror hread => exact h.of_update hw rfl rfl nofun rfl rfl
  | recode hw => exact h.of_update hw rfl rfl nofun rfl rfl
  | recodeFails hw herr => exact alarmed_of_update rfl rfl
  | fail hw => exact Or.inr (Or.inr ⟨hfitting.place hw, _, Function.update_self ..⟩)
  | steal hw => exact h.of_update hw rfl rfl nofun rfl rfl
  | stealStops hw hlsk => exact alarmed_of_update rfl rfl
  | incNextCuId hw hfree => exact h.of_update hw rfl rfl nofun rfl rfl
  | @returnOk _ w hw herror =>
      rcases h with hset | ⟨v, hv⟩ | ⟨hnoted, -⟩
      · exact Or.inl hset
      · have hother : v ≠ w := by
          rintro rfl
          rw [hw] at hv
          cases hv
        refine Or.inr (Or.inl ⟨v, ?_⟩)
        change (Function.update q.workers w _ v).warns = true
        rwa [Function.update_of_ne hother]
      · exact absurd herror hnoted
  | stopEarly hw herror => exact alarmed_of_update rfl rfl
  | storeAbort hw => exact Or.inl rfl
  | signalAbort hw hsignals => exact Or.inl (hfitting.place hw)
  | create hw hturn => exact h.of_update hw rfl rfl nofun rfl rfl
  | noteCreated hw hturn => exact h.of_workers rfl rfl fun hnoted _ => hheeds.noted hnoted
  | allCreated hturn => exact h.of_workers rfl rfl fun hnoted _ => hheeds.noted hnoted
  | createFails hw hturn herr => exact h.of_workers rfl rfl fun _ _ hzero => absurd hzero herr.ne'
  | join hcreated hturn hw => exact h.of_workers rfl rfl fun hnoted _ hzero => absurd hzero hnoted
  | joinAborted hcreated hturn hw => exact Or.inl (hfitting.place hw)

/-! ## Nothing has failed -/

/-- Nothing has failed but the creation of a thread. -/
structure Calm (limit total : ℕ) (q : JobQueue n) : Prop extends Supplied limit total q where
  abort : q.abort = false
  sound : tally Worker.isUnsound q.workers = 0

theorem unsound_of_moves (h : tally Worker.isUnsound q.workers = 0) (hmoves : q.Moves p p' q')
    (hsound : p'.isUnsound = 0) : tally Worker.isUnsound q'.workers = 0 := by
  have hmoved := hmoves.tally Worker.isUnsound rfl
  omega

theorem Calm.isUnsound_eq (h : q.Calm limit total) (hw : q.workers w = p) : p.isUnsound = 0 :=
  hw ▸ tally_eq_zero.mp h.sound w

theorem Calm.unsound_step (h : q.Calm limit total) (hstep : QueueStep wrap total kind q q')
    (hkind : kind ≠ .failure) : q'.abort = false ∧ tally Worker.isUnsound q'.workers = 0 := by
  cases hstep with
  | enqueue hw hfree => exact ⟨h.abort, unsound_of_moves h.sound (.of_update hw rfl) rfl⟩
  | signalAdded hw hsignals =>
      exact ⟨h.abort, unsound_of_moves h.sound (.of_signals hw hsignals) rfl⟩
  | lock hw hfree => exact ⟨h.abort, unsound_of_moves h.sound (.of_update hw rfl) rfl⟩
  | load hw => exact ⟨h.abort, unsound_of_moves h.sound (.of_update hw rfl) (by rw [h.abort]; rfl)⟩
  | dequeue hw hfound =>
      exact ⟨h.abort, unsound_of_moves h.sound (.of_update hw rfl) (isUnsound_worker _).1⟩
  | wait hw hnone => exact ⟨h.abort, unsound_of_moves h.sound (.of_update hw rfl) rfl⟩
  | wake hw => exact ⟨h.abort, unsound_of_moves h.sound (.of_update hw rfl) rfl⟩
  | relock hw hfree => exact ⟨h.abort, unsound_of_moves h.sound (.of_update hw rfl) rfl⟩
  | nextCu hw herror hlt => exact ⟨h.abort, unsound_of_moves h.sound (.of_update hw rfl) rfl⟩
  | noMoreCus hw herror hread => exact ⟨h.abort, unsound_of_moves h.sound (.of_update hw rfl) rfl⟩
  | recode hw => exact ⟨h.abort, unsound_of_moves h.sound (.of_update hw rfl) rfl⟩
  | steal hw => exact ⟨h.abort, unsound_of_moves h.sound (.of_update hw rfl) rfl⟩
  | incNextCuId hw hfree => exact ⟨h.abort, unsound_of_moves h.sound (.of_update hw rfl) rfl⟩
  | returnOk hw herror => exact ⟨h.abort, unsound_of_moves h.sound (.of_update hw rfl) rfl⟩
  | create hw hturn => exact ⟨h.abort, unsound_of_moves h.sound (.of_update hw rfl) rfl⟩
  | noteCreated hw hturn => exact ⟨h.abort, h.sound⟩
  | allCreated hturn => exact ⟨h.abort, h.sound⟩
  | join hcreated hturn hw => exact ⟨h.abort, h.sound⟩
  | giveUp | seeError | noMemory | noCuDie | badCu | recodeFails | fail | stealStops | stopEarly
  | storeAbort | signalAbort | createFails | joinAborted => exact absurd rfl hkind

theorem Calm.failure (h : q.Calm limit total) (hstep : QueueStep wrap total .failure q q')
    (hwrap : ∀ k ≤ total, wrap k = k) : q'.Calm limit total ∨ q'.Alarmed := by
  have hordered := h.ordered.step hwrap hstep
  cases hstep with
  | giveUp hw hnone => cases h.isUnsound_eq hw
  | seeError hw herror =>
      right
      unfold workerOfError
      split_ifs with hneg hone
      · exact alarmed_of_update rfl rfl
      · exact Or.inr (Or.inr ⟨herror, _, Function.update_self ..⟩)
      · exact alarmed_of_update rfl rfl
  | noMemory hw herror hlt => exact Or.inr (alarmed_of_update rfl rfl)
  | noCuDie hw herror hlt => exact Or.inr (alarmed_of_update rfl rfl)
  | badCu hw herror => exact Or.inr (alarmed_of_update rfl rfl)
  | recodeFails hw herr => exact Or.inr (alarmed_of_update rfl rfl)
  | fail hw => cases h.isUnsound_eq hw
  | stealStops hw hlsk => exact Or.inr (alarmed_of_update rfl rfl)
  | stopEarly hw herror => exact Or.inr (alarmed_of_update rfl rfl)
  | storeAbort hw => cases h.isUnsound_eq hw
  | signalAbort hw hsignals => cases h.isUnsound_eq hw
  | createFails hw hturn herr =>
      exact Or.inl
        { ordered := hordered
          whole := h.whole.idle (idles_of_workers rfl rfl rfl rfl rfl)
          fed := h.fed.idle (idles_of_workers rfl rfl rfl rfl rfl)
          heard := h.heard.idle (idles_of_workers rfl rfl rfl rfl rfl)
          abort := h.abort
          sound := h.sound }
  | joinAborted hcreated hturn hw => cases h.isUnsound_eq hw

theorem Calm.step (h : q.Calm limit total) (hstep : QueueStep id total kind q q') :
    q'.Calm limit total ∨ q'.Alarmed := by
  by_cases hkind : kind = .failure
  · subst hkind
    exact h.failure hstep fun _ _ => rfl
  · obtain ⟨habort, hsound⟩ := h.unsound_step hstep hkind
    exact Or.inl
      { toSupplied := h.toSupplied.step (fun _ _ => rfl) hstep hkind
        abort := habort
        sound := hsound }

/-! ## Runs that are not stuck -/

theorem Stuck.isIdle (h : q.Stuck) (v : Fin n) : (q.workers v).isIdle = true := by
  rcases h.2 v with hv | ⟨ok, hv⟩ | ⟨hv, -⟩ <;> rw [hv] <;> rfl

theorem Stuck.not_alarmed (h : q.Stuck) (halert : q.Alert) : ¬q.Alarmed := by
  have hidle := h.isIdle
  rintro (hset | ⟨v, hv⟩ | ⟨-, v, hv⟩)
  · have hasleep : 0 < q.asleep := by
      obtain ⟨w, hw⟩ := h.1
      refine lt_of_lt_of_le ?_ (le_tally Worker.isAsleep q.workers w)
      rw [hw]
      exact Nat.zero_lt_one
    have hawake := awake_of_idle hidle
    have hleavers : q.leavers = 0 :=
      tally_of_idle hidle fun p hp => by cases p <;> first | rfl | cases hp
    have := halert.warned hset (by omega)
    omega
  · have hplace := hidle v
    cases hp : q.workers v with
    | failing _ | leaving | signalling | crashed =>
        rw [hp] at hplace
        cases hplace
    | _ =>
        rw [hp] at hv
        cases hv
  · have hplace := hidle v
    rw [hv] at hplace
    cases hplace

/-- What holds in a run whose steps heed signals and errors. -/
structure Heeding (limit total : ℕ) (q : JobQueue n) : Prop where
  ordered : q.Ordered limit total
  fitting : q.Fitting
  alert : q.Alert
  known : q.Calm limit total ∨ q.Alarmed

theorem heeding_start : (start limit : JobQueue n).Heeding limit total where
  ordered := ordered_start
  fitting := fitting_start
  alert := alert_start
  known := Or.inl
    { toSupplied := supplied_start
      abort := rfl
      sound := by simp [start, tally_const, Worker.isUnsound] }

theorem Heeding.step (h : q.Heeding limit total) (hstep : QueueStep id total kind q q')
    (hheeds : q.Heeds q') : q'.Heeding limit total where
  ordered := h.ordered.step (fun _ _ => rfl) hstep
  fitting := h.fitting.step hstep
  alert := h.alert.step h.fitting h.ordered hstep hheeds
  known := by
    rcases h.known with hcalm | halarmed
    · exact hcalm.step hstep
    · exact Or.inr (halarmed.step h.fitting hstep hheeds)

theorem Heeding.not_stuck (h : q.Heeding limit total) (hlimit : n ≤ limit) : ¬q.Stuck := by
  intro hstuck
  rcases h.known with hcalm | halarmed
  · obtain ⟨w, hw⟩ := hstuck.1
    exact hcalm.not_asleep hlimit hstuck.isIdle hw
  · exact hstuck.not_alarmed h.alert halarmed

theorem Stuck.of_mapIds {f : ℕ → ℕ} (h : (q.mapIds f).Stuck) : q.Stuck := by
  obtain ⟨⟨w, hw⟩, hall⟩ := h
  refine ⟨⟨w, Worker.eq_of_mapId hw rfl⟩, fun v => ?_⟩
  rcases hall v with hv | ⟨ok, hv⟩ | ⟨hv, hcreated⟩
  · exact Or.inl (Worker.eq_of_mapId hv rfl)
  · exact Or.inr (Or.inl ⟨ok, Worker.eq_of_mapId hv rfl⟩)
  · exact Or.inr (Or.inr ⟨Worker.eq_of_mapId hv rfl, hcreated⟩)

theorem warns_mapId {f : ℕ → ℕ} (p : Worker) : (p.mapId f).warns = p.warns := by
  cases p <;> rfl

/-- What a step heeds does not depend on the ids. -/
theorem Heeds.of_mapIds {f : ℕ → ℕ} (h : (q.mapIds f).Heeds (q'.mapIds f))
    (hturn : ∀ cu, .steal cu ∈ q.jobs → f cu = f q.nextCuId → cu = q.nextCuId) : q.Heeds q' where
  signal w hw hw' := by
    have hplace : (q.mapIds f).workers w = .signalling := congrArg (Worker.mapId f) hw
    have hplace' : (q'.mapIds f).workers w = .returned false := congrArg (Worker.mapId f) hw'
    rcases h.signal w hplace hplace' with ⟨v, hv⟩ | hfound
    · exact Or.inl ⟨v, Worker.eq_of_mapId hv rfl⟩
    · refine Or.inr fun v hv hnone => hfound v (congrArg (Worker.mapId f) hv) ?_
      rw [mapIds, tryDequeue_mapId hturn, hnone]
      rfl
  noted hnoted hzero := by
    rcases h.noted hnoted hzero with hset | ⟨v, hv⟩
    · exact Or.inl hset
    · exact Or.inr ⟨v, (warns_mapId _).symm.trans hv⟩

/-- `q` is reached with steps, failures included, that all heed signals and errors. -/
def ReachesHeeding (n limit total : ℕ) (q : JobQueue n) : Prop :=
  Relation.ReflTransGen (fun q q' => (∃ kind, QueueStep cuId total kind q q') ∧ q.Heeds q')
    (start limit) q

theorem exists_heeding (hsmall : limit < 2 ^ 32) (h : ReachesHeeding n limit total q) :
    ∃ q' : JobQueue n, q'.Heeding limit total ∧ q = q'.mapIds cuId := by
  induction h with
  | refl => exact ⟨_, heeding_start, by simp [mapIds, start, Job.mapId, Worker.mapId, cuId, u32]⟩
  | tail _ hstep ih =>
      obtain ⟨q', hgood, rfl⟩ := ih
      obtain ⟨⟨kind, hstep⟩, hheeds⟩ := hstep
      obtain ⟨q'', hplain, rfl⟩ := hgood.ordered.plainStep (Or.inl hsmall) hstep
      refine ⟨q'', hgood.step hplain (hheeds.of_mapIds fun cu hjob hcu => ?_), rfl⟩
      obtain ⟨hturn, hnear, -⟩ := hgood.ordered.near hjob
      exact eq_of_cuId hcu hturn (by omega)

/-- A step that signals for no abort, or with a worker asleep, and overwrites no error. -/
theorem ReachesHeeding.tail (h : ReachesHeeding n limit total q)
    (hstep : QueueStep cuId total kind q q')
    (hsignal : (∀ w, q.workers w ≠ .signalling) ∨ ∃ v, q.workers v = .asleep)
    (herror : q.error = 0 ∨ q'.error ≠ 0) : ReachesHeeding n limit total q' := by
  refine Relation.ReflTransGen.tail h ⟨⟨kind, hstep⟩, fun w hw _ => ?_, fun hnoted hzero => ?_⟩
  · rcases hsignal with hnone | hasleep
    · exact absurd hw (hnone w)
    · exact Or.inl hasleep
  · rcases herror with herror | herror
    · exact absurd herror hnoted
    · exact absurd hzero herror

theorem ReachesHeeding.reaches (h : ReachesHeeding n limit total q) :
    QueueReaches n limit total (fun _ => True) q := by
  induction h with
  | refl => exact .refl
  | tail _ hstep ih =>
      obtain ⟨⟨kind, hstep⟩, -⟩ := hstep
      exact ih.tail ⟨kind, trivial, hstep⟩

/-- The first of two workers decodes the first CU, and the other one, which has decoded the next
three, is going to sleep. -/
structure OneDrowsy (q : JobQueue 2) : Prop where
  first : q.workers 0 = .recoding 0
  second : q.workers 1 = .loaded false
  found : tryDequeue q.nextCuId q.jobs = none
  error : q.error = 0

theorem reaches_oneDrowsy : ∃ q : JobQueue 2, ReachesHeeding 2 4 4 q ∧ OneDrowsy q := by
  have hstart : ReachesHeeding 2 4 4 (start 4) := .refl
  have hcreated := hstart.tail (.create (w := 0) rfl rfl) (by decide) (by decide)
  have hnoted := hcreated.tail (.noteCreated (w := 0) nofun rfl) (by decide) (by decide)
  have hboth := hnoted.tail (.create (w := 1) rfl rfl) (by decide) (by decide)
  have hnoted' := hboth.tail (.noteCreated (w := 1) nofun rfl) (by decide) (by decide)
  have hall := hnoted'.tail (.allCreated rfl) (by decide) (by decide)
  have hlocked := hall.tail (.lock (w := 0) rfl rfl) (by decide) (by decide)
  have hloaded := hlocked.tail (.load (w := 0) rfl) (by decide) (by decide)
  have hdecode := hloaded.tail (.dequeue (w := 0) rfl rfl) (by decide) (by decide)
  have hcu := hdecode.tail (.nextCu (w := 0) rfl rfl (by decide)) (by decide) (by decide)
  have hlocked' := hcu.tail (.lock (w := 1) rfl rfl) (by decide) (by decide)
  have hload := hlocked'.tail (.load (w := 1) rfl) (by decide) (by decide)
  have hjob := hload.tail (.dequeue (w := 1) rfl rfl) (by decide) (by decide)
  have hone := hjob.tail (.nextCu (w := 1) rfl rfl (by decide)) (by decide) (by decide)
  have hone' := hone.tail (.recode (w := 1) rfl) (by decide) (by decide)
  have hadd := hone'.tail (.enqueue (w := 1) rfl rfl) (by decide) (by decide)
  have hsignal := hadd.tail (.signalAdded (w := 1) rfl (.unheard (by decide))) (by decide)
    (by decide)
  have hload₂ := hsignal.tail (.load (w := 1) rfl) (by decide) (by decide)
  have hjob₂ := hload₂.tail (.dequeue (w := 1) rfl rfl) (by decide) (by decide)
  have htwo := hjob₂.tail (.nextCu (w := 1) rfl rfl (by decide)) (by decide) (by decide)
  have htwo' := htwo.tail (.recode (w := 1) rfl) (by decide) (by decide)
  have hadd₂ := htwo'.tail (.enqueue (w := 1) rfl rfl) (by decide) (by decide)
  have hsignal₂ := hadd₂.tail (.signalAdded (w := 1) rfl (.unheard (by decide))) (by decide)
    (by decide)
  have hload₃ := hsignal₂.tail (.load (w := 1) rfl) (by decide) (by decide)
  have hjob₃ := hload₃.tail (.dequeue (w := 1) rfl rfl) (by decide) (by decide)
  have hthree := hjob₃.tail (.nextCu (w := 1) rfl rfl (by decide)) (by decide) (by decide)
  have hthree' := hthree.tail (.recode (w := 1) rfl) (by decide) (by decide)
  have hadd₃ := hthree'.tail (.enqueue (w := 1) rfl rfl) (by decide) (by decide)
  have hsignal₃ := hadd₃.tail (.signalAdded (w := 1) rfl (.unheard (by decide))) (by decide)
    (by decide)
  exact ⟨_, hsignal₃.tail (.load (w := 1) rfl) (by decide) (by decide), rfl, rfl, rfl, rfl⟩

/-- The first worker fails, and its signal comes just before the other one goes to sleep. -/
theorem reaches_stuck : ∃ q : JobQueue 2, QueueReaches 2 4 4 (fun _ => True) q ∧ q.Stuck := by
  obtain ⟨q, hreaches, hfirst, hsecond, hnone, herror⟩ := reaches_oneDrowsy
  have hminus : (-1 : ℤ) ≠ 0 := by decide
  have hfails := hreaches.reaches.tail ⟨.failure, trivial, .recodeFails hfirst hminus⟩
  have hfailed := hfails.tail ⟨.failure, trivial, .fail (w := 0) rfl⟩
  have hstops := hfailed.tail ⟨.failure, trivial, .stopEarly (w := 0) rfl hminus⟩
  have hstored := hstops.tail ⟨.failure, trivial, .storeAbort (w := 0) rfl⟩
  have hlost := hstored.tail ⟨.failure, trivial, .signalAbort (w := 0) rfl
    (.unheard (Fin.forall_fin_two.mpr ⟨nofun, fun h => by cases hsecond.symm.trans h⟩))⟩
  have hasleep := hlost.tail ⟨.work, trivial, .wait (w := 1) hsecond hnone⟩
  refine ⟨_, hasleep, ⟨1, rfl⟩, ?_⟩
  rw [Fin.forall_fin_two]
  exact ⟨Or.inr (Or.inl ⟨false, rfl⟩), Or.inl rfl⟩

/-- The first worker fails when the other one is asleep, and wakes it. -/
theorem reaches_woken : ∃ q : JobQueue 2, ReachesHeeding 2 4 4 q ∧
    q.workers 0 = .returned false ∧ q.workers 1 = .woken := by
  obtain ⟨q, hreaches, hfirst, hsecond, hnone, herror⟩ := reaches_oneDrowsy
  have hminus : (-1 : ℤ) ≠ 0 := by decide
  have hsilent : ∀ w, q.workers w ≠ .signalling := by
    rw [Fin.forall_fin_two, hfirst, hsecond]
    exact ⟨nofun, nofun⟩
  have hasleep := hreaches.tail (.wait (w := 1) hsecond hnone) (Or.inl hsilent) (Or.inl herror)
  have hfails := hasleep.tail (.recodeFails (w := 0) hfirst hminus) (Or.inr ⟨1, rfl⟩)
    (Or.inl herror)
  have hfailed := hfails.tail (.fail (w := 0) rfl) (Or.inr ⟨1, rfl⟩) (Or.inl herror)
  have hstops := hfailed.tail (.stopEarly (w := 0) rfl hminus) (Or.inr ⟨1, rfl⟩) (Or.inr hminus)
  have hstored := hstops.tail (.storeAbort (w := 0) rfl) (Or.inr ⟨1, rfl⟩) (Or.inr hminus)
  exact ⟨_, hstored.tail (.signalAbort (w := 0) rfl (.wakes 1 rfl)) (Or.inr ⟨1, rfl⟩)
    (Or.inr hminus), rfl, rfl⟩

/-- Whatever fails, where no signal for an abort is lost and no error is overwritten before a
worker has seen it, no reachable state is stuck. -/
theorem not_stuck_of_heeds (nrJobs : ℕ) (hjobs : nrJobs < 2 ^ 31) {q : JobQueue (nrWorkers nrJobs)}
    (h : ReachesHeeding (nrWorkers nrJobs) (decodedCusLimit nrJobs) total q) : ¬q.Stuck := by
  have hsmall : decodedCusLimit nrJobs < 2 ^ 32 := by
    unfold decodedCusLimit
    split <;> omega
  obtain ⟨q', hgood, rfl⟩ := exists_heeding hsmall h
  exact fun hstuck => hgood.not_stuck (nrWorkers_le_limit nrJobs) hstuck.of_mapIds

theorem not_stuck_of_heeds_two : ∃ q : JobQueue (nrWorkers 2),
    (∃ w, q.workers w = .returned false) ∧ ¬q.Stuck := by
  obtain ⟨q, hreaches, hfirst, -⟩ := reaches_woken
  exact ⟨q, ⟨(0 : Fin 2), hfirst⟩, not_stuck_of_heeds 2 (by decide) hreaches⟩

theorem stuck_of_lost_signal : ¬∀ (nrJobs total : ℕ) (q : JobQueue (nrWorkers nrJobs)),
    QueueReaches (nrWorkers nrJobs) (decodedCusLimit nrJobs) total (fun _ => True) q →
      ¬q.Stuck := by
  obtain ⟨q, hreaches, hstuck⟩ := reaches_stuck
  exact fun hclaim => hclaim 2 4 q hreaches hstuck

end Waking

end JobQueue

end Pahole

import Pahole.DwarfLoader.JobQueue

/-!
# The workers come to an end

As long as nothing fails, no worker is left asleep with a job that it could do: a worker that
adds a job wakes another one, and the one whose job is the next CU looks at the queue again
itself.  So the work goes on until all CUs have been stolen.
-/

namespace Pahole

open Workers

namespace Worker

/-- The worker has a job, or had one when there were no more CUs. -/
def hasTicket : Worker → ℕ
  | .ready (some _) | .decoding | .recoding _ | .stealing _ | .stolen _ | .stopping
  | .returned _ => 1
  | _ => 0

/-- The worker has left the loop. -/
def isDone : Worker → ℕ
  | .stopping | .returned _ => 1
  | _ => 0

/-- How many workers look for a job because of this one: itself, and the one that it is going
to signal. -/
def isAwake : Worker → ℕ
  | .ready _ | .looking | .loaded _ | .woken => 1
  | .adding => 2
  | _ => 0

def isAsleep : Worker → ℕ
  | .asleep => 1
  | _ => 0

/-- The worker has the mutex. -/
def isInside : Worker → ℕ
  | .adding | .looking | .loaded _ => 1
  | _ => 0

/-- The worker waits in `pthread_cond_wait`, or is not there to take a step. -/
def isIdle : Worker → Bool
  | .uncreated | .asleep | .returned _ => true
  | _ => false

/-- Something has failed before the worker came there. -/
def isUnsound : Worker → ℕ
  | .loaded true | .failing _ | .leaving | .signalling | .returned false | .crashed => 1
  | _ => 0

/-- More than the steps that the worker takes until it sleeps or returns, with those that it
wakes others for. -/
def weight : Worker → ℕ
  | .uncreated => 4
  | .ready none | .woken => 3
  | .ready (some .decode) => 9
  | .ready (some (.steal _)) => 18
  | .adding => 6
  | .looking | .decoding => 2
  | .loaded _ | .stopping => 1
  | .recoding _ => 19
  | .stealing _ => 11
  | .stolen _ => 10
  | _ => 0

end Worker

def Job.weight : Job → ℕ
  | .decode => 2
  | .steal _ => 11

namespace JobQueue

variable {n : ℕ}

def tickets (q : JobQueue n) : ℕ := tally Worker.hasTicket q.workers

def done (q : JobQueue n) : ℕ := tally Worker.isDone q.workers

def awake (q : JobQueue n) : ℕ := tally Worker.isAwake q.workers

def asleep (q : JobQueue n) : ℕ := tally Worker.isAsleep q.workers

/-- The step changes no data, no count of CUs or jobs, and puts no worker to sleep. -/
structure Idles (q q' : JobQueue n) : Prop where
  jobs : q'.jobs = q.jobs
  next : q'.nextCuId = q.nextCuId
  created : q'.nrCusCreated = q.nrCusCreated
  read : q'.cusRead = q.cusRead
  pending : ∀ k, q'.pending k = q.pending k
  stealing : ∀ k, q'.stealing k = q.stealing k
  stolen : ∀ k, q'.stolen k = q.stolen k
  tickets : q'.tickets = q.tickets
  done : q'.done = q.done
  awake : q.awake ≤ q'.awake
  asleep : q'.asleep ≤ q.asleep

/-- Every CU from the next one on is with a worker or in a job. -/
structure Whole (q : JobQueue n) : Prop where
  created_eq : q.nrCusCreated = q.cusRead
  held : ∀ k, q.nextCuId ≤ k → k < q.nrCusCreated →
    q.pending k + q.stealing k + q.stolen k + q.queued k = 1

/-- Jobs and tickets together are as many as the limit, and a worker is done only when all CUs
have been read. -/
structure Fed (limit total : ℕ) (q : JobQueue n) : Prop where
  tickets : q.tickets + q.jobs.length = limit
  ended : 0 < q.done → q.cusRead = total

/-- A job that can be done has a worker awake for it: jobs to decode are at the end of the list,
and there are as many workers awake as jobs that sleeping ones could take. -/
structure Heard (q : JobQueue n) : Prop where
  stacked : q.jobs.Pairwise fun job job' => job = .decode → job' = .decode
  ready : 0 < q.queued q.nextCuId → 0 < q.awake
  wakeups : 0 < q.asleep → q.jobs.count .decode + q.queued q.nextCuId ≤ q.awake

/-- Nothing has failed, the mutex is locked exactly when one worker is inside, and the workers
that have not been created are the last ones. -/
structure Quiet (q : JobQueue n) : Prop where
  abort : q.abort = false
  error : q.error = 0
  sound : tally Worker.isUnsound q.workers = 0
  inside : tally Worker.isInside q.workers = q.locked.toNat
  created_le : q.created ≤ n + 1
  born : ∀ w, q.workers w = .uncreated → q.created ≤ w

section Moving

variable {q q' : JobQueue n} {w v : Fin n} {p p' : Worker} {ws ws' : Fin n → Worker}
  {job : Job} {jobs jobs' : List Job} {wrap : ℕ → ℕ} {nextCuId k limit total : ℕ}

theorem tally_awake (h : Signals ws ws') :
    tally Worker.isAsleep ws = 0 ∧ tally Worker.isAsleep ws' = 0 ∧
        tally Worker.isAwake ws' = tally Worker.isAwake ws ∨
      tally Worker.isAsleep ws' ≤ tally Worker.isAsleep ws ∧
        tally Worker.isAwake ws' = tally Worker.isAwake ws + 1 := by
  cases h with
  | wakes w hw =>
      have hasleep := tally_update Worker.isAsleep ws w .woken
      have hawake := tally_update Worker.isAwake ws w .woken
      rw [hw] at hasleep hawake
      simp only [Worker.isAsleep, Worker.isAwake] at hasleep hawake
      exact Or.inr ⟨by omega, by omega⟩
  | unheard hnone =>
      have hzero : tally Worker.isAsleep ws = 0 := by
        refine tally_eq_zero.mpr fun w => ?_
        have hother := hnone w
        cases hp : ws w with
        | asleep => exact absurd hp hother
        | _ => rfl
      exact Or.inl ⟨hzero, hzero, rfl⟩

theorem tally_weight (h : Signals ws ws') :
    tally Worker.weight ws' ≤ tally Worker.weight ws + 3 := by
  cases h with
  | wakes w hw =>
      have hweight := tally_update Worker.weight ws w .woken
      rw [hw] at hweight
      exact hweight.le
  | unheard _ => exact Nat.le_add_right _ _

theorem uncreated_of_update (hp : p ≠ .uncreated)
    (h : Function.update q.workers w p v = .uncreated) : q.workers v = .uncreated := by
  rw [Function.update_apply] at h
  split at h
  · exact absurd h hp
  · exact h

theorem uncreated_of_signals (h : Signals ws ws') (hv : ws' v = .uncreated) :
    ws v = .uncreated := by
  cases h with
  | wakes w hw =>
      rw [Function.update_apply] at hv
      split at hv
      · cases hv
      · exact hv
  | unheard _ => exact hv

theorem idles_of_update (hw : q.workers w = p) (hq' : q'.workers = Function.update q.workers w p')
    (hpending : ∀ k, p'.pending k = p.pending k) (hstealing : ∀ k, p'.isStealing k = p.isStealing k)
    (hstolen : ∀ k, p'.hasStolen k = p.hasStolen k) (hticket : p'.hasTicket = p.hasTicket)
    (hdone : p'.isDone = p.isDone) (hawake : p.isAwake ≤ p'.isAwake)
    (hasleep : p'.isAsleep ≤ p.isAsleep) (hjobs : q'.jobs = q.jobs)
    (hnext : q'.nextCuId = q.nextCuId) (hcreated : q'.nrCusCreated = q.nrCusCreated)
    (hread : q'.cusRead = q.cusRead) : q.Idles q' := by
  have hsame : ∀ f : Worker → ℕ, f p' = f p → tally f q'.workers = tally f q.workers := by
    intro f hf
    rw [hq']
    exact tally_update_of_eq (hf.trans (by rw [hw]))
  have hawake' := tally_update Worker.isAwake q.workers w p'
  have hasleep' := tally_update Worker.isAsleep q.workers w p'
  rw [hw, ← hq'] at hawake' hasleep'
  exact
    { jobs := hjobs
      next := hnext
      created := hcreated
      read := hread
      pending := fun k => hsame _ (hpending k)
      stealing := fun k => hsame _ (hstealing k)
      stolen := fun k => hsame _ (hstolen k)
      tickets := hsame _ hticket
      done := hsame _ hdone
      awake := by
        rw [JobQueue.awake, JobQueue.awake]
        omega
      asleep := by
        rw [JobQueue.asleep, JobQueue.asleep]
        omega }

theorem idles_of_workers (hworkers : q'.workers = q.workers) (hjobs : q'.jobs = q.jobs)
    (hnext : q'.nextCuId = q.nextCuId) (hcreated : q'.nrCusCreated = q.nrCusCreated)
    (hread : q'.cusRead = q.cusRead) : q.Idles q' where
  jobs := hjobs
  next := hnext
  created := hcreated
  read := hread
  pending k := by rw [pending, pending, hworkers]
  stealing k := by rw [stealing, stealing, hworkers]
  stolen k := by rw [stolen, stolen, hworkers]
  tickets := by rw [tickets, tickets, hworkers]
  done := by rw [done, done, hworkers]
  awake := by rw [awake, awake, hworkers]
  asleep := by rw [asleep, asleep, hworkers]

theorem idles_of_move (h : QueueStep wrap total .move q q') : q.Idles q' := by
  cases h with
  | lock hw hfree =>
      exact idles_of_update hw rfl (fun _ => rfl) (fun _ => rfl) (fun _ => rfl) rfl rfl le_rfl
        le_rfl rfl rfl rfl rfl
  | load hw =>
      exact idles_of_update hw rfl (fun _ => rfl) (fun _ => rfl) (fun _ => rfl) rfl rfl le_rfl
        le_rfl rfl rfl rfl rfl
  | relock hw hfree =>
      exact idles_of_update hw rfl (fun _ => rfl) (fun _ => rfl) (fun _ => rfl) rfl rfl le_rfl
        le_rfl rfl rfl rfl rfl
  | recode hw =>
      exact idles_of_update hw rfl (fun _ => rfl) (fun _ => rfl) (fun _ => rfl) rfl rfl
        (Nat.zero_le _) le_rfl rfl rfl rfl rfl
  | returnOk hw herror =>
      exact idles_of_update hw rfl (fun _ => rfl) (fun _ => rfl) (fun _ => rfl) rfl rfl le_rfl
        le_rfl rfl rfl rfl rfl
  | create hw hturn =>
      exact idles_of_update hw rfl (fun _ => rfl) (fun _ => rfl) (fun _ => rfl) rfl rfl
        (Nat.zero_le _) le_rfl rfl rfl rfl rfl
  | noteCreated hw hturn => exact idles_of_workers rfl rfl rfl rfl rfl
  | allCreated hturn => exact idles_of_workers rfl rfl rfl rfl rfl
  | join hcreated hturn hw => exact idles_of_workers rfl rfl rfl rfl rfl

theorem idles_of_wake (h : QueueStep wrap total .spurious q q') : q.Idles q' := by
  cases h with
  | wake hw =>
      exact idles_of_update hw rfl (fun _ => rfl) (fun _ => rfl) (fun _ => rfl) rfl rfl
        (Nat.zero_le _) (Nat.zero_le _) rfl rfl rfl rfl

end Moving

/-! ## Invariants of steps without failures -/

section Steps

variable {q q' : JobQueue n} {w : Fin n} {p p' : Worker} {job : Job} {jobs jobs' : List Job}
  {wrap : ℕ → ℕ} {nextCuId k limit total : ℕ} {kind : StepKind}

theorem Whole.idle (h : q.Whole) (hidles : q.Idles q') : q'.Whole where
  created_eq := by rw [hidles.created, hidles.read, h.created_eq]
  held k hk hlt := by
    rw [hidles.pending, hidles.stealing, hidles.stolen, queued, hidles.jobs, ← queued]
    exact h.held k (hidles.next ▸ hk) (hidles.created ▸ hlt)

/-- A move that keeps the number of places of each CU keeps `Whole`. -/
theorem Whole.keep (h : q.Whole) (hnext : q'.nextCuId = q.nextCuId)
    (hcreated : q'.nrCusCreated = q.nrCusCreated) (hread : q'.cusRead = q.cusRead)
    (hheld : ∀ k, q'.pending k + q'.stealing k + q'.stolen k + q'.queued k =
      q.pending k + q.stealing k + q.stolen k + q.queued k) : q'.Whole where
  created_eq := by rw [hcreated, hread, h.created_eq]
  held k hk hlt := by
    rw [hheld]
    exact h.held k (hnext ▸ hk) (hcreated ▸ hlt)

/-- A move that keeps what the worker has of CUs, the jobs and the numbers of CUs keeps `Whole`.
-/
theorem Whole.of_moves (h : q.Whole) (hmoves : q.Moves p p' q')
    (hpending : ∀ k, p'.pending k = p.pending k) (hstealing : ∀ k, p'.isStealing k = p.isStealing k)
    (hstolen : ∀ k, p'.hasStolen k = p.hasStolen k) (hjobs : q'.jobs = q.jobs)
    (hnext : q'.nextCuId = q.nextCuId) (hcreated : q'.nrCusCreated = q.nrCusCreated)
    (hread : q'.cusRead = q.cusRead) : q'.Whole := by
  refine h.keep hnext hcreated hread fun k => ?_
  have hpending' := hmoves.pending k
  have hstealing' := hmoves.stealing k
  have hstolen' := hmoves.stolen k
  rw [hpending] at hpending'
  rw [hstealing] at hstealing'
  rw [hstolen] at hstolen'
  rw [queued, hjobs, ← queued]
  omega

theorem Whole.addJob (h : q.Whole) (hmoves : q.Moves (.ready (some job)) .adding q')
    (hjobs : q'.jobs = addJob job q.jobs) (hnext : q'.nextCuId = q.nextCuId)
    (hcreated : q'.nrCusCreated = q.nrCusCreated) (hread : q'.cusRead = q.cusRead) :
    q'.Whole := by
  refine h.keep hnext hcreated hread fun k => ?_
  have hheld := hmoves.pending_addJob hjobs k
  have hstealing : q'.stealing k = q.stealing k := hmoves.stealing k
  have hstolen : q'.stolen k = q.stolen k := hmoves.stolen k
  omega

theorem Whole.dequeue (h : q.Whole) {abort : Bool}
    (hfound : tryDequeue q.nextCuId q.jobs = some (job, q'.jobs))
    (hmoves : q.Moves (.loaded abort) job.worker q') (hnext : q'.nextCuId = q.nextCuId)
    (hcreated : q'.nrCusCreated = q.nrCusCreated) (hread : q'.cusRead = q.cusRead) :
    q'.Whole := by
  refine h.keep hnext hcreated hread fun k => ?_
  have hheld := hmoves.stealing_dequeue hfound k
  have hpending := hmoves.pending k
  have hstolen := hmoves.stolen k
  cases job with
  | decode =>
      change q'.pending k = q.pending k at hpending
      change q'.stolen k = q.stolen k at hstolen
      omega
  | steal cu =>
      change q'.pending k = q.pending k at hpending
      change q'.stolen k = q.stolen k at hstolen
      omega

theorem Whole.nextCu (h : q.Whole) (hordered : q.Ordered limit total)
    (hmoves : q.Moves .decoding (.recoding q.nrCusCreated) q') (hjobs : q'.jobs = q.jobs)
    (hnext : q'.nextCuId = q.nextCuId) (hcreated : q'.nrCusCreated = q.nrCusCreated + 1)
    (hread : q'.cusRead = q.cusRead + 1) : q'.Whole where
  created_eq := by rw [hcreated, hread, h.created_eq]
  held k hk hlt := by
    have hpending : q'.pending k = q.pending k + if q.nrCusCreated = k then 1 else 0 :=
      hmoves.pending k
    have hstealing : q'.stealing k = q.stealing k := hmoves.stealing k
    have hstolen : q'.stolen k = q.stolen k := hmoves.stolen k
    rw [hpending, hstealing, hstolen, queued, hjobs, ← queued]
    by_cases hnew : q.nrCusCreated = k
    · have hnone := hordered.unread k hnew.le
      rw [if_pos hnew]
      omega
    · have hheld := h.held k (hnext ▸ hk) (by omega)
      rw [if_neg hnew]
      exact hheld

theorem Whole.steal (h : q.Whole) {cu : ℕ} (hmoves : q.Moves (.stealing cu) (.stolen cu) q')
    (hjobs : q'.jobs = q.jobs) (hnext : q'.nextCuId = q.nextCuId)
    (hcreated : q'.nrCusCreated = q.nrCusCreated) (hread : q'.cusRead = q.cusRead) :
    q'.Whole := by
  refine h.keep hnext hcreated hread fun k => ?_
  have hpending : q'.pending k = q.pending k := hmoves.pending k
  have hstealing : q'.stealing k + (if cu = k then 1 else 0) = q.stealing k := hmoves.stealing k
  have hstolen : q'.stolen k = q.stolen k + if cu = k then 1 else 0 := hmoves.stolen k
  rw [queued, hjobs, ← queued]
  omega

theorem Whole.incNextCuId (h : q.Whole) {cu : ℕ}
    (hmoves : q.Moves (.stolen cu) (.ready (some .decode)) q') (hturn : cu = q.nextCuId)
    (hjobs : q'.jobs = q.jobs) (hnext : q'.nextCuId = q.nextCuId + 1)
    (hcreated : q'.nrCusCreated = q.nrCusCreated) (hread : q'.cusRead = q.cusRead) : q'.Whole where
  created_eq := by rw [hcreated, hread, h.created_eq]
  held k hk hlt := by
    have hpending : q'.pending k = q.pending k := hmoves.pending k
    have hstealing : q'.stealing k = q.stealing k := hmoves.stealing k
    have hstolen : q'.stolen k + (if cu = k then 1 else 0) = q.stolen k := hmoves.stolen k
    have hheld := h.held k (by omega) (hcreated ▸ hlt)
    have hother : cu ≠ k := by omega
    rw [if_neg hother] at hstolen
    rw [queued, hjobs, ← queued]
    omega

theorem Whole.step (h : q.Whole) (hordered : q.Ordered limit total)
    (hwrap : ∀ k ≤ total, wrap k = k) (hstep : QueueStep wrap total kind q q') (hkind : kind ≠ .failure) : q'.Whole := by
  have hle := hordered.read_le
  have hcreated := hordered.created_le
  cases kind with
  | failure => exact absurd rfl hkind
  | move => exact h.idle (idles_of_move hstep)
  | spurious => exact h.idle (idles_of_wake hstep)
  | work =>
      cases hstep with
      | enqueue hw hfree => exact h.addJob (.of_update hw rfl) rfl rfl rfl rfl
      | signalAdded hw hsignals =>
          exact h.of_moves (.of_signals hw hsignals) (fun _ => rfl) (fun _ => rfl) (fun _ => rfl)
            rfl rfl rfl rfl
      | dequeue hw hfound => exact h.dequeue hfound (.of_update hw rfl) rfl rfl rfl
      | wait hw hnone =>
          exact h.of_moves (.of_update hw rfl) (fun _ => rfl) (fun _ => rfl) (fun _ => rfl) rfl rfl
            rfl rfl
      | nextCu hw herror hlt =>
          exact h.nextCu hordered (.of_update hw rfl) rfl rfl (hwrap _ (by omega)) rfl
      | noMoreCus hw herror hread =>
          exact h.of_moves (.of_update hw rfl) (fun _ => rfl) (fun _ => rfl) (fun _ => rfl) rfl rfl
            rfl rfl
      | steal hw => exact h.steal (.of_update hw rfl) rfl rfl rfl rfl
      | incNextCuId hw hfree =>
          obtain ⟨hturn, -, -, hlt⟩ := hordered.stolen_eq hw
          exact h.incNextCuId (.of_update hw rfl) hturn rfl (hwrap _ (by omega)) rfl rfl

theorem Moves.done (h : q.Moves p p' q') : q'.done + p.isDone = q.done + p'.isDone :=
  h.tally Worker.isDone rfl

theorem Fed.idle (h : q.Fed limit total) (hidles : q.Idles q') : q'.Fed limit total where
  tickets := by rw [hidles.tickets, hidles.jobs, h.tickets]
  ended hdone := by
    rw [hidles.read]
    exact h.ended (hidles.done ▸ hdone)

/-- A move that keeps the number of jobs, counting that of the worker, keeps `Fed`. -/
theorem Fed.of_moves (h : q.Fed limit total) (hmoves : q.Moves p p' q')
    (hticket : p'.hasTicket + q'.jobs.length = p.hasTicket + q.jobs.length)
    (hended : 0 < q'.done → q'.cusRead = total) : q'.Fed limit total where
  tickets := by
    have hmoved : q'.tickets + p.hasTicket = q.tickets + p'.hasTicket :=
      hmoves.tally Worker.hasTicket rfl
    have := h.tickets
    omega
  ended := hended

/-- A move inside the loop that keeps the number of jobs keeps `Fed`. -/
theorem Fed.going (h : q.Fed limit total) (hmoves : q.Moves p p' q')
    (hticket : p'.hasTicket + q'.jobs.length = p.hasTicket + q.jobs.length)
    (hdone : p'.isDone = p.isDone) (hread : q'.cusRead = q.cusRead) : q'.Fed limit total := by
  refine h.of_moves hmoves hticket fun hpos => ?_
  have hmoved := hmoves.done
  rw [hread]
  exact h.ended (by omega)

theorem Fed.nextCu (h : q.Fed limit total)
    (hmoves : q.Moves .decoding (.recoding q.nrCusCreated) q') (hjobs : q'.jobs = q.jobs)
    (hlt : q.cusRead < total) : q'.Fed limit total := by
  refine h.of_moves hmoves (by rw [hjobs]; rfl) fun hpos => ?_
  have hdone : q'.done = q.done := hmoves.done
  exact absurd (h.ended (hdone ▸ hpos)) hlt.ne

theorem length_addJob : (addJob job jobs).length = jobs.length + 1 := by
  cases job with
  | decode => exact List.length_append
  | steal cu => rfl

theorem hasTicket_worker (job : Job) : job.worker.hasTicket = 1 ∧ job.worker.isDone = 0 := by
  cases job with
  | decode => exact ⟨rfl, rfl⟩
  | steal cu => exact ⟨rfl, rfl⟩

theorem Fed.step (h : q.Fed limit total) (hstep : QueueStep wrap total kind q q')
    (hkind : kind ≠ .failure) : q'.Fed limit total := by
  cases kind with
  | failure => exact absurd rfl hkind
  | move => exact h.idle (idles_of_move hstep)
  | spurious => exact h.idle (idles_of_wake hstep)
  | work =>
      cases hstep with
      | enqueue hw hfree =>
          refine h.going (.of_update hw rfl) ?_ rfl rfl
          change 0 + (addJob _ q.jobs).length = 1 + q.jobs.length
          rw [length_addJob]
          omega
      | signalAdded hw hsignals => exact h.going (.of_signals hw hsignals) rfl rfl rfl
      | dequeue hw hfound =>
          obtain ⟨hticket, hdone⟩ := hasTicket_worker _
          refine h.going (.of_update hw rfl) ?_ hdone rfl
          rw [hticket, (tryDequeue_perm hfound).length_eq]
          exact (Nat.add_comm _ _).trans (Nat.zero_add _).symm
      | wait hw hnone => exact h.going (.of_update hw rfl) rfl rfl rfl
      | nextCu hw herror hlt =>
          exact h.nextCu (.of_update hw rfl) rfl hlt
      | noMoreCus hw herror hread => exact h.of_moves (.of_update hw rfl) rfl fun _ => hread
      | steal hw => exact h.going (.of_update hw rfl) rfl rfl rfl
      | incNextCuId hw hfree => exact h.going (.of_update hw rfl) rfl rfl rfl

/-! ## Waiting and waking -/

theorem awake_of_update (hw : q.workers w = p)
    (hq' : q'.workers = Function.update q.workers w p') :
    q'.awake + p.isAwake = q.awake + p'.isAwake ∧
      q'.asleep + p.isAsleep = q.asleep + p'.isAsleep := by
  have hawake := tally_update Worker.isAwake q.workers w p'
  have hasleep := tally_update Worker.isAsleep q.workers w p'
  rw [hw, ← hq'] at hawake hasleep
  exact ⟨hawake, hasleep⟩

theorem tryDequeue_sublist (h : tryDequeue nextCuId jobs = some (job, jobs')) :
    jobs'.Sublist jobs := by
  induction jobs generalizing jobs' with
  | nil => cases h
  | cons first rest ih =>
      rw [tryDequeue] at h
      split at h
      · obtain ⟨-, rfl⟩ := Prod.mk.inj (Option.some.inj h)
        exact List.sublist_cons_self first _
      · obtain ⟨⟨found, left⟩, hrest, heq⟩ := Option.map_eq_some_iff.mp h
        obtain ⟨rfl, rfl⟩ := Prod.mk.inj heq
        exact (ih hrest).cons_cons first

theorem stacked_addJob (h : jobs.Pairwise fun job job' => job = .decode → job' = .decode) :
    (addJob job jobs).Pairwise fun job job' => job = .decode → job' = .decode := by
  cases job with
  | decode =>
      refine List.pairwise_append.mpr ⟨h, List.pairwise_singleton _ _, ?_⟩
      intro job hjob job' hjob' _
      exact List.mem_singleton.mp hjob'
  | steal cu => exact List.pairwise_cons.mpr ⟨fun job hjob => nofun, h⟩

/-- A job to decode a CU is found where no other job could be done. -/
theorem count_of_decode (hstacked : jobs.Pairwise fun job job' => job = .decode → job' = .decode)
    (hfound : tryDequeue nextCuId jobs = some (.decode, jobs')) :
    jobs.count (.steal nextCuId) = 0 := by
  induction jobs generalizing jobs' with
  | nil => cases hfound
  | cons first rest ih =>
      obtain ⟨hfirst, hrest⟩ := List.pairwise_cons.mp hstacked
      rw [tryDequeue] at hfound
      split at hfound
      · obtain ⟨rfl, -⟩ := Prod.mk.inj (Option.some.inj hfound)
        refine List.count_eq_zero.mpr fun hmem => ?_
        rcases List.mem_cons.mp hmem with heq | hmem
        · cases heq
        · cases hfirst _ hmem rfl
      · next hviable =>
          obtain ⟨⟨found, left⟩, hleft, heq⟩ := Option.map_eq_some_iff.mp hfound
          obtain ⟨rfl, -⟩ := Prod.mk.inj heq
          have hother : first ≠ .steal nextCuId := by
            rintro rfl
            exact hviable (decide_eq_true rfl)
          rw [List.count_cons_of_ne hother]
          exact ih hrest hleft

theorem count_of_none (h : tryDequeue nextCuId jobs = none) :
    jobs.count .decode = 0 ∧ jobs.count (.steal nextCuId) = 0 := by
  have hviable := tryDequeue_eq_none.mp h
  constructor
  · refine List.count_eq_zero.mpr fun hmem => ?_
    cases hviable _ hmem
  · refine List.count_eq_zero.mpr fun hmem => ?_
    exact absurd rfl (of_decide_eq_false (hviable _ hmem))

theorem Heard.idle (h : q.Heard) (hidles : q.Idles q') : q'.Heard where
  stacked := by
    rw [hidles.jobs]
    exact h.stacked
  ready hpos := by
    rw [queued, hidles.jobs, hidles.next, ← queued] at hpos
    exact (h.ready hpos).trans_le hidles.awake
  wakeups hpos := by
    rw [queued, hidles.jobs, hidles.next, ← queued]
    exact (h.wakeups (hpos.trans_le hidles.asleep)).trans hidles.awake

/-- A move that keeps who is awake and who is asleep keeps `Heard`. -/
theorem Heard.keep (h : q.Heard) (hw : q.workers w = p)
    (hq' : q'.workers = Function.update q.workers w p') (hawake : p'.isAwake = p.isAwake)
    (hasleep : p'.isAsleep = p.isAsleep) (hjobs : q'.jobs = q.jobs)
    (hnext : q'.nextCuId = q.nextCuId) : q'.Heard := by
  obtain ⟨hup, hdown⟩ := awake_of_update hw hq'
  refine ⟨hjobs ▸ h.stacked, fun hpos => ?_, fun hpos => ?_⟩
  · rw [queued, hjobs, hnext, ← queued] at hpos
    have := h.ready hpos
    omega
  · have := h.wakeups (by omega)
    rw [queued, hjobs, hnext, ← queued]
    omega

/-- Adding a job, for which a sleeping worker is going to be signalled, keeps `Heard`. -/
theorem Heard.addJob (h : q.Heard) (hw : q.workers w = .ready (some job))
    (hq' : q'.workers = Function.update q.workers w .adding)
    (hjobs : q'.jobs = addJob job q.jobs) (hnext : q'.nextCuId = q.nextCuId) : q'.Heard := by
  obtain ⟨hawake, hasleep⟩ := awake_of_update hw hq'
  change q'.awake + 1 = q.awake + 2 at hawake
  change q'.asleep = q.asleep at hasleep
  have hdecode := count_addJob job q.jobs .decode
  have hsteal := count_addJob job q.jobs (.steal q.nextCuId)
  rw [← hjobs] at hdecode hsteal
  refine ⟨hjobs ▸ stacked_addJob h.stacked, fun _ => by omega, fun hsleeps => ?_⟩
  have hbefore := h.wakeups (hasleep ▸ hsleeps)
  rw [queued] at hbefore
  rw [queued, hnext]
  cases job with
  | decode =>
      rw [if_pos rfl] at hdecode
      rw [if_neg (Job.decode_ne_steal _)] at hsteal
      omega
  | steal cu =>
      rw [if_neg (Job.steal_ne_decode cu)] at hdecode
      split at hsteal <;> omega

/-- The signal for an added job wakes a worker unless none is asleep. -/
theorem Heard.signalAdded (h : q.Heard) (hw : q.workers w = .adding)
    (hsignals : Signals (Function.update q.workers w .looking) q'.workers)
    (hjobs : q'.jobs = q.jobs) (hnext : q'.nextCuId = q.nextCuId) : q'.Heard := by
  have hawake := tally_update Worker.isAwake q.workers w .looking
  have hasleep : tally Worker.isAsleep (Function.update q.workers w .looking) = q.asleep :=
    tally_update_of_eq (by rw [hw]; rfl)
  have hpos := le_tally Worker.isAwake (Function.update q.workers w .looking) w
  rw [hw] at hawake
  rw [Function.update_self] at hpos
  change tally Worker.isAwake _ + 2 = q.awake + 1 at hawake
  change 1 ≤ _ at hpos
  have hwakes := tally_awake hsignals
  rw [hasleep, ← awake, ← asleep] at hwakes
  refine ⟨hjobs ▸ h.stacked, fun _ => by omega, fun hsleeps => ?_⟩
  have hbefore := h.wakeups (by omega)
  rw [queued, hjobs, hnext, ← queued]
  omega

theorem Heard.dequeue (h : q.Heard) (hordered : q.Ordered limit total) {abort : Bool}
    (hw : q.workers w = .loaded abort)
    (hq' : q'.workers = Function.update q.workers w job.worker)
    (hfound : tryDequeue q.nextCuId q.jobs = some (job, q'.jobs))
    (hnext : q'.nextCuId = q.nextCuId) : q'.Heard := by
  obtain ⟨hawake, hasleep⟩ := awake_of_update hw hq'
  have hdecode := count_of_tryDequeue hfound .decode
  have hsteal := count_of_tryDequeue hfound (.steal q.nextCuId)
  have hnone : q'.queued q'.nextCuId = 0 := by
    rw [queued, hnext]
    cases job with
    | decode =>
        have := count_of_decode h.stacked hfound
        omega
    | steal cu =>
        have hturn : cu = q.nextCuId := of_decide_eq_true (viable_of_tryDequeue hfound)
        have honce := hordered.once q.nextCuId
        rw [queued] at honce
        rw [if_pos (by rw [hturn])] at hsteal
        omega
  refine ⟨h.stacked.sublist (tryDequeue_sublist hfound), fun hpos => by omega, fun hsleeps => ?_⟩
  rw [hnone]
  cases job with
  | decode =>
      change q'.awake + 1 = q.awake at hawake
      change q'.asleep = q.asleep at hasleep
      have := h.wakeups (hasleep ▸ hsleeps)
      rw [if_pos rfl] at hdecode
      omega
  | steal cu =>
      change q'.awake + 1 = q.awake at hawake
      change q'.asleep = q.asleep at hasleep
      have hturn : cu = q.nextCuId := of_decide_eq_true (viable_of_tryDequeue hfound)
      have := h.wakeups (hasleep ▸ hsleeps)
      rw [queued] at this
      rw [if_neg (Job.steal_ne_decode cu)] at hdecode
      rw [if_pos (by rw [hturn])] at hsteal
      omega

theorem Heard.wait (h : q.Heard) (hnone : tryDequeue q.nextCuId q.jobs = none)
    (hjobs : q'.jobs = q.jobs) (hnext : q'.nextCuId = q.nextCuId) : q'.Heard := by
  obtain ⟨hdecode, hsteal⟩ := count_of_none hnone
  refine ⟨hjobs ▸ h.stacked, fun hpos => ?_, fun _ => ?_⟩
  · rw [queued, hjobs, hnext] at hpos
    omega
  · rw [queued, hjobs, hnext]
    omega

/-- When its turn comes a CU may be in a job already, which its predecessor's worker sees. -/
theorem Heard.incNextCuId (h : q.Heard) (hordered : q.Ordered limit total) {cu : ℕ}
    (hw : q.workers w = .stolen cu)
    (hq' : q'.workers = Function.update q.workers w (.ready (some .decode)))
    (hjobs : q'.jobs = q.jobs) (hnext : q'.nextCuId = q.nextCuId + 1) : q'.Heard := by
  obtain ⟨hawake, hasleep⟩ := awake_of_update hw hq'
  change q'.awake = q.awake + 1 at hawake
  change q'.asleep = q.asleep at hasleep
  have honce := hordered.once (q.nextCuId + 1)
  refine ⟨hjobs ▸ h.stacked, fun _ => by omega, fun hsleeps => ?_⟩
  have := h.wakeups (hasleep ▸ hsleeps)
  rw [queued, hjobs, hnext, ← queued]
  omega

theorem Heard.step (h : q.Heard) (hordered : q.Ordered limit total)
    (hwrap : ∀ k ≤ total, wrap k = k)
    (hstep : QueueStep wrap total kind q q') (hkind : kind ≠ .failure) : q'.Heard := by
  cases kind with
  | failure => exact absurd rfl hkind
  | move => exact h.idle (idles_of_move hstep)
  | spurious => exact h.idle (idles_of_wake hstep)
  | work =>
      cases hstep with
      | enqueue hw hfree => exact h.addJob hw rfl rfl rfl
      | signalAdded hw hsignals => exact h.signalAdded hw hsignals rfl rfl
      | dequeue hw hfound => exact h.dequeue hordered hw rfl hfound rfl
      | wait hw hnone => exact h.wait hnone rfl rfl
      | nextCu hw herror hlt => exact h.keep hw rfl rfl rfl rfl rfl
      | noMoreCus hw herror hread => exact h.keep hw rfl rfl rfl rfl rfl
      | steal hw => exact h.keep hw rfl rfl rfl rfl rfl
      | incNextCuId hw hfree =>
          obtain ⟨-, -, -, hlt⟩ := hordered.stolen_eq hw
          have hle := hordered.read_le
          have hcreated := hordered.created_le
          exact h.incNextCuId hordered hw rfl rfl (hwrap _ (by omega))

/-! ## The mutex and the threads -/

/-- A move that reports no failure and keeps the mutex with its owner keeps `Quiet`. -/
theorem Quiet.of_moves (h : q.Quiet) (hmoves : q.Moves p p' q') (hsound : p'.isUnsound = 0)
    (hinside : p'.isInside + q.locked.toNat = p.isInside + q'.locked.toNat)
    (habort : q'.abort = q.abort) (herror : q'.error = q.error) (hcreated : q'.created = q.created)
    (hborn : ∀ v, q'.workers v = .uncreated → q.workers v = .uncreated) : q'.Quiet where
  abort := habort.trans h.abort
  error := herror.trans h.error
  sound := by
    have hmoved := hmoves.tally Worker.isUnsound rfl
    have := h.sound
    omega
  inside := by
    have hmoved := hmoves.tally Worker.isInside rfl
    have := h.inside
    omega
  created_le := hcreated ▸ h.created_le
  born v hv := by
    rw [hcreated]
    exact h.born v (hborn v hv)

theorem Quiet.locked (h : q.Quiet) (hw : q.workers w = p) (hp : p.isInside = 1) :
    q.locked = true := by
  have hle := le_tally Worker.isInside q.workers w
  rw [hw, hp, h.inside] at hle
  cases hlocked : q.locked with
  | true => rfl
  | false =>
      rw [hlocked] at hle
      cases hle

theorem hasTicket_le (p : Worker) : p.hasTicket ≤ 1 := by
  unfold Worker.hasTicket
  split <;> omega

theorem exists_signals (ws : Fin n → Worker) : ∃ ws', Signals ws ws' := by
  by_cases hsleeps : ∃ w, ws w = .asleep
  · obtain ⟨w, hw⟩ := hsleeps
    exact ⟨_, .wakes w hw⟩
  · exact ⟨ws, .unheard (not_exists.mp hsleeps)⟩

theorem isUnsound_worker (job : Job) : job.worker.isUnsound = 0 ∧ job.worker.isInside = 0 := by
  cases job with
  | decode => exact ⟨rfl, rfl⟩
  | steal cu => exact ⟨rfl, rfl⟩

theorem worker_ne_uncreated (job : Job) : job.worker ≠ .uncreated := by
  cases job with
  | decode => exact nofun
  | steal cu => exact nofun

theorem Quiet.move (h : q.Quiet) (hstep : QueueStep wrap total .move q q') : q'.Quiet := by
  cases hstep with
  | lock hw hfree =>
      exact h.of_moves (.of_update hw rfl) rfl (by rw [hfree]; rfl) rfl rfl rfl
        fun v => uncreated_of_update nofun
  | load hw =>
      refine h.of_moves (.of_update hw rfl) ?_ rfl rfl rfl rfl fun v => uncreated_of_update nofun
      rw [h.abort]
      rfl
  | relock hw hfree =>
      exact h.of_moves (.of_update hw rfl) rfl (by rw [hfree]; rfl) rfl rfl rfl
        fun v => uncreated_of_update nofun
  | recode hw =>
      exact h.of_moves (.of_update hw rfl) rfl rfl rfl rfl rfl fun v => uncreated_of_update nofun
  | returnOk hw herror =>
      exact h.of_moves (.of_update hw rfl) rfl rfl rfl rfl rfl fun v => uncreated_of_update nofun
  | create hw hturn =>
      exact h.of_moves (.of_update hw rfl) rfl rfl rfl rfl rfl fun v => uncreated_of_update nofun
  | @noteCreated _ w hw hturn =>
      refine ⟨h.abort, rfl, h.sound, h.inside, ?_, fun v hv => ?_⟩
      · have hlt := w.isLt
        change q.created + 1 ≤ n + 1
        omega
      · have hle := h.born v hv
        have hne : q.created ≠ v := fun heq => hw (by rwa [Fin.ext (hturn.symm.trans heq)])
        change q.created + 1 ≤ v
        omega
  | allCreated hturn =>
      refine ⟨h.abort, rfl, h.sound, h.inside, le_rfl, fun v hv => ?_⟩
      have hle := h.born v hv
      have hlt := v.isLt
      omega
  | join hcreated hturn hw => exact ⟨h.abort, h.error, h.sound, h.inside, h.created_le, h.born⟩

theorem Quiet.work (h : q.Quiet) (hstep : QueueStep wrap total .work q q') : q'.Quiet := by
  cases hstep with
  | enqueue hw hfree =>
      exact h.of_moves (.of_update hw rfl) rfl (by rw [hfree]; rfl) rfl rfl rfl
        fun v => uncreated_of_update nofun
  | signalAdded hw hsignals =>
      exact h.of_moves (.of_signals hw hsignals) rfl (by rw [h.locked hw rfl]; rfl) rfl rfl rfl
        fun v hv => uncreated_of_update (p := .looking) nofun (uncreated_of_signals hsignals hv)
  | dequeue hw hfound =>
      obtain ⟨hsound, hinside⟩ := isUnsound_worker _
      exact h.of_moves (.of_update hw rfl) hsound (by rw [hinside, h.locked hw rfl]; rfl) rfl rfl
        rfl
        fun v => uncreated_of_update (worker_ne_uncreated _)
  | wait hw hnone =>
      exact h.of_moves (.of_update hw rfl) rfl (by rw [h.locked hw rfl]; rfl) rfl rfl rfl
        fun v => uncreated_of_update nofun
  | nextCu hw herror hlt =>
      exact h.of_moves (.of_update hw rfl) rfl rfl rfl rfl rfl fun v => uncreated_of_update nofun
  | noMoreCus hw herror hread =>
      exact h.of_moves (.of_update hw rfl) rfl rfl rfl rfl rfl fun v => uncreated_of_update nofun
  | steal hw =>
      exact h.of_moves (.of_update hw rfl) rfl rfl rfl rfl rfl fun v => uncreated_of_update nofun
  | incNextCuId hw hfree =>
      exact h.of_moves (.of_update hw rfl) rfl rfl rfl rfl rfl fun v => uncreated_of_update nofun

theorem Quiet.step (h : q.Quiet) (hstep : QueueStep wrap total kind q q')
    (hkind : kind ≠ .failure) : q'.Quiet := by
  cases kind with
  | failure => exact absurd rfl hkind
  | move => exact h.move hstep
  | work => exact h.work hstep
  | spurious =>
      cases hstep with
      | wake hw =>
          exact h.of_moves (.of_update hw rfl) rfl rfl rfl rfl rfl
            fun v => uncreated_of_update nofun

end Steps

/-! ## Runs without failures -/

/-- The CUs and the jobs are where they are to be, and who is needed is awake. -/
structure Supplied (limit total : ℕ) (q : JobQueue n) : Prop where
  ordered : q.Ordered limit total
  whole : q.Whole
  fed : q.Fed limit total
  heard : q.Heard

/-- The invariant of a run without failures. -/
structure Working (limit total : ℕ) (q : JobQueue n) : Prop extends Supplied limit total q where
  quiet : q.Quiet

section Work

variable {q q' : JobQueue n} {w : Fin n} {p p' : Worker} {job : Job} {jobs jobs' : List Job}
  {wrap : ℕ → ℕ} {nextCuId limit total : ℕ} {kind : StepKind}

theorem supplied_start : (start limit : JobQueue n).Supplied limit total where
  ordered := ordered_start
  whole := ⟨rfl, fun k _ hlt => absurd hlt (Nat.not_lt_zero k)⟩
  fed := ⟨by simp [tickets, start, tally_const, Worker.hasTicket],
    fun hpos => by simp [done, start, tally_const, Worker.isDone] at hpos⟩
  heard :=
    { stacked := List.pairwise_replicate.mpr (Or.inr fun _ => rfl)
      ready := fun hpos => by simp [queued, start, List.count_replicate] at hpos
      wakeups := fun hpos => by simp [asleep, start, tally_const, Worker.isAsleep] at hpos }

theorem working_start : (start limit : JobQueue n).Working limit total where
  toSupplied := supplied_start
  quiet :=
    { abort := rfl
      error := rfl
      sound := by simp [start, tally_const, Worker.isUnsound]
      inside := by simp [start, tally_const, Worker.isInside]
      created_le := Nat.zero_le _
      born := fun w _ => Nat.zero_le _ }

theorem Supplied.step (h : q.Supplied limit total) (hwrap : ∀ k ≤ total, wrap k = k)
    (hstep : QueueStep wrap total kind q q') (hkind : kind ≠ .failure) :
    q'.Supplied limit total where
  ordered := h.ordered.step hwrap hstep
  whole := h.whole.step h.ordered hwrap hstep hkind
  fed := h.fed.step hstep hkind
  heard := h.heard.step h.ordered hwrap hstep hkind

theorem Working.step (h : q.Working limit total) (hwrap : ∀ k ≤ total, wrap k = k)
    (hstep : QueueStep wrap total kind q q') (hkind : kind ≠ .failure) :
    q'.Working limit total where
  toSupplied := h.toSupplied.step hwrap hstep hkind
  quiet := h.quiet.step hstep hkind

theorem working_of_reaches (htotal : total < 2 ^ 32)
    (h : QueueReaches n limit total (fun kind => kind ≠ .failure) q) : q.Working limit total := by
  induction h with
  | refl => exact working_start
  | tail _ hstep ih =>
      obtain ⟨kind, hkind, hstep⟩ := hstep
      exact ih.step (cuId_of_le htotal) hstep hkind

/-- A step that a thread takes on its own as long as nothing fails. -/
def Advances (total : ℕ) (q q' : JobQueue n) : Prop :=
  QueueStep cuId total .work q q' ∨ QueueStep cuId total .move q q'

theorem Quiet.isUnsound_eq (h : q.Quiet) (w : Fin n) : (q.workers w).isUnsound = 0 :=
  tally_eq_zero.mp h.sound w

/-- While threads are being created, a step is possible that lowers the measure. -/
theorem advances_of_created (hcreated : q.created ≤ n) :
    ∃ q', Advances total q q' := by
  rcases Nat.lt_or_eq_of_le hcreated with hlt | heq
  · by_cases hborn : q.workers ⟨q.created, hlt⟩ = .uncreated
    · exact ⟨_, Or.inr (.create hborn rfl)⟩
    · exact ⟨_, Or.inr (.noteCreated hborn rfl)⟩
  · exact ⟨_, Or.inr (.allCreated heq)⟩

/-- While a worker has the mutex, a step is possible that lowers the measure. -/
theorem Quiet.advances_of_inside (h : q.Quiet) (hw : 0 < (q.workers w).isInside) :
    ∃ q', Advances total q q' := by
  cases hp : q.workers w with
  | adding =>
      obtain ⟨ws, hsignals⟩ := exists_signals (Function.update q.workers w .looking)
      exact ⟨_, Or.inl (.signalAdded hp hsignals)⟩
  | looking => exact ⟨_, Or.inr (.load hp)⟩
  | loaded abort =>
      have habort : abort = false := by
        have hsound := h.isUnsound_eq w
        rw [hp] at hsound
        cases abort with
        | false => rfl
        | true => cases hsound
      rw [habort] at hp
      cases hfound : tryDequeue q.nextCuId q.jobs with
      | none => exact ⟨_, Or.inl (.wait hp hfound)⟩
      | some found => exact ⟨_, Or.inl (.dequeue hp hfound)⟩
  | _ =>
      rw [hp] at hw
      cases hw

/-- Any other worker that is neither asleep nor has returned goes on when the mutex is free. -/
theorem Working.advances_of_awake (h : q.Working limit total) (hfree : q.locked = false)
    (hborn : q.workers w ≠ .uncreated) (hasleep : q.workers w ≠ .asleep)
    (hreturned : q.workers w ≠ .returned true) : ∃ q', Advances total q q' := by
  have hsound := h.quiet.isUnsound_eq w
  have hinside := tally_eq_zero.mp (h.quiet.inside.trans (by rw [hfree]; rfl)) w
  cases hp : q.workers w with
  | uncreated => exact absurd hp hborn
  | asleep => exact absurd hp hasleep
  | ready job =>
      cases job with
      | none => exact ⟨_, Or.inr (.lock hp hfree)⟩
      | some job => exact ⟨_, Or.inl (.enqueue hp hfree)⟩
  | woken => exact ⟨_, Or.inr (.relock hp hfree)⟩
  | decoding =>
      rcases Nat.lt_or_eq_of_le h.ordered.read_le with hlt | heq
      · exact ⟨_, Or.inl (.nextCu hp h.quiet.error hlt)⟩
      · exact ⟨_, Or.inl (.noMoreCus hp h.quiet.error heq)⟩
  | recoding cu => exact ⟨_, Or.inr (.recode hp)⟩
  | stealing cu => exact ⟨_, Or.inl (.steal hp)⟩
  | stolen cu => exact ⟨_, Or.inl (.incNextCuId hp hfree)⟩
  | stopping => exact ⟨_, Or.inr (.returnOk hp h.quiet.error)⟩
  | returned ok =>
      cases ok with
      | true => exact absurd hp hreturned
      | false =>
          rw [hp] at hsound
          cases hsound
  | adding | looking | loaded _ =>
      rw [hp] at hinside
      cases hinside
  | failing _ | leaving | signalling | crashed =>
      rw [hp] at hsound
      cases hsound

theorem tally_of_idle (hidle : ∀ v, (q.workers v).isIdle = true) {f : Worker → ℕ}
    (hf : ∀ p : Worker, p.isIdle = true → f p = 0) : tally f q.workers = 0 :=
  tally_eq_zero.mpr fun v => hf _ (hidle v)

/-- Where every worker is asleep or has returned, the next CU to be stolen is in a job. -/
theorem Supplied.queued_next (h : q.Supplied limit total) (hlt : q.nextCuId < q.nrCusCreated)
    (hidle : ∀ v, (q.workers v).isIdle = true) : q.queued q.nextCuId = 1 := by
  have hheld := h.whole.held q.nextCuId le_rfl hlt
  have hpending : q.pending q.nextCuId = 0 :=
    tally_of_idle hidle fun p hp => by cases p <;> first | rfl | cases hp
  have hstealing : q.stealing q.nextCuId = 0 :=
    tally_of_idle hidle fun p hp => by cases p <;> first | rfl | cases hp
  have hstolen : q.stolen q.nextCuId = 0 :=
    tally_of_idle hidle fun p hp => by cases p <;> first | rfl | cases hp
  omega

theorem awake_of_idle (hidle : ∀ v, (q.workers v).isIdle = true) : q.awake = 0 :=
  tally_of_idle hidle fun p hp => by cases p <;> first | rfl | cases hp

/-- Where every worker is asleep or has returned, none of them is asleep. -/
theorem Supplied.not_asleep (h : q.Supplied limit total) (hlimit : n ≤ limit)
    (hidle : ∀ v, (q.workers v).isIdle = true) : q.workers w ≠ .asleep := by
  intro hw
  have hawake := awake_of_idle hidle
  have hasleep : 0 < q.asleep := by
    refine lt_of_lt_of_le ?_ (le_tally Worker.isAsleep q.workers w)
    rw [hw]
    exact Nat.zero_lt_one
  have hnone := h.heard.wakeups hasleep
  have hfew : q.tickets < n := by
    have hlt : tally Worker.hasTicket q.workers < Fintype.card (Fin n) :=
      tally_lt_card hasTicket_le (i := w) (by rw [hw]; rfl)
    rwa [Fintype.card_fin] at hlt
  have hjobs := h.fed.tickets
  obtain ⟨job, hjob⟩ := List.exists_mem_of_length_pos (l := q.jobs) (by omega)
  cases job with
  | decode =>
      have hcount := List.count_pos_iff.mpr hjob
      omega
  | steal cu =>
      have hcount : 0 < q.queued cu := List.count_pos_iff.mpr hjob
      have hcreated : cu < q.nrCusCreated := by
        by_contra hle
        have := h.ordered.unread cu (not_lt.mp hle)
        omega
      have hturn : q.nextCuId ≤ cu := by
        by_contra hlt
        have := h.ordered.past cu (not_le.mp hlt)
        omega
      have hnext := h.queued_next (hturn.trans_lt hcreated) hidle
      omega

/-- As long as a worker has not returned, one of the threads goes on. -/
theorem Working.advances (h : q.Working limit total) (hlimit : n ≤ limit)
    (hw : q.workers w ≠ .returned true) : ∃ q', Advances total q q' := by
  by_cases hcreated : q.created ≤ n
  · exact advances_of_created hcreated
  have hborn : ∀ v, q.workers v ≠ .uncreated := by
    intro v hv
    have hle := h.quiet.born v hv
    have hlt := v.isLt
    omega
  by_cases hinside : ∃ v, 0 < (q.workers v).isInside
  · obtain ⟨v, hv⟩ := hinside
    exact h.quiet.advances_of_inside hv
  have hfree : q.locked = false := by
    have hnone : tally Worker.isInside q.workers = 0 :=
      tally_eq_zero.mpr fun v => Nat.eq_zero_of_not_pos fun hv => hinside ⟨v, hv⟩
    rw [h.quiet.inside] at hnone
    cases hlocked : q.locked with
    | false => rfl
    | true =>
        rw [hlocked] at hnone
        cases hnone
  by_contra hstuck
  have hidle : ∀ v, q.workers v = .asleep ∨ q.workers v = .returned true := by
    intro v
    by_contra hv
    obtain ⟨hasleep, hreturned⟩ := not_or.mp hv
    exact hstuck (h.advances_of_awake hfree (hborn v) hasleep hreturned)
  rcases hidle w with hasleep | hreturned
  · refine h.not_asleep hlimit (fun v => ?_) hasleep
    rcases hidle v with hv | hv <;> rw [hv] <;> rfl
  · exact hw hreturned

/-- When all workers have returned all CUs have been stolen. -/
theorem Working.steals_eq (h : q.Working limit total) (hn : 0 < n)
    (hreturned : ∀ v, q.workers v = .returned true) : q.steals = List.range total := by
  have hdone : 0 < q.done := by
    refine lt_of_lt_of_le ?_ (le_tally Worker.isDone q.workers ⟨0, hn⟩)
    rw [hreturned]
    exact Nat.zero_lt_one
  have hread := h.fed.ended hdone
  have hcreated := h.whole.created_eq
  have hidle : ∀ v, (q.workers v).isIdle = true := fun v => by
    rw [hreturned]
    rfl
  have hawake := awake_of_idle hidle
  have hnext : q.nextCuId = total := by
    have hle := h.ordered.next_le
    by_contra hne
    have hqueued := h.queued_next (by omega) hidle
    have := h.heard.ready (by omega)
    omega
  have hlength : q.steals.length = total := by
    rcases h.ordered.length with ⟨hlen, -⟩ | ⟨-, hlt, -⟩
    · exact hlen.trans hnext
    · omega
  rw [h.ordered.steals, hlength]

/-! ## The work ends -/

/-- More than the steps that are left, without the wakeups that no one asked for. -/
def measure (total : ℕ) (q : JobQueue n) : ℕ :=
  18 * (total - q.cusRead) + tally Worker.weight q.workers + (q.jobs.map Job.weight).sum +
    (n + 1 - q.created) + q.toJoin

theorem weight_of_update (hw : q.workers w = p)
    (hq' : q'.workers = Function.update q.workers w p') :
    tally Worker.weight q'.workers + p.weight = tally Worker.weight q.workers + p'.weight := by
  have hweight := tally_update Worker.weight q.workers w p'
  rwa [hw, ← hq'] at hweight

theorem sum_addJob :
    ((addJob job jobs).map Job.weight).sum = (jobs.map Job.weight).sum + job.weight := by
  cases job with
  | decode => simp [addJob]
  | steal cu => simp [addJob, Nat.add_comm]

theorem sum_of_tryDequeue (h : tryDequeue nextCuId jobs = some (job, jobs')) :
    (jobs.map Job.weight).sum = job.weight + (jobs'.map Job.weight).sum := by
  rw [((tryDequeue_perm h).map Job.weight).sum_eq, List.map_cons, List.sum_cons]

/-- A move that lowers the weights of the worker and the jobs together lowers the measure. -/
theorem measure_lt (hw : q.workers w = p) (hq' : q'.workers = Function.update q.workers w p')
    (hjobs : (q'.jobs.map Job.weight).sum + p'.weight < (q.jobs.map Job.weight).sum + p.weight)
    (hread : q'.cusRead = q.cusRead) (hcreated : q'.created = q.created)
    (hjoin : q'.toJoin = q.toJoin) : q'.measure total < q.measure total := by
  have hweight := weight_of_update hw hq'
  rw [measure, measure, hread, hcreated, hjoin]
  omega

theorem measure_lt_of_addJob (hw : q.workers w = .ready (some job))
    (hq' : q'.workers = Function.update q.workers w .adding)
    (hjobs : q'.jobs = addJob job q.jobs) (hread : q'.cusRead = q.cusRead)
    (hcreated : q'.created = q.created) (hjoin : q'.toJoin = q.toJoin) :
    q'.measure total < q.measure total := by
  refine measure_lt hw hq' ?_ hread hcreated hjoin
  rw [hjobs, sum_addJob]
  cases job with
  | decode =>
      simp only [Worker.weight, Job.weight]
      omega
  | steal cu =>
      simp only [Worker.weight, Job.weight]
      omega

theorem measure_lt_of_signalAdded (hw : q.workers w = .adding)
    (hsignals : Signals (Function.update q.workers w .looking) q'.workers)
    (hjobs : q'.jobs = q.jobs) (hread : q'.cusRead = q.cusRead)
    (hcreated : q'.created = q.created) (hjoin : q'.toJoin = q.toJoin) :
    q'.measure total < q.measure total := by
  have hweight := tally_update Worker.weight q.workers w .looking
  have hwakes := tally_weight hsignals
  rw [hw] at hweight
  simp only [Worker.weight] at hweight
  rw [measure, measure, hread, hcreated, hjobs, hjoin]
  omega

theorem measure_lt_of_nextCu (hw : q.workers w = .decoding)
    (hq' : q'.workers = Function.update q.workers w (.recoding q.nrCusCreated))
    (hjobs : q'.jobs = q.jobs) (hread : q'.cusRead = q.cusRead + 1) (hlt : q.cusRead < total)
    (hcreated : q'.created = q.created) (hjoin : q'.toJoin = q.toJoin) :
    q'.measure total < q.measure total := by
  have hweight : tally Worker.weight q'.workers + 2 = tally Worker.weight q.workers + 19 :=
    weight_of_update hw hq'
  rw [measure, measure, hjobs, hread, hcreated, hjoin]
  omega

theorem measure_lt_of_created (hworkers : q'.workers = q.workers) (hjobs : q'.jobs = q.jobs)
    (hread : q'.cusRead = q.cusRead) (hlt : q.created < q'.created) (hle : q.created ≤ n)
    (hjoin : q'.toJoin = q.toJoin) : q'.measure total < q.measure total := by
  rw [measure, measure, hworkers, hjobs, hread, hjoin]
  omega

theorem weight_worker (job : Job) : job.worker.weight ≤ job.weight := by
  cases job with
  | decode => exact le_rfl
  | steal cu => exact le_rfl

theorem measure_lt_of_work (hstep : QueueStep wrap total .work q q') :
    q'.measure total < q.measure total := by
  cases hstep with
  | enqueue hw hfree => exact measure_lt_of_addJob hw rfl rfl rfl rfl rfl
  | signalAdded hw hsignals => exact measure_lt_of_signalAdded hw hsignals rfl rfl rfl rfl
  | @dequeue _ w abort job jobs hw hfound =>
      have hless := weight_worker job
      have hsum := sum_of_tryDequeue hfound
      refine measure_lt hw rfl ?_ rfl rfl rfl
      change (jobs.map Job.weight).sum + job.worker.weight < (q.jobs.map Job.weight).sum + 1
      omega
  | wait hw hnone => exact measure_lt hw rfl (Nat.lt_succ_self _) rfl rfl rfl
  | nextCu hw herror hlt => exact measure_lt_of_nextCu hw rfl rfl rfl hlt rfl rfl
  | noMoreCus hw herror hread => exact measure_lt hw rfl (Nat.lt_succ_self _) rfl rfl rfl
  | steal hw => exact measure_lt hw rfl (Nat.lt_succ_self _) rfl rfl rfl
  | incNextCuId hw hfree => exact measure_lt hw rfl (Nat.lt_succ_self _) rfl rfl rfl

theorem measure_lt_of_move (hstep : QueueStep wrap total .move q q') :
    q'.measure total < q.measure total := by
  cases hstep with
  | lock hw hfree => exact measure_lt hw rfl (Nat.lt_succ_self _) rfl rfl rfl
  | load hw => exact measure_lt hw rfl (Nat.lt_succ_self _) rfl rfl rfl
  | relock hw hfree => exact measure_lt hw rfl (Nat.lt_succ_self _) rfl rfl rfl
  | recode hw => exact measure_lt hw rfl (Nat.lt_succ_self _) rfl rfl rfl
  | returnOk hw herror => exact measure_lt hw rfl (Nat.lt_succ_self _) rfl rfl rfl
  | create hw hturn => exact measure_lt hw rfl (Nat.lt_succ_self _) rfl rfl rfl
  | @noteCreated _ w hw hturn =>
      have hlt := w.isLt
      exact measure_lt_of_created rfl rfl rfl (Nat.lt_succ_self q.created) (by omega) rfl
  | allCreated hturn =>
      exact measure_lt_of_created rfl rfl rfl (Nat.lt_succ_of_le hturn.le) hturn.le rfl
  | join hcreated hturn hw =>
      exact Nat.add_lt_add_left ((Nat.lt_succ_self _).trans_eq hturn.symm) _

theorem measure_lt_of_advances (hstep : Advances total q q') :
    q'.measure total < q.measure total := by
  rcases hstep with hstep | hstep
  · exact measure_lt_of_work hstep
  · exact measure_lt_of_move hstep

theorem Working.advance (h : q.Working limit total) (htotal : total < 2 ^ 32)
    (hstep : Advances total q q') : q'.Working limit total := by
  rcases hstep with hstep | hstep
  · exact h.step (cuId_of_le htotal) hstep nofun
  · exact h.step (cuId_of_le htotal) hstep nofun

theorem nrWorkers_pos (nrJobs : ℕ) : 0 < nrWorkers nrJobs := by
  unfold nrWorkers
  split <;> omega

theorem nrWorkers_le_limit (nrJobs : ℕ) : nrWorkers nrJobs ≤ decodedCusLimit nrJobs := by
  unfold nrWorkers decodedCusLimit
  split <;> omega

/-- From every state reached without a failure every sequence of steps without one ends, and
where no thread can step all threads have returned and all CUs of the file have been stolen in
their order. -/
theorem allCus_stolen (nrJobs : ℕ) {q : JobQueue (nrWorkers nrJobs)} (htotal : total < 2 ^ 32)
    (h : QueueReaches (nrWorkers nrJobs) (decodedCusLimit nrJobs) total
      (fun kind => kind ≠ .failure) q) :
    (∀ run : ℕ → JobQueue (nrWorkers nrJobs), run 0 = q →
        ∃ i, ¬Advances total (run i) (run (i + 1))) ∧
      ((∀ q', ¬Advances total q q') →
        (∀ w, q.workers w = .returned true) ∧ q.steals = List.range total) := by
  have hworking := working_of_reaches htotal h
  constructor
  · rintro run rfl
    have hkeep : ∀ s s' : JobQueue (nrWorkers nrJobs), s.Working (decodedCusLimit nrJobs) total →
        Advances total s s' → s'.Working (decodedCusLimit nrJobs) total :=
      fun _ _ hgood hstep => hgood.advance htotal hstep
    exact exists_not_step hkeep (fun _ _ _ hstep => measure_lt_of_advances hstep) hworking
  · intro hstuck
    have hreturned : ∀ w, q.workers w = .returned true := by
      intro w
      by_contra hw
      obtain ⟨q', hstep⟩ := hworking.advances (nrWorkers_le_limit nrJobs) hw
      exact hstuck q' hstep
    exact ⟨hreturned, hworking.steals_eq (nrWorkers_pos nrJobs) hreturned⟩

theorem allCus_stolen_two : ∃ q : JobQueue 2, q.steals = [0, 1] ∧
    (∀ run : ℕ → JobQueue 2, run 0 = q → ∃ i, ¬Advances 2 (run i) (run (i + 1))) ∧
      ((∀ q', ¬Advances 2 q q') →
        (∀ w, q.workers w = .returned true) ∧ q.steals = List.range 2) := by
  obtain ⟨q, hrun, hsteals⟩ := reaches_two
  exact ⟨q, hsteals, allCus_stolen 2 (by decide) hrun⟩

end Work

end JobQueue

end Pahole

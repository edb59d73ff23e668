import Pahole.Btf.Libbpf
import Pahole.DwarfLoader.CusList
import Pahole.Support.Workers

/-!
# The queue of the worker threads

The CUs of a file are decoded by several worker threads and handed to the stealer one after
the other.  What a worker does next is a job of `cus_processing_queue`: to decode the next CU
of the file, or to let a decoded CU be stolen.  Here every interleaving of the workers is a
run of one machine; a step is what one thread does between two points at which the others
can be noticed.
-/

namespace Pahole

open Workers

/-! ## Jobs -/

/-- `struct cu_processing_job` -/
inductive Job where
  /-- `JOB_DECODE` -/
  | decode
  /-- `JOB_STEAL`, with the id of the CU -/
  | steal (cu : ℕ)
  deriving DecidableEq

theorem Job.decode_ne_steal (cu : ℕ) : Job.decode ≠ .steal cu := fun h => Job.noConfusion h

theorem Job.steal_ne_decode (cu : ℕ) : Job.steal cu ≠ .decode := fun h => Job.noConfusion h

/-- Whether `cus_queue__try_dequeue` stops at a job. -/
def Job.viable (nextCuId : ℕ) : Job → Bool
  | .steal cu => cu = nextCuId
  | .decode => true

/-- `cus_queue__try_dequeue`: the job and the jobs that are left. -/
def tryDequeue (nextCuId : ℕ) : List Job → Option (Job × List Job)
  | [] => none
  | job :: jobs =>
      if job.viable nextCuId then some (job, jobs)
      else (tryDequeue nextCuId jobs).map fun (found, rest) => (found, job :: rest)

/-- The jobs after `cus_queue__enqdeq_job` has added one. -/
def addJob : Job → List Job → List Job
  | .steal cu, jobs => .steal cu :: jobs
  | .decode, jobs => jobs ++ [.decode]

/-! ## Workers -/

/-- The places in `dwarf_loader__worker_thread`. -/
inductive Worker where
  /-- has no thread yet -/
  | uncreated
  /-- calls `cus_queue__enqdeq_job` -/
  | ready (job : Option Job)
  /-- has the mutex and has added its job, but not signalled yet -/
  | adding
  /-- has the mutex, at the head of the loop of `cus_queue__enqdeq_job` -/
  | looking
  /-- has the mutex, and has loaded `abort` -/
  | loaded (abort : Bool)
  /-- in `pthread_cond_wait` -/
  | asleep
  /-- signalled, but without the mutex -/
  | woken
  /-- has a `JOB_DECODE` -/
  | decoding
  /-- in `die__process_and_recode` with a CU -/
  | recoding (cu : ℕ)
  /-- at `out_error` of `dwarf_loader__decode_next_cu` -/
  | failing (err : ℤ)
  /-- has the `JOB_STEAL` of a CU -/
  | stealing (cu : ℕ)
  /-- `cus__steal_now` has returned -/
  | stolen (cu : ℕ)
  /-- has left the loop -/
  | stopping
  /-- at `out_early` -/
  | leaving
  /-- has set `abort` -/
  | signalling
  /-- returned `DWARF_CB_OK` or `DWARF_CB_ABORT` -/
  | returned (ok : Bool)
  /-- dereferenced the CU that was not created -/
  | crashed
  deriving DecidableEq

/-- Where a worker goes on with a job that it has dequeued. -/
def Job.worker : Job → Worker
  | .decode => .decoding
  | .steal cu => .stealing cu

/-- Where a worker goes on after `dwarf_cus__nextcu` with an error noted: a negative one is
passed on, 1 is taken for the end of the file, and any other for a CU. -/
def workerOfError (err : ℤ) : Worker :=
  if err < 0 then .failing err else if err = 1 then .stopping else .crashed

/-- A number as a `cu->id`, which is a `uint32_t`. -/
def cuId (k : ℕ) : ℕ := u32 k

/-- `cus_processing_queue` and the fields of `struct dwarf_cus` that the workers share. -/
structure JobQueue (n : ℕ) where
  jobs : List Job
  nextCuId : ℕ
  abort : Bool
  locked : Bool
  error : ℤ
  lskStatus : LoadSteal
  /-- how many results of `pthread_create` `dwarf_cus__process_cus` has noted, and one more
  after the loop -/
  created : ℕ
  /-- how many threads `dwarf_cus__process_cus` has still to join -/
  toJoin : ℕ
  /-- how many CUs of the file are before `off` -/
  cusRead : ℕ
  nrCusCreated : ℕ
  workers : Fin n → Worker
  /-- for the proofs only: the ids of the CUs that `die__process_and_recode` returned 0 for -/
  decoded : List ℕ
  /-- for the proofs only: the ids of the CUs that `cus__steal_now` was called with -/
  steals : List ℕ
  /-- for the proofs only: `dwarf_loader__decode_next_cu` has reported an error -/
  failed : Bool
  /-- for the proofs only: `cus__steal_now` has returned `LSK__ABORT` -/
  aborted : Bool

/-- `dwarf_loader__decoded_cus_limit` -/
def decodedCusLimit (nrJobs : ℕ) : ℕ := if 0 < nrJobs then nrJobs * 2 else 2

/-- The number of workers of `dwarf_cus__process_cus` -/
def nrWorkers (nrJobs : ℕ) : ℕ := if 0 < nrJobs then nrJobs else 1

/-- The kind of a step. -/
inductive StepKind where
  /-- the jobs, the CUs, or going to sleep -/
  | work
  /-- only where a thread is -/
  | move
  /-- an error, or what one leads to -/
  | failure
  /-- a wakeup without a signal -/
  | spurious
  deriving DecidableEq

/-- `pthread_cond_signal` wakes a worker that sleeps, if there is one. -/
inductive Signals {n : ℕ} (ws : Fin n → Worker) : (Fin n → Worker) → Prop
  | wakes (w : Fin n) : ws w = .asleep → Signals ws (Function.update ws w .woken)
  | unheard : (∀ w, ws w ≠ .asleep) → Signals ws ws

namespace JobQueue

variable {n : ℕ}

/-- `cus_queue__init` and the jobs that `dwarf_cus__process_cus` starts with. -/
def start (limit : ℕ) : JobQueue n where
  jobs := List.replicate limit .decode
  nextCuId := 0
  abort := false
  locked := false
  error := 0
  lskStatus := .keepit
  created := 0
  toJoin := n
  cusRead := 0
  nrCusCreated := 0
  workers := fun _ => .uncreated
  decoded := []
  steals := []
  failed := false
  aborted := false

def goTo (q : JobQueue n) (w : Fin n) (p : Worker) : JobQueue n :=
  { q with workers := Function.update q.workers w p }

end JobQueue

/-- A step of a worker or of `dwarf_cus__process_cus`, with `total` CUs in the file.  The type
of the ids makes `wrap k` of a number `k`; in the program that is `cuId`. -/
inductive QueueStep {n : ℕ} (wrap : ℕ → ℕ) (total : ℕ) :
    StepKind → JobQueue n → JobQueue n → Prop
  /-- take the mutex and add the job -/
  | enqueue {q : JobQueue n} {w : Fin n} {job : Job} :
      q.workers w = .ready (some job) → q.locked = false →
      QueueStep wrap total .work q
        ({ q with jobs := addJob job q.jobs, locked := true }.goTo w .adding)
  | signalAdded {q : JobQueue n} {w : Fin n} {ws : Fin n → Worker} :
      q.workers w = .adding → Signals (Function.update q.workers w .looking) ws →
      QueueStep wrap total .work q { q with workers := ws }
  /-- take the mutex without a job to add -/
  | lock {q : JobQueue n} {w : Fin n} :
      q.workers w = .ready none → q.locked = false →
      QueueStep wrap total .move q ({ q with locked := true }.goTo w .looking)
  | load {q : JobQueue n} {w : Fin n} :
      q.workers w = .looking → QueueStep wrap total .move q (q.goTo w (.loaded q.abort))
  /-- a job is found -/
  | dequeue {q : JobQueue n} {w : Fin n} {abort : Bool} {job : Job} {jobs : List Job} :
      q.workers w = .loaded abort → tryDequeue q.nextCuId q.jobs = some (job, jobs) →
      QueueStep wrap total .work q ({ q with jobs := jobs, locked := false }.goTo w job.worker)
  /-- no job is found, and there is nothing to wait for -/
  | giveUp {q : JobQueue n} {w : Fin n} :
      q.workers w = .loaded true → tryDequeue q.nextCuId q.jobs = none →
      QueueStep wrap total .failure q ({ q with locked := false }.goTo w .leaving)
  | wait {q : JobQueue n} {w : Fin n} :
      q.workers w = .loaded false → tryDequeue q.nextCuId q.jobs = none →
      QueueStep wrap total .work q ({ q with locked := false }.goTo w .asleep)
  | wake {q : JobQueue n} {w : Fin n} :
      q.workers w = .asleep → QueueStep wrap total .spurious q (q.goTo w .woken)
  | relock {q : JobQueue n} {w : Fin n} :
      q.workers w = .woken → q.locked = false →
      QueueStep wrap total .move q ({ q with locked := true }.goTo w .looking)
  /-- `dwarf_cus__nextcu` finds an error noted -/
  | seeError {q : JobQueue n} {w : Fin n} :
      q.workers w = .decoding → q.error ≠ 0 →
      QueueStep wrap total .failure q (q.goTo w (workerOfError q.error))
  /-- `dwarf_cus__nextcu` creates a CU -/
  | nextCu {q : JobQueue n} {w : Fin n} :
      q.workers w = .decoding → q.error = 0 → q.cusRead < total →
      QueueStep wrap total .work q
        ({ q with cusRead := q.cusRead + 1, nrCusCreated := wrap (q.nrCusCreated + 1) }.goTo w
          (.recoding q.nrCusCreated))
  /-- `dwarf_cus__create_cu` fails -/
  | noMemory {q : JobQueue n} {w : Fin n} :
      q.workers w = .decoding → q.error = 0 → q.cusRead < total →
      QueueStep wrap total .failure q
        ({ q with cusRead := q.cusRead + 1, error := 12 }.goTo w (.failing (-1)))
  /-- `dwarf_offdie` fails, and there is no CU to recode -/
  | noCuDie {q : JobQueue n} {w : Fin n} :
      q.workers w = .decoding → q.error = 0 → q.cusRead < total →
      QueueStep wrap total .failure q (q.goTo w .crashed)
  /-- `dwarf_nextcu` fails -/
  | badCu {q : JobQueue n} {w : Fin n} :
      q.workers w = .decoding → q.error = 0 →
      QueueStep wrap total .failure q (q.goTo w (.failing (-1)))
  /-- there are no more CUs; the job is freed -/
  | noMoreCus {q : JobQueue n} {w : Fin n} :
      q.workers w = .decoding → q.error = 0 → q.cusRead = total →
      QueueStep wrap total .work q (q.goTo w .stopping)
  | recode {q : JobQueue n} {w : Fin n} {cu : ℕ} :
      q.workers w = .recoding cu →
      QueueStep wrap total .move q
        ({ q with decoded := q.decoded ++ [cu] }.goTo w (.ready (some (.steal cu))))
  | recodeFails {q : JobQueue n} {w : Fin n} {cu : ℕ} {err : ℤ} :
      q.workers w = .recoding cu → err ≠ 0 →
      QueueStep wrap total .failure q (q.goTo w (.failing err))
  /-- the error is noted, and the job freed -/
  | fail {q : JobQueue n} {w : Fin n} {err : ℤ} :
      q.workers w = .failing err →
      QueueStep wrap total .failure q ({ q with error := err, failed := true }.goTo w .stopping)
  | steal {q : JobQueue n} {w : Fin n} {cu : ℕ} :
      q.workers w = .stealing cu →
      QueueStep wrap total .work q ({ q with steals := q.steals ++ [cu] }.goTo w (.stolen cu))
  /-- the stealer wants no more -/
  | stealStops {q : JobQueue n} {w : Fin n} {cu : ℕ} {lsk : LoadSteal} :
      q.workers w = .stealing cu → lsk = .abort ∨ lsk = .stopLoading →
      QueueStep wrap total .failure q
        ({ q with
          steals := q.steals ++ [cu]
          lskStatus := lsk
          aborted := q.aborted || decide (lsk = LoadSteal.abort) }.goTo w .leaving)
  /-- `cus_queue__inc_next_cu_id` -/
  | incNextCuId {q : JobQueue n} {w : Fin n} {cu : ℕ} :
      q.workers w = .stolen cu → q.locked = false →
      QueueStep wrap total .work q
        ({ q with nextCuId := wrap (q.nextCuId + 1) }.goTo w (.ready (some .decode)))
  | returnOk {q : JobQueue n} {w : Fin n} :
      q.workers w = .stopping → q.error = 0 →
      QueueStep wrap total .move q (q.goTo w (.returned true))
  | stopEarly {q : JobQueue n} {w : Fin n} :
      q.workers w = .stopping → q.error ≠ 0 →
      QueueStep wrap total .failure q (q.goTo w .leaving)
  | storeAbort {q : JobQueue n} {w : Fin n} :
      q.workers w = .leaving →
      QueueStep wrap total .failure q ({ q with abort := true }.goTo w .signalling)
  | signalAbort {q : JobQueue n} {w : Fin n} {ws : Fin n → Worker} :
      q.workers w = .signalling →
      Signals (Function.update q.workers w (.returned false)) ws →
      QueueStep wrap total .failure q { q with workers := ws }
  /-- `pthread_create` starts a worker -/
  | create {q : JobQueue n} {w : Fin n} :
      q.workers w = .uncreated → q.created = w →
      QueueStep wrap total .move q (q.goTo w (.ready none))
  /-- what it returns is assigned to `dcus->error` -/
  | noteCreated {q : JobQueue n} {w : Fin n} :
      q.workers w ≠ .uncreated → q.created = w →
      QueueStep wrap total .move q { q with error := 0, created := q.created + 1 }
  | allCreated {q : JobQueue n} :
      q.created = n → QueueStep wrap total .move q { q with error := 0, created := n + 1 }
  /-- `pthread_create` fails, and the loop is left -/
  | createFails {q : JobQueue n} {w : Fin n} {err : ℤ} :
      q.workers w = .uncreated → q.created = w → 0 < err →
      QueueStep wrap total .failure q { q with error := err, created := n + 1, toJoin := w }
  /-- `pthread_join` of a worker that returned `DWARF_CB_OK` -/
  | join {q : JobQueue n} {w : Fin n} :
      q.created = n + 1 → q.toJoin = w + 1 → q.workers w = .returned true →
      QueueStep wrap total .move q { q with toJoin := w }
  /-- `pthread_join` of a worker that returned `DWARF_CB_ABORT` -/
  | joinAborted {q : JobQueue n} {w : Fin n} :
      q.created = n + 1 → q.toJoin = w + 1 → q.workers w = .returned false →
      QueueStep wrap total .failure q { q with toJoin := w, error := 1 }

/-- `q` is reached from the start of `dwarf_cus__process_cus` with steps of the given kinds. -/
def QueueReaches (n limit total : ℕ) (kinds : StepKind → Prop) (q : JobQueue n) : Prop :=
  Relation.ReflTransGen (fun q q' => ∃ kind, kinds kind ∧ QueueStep cuId total kind q q')
    (JobQueue.start limit) q

/-! ## Counting jobs and workers -/

namespace Worker

/-- The worker has a CU that is not in the queue yet. -/
def pending (cu : ℕ) : Worker → ℕ
  | .recoding cu' | .ready (some (.steal cu')) => if cu' = cu then 1 else 0
  | _ => 0

def isStealing (cu : ℕ) : Worker → ℕ
  | .stealing cu' => if cu' = cu then 1 else 0
  | _ => 0

def hasStolen (cu : ℕ) : Worker → ℕ
  | .stolen cu' => if cu' = cu then 1 else 0
  | _ => 0

/-- The worker has a job, and no CU that is still to be stolen. -/
def spare : Worker → ℕ
  | .ready (some .decode) | .decoding | .stolen _ => 1
  | _ => 0

end Worker

namespace JobQueue

variable {n : ℕ}

def pending (q : JobQueue n) (cu : ℕ) : ℕ := tally (Worker.pending cu) q.workers

def stealing (q : JobQueue n) (cu : ℕ) : ℕ := tally (Worker.isStealing cu) q.workers

def stolen (q : JobQueue n) (cu : ℕ) : ℕ := tally (Worker.hasStolen cu) q.workers

def queued (q : JobQueue n) (cu : ℕ) : ℕ := q.jobs.count (.steal cu)

/-- How many CUs may still be created before the next one is stolen. -/
def spare (q : JobQueue n) : ℕ := tally Worker.spare q.workers + q.jobs.count .decode

/-- One worker has gone from the place `p` to `p'`, and a sleeping one may have been woken. -/
structure Moves (q : JobQueue n) (p p' : Worker) (q' : JobQueue n) : Prop where
  tally : ∀ f : Worker → ℕ, f .woken = f .asleep →
    Workers.tally f q'.workers + f p = Workers.tally f q.workers + f p'

/-- CUs are stolen in the order of their ids, and each by one worker.  A CU is with one worker
or in one job from its creation until it has been stolen, unless an error makes it lost. -/
structure Ordered (limit total : ℕ) (q : JobQueue n) : Prop where
  once : ∀ k, q.pending k + q.stealing k + q.stolen k + q.queued k ≤ 1
  unread : ∀ k, q.nrCusCreated ≤ k →
    q.pending k + q.stealing k + q.stolen k + q.queued k = 0
  past : ∀ k, k < q.nextCuId → q.pending k + q.stealing k + q.stolen k + q.queued k = 0
  turn : ∀ k, k ≠ q.nextCuId → q.stealing k + q.stolen k = 0
  steals : q.steals = List.range q.steals.length
  length : (q.steals.length = q.nextCuId ∧ q.stolen q.nextCuId = 0) ∨
    (q.steals.length = q.nextCuId + 1 ∧ q.nextCuId < q.nrCusCreated ∧
      q.pending q.nextCuId + q.stealing q.nextCuId + q.queued q.nextCuId = 0)
  next_le : q.nextCuId ≤ q.nrCusCreated
  created_le : q.nrCusCreated ≤ q.cusRead
  read_le : q.cusRead ≤ total
  spare_le : q.nrCusCreated + q.spare ≤ q.steals.length + limit

section Counting

variable {q q' : JobQueue n} {w : Fin n} {p p' : Worker} {ws ws' : Fin n → Worker}
  {job : Job} {jobs jobs' : List Job} {nextCuId k limit total : ℕ}

theorem tally_signals {f : Worker → ℕ} (hf : f .woken = f .asleep) (h : Signals ws ws') :
    Workers.tally f ws' = Workers.tally f ws := by
  cases h with
  | wakes w hw => exact tally_update_of_eq (by rw [hw, hf])
  | unheard _ => rfl

theorem Moves.of_update (hw : q.workers w = p) (hq' : q'.workers = Function.update q.workers w p') :
    q.Moves p p' q' :=
  ⟨fun f _ => by rw [hq', ← hw, tally_update]⟩

theorem Moves.of_signals (hw : q.workers w = p)
    (hq' : Signals (Function.update q.workers w p') q'.workers) : q.Moves p p' q' :=
  ⟨fun f hf => by rw [tally_signals hf hq', ← hw, tally_update]⟩

theorem Moves.pending (h : q.Moves p p' q') (k : ℕ) :
    q'.pending k + p.pending k = q.pending k + p'.pending k :=
  h.tally (Worker.pending k) rfl

theorem Moves.stealing (h : q.Moves p p' q') (k : ℕ) :
    q'.stealing k + p.isStealing k = q.stealing k + p'.isStealing k :=
  h.tally (Worker.isStealing k) rfl

theorem Moves.stolen (h : q.Moves p p' q') (k : ℕ) :
    q'.stolen k + p.hasStolen k = q.stolen k + p'.hasStolen k :=
  h.tally (Worker.hasStolen k) rfl

theorem Moves.spare (h : q.Moves p p' q') :
    q'.spare + q.jobs.count .decode + p.spare =
      q.spare + q'.jobs.count .decode + p'.spare := by
  have hspare := h.tally Worker.spare rfl
  rw [JobQueue.spare, JobQueue.spare]
  omega

theorem count_addJob (job : Job) (jobs : List Job) (other : Job) :
    (addJob job jobs).count other = jobs.count other + if job = other then 1 else 0 := by
  cases job with
  | decode => simp [addJob, List.count_singleton]
  | steal cu => simp [addJob, List.count_cons]

theorem tryDequeue_perm (h : tryDequeue nextCuId jobs = some (job, jobs')) :
    jobs.Perm (job :: jobs') := by
  induction jobs generalizing jobs' with
  | nil => cases h
  | cons first rest ih =>
      rw [tryDequeue] at h
      split at h
      · obtain ⟨rfl, rfl⟩ := Prod.mk.inj (Option.some.inj h)
        exact List.Perm.refl _
      · obtain ⟨⟨found, left⟩, hrest, heq⟩ := Option.map_eq_some_iff.mp h
        obtain ⟨rfl, rfl⟩ := Prod.mk.inj heq
        exact ((ih hrest).cons first).trans (List.Perm.swap found first left)

theorem viable_of_tryDequeue (h : tryDequeue nextCuId jobs = some (job, jobs')) :
    job.viable nextCuId = true := by
  induction jobs generalizing jobs' with
  | nil => cases h
  | cons first rest ih =>
      rw [tryDequeue] at h
      split at h
      · next hviable =>
          obtain ⟨rfl, -⟩ := Prod.mk.inj (Option.some.inj h)
          exact hviable
      · obtain ⟨⟨found, left⟩, hrest, heq⟩ := Option.map_eq_some_iff.mp h
        obtain ⟨rfl, -⟩ := Prod.mk.inj heq
        exact ih hrest

theorem tryDequeue_eq_none : tryDequeue nextCuId jobs = none ↔
    ∀ job ∈ jobs, job.viable nextCuId = false := by
  induction jobs with
  | nil => simp [tryDequeue]
  | cons first rest ih =>
      rw [tryDequeue, List.forall_mem_cons, ← ih]
      cases first.viable nextCuId <;> simp

theorem count_of_tryDequeue (h : tryDequeue nextCuId jobs = some (job, jobs')) (other : Job) :
    jobs.count other = jobs'.count other + if job = other then 1 else 0 := by
  rw [(tryDequeue_perm h).count_eq, List.count_cons]
  simp

/-- Adding a job keeps the number of places where a CU is pending or queued. -/
theorem Moves.pending_addJob (hmoves : q.Moves (.ready (some job)) .adding q')
    (hjobs : q'.jobs = addJob job q.jobs) (k : ℕ) :
    q'.pending k + q'.queued k = q.pending k + q.queued k := by
  have hcount := count_addJob job q.jobs (.steal k)
  rw [queued, queued, hjobs]
  cases job with
  | decode =>
      have hpending : q'.pending k = q.pending k := hmoves.pending k
      rw [if_neg (Job.decode_ne_steal _)] at hcount
      omega
  | steal cu =>
      have hpending : q'.pending k + (if cu = k then 1 else 0) = q.pending k := hmoves.pending k
      simp only [Job.steal.injEq] at hcount
      omega

/-- Finding a job keeps the number of places where a CU is queued or being stolen. -/
theorem Moves.stealing_dequeue {abort : Bool} (hmoves : q.Moves (.loaded abort) job.worker q')
    (hfound : tryDequeue nextCuId q.jobs = some (job, q'.jobs)) (k : ℕ) :
    q'.stealing k + q'.queued k = q.stealing k + q.queued k := by
  have hcount := count_of_tryDequeue hfound (.steal k)
  rw [queued, queued]
  cases job with
  | decode =>
      have hstealing : q'.stealing k = q.stealing k := hmoves.stealing k
      rw [if_neg (Job.decode_ne_steal _)] at hcount
      omega
  | steal cu =>
      have hstealing : q'.stealing k = q.stealing k + if cu = k then 1 else 0 := hmoves.stealing k
      simp only [Job.steal.injEq] at hcount
      omega

/-- The order is kept by a step that takes CUs away from workers and jobs and steals none. -/
theorem Ordered.shrink (h : q.Ordered limit total)
    (hleft : ∀ k, q'.pending k + q'.stealing k + q'.queued k ≤
      q.pending k + q.stealing k + q.queued k)
    (hstealing : ∀ k, k ≠ q.nextCuId → q'.stealing k ≤ q.stealing k)
    (hstolen : ∀ k, q'.stolen k = q.stolen k) (hspare : q'.spare ≤ q.spare)
    (hnext : q'.nextCuId = q.nextCuId) (hcreated : q'.nrCusCreated = q.nrCusCreated)
    (hsteals : q'.steals = q.steals) (hle : q.cusRead ≤ q'.cusRead) (hread : q'.cusRead ≤ total) :
    q'.Ordered limit total where
  once k := by
    have := h.once k
    have := hleft k
    rw [hstolen]
    omega
  unread k hk := by
    have := h.unread k (hcreated ▸ hk)
    have := hleft k
    rw [hstolen]
    omega
  past k hk := by
    have := h.past k (hnext ▸ hk)
    have := hleft k
    rw [hstolen]
    omega
  turn k hk := by
    rw [hnext] at hk
    have := h.turn k hk
    have := hstealing k hk
    rw [hstolen]
    omega
  steals := by rw [hsteals, ← h.steals]
  length := by
    rw [hnext, hsteals, hstolen, hcreated]
    rcases h.length with hsame | ⟨hlen, hlt, hnone⟩
    · exact Or.inl hsame
    · have := hleft q.nextCuId
      exact Or.inr ⟨hlen, hlt, by omega⟩
  next_le := by rw [hnext, hcreated]; exact h.next_le
  created_le := by
    rw [hcreated]
    exact h.created_le.trans hle
  read_le := hread
  spare_le := by
    have := h.spare_le
    rw [hcreated, hsteals]
    omega

/-- A move that takes up no CU and leaves the jobs as they are keeps `Ordered`. -/
theorem Ordered.idle (h : q.Ordered limit total) (hmoves : q.Moves p p' q')
    (hpending : ∀ k, p'.pending k ≤ p.pending k) (hstealing : ∀ k, p'.isStealing k = p.isStealing k)
    (hstolen : ∀ k, p'.hasStolen k = p.hasStolen k) (hspare : p'.spare ≤ p.spare)
    (hjobs : q'.jobs = q.jobs) (hnext : q'.nextCuId = q.nextCuId)
    (hcreated : q'.nrCusCreated = q.nrCusCreated) (hsteals : q'.steals = q.steals)
    (hle : q.cusRead ≤ q'.cusRead) (hread : q'.cusRead ≤ total) : q'.Ordered limit total := by
  have hS : ∀ k, q'.stealing k = q.stealing k := fun k => by
    have := hmoves.stealing k
    rw [hstealing] at this
    omega
  refine h.shrink (fun k => ?_) (fun k _ => (hS k).le) (fun k => ?_) ?_ hnext hcreated hsteals hle
    hread
  · have hmoved := hmoves.pending k
    have hless := hpending k
    rw [hS, queued, queued, hjobs]
    omega
  · have hmoved := hmoves.stolen k
    rw [hstolen] at hmoved
    omega
  · have hmoved := hmoves.spare
    rw [hjobs] at hmoved
    omega

theorem Ordered.addJob (h : q.Ordered limit total)
    (hmoves : q.Moves (.ready (some job)) .adding q') (hjobs : q'.jobs = addJob job q.jobs)
    (hnext : q'.nextCuId = q.nextCuId) (hcreated : q'.nrCusCreated = q.nrCusCreated)
    (hsteals : q'.steals = q.steals) (hcusRead : q'.cusRead = q.cusRead) :
    q'.Ordered limit total := by
  refine h.shrink (fun k => ?_) (fun k _ => (hmoves.stealing k).le) hmoves.stolen ?_ hnext hcreated
    hsteals hcusRead.ge (hcusRead ▸ h.read_le)
  · have hstealing : q'.stealing k = q.stealing k := hmoves.stealing k
    have hheld := hmoves.pending_addJob hjobs k
    omega
  · have hmoved := hmoves.spare
    have hdecode := count_addJob job q.jobs .decode
    rw [← hjobs] at hdecode
    cases job with
    | decode =>
        change q'.spare + q.jobs.count .decode + 1 = q.spare + q'.jobs.count .decode at hmoved
        rw [if_pos rfl] at hdecode
        omega
    | steal cu =>
        change q'.spare + q.jobs.count .decode = q.spare + q'.jobs.count .decode at hmoved
        rw [if_neg (Job.steal_ne_decode cu)] at hdecode
        omega

/-- A job that is found is to decode a CU, or for the CU whose turn it is. -/
theorem Ordered.dequeue (h : q.Ordered limit total) {abort : Bool}
    (hfound : tryDequeue q.nextCuId q.jobs = some (job, q'.jobs))
    (hmoves : q.Moves (.loaded abort) job.worker q')
    (hnext : q'.nextCuId = q.nextCuId) (hcreated : q'.nrCusCreated = q.nrCusCreated)
    (hsteals : q'.steals = q.steals) (hcusRead : q'.cusRead = q.cusRead) :
    q'.Ordered limit total := by
  have hviable := viable_of_tryDequeue hfound
  have hdecode := count_of_tryDequeue hfound .decode
  have hmoved := hmoves.spare
  cases job with
  | decode =>
      refine h.shrink (fun k => ?_) (fun k _ => (hmoves.stealing k).le) hmoves.stolen ?_ hnext
        hcreated hsteals hcusRead.ge (hcusRead ▸ h.read_le)
      · have hpending : q'.pending k = q.pending k := hmoves.pending k
        have hheld := hmoves.stealing_dequeue hfound k
        omega
      · change q'.spare + q.jobs.count .decode = q.spare + q'.jobs.count .decode + 1 at hmoved
        rw [if_pos rfl] at hdecode
        omega
  | steal cu =>
      have hturn : cu = q.nextCuId := of_decide_eq_true hviable
      refine h.shrink (fun k => ?_) (fun k hk => ?_) hmoves.stolen ?_ hnext hcreated hsteals
        hcusRead.ge (hcusRead ▸ h.read_le)
      · have hpending : q'.pending k = q.pending k := hmoves.pending k
        have hheld := hmoves.stealing_dequeue hfound k
        omega
      · have hstealing : q'.stealing k = q.stealing k + if cu = k then 1 else 0 := hmoves.stealing k
        have hother : cu ≠ k := fun heq => hk (heq.symm.trans hturn)
        rw [if_neg hother] at hstealing
        exact hstealing.le
      · change q'.spare + q.jobs.count .decode = q.spare + q'.jobs.count .decode at hmoved
        rw [if_neg (Job.steal_ne_decode cu)] at hdecode
        omega

/-- Creating a CU, which its worker then recodes, keeps `Ordered`. -/
theorem Ordered.nextCu (h : q.Ordered limit total)
    (hmoves : q.Moves .decoding (.recoding q.nrCusCreated) q') (hjobs : q'.jobs = q.jobs)
    (hnext : q'.nextCuId = q.nextCuId) (hcreated : q'.nrCusCreated = q.nrCusCreated + 1)
    (hsteals : q'.steals = q.steals) (hcusRead : q'.cusRead = q.cusRead + 1)
    (hread : q'.cusRead ≤ total) : q'.Ordered limit total := by
  have hpending : ∀ k, q'.pending k = q.pending k + if q.nrCusCreated = k then 1 else 0 :=
    hmoves.pending
  have hstealing : ∀ k, q'.stealing k = q.stealing k := hmoves.stealing
  have hstolen : ∀ k, q'.stolen k = q.stolen k := hmoves.stolen
  have hqueued : ∀ k, q'.queued k = q.queued k := fun k => by rw [queued, queued, hjobs]
  have hmoved : q'.spare + q.jobs.count .decode + 1 = q.spare + q'.jobs.count .decode :=
    hmoves.spare
  rw [hjobs] at hmoved
  have hle := h.next_le
  refine
    { once := fun k => ?_
      unread := fun k hk => ?_
      past := fun k hk => ?_
      turn := fun k hk => ?_
      steals := by rw [hsteals, ← h.steals]
      length := ?_
      next_le := by omega
      created_le := by
        have := h.created_le
        omega
      read_le := hread
      spare_le := ?_ }
  · rw [hpending, hstealing, hstolen, hqueued]
    have := h.once k
    have := h.unread k
    split <;> omega
  · rw [hpending, hstealing, hstolen, hqueued, if_neg (by omega)]
    have := h.unread k (by omega)
    omega
  · rw [hpending, hstealing, hstolen, hqueued, if_neg (by omega)]
    have := h.past k (by omega)
    omega
  · rw [hstealing, hstolen]
    exact h.turn k (hnext ▸ hk)
  · rw [hnext, hsteals, hpending, hstealing, hstolen, hqueued, hcreated]
    rcases h.length with hsame | ⟨hlen, hlt, hnone⟩
    · exact Or.inl hsame
    · rw [if_neg (by omega)]
      exact Or.inr ⟨hlen, by omega, by omega⟩
  · have := h.spare_le
    rw [hcreated, hsteals]
    omega

/-- The CU that is given to the stealer is the next one. -/
theorem Ordered.stealing_eq (h : q.Ordered limit total) {cu : ℕ} (hw : q.workers w = .stealing cu) :
    cu = q.nextCuId ∧ q.stealing cu = 1 ∧ q.steals.length = q.nextCuId ∧
      cu < q.nrCusCreated := by
  have hpos : 0 < q.stealing cu := by
    refine lt_of_lt_of_le ?_ (le_tally (Worker.isStealing cu) q.workers w)
    rw [hw, Worker.isStealing, if_pos rfl]
    exact Nat.zero_lt_one
  have honce := h.once cu
  have hturn : cu = q.nextCuId := by
    by_contra hne
    have := h.turn cu hne
    omega
  refine ⟨hturn, by omega, ?_, ?_⟩
  · rcases h.length with ⟨hlen, -⟩ | ⟨-, -, hnone⟩
    · exact hlen
    · rw [← hturn] at hnone
      omega
  · by_contra hle
    have := h.unread cu (not_lt.mp hle)
    omega

/-- After a CU was given to the stealer it is either noted that it has been stolen, or not. -/
theorem Ordered.steal (h : q.Ordered limit total) {cu : ℕ} (hw : q.workers w = .stealing cu)
    (hmoves : q.Moves (.stealing cu) p' q') (hpending : ∀ k, p'.pending k = 0)
    (hstealing : ∀ k, p'.isStealing k = 0) (hstolen : ∀ k, k ≠ cu → p'.hasStolen k = 0)
    (hmost : p'.hasStolen cu ≤ 1) (hspare : p'.spare ≤ 1)
    (hjobs : q'.jobs = q.jobs) (hnext : q'.nextCuId = q.nextCuId)
    (hcreated : q'.nrCusCreated = q.nrCusCreated) (hsteals : q'.steals = q.steals ++ [cu])
    (hcusRead : q'.cusRead = q.cusRead) : q'.Ordered limit total := by
  obtain ⟨hturn, hone, hlen, hlt⟩ := h.stealing_eq hw
  have hP : ∀ k, q'.pending k = q.pending k := fun k => by
    have hmoved := hmoves.pending k
    rwa [hpending k] at hmoved
  have hS : ∀ k, q'.stealing k + (if cu = k then 1 else 0) = q.stealing k := fun k => by
    have hmoved := hmoves.stealing k
    rwa [hstealing k] at hmoved
  have hT : ∀ k, q'.stolen k = q.stolen k + p'.hasStolen k := hmoves.stolen
  have hQ : ∀ k, q'.queued k = q.queued k := fun k => by rw [queued, queued, hjobs]
  have hmoved : q'.spare + q.jobs.count .decode =
      q.spare + q'.jobs.count .decode + p'.spare := hmoves.spare
  rw [hjobs] at hmoved
  have hless : ∀ k, q'.pending k + q'.stealing k + q'.stolen k + q'.queued k ≤
      q.pending k + q.stealing k + q.stolen k + q.queued k := by
    intro k
    have hstealing := hS k
    rw [hP, hT, hQ]
    by_cases hk : cu = k
    · rw [if_pos hk] at hstealing
      rw [← hk] at hstealing ⊢
      omega
    · rw [if_neg hk] at hstealing
      rw [hstolen k (Ne.symm hk)]
      omega
  have honce := h.once cu
  refine
    { once := fun k => (hless k).trans (h.once k)
      unread := fun k hk => Nat.le_zero.mp ((hless k).trans (h.unread k (hcreated ▸ hk)).le)
      past := fun k hk => Nat.le_zero.mp ((hless k).trans (h.past k (hnext ▸ hk)).le)
      turn := fun k hk => ?_
      steals := ?_
      length := ?_
      next_le := by rw [hnext, hcreated]; exact h.next_le
      created_le := by rw [hcreated, hcusRead]; exact h.created_le
      read_le := hcusRead ▸ h.read_le
      spare_le := ?_ }
  · have hother : k ≠ cu := fun heq => hk (by rw [heq, hturn, hnext])
    have := h.turn k (hnext ▸ hk)
    have := hS k
    rw [hT, hstolen k hother]
    omega
  · rw [hsteals, List.length_append, List.length_singleton, List.range_succ, ← h.steals, hlen,
      hturn]
  · right
    have hhere := hS cu
    rw [if_pos rfl] at hhere
    rw [hnext, ← hturn, hsteals, List.length_append, List.length_singleton, hP, hQ, hcreated]
    exact ⟨by omega, hlt, by omega⟩
  · have := h.spare_le
    rw [hcreated, hsteals, List.length_append, List.length_singleton]
    omega

/-- A CU that was given to the stealer is the next one until that is noted. -/
theorem Ordered.stolen_eq (h : q.Ordered limit total) {cu : ℕ} (hw : q.workers w = .stolen cu) :
    cu = q.nextCuId ∧ q.stolen cu = 1 ∧ q.steals.length = q.nextCuId + 1 ∧
      q.nextCuId < q.nrCusCreated := by
  have hpos : 0 < q.stolen cu := by
    refine lt_of_lt_of_le ?_ (le_tally (Worker.hasStolen cu) q.workers w)
    rw [hw, Worker.hasStolen, if_pos rfl]
    exact Nat.zero_lt_one
  have honce := h.once cu
  have hturn : cu = q.nextCuId := by
    by_contra hne
    have := h.turn cu hne
    omega
  rcases h.length with ⟨-, hzero⟩ | ⟨hlen, hlt, -⟩
  · rw [← hturn] at hzero
    omega
  · exact ⟨hturn, by omega, hlen, hlt⟩

/-- Incrementing `next_cu_id` after stealing a CU keeps `Ordered`. -/
theorem Ordered.incNextCuId (h : q.Ordered limit total) {cu : ℕ} (hw : q.workers w = .stolen cu)
    (hmoves : q.Moves (.stolen cu) (.ready (some .decode)) q') (hjobs : q'.jobs = q.jobs)
    (hnext : q'.nextCuId = q.nextCuId + 1) (hcreated : q'.nrCusCreated = q.nrCusCreated)
    (hsteals : q'.steals = q.steals) (hcusRead : q'.cusRead = q.cusRead) :
    q'.Ordered limit total := by
  obtain ⟨hturn, hone, hlen⟩ := h.stolen_eq hw
  have honce := h.once cu
  have hP : ∀ k, q'.pending k = q.pending k := hmoves.pending
  have hS : ∀ k, q'.stealing k = q.stealing k := hmoves.stealing
  have hT : ∀ k, q'.stolen k + (if cu = k then 1 else 0) = q.stolen k := hmoves.stolen
  have hQ : ∀ k, q'.queued k = q.queued k := fun k => by rw [queued, queued, hjobs]
  have hmoved : q'.spare + q.jobs.count .decode + 1 =
      q.spare + q'.jobs.count .decode + 1 := hmoves.spare
  rw [hjobs] at hmoved
  have hnone : ∀ k, k ≠ cu → q'.stolen k = q.stolen k := fun k hk => by
    have hstolen := hT k
    rw [if_neg (Ne.symm hk)] at hstolen
    exact hstolen
  have hself := hT cu
  rw [if_pos rfl] at hself
  have hless : ∀ k, q'.pending k + q'.stealing k + q'.stolen k + q'.queued k ≤
      q.pending k + q.stealing k + q.stolen k + q.queued k := by
    intro k
    have hstolen := hT k
    rw [hP, hS, hQ]
    omega
  refine
    { once := fun k => (hless k).trans (h.once k)
      unread := fun k hk => Nat.le_zero.mp ((hless k).trans (h.unread k (hcreated ▸ hk)).le)
      past := fun k hk => ?_
      turn := fun k hk => ?_
      steals := by rw [hsteals, ← h.steals]
      length := ?_
      next_le := by omega
      created_le := by rw [hcreated, hcusRead]; exact h.created_le
      read_le := hcusRead ▸ h.read_le
      spare_le := ?_ }
  · rcases Nat.lt_succ_iff_lt_or_eq.mp (hnext ▸ hk) with hlt | heq
    · exact Nat.le_zero.mp ((hless k).trans (h.past k hlt).le)
    · have hk : k = cu := heq.trans hturn.symm
      rw [hk, hP, hS, hQ]
      omega
  · by_cases hkcu : k = cu
    · rw [hkcu, hS]
      omega
    · have := h.turn k (hturn ▸ hkcu)
      rw [hS, hnone k hkcu]
      exact this
  · left
    have hother : q.nextCuId + 1 ≠ cu := by omega
    have := h.turn (q.nextCuId + 1) (by omega)
    rw [hnext, hsteals, hnone _ hother]
    exact ⟨hlen.1, by omega⟩
  · have := h.spare_le
    rw [hcreated, hsteals]
    omega

end Counting

/-! ## Every run -/

section Runs

variable {wrap : ℕ → ℕ} {limit total : ℕ} {kind : StepKind} {kinds : StepKind → Prop}
  {q q' : JobQueue n}

theorem ordered_start : (start limit : JobQueue n).Ordered limit total where
  once k := by simp [pending, stealing, stolen, queued, start, tally_const, Worker.pending,
    Worker.isStealing, Worker.hasStolen, List.count_replicate]
  unread k _ := by simp [pending, stealing, stolen, queued, start, tally_const, Worker.pending,
    Worker.isStealing, Worker.hasStolen, List.count_replicate]
  past k hk := absurd hk (Nat.not_lt_zero k)
  turn k _ := by simp [stealing, stolen, start, tally_const, Worker.isStealing, Worker.hasStolen]
  steals := rfl
  length := Or.inl ⟨rfl, by simp [stolen, start, tally_const, Worker.hasStolen]⟩
  next_le := le_rfl
  created_le := le_rfl
  read_le := Nat.zero_le total
  spare_le := by simp [spare, start, tally_const, Worker.spare]

/-- Where the ids up to the number of CUs are as they are, every step keeps the order. -/
theorem Ordered.step (h : q.Ordered limit total) (hwrap : ∀ k ≤ total, wrap k = k)
    (hstep : QueueStep wrap total kind q q') : q'.Ordered limit total := by
  have hle := h.read_le
  have hcreated := h.created_le
  cases hstep with
  | enqueue hw hfree => exact h.addJob (.of_update hw rfl) rfl rfl rfl rfl rfl
  | signalAdded hw hsignals =>
      exact h.idle (.of_signals hw hsignals) (fun _ => le_rfl) (fun _ => rfl) (fun _ => rfl) le_rfl
        rfl rfl rfl rfl le_rfl hle
  | lock hw hfree =>
      exact h.idle (.of_update hw rfl) (fun _ => le_rfl) (fun _ => rfl) (fun _ => rfl) le_rfl rfl
        rfl rfl rfl le_rfl hle
  | load hw =>
      exact h.idle (.of_update hw rfl) (fun _ => le_rfl) (fun _ => rfl) (fun _ => rfl) le_rfl rfl
        rfl rfl rfl le_rfl hle
  | dequeue hw hfound => exact h.dequeue hfound (.of_update hw rfl) rfl rfl rfl rfl
  | giveUp hw hnone =>
      exact h.idle (.of_update hw rfl) (fun _ => le_rfl) (fun _ => rfl) (fun _ => rfl) le_rfl rfl
        rfl rfl rfl le_rfl hle
  | wait hw hnone =>
      exact h.idle (.of_update hw rfl) (fun _ => le_rfl) (fun _ => rfl) (fun _ => rfl) le_rfl rfl
        rfl rfl rfl le_rfl hle
  | wake hw =>
      exact h.idle (.of_update hw rfl) (fun _ => le_rfl) (fun _ => rfl) (fun _ => rfl) le_rfl rfl
        rfl rfl rfl le_rfl hle
  | relock hw hfree =>
      exact h.idle (.of_update hw rfl) (fun _ => le_rfl) (fun _ => rfl) (fun _ => rfl) le_rfl rfl
        rfl rfl rfl le_rfl hle
  | seeError hw herror =>
      refine h.idle (.of_update hw rfl) (fun k => ?_) (fun k => ?_) (fun k => ?_) ?_ rfl rfl rfl rfl
        le_rfl hle
      all_goals
        unfold workerOfError
        split_ifs <;> simp [Worker.pending, Worker.isStealing, Worker.hasStolen, Worker.spare]
  | nextCu hw herror hlt =>
      exact h.nextCu (.of_update hw rfl) rfl rfl (hwrap _ (by omega)) rfl rfl hlt
  | noMemory hw herror hlt =>
      exact h.idle (.of_update hw rfl) (fun _ => le_rfl) (fun _ => rfl) (fun _ => rfl)
        (Nat.zero_le _) rfl rfl rfl rfl (Nat.le_succ _) hlt
  | noCuDie hw herror hlt =>
      exact h.idle (.of_update hw rfl) (fun _ => le_rfl) (fun _ => rfl) (fun _ => rfl)
        (Nat.zero_le _) rfl rfl rfl rfl le_rfl hle
  | badCu hw herror =>
      exact h.idle (.of_update hw rfl) (fun _ => le_rfl) (fun _ => rfl) (fun _ => rfl)
        (Nat.zero_le _) rfl rfl rfl rfl le_rfl hle
  | noMoreCus hw herror hread =>
      exact h.idle (.of_update hw rfl) (fun _ => le_rfl) (fun _ => rfl) (fun _ => rfl)
        (Nat.zero_le _) rfl rfl rfl rfl le_rfl hle
  | recode hw =>
      exact h.idle (.of_update hw rfl) (fun _ => le_rfl) (fun _ => rfl) (fun _ => rfl) le_rfl rfl
        rfl rfl rfl le_rfl hle
  | recodeFails hw herr =>
      exact h.idle (.of_update hw rfl) (fun _ => Nat.zero_le _) (fun _ => rfl) (fun _ => rfl)
        (Nat.zero_le _) rfl rfl rfl rfl le_rfl hle
  | fail hw =>
      exact h.idle (.of_update hw rfl) (fun _ => le_rfl) (fun _ => rfl) (fun _ => rfl) le_rfl rfl
        rfl rfl rfl le_rfl hle
  | steal hw =>
      exact h.steal hw (.of_update hw rfl) (fun _ => rfl) (fun _ => rfl)
        (fun k hk => if_neg (Ne.symm hk)) (if_pos rfl).le le_rfl rfl rfl rfl rfl rfl
  | stealStops hw hlsk =>
      exact h.steal hw (.of_update hw rfl) (fun _ => rfl) (fun _ => rfl) (fun _ _ => rfl)
        (Nat.zero_le _) (Nat.zero_le _) rfl rfl rfl rfl rfl
  | incNextCuId hw hfree =>
      have hnext := (h.stolen_eq hw).2.2.2
      exact h.incNextCuId hw (.of_update hw rfl) rfl (hwrap _ (by omega)) rfl rfl rfl
  | returnOk hw herror =>
      exact h.idle (.of_update hw rfl) (fun _ => le_rfl) (fun _ => rfl) (fun _ => rfl) le_rfl rfl
        rfl rfl rfl le_rfl hle
  | stopEarly hw herror =>
      exact h.idle (.of_update hw rfl) (fun _ => le_rfl) (fun _ => rfl) (fun _ => rfl) le_rfl rfl
        rfl rfl rfl le_rfl hle
  | storeAbort hw =>
      exact h.idle (.of_update hw rfl) (fun _ => le_rfl) (fun _ => rfl) (fun _ => rfl) le_rfl rfl
        rfl rfl rfl le_rfl hle
  | signalAbort hw hsignals =>
      exact h.idle (.of_signals hw hsignals) (fun _ => le_rfl) (fun _ => rfl) (fun _ => rfl) le_rfl
        rfl rfl rfl rfl le_rfl hle
  | create hw hturn =>
      exact h.idle (.of_update hw rfl) (fun _ => le_rfl) (fun _ => rfl) (fun _ => rfl) le_rfl rfl
        rfl rfl rfl le_rfl hle
  | noteCreated hw hturn =>
      exact h.shrink (fun _ => le_rfl) (fun _ _ => le_rfl) (fun _ => rfl) le_rfl rfl rfl rfl le_rfl
        hle
  | allCreated hturn =>
      exact h.shrink (fun _ => le_rfl) (fun _ _ => le_rfl) (fun _ => rfl) le_rfl rfl rfl rfl le_rfl
        hle
  | createFails hw hturn herr =>
      exact h.shrink (fun _ => le_rfl) (fun _ _ => le_rfl) (fun _ => rfl) le_rfl rfl rfl rfl le_rfl
        hle
  | join hcreated hturn hw =>
      exact h.shrink (fun _ => le_rfl) (fun _ _ => le_rfl) (fun _ => rfl) le_rfl rfl rfl rfl le_rfl
        hle
  | joinAborted hcreated hturn hw =>
      exact h.shrink (fun _ => le_rfl) (fun _ _ => le_rfl) (fun _ => rfl) le_rfl rfl rfl rfl le_rfl
        hle

theorem cuId_of_le (htotal : total < 2 ^ 32) : ∀ k ≤ total, cuId k = k :=
  fun _ hk => u32_of_lt (hk.trans_lt htotal)

theorem ordered_of_reaches (htotal : total < 2 ^ 32) (h : QueueReaches n limit total kinds q) :
    q.Ordered limit total := by
  induction h with
  | refl => exact ordered_start
  | tail _ hstep ih =>
      obtain ⟨kind, -, hstep⟩ := hstep
      exact ih.step (cuId_of_le htotal) hstep

/-- In every reachable state of the queue, with failures, stops and spurious wakeups, the CUs
have been stolen one at a time in the order of their ids, and no more than the limit are in
memory and not yet stolen. -/
theorem cusStolen_in_order (htotal : total < 2 ^ 32) (h : QueueReaches n limit total kinds q) :
    q.steals = List.range q.steals.length ∧ q.steals.length ≤ q.nrCusCreated ∧
      q.nrCusCreated ≤ q.steals.length + limit ∧
      ∀ w w' cu cu', q.workers w = .stealing cu → q.workers w' = .stealing cu' → w = w' := by
  have hordered := ordered_of_reaches htotal h
  refine ⟨hordered.steals, ?_, ?_, ?_⟩
  · have := hordered.next_le
    rcases hordered.length with ⟨hlen, -⟩ | ⟨hlen, hlt, -⟩
    · omega
    · omega
  · have := hordered.spare_le
    omega
  · intro w w' cu cu' hw hw'
    obtain ⟨rfl, hone, -⟩ := hordered.stealing_eq hw
    obtain ⟨rfl, -⟩ := hordered.stealing_eq hw'
    by_contra hne
    have htwo := add_le_tally (Worker.isStealing q.nextCuId) q.workers hne
    rw [hw, hw', Worker.isStealing, if_pos rfl] at htwo
    rw [stealing] at hone
    omega

/-- Two workers decode a CU each; the second one is added first, and stolen after the first. -/
theorem reaches_two :
    ∃ q : JobQueue 2, QueueReaches 2 4 2 (fun kind => kind ≠ .failure) q ∧ q.steals = [0, 1] := by
  have hstart : QueueReaches 2 4 2 (fun kind => kind ≠ .failure) (start 4) := .refl
  have hcreated := hstart.tail ⟨.move, nofun, .create (w := 0) rfl rfl⟩
  have hnoted := hcreated.tail ⟨.move, nofun, .noteCreated (w := 0) nofun rfl⟩
  have hboth := hnoted.tail ⟨.move, nofun, .create (w := 1) rfl rfl⟩
  have hlocked := hboth.tail ⟨.move, nofun, .lock (w := 0) rfl rfl⟩
  have hloaded := hlocked.tail ⟨.move, nofun, .load (w := 0) rfl⟩
  have hdecode := hloaded.tail ⟨.work, nofun, .dequeue (w := 0) rfl rfl⟩
  have hcu := hdecode.tail ⟨.work, nofun, .nextCu (w := 0) rfl rfl (by decide)⟩
  have hlocked' := hcu.tail ⟨.move, nofun, .lock (w := 1) rfl rfl⟩
  have hloaded' := hlocked'.tail ⟨.move, nofun, .load (w := 1) rfl⟩
  have hdecode' := hloaded'.tail ⟨.work, nofun, .dequeue (w := 1) rfl rfl⟩
  have hcu' := hdecode'.tail ⟨.work, nofun, .nextCu (w := 1) rfl rfl (by decide)⟩
  have hdecoded' := hcu'.tail ⟨.move, nofun, .recode (w := 1) rfl⟩
  have hqueued' := hdecoded'.tail ⟨.work, nofun, .enqueue (w := 1) rfl rfl⟩
  have hadded' := hqueued'.tail ⟨.work, nofun, .signalAdded (w := 1) rfl (.unheard (by decide))⟩
  have hagain' := hadded'.tail ⟨.move, nofun, .load (w := 1) rfl⟩
  have hjob' := hagain'.tail ⟨.work, nofun, .dequeue (w := 1) rfl rfl⟩
  have hdecoded := hjob'.tail ⟨.move, nofun, .recode (w := 0) rfl⟩
  have hqueued := hdecoded.tail ⟨.work, nofun, .enqueue (w := 0) rfl rfl⟩
  have hadded := hqueued.tail ⟨.work, nofun, .signalAdded (w := 0) rfl (.unheard (by decide))⟩
  have hagain := hadded.tail ⟨.move, nofun, .load (w := 0) rfl⟩
  have hjob := hagain.tail ⟨.work, nofun, .dequeue (w := 0) rfl rfl⟩
  have hstolen := hjob.tail ⟨.work, nofun, .steal (w := 0) rfl⟩
  have hnext := hstolen.tail ⟨.work, nofun, .incNextCuId (w := 0) rfl rfl⟩
  have hfreed := hnext.tail ⟨.work, nofun, .enqueue (w := 0) rfl rfl⟩
  have hdone := hfreed.tail ⟨.work, nofun, .signalAdded (w := 0) rfl (.unheard (by decide))⟩
  have hsecond := hdone.tail ⟨.move, nofun, .load (w := 0) rfl⟩
  have hlast := hsecond.tail ⟨.work, nofun, .dequeue (w := 0) rfl rfl⟩
  exact ⟨_, hlast.tail ⟨.work, nofun, .steal (w := 0) rfl⟩, rfl⟩

theorem cusStolen_in_order_two : ∃ q : JobQueue 2, q.steals = [0, 1] ∧
    q.steals = List.range q.steals.length ∧ q.steals.length ≤ q.nrCusCreated ∧
      q.nrCusCreated ≤ q.steals.length + 4 ∧
      ∀ w w' cu cu', q.workers w = .stealing cu → q.workers w' = .stealing cu' → w = w' := by
  obtain ⟨q, hrun, hsteals⟩ := reaches_two
  exact ⟨q, hsteals, cusStolen_in_order (by decide) hrun⟩

end Runs

end JobQueue

end Pahole

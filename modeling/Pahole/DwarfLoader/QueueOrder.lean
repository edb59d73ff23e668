import Pahole.DwarfLoader.QueueProgress

/-!
# The order of the CUs

`cu->id` and `next_cu_id` are of type `uint32_t`.  As long as fewer than 2^32 CUs are in memory,
the queue does with such ids what it would do with ids that do not wrap around: it is the plain
queue with its ids taken modulo 2^32.
-/

namespace Pahole

open Workers

/-! ## Other ids -/

def Job.mapId (f : ℕ → ℕ) : Job → Job
  | .decode => .decode
  | .steal cu => .steal (f cu)

namespace Worker

def mapId (f : ℕ → ℕ) : Worker → Worker
  | .ready job => .ready (job.map (Job.mapId f))
  | .recoding cu => .recoding (f cu)
  | .stealing cu => .stealing (f cu)
  | .stolen cu => .stolen (f cu)
  | p => p

/-- The worker has a CU. -/
def hasCu : Worker → Bool
  | .ready (some _) | .recoding _ | .stealing _ | .stolen _ => true
  | _ => false

variable {f : ℕ → ℕ} {p p' : Worker} {job : Job} {cu : ℕ}

theorem eq_of_mapId (h : p.mapId f = p') (hplain : p'.hasCu = false) : p = p' := by
  subst h
  cases p with
  | ready job =>
      cases job with
      | none => rfl
      | some job => cases hplain
  | recoding _ | stealing _ | stolen _ => cases hplain
  | _ => rfl

theorem ready_of_mapId (h : p.mapId f = .ready (some job)) :
    ∃ job', p = .ready (some job') ∧ job'.mapId f = job := by
  cases p with
  | ready job' =>
      obtain ⟨job', rfl, heq⟩ := Option.map_eq_some_iff.mp (Worker.ready.inj h)
      exact ⟨job', rfl, heq⟩
  | _ => cases h

theorem recoding_of_mapId (h : p.mapId f = .recoding cu) :
    ∃ cu', p = .recoding cu' ∧ f cu' = cu := by
  cases p with
  | recoding cu' => exact ⟨cu', rfl, Worker.recoding.inj h⟩
  | _ => cases h

theorem stealing_of_mapId (h : p.mapId f = .stealing cu) :
    ∃ cu', p = .stealing cu' ∧ f cu' = cu := by
  cases p with
  | stealing cu' => exact ⟨cu', rfl, Worker.stealing.inj h⟩
  | _ => cases h

theorem stolen_of_mapId (h : p.mapId f = .stolen cu) :
    ∃ cu', p = .stolen cu' ∧ f cu' = cu := by
  cases p with
  | stolen cu' => exact ⟨cu', rfl, Worker.stolen.inj h⟩
  | _ => cases h

end Worker

namespace JobQueue

variable {n : ℕ}

/-- The queue with other ids for the same CUs. -/
def mapIds (f : ℕ → ℕ) (q : JobQueue n) : JobQueue n :=
  { q with
    jobs := q.jobs.map (Job.mapId f)
    nextCuId := f q.nextCuId
    nrCusCreated := f q.nrCusCreated
    workers := fun w => (q.workers w).mapId f
    decoded := q.decoded.map f
    steals := q.steals.map f }

section Renaming

variable {f wrap : ℕ → ℕ} {q r : JobQueue n} {w : Fin n} {p : Worker} {ws ws' : Fin n → Worker}
  {job : Job} {jobs jobs' : List Job} {nextCuId limit total : ℕ} {kind : StepKind}

theorem goTo_mapIds {q' : JobQueue n} {p' : Worker} (hq : r = q'.mapIds f) (hp : p' = p.mapId f) :
    r.goTo w p' = (q'.goTo w p).mapIds f := by
  subst hq hp
  have hworkers : (fun v => (Function.update q'.workers w p v).mapId f) =
      Function.update (fun v => (q'.workers v).mapId f) w (p.mapId f) :=
    Function.comp_update (Worker.mapId f) q'.workers w p
  unfold mapIds goTo
  simp only [hworkers]

theorem signals_of_mapIds (q : JobQueue n) (p : Worker)
    (h : Signals (Function.update (q.mapIds f).workers w (p.mapId f)) ws) :
    ∃ ws', Signals (Function.update q.workers w p) ws' ∧ ws = fun v => (ws' v).mapId f := by
  have hworkers : (fun v => (Function.update q.workers w p v).mapId f) =
      Function.update (q.mapIds f).workers w (p.mapId f) :=
    Function.comp_update (Worker.mapId f) q.workers w p
  rw [← hworkers] at h
  cases h with
  | wakes v hv =>
      refine ⟨_, .wakes v (Worker.eq_of_mapId hv rfl), ?_⟩
      exact (Function.comp_update (Worker.mapId f) (Function.update q.workers w p) v .woken).symm
  | unheard hnone =>
      exact ⟨_, .unheard fun v hv => hnone v (congrArg (Worker.mapId f) hv), rfl⟩

/-- Where no other queued CU has the id of the next one, the same job is found. -/
theorem tryDequeue_mapId (hturn : ∀ cu, .steal cu ∈ jobs → f cu = f nextCuId → cu = nextCuId) :
    tryDequeue (f nextCuId) (jobs.map (Job.mapId f)) =
      (tryDequeue nextCuId jobs).map fun (job, left) => (job.mapId f, left.map (Job.mapId f)) := by
  induction jobs with
  | nil => rfl
  | cons first rest ih =>
      have hrest := ih fun cu hcu => hturn cu (List.mem_cons_of_mem first hcu)
      have hviable : (first.mapId f).viable (f nextCuId) = first.viable nextCuId := by
        cases first with
        | decode => rfl
        | steal cu =>
            refine decide_eq_decide.mpr ⟨hturn cu List.mem_cons_self, ?_⟩
            rintro rfl
            rfl
      rw [List.map_cons, tryDequeue, tryDequeue, hviable, hrest]
      split
      · rfl
      · cases tryDequeue nextCuId rest with
        | none => rfl
        | some found => rfl

theorem mapId_worker : (job.mapId f).worker = job.worker.mapId f := by
  cases job with
  | decode => rfl
  | steal cu => rfl

theorem mapId_workerOfError (err : ℤ) : (workerOfError err).mapId f = workerOfError err := by
  unfold workerOfError
  split_ifs <;> rfl

theorem mapId_addJob : (addJob job jobs).map (Job.mapId f) =
    addJob (job.mapId f) (jobs.map (Job.mapId f)) := by
  cases job with
  | decode => exact List.map_append
  | steal cu => rfl

/-- The queue with other ids takes the steps of the plain one. -/
theorem step_of_mapIds (hwrap : ∀ k, wrap (f k + 1) = f (k + 1))
    (hturn : ∀ cu, .steal cu ∈ q.jobs → f cu = f q.nextCuId → cu = q.nextCuId)
    (hstep : QueueStep wrap total kind (q.mapIds f) r) :
    ∃ q', QueueStep id total kind q q' ∧ r = q'.mapIds f := by
  cases hstep with
  | enqueue hw hfree =>
      obtain ⟨job, hp, rfl⟩ := Worker.ready_of_mapId hw
      refine ⟨_, .enqueue hp hfree, goTo_mapIds ?_ rfl⟩
      unfold mapIds
      simp only [mapId_addJob]
  | signalAdded hw hsignals =>
      obtain ⟨ws, hwakes, rfl⟩ := signals_of_mapIds q .looking hsignals
      exact ⟨_, .signalAdded (Worker.eq_of_mapId hw rfl) hwakes, rfl⟩
  | lock hw hfree => exact ⟨_, .lock (Worker.eq_of_mapId hw rfl) hfree, goTo_mapIds rfl rfl⟩
  | load hw => exact ⟨_, .load (Worker.eq_of_mapId hw rfl), goTo_mapIds rfl rfl⟩
  | dequeue hw hfound =>
      rw [mapIds, tryDequeue_mapId hturn] at hfound
      obtain ⟨⟨job, jobs⟩, hleft, heq⟩ := Option.map_eq_some_iff.mp hfound
      obtain ⟨rfl, rfl⟩ := Prod.mk.inj heq
      exact ⟨_, .dequeue (Worker.eq_of_mapId hw rfl) hleft, goTo_mapIds rfl mapId_worker⟩
  | giveUp hw hnone =>
      rw [mapIds, tryDequeue_mapId hturn] at hnone
      exact ⟨_, .giveUp (Worker.eq_of_mapId hw rfl) (Option.map_eq_none_iff.mp hnone),
        goTo_mapIds rfl rfl⟩
  | wait hw hnone =>
      rw [mapIds, tryDequeue_mapId hturn] at hnone
      exact ⟨_, .wait (Worker.eq_of_mapId hw rfl) (Option.map_eq_none_iff.mp hnone),
        goTo_mapIds rfl rfl⟩
  | wake hw => exact ⟨_, .wake (Worker.eq_of_mapId hw rfl), goTo_mapIds rfl rfl⟩
  | relock hw hfree => exact ⟨_, .relock (Worker.eq_of_mapId hw rfl) hfree, goTo_mapIds rfl rfl⟩
  | seeError hw herror =>
      exact ⟨_, .seeError (Worker.eq_of_mapId hw rfl) herror,
        goTo_mapIds rfl (mapId_workerOfError _).symm⟩
  | nextCu hw herror hlt =>
      refine ⟨_, .nextCu (Worker.eq_of_mapId hw rfl) herror hlt, goTo_mapIds ?_ rfl⟩
      unfold mapIds
      simp only [hwrap, id_eq]
  | noMemory hw herror hlt =>
      exact ⟨_, .noMemory (Worker.eq_of_mapId hw rfl) herror hlt, goTo_mapIds rfl rfl⟩
  | noCuDie hw herror hlt =>
      exact ⟨_, .noCuDie (Worker.eq_of_mapId hw rfl) herror hlt, goTo_mapIds rfl rfl⟩
  | badCu hw herror => exact ⟨_, .badCu (Worker.eq_of_mapId hw rfl) herror, goTo_mapIds rfl rfl⟩
  | noMoreCus hw herror hread =>
      exact ⟨_, .noMoreCus (Worker.eq_of_mapId hw rfl) herror hread, goTo_mapIds rfl rfl⟩
  | recode hw =>
      obtain ⟨cu, hp, rfl⟩ := Worker.recoding_of_mapId hw
      refine ⟨_, .recode hp, goTo_mapIds ?_ rfl⟩
      unfold mapIds
      simp only [List.map_append, List.map_singleton]
  | recodeFails hw herr =>
      obtain ⟨cu, hp, rfl⟩ := Worker.recoding_of_mapId hw
      exact ⟨_, .recodeFails hp herr, goTo_mapIds rfl rfl⟩
  | fail hw => exact ⟨_, .fail (Worker.eq_of_mapId hw rfl), goTo_mapIds rfl rfl⟩
  | steal hw =>
      obtain ⟨cu, hp, rfl⟩ := Worker.stealing_of_mapId hw
      refine ⟨_, .steal hp, goTo_mapIds ?_ rfl⟩
      unfold mapIds
      simp only [List.map_append, List.map_singleton]
  | stealStops hw hlsk =>
      obtain ⟨cu, hp, rfl⟩ := Worker.stealing_of_mapId hw
      refine ⟨_, .stealStops hp hlsk, goTo_mapIds ?_ rfl⟩
      unfold mapIds
      simp only [List.map_append, List.map_singleton]
  | incNextCuId hw hfree =>
      obtain ⟨cu, hp, rfl⟩ := Worker.stolen_of_mapId hw
      refine ⟨_, .incNextCuId hp hfree, goTo_mapIds ?_ rfl⟩
      unfold mapIds
      simp only [hwrap, id_eq]
  | returnOk hw herror =>
      exact ⟨_, .returnOk (Worker.eq_of_mapId hw rfl) herror, goTo_mapIds rfl rfl⟩
  | stopEarly hw herror =>
      exact ⟨_, .stopEarly (Worker.eq_of_mapId hw rfl) herror, goTo_mapIds rfl rfl⟩
  | storeAbort hw => exact ⟨_, .storeAbort (Worker.eq_of_mapId hw rfl), goTo_mapIds rfl rfl⟩
  | signalAbort hw hsignals =>
      obtain ⟨ws, hwakes, rfl⟩ := signals_of_mapIds q (.returned false) hsignals
      exact ⟨_, .signalAbort (Worker.eq_of_mapId hw rfl) hwakes, rfl⟩
  | create hw hturn =>
      exact ⟨_, .create (Worker.eq_of_mapId hw rfl) hturn, goTo_mapIds rfl rfl⟩
  | noteCreated hw hturn =>
      exact ⟨_, .noteCreated (fun heq => hw (congrArg (Worker.mapId f) heq)) hturn, rfl⟩
  | allCreated hturn => exact ⟨_, .allCreated hturn, rfl⟩
  | createFails hw hturn herr =>
      exact ⟨_, .createFails (Worker.eq_of_mapId hw rfl) hturn herr, rfl⟩
  | join hcreated hturn hw =>
      exact ⟨_, .join hcreated hturn (Worker.eq_of_mapId hw rfl), rfl⟩
  | joinAborted hcreated hturn hw =>
      exact ⟨_, .joinAborted hcreated hturn (Worker.eq_of_mapId hw rfl), rfl⟩

end Renaming

/-! ## The plain queue -/

/-- `q` is reached with ids that do not wrap around, with steps of the given kinds. -/
def PlainReaches (n limit total : ℕ) (kinds : StepKind → Prop) (q : JobQueue n) : Prop :=
  Relation.ReflTransGen (fun q q' => ∃ kind, kinds kind ∧ QueueStep id total kind q q')
    (start limit) q

section Plain

variable {q q' : JobQueue n} {w : Fin n} {p p' : Worker} {job : Job} {cu k limit total : ℕ}
  {kind : StepKind} {kinds : StepKind → Prop}

theorem cuId_succ (k : ℕ) : cuId (cuId k + 1) = cuId (k + 1) := by
  unfold cuId u32
  omega

theorem eq_of_cuId (hcu : cuId cu = cuId k) (hle : k ≤ cu) (hlt : cu < k + 2 ^ 32) : cu = k := by
  unfold cuId u32 at hcu
  omega

/-- The CUs in the queue are among the next ones to be stolen. -/
theorem Ordered.near (h : q.Ordered limit total) (hjob : .steal cu ∈ q.jobs) :
    q.nextCuId ≤ cu ∧ cu ≤ q.nextCuId + limit ∧ cu < total := by
  have hqueued : 0 < q.queued cu := List.count_pos_iff.mpr hjob
  have hcreated : cu < q.nrCusCreated := by
    by_contra hle
    have := h.unread cu (not_lt.mp hle)
    omega
  have hturn : q.nextCuId ≤ cu := by
    by_contra hlt
    have := h.past cu (not_le.mp hlt)
    omega
  have hspare := h.spare_le
  have hle := h.created_le
  have hread := h.read_le
  rcases h.length with ⟨hlen, -⟩ | ⟨hlen, -, -⟩
  · exact ⟨hturn, by omega, by omega⟩
  · exact ⟨hturn, by omega, by omega⟩

theorem ordered_of_plain (h : PlainReaches n limit total kinds q) : q.Ordered limit total := by
  induction h with
  | refl => exact ordered_start
  | tail _ hstep ih =>
      obtain ⟨kind, -, hstep⟩ := hstep
      exact ih.step (fun _ _ => rfl) hstep

/-- A step of the queue from ids that are those of a plain one is a step of that one, where not
too many CUs are in memory. -/
theorem Ordered.plainStep (h : q.Ordered limit total) (hsmall : limit < 2 ^ 32 ∨ total ≤ 2 ^ 32)
    {r : JobQueue n} (hstep : QueueStep cuId total kind (q.mapIds cuId) r) :
    ∃ q', QueueStep id total kind q q' ∧ r = q'.mapIds cuId := by
  refine step_of_mapIds cuId_succ (fun cu hjob hcu => ?_) hstep
  obtain ⟨hturn, hnear, htotal⟩ := h.near hjob
  exact eq_of_cuId hcu hturn (by omega)

/-- What the queue reaches is what the plain queue reaches, but for the ids. -/
theorem exists_plain (hsmall : limit < 2 ^ 32 ∨ total ≤ 2 ^ 32)
    (h : QueueReaches n limit total kinds q) :
    ∃ q', PlainReaches n limit total kinds q' ∧ q = q'.mapIds cuId := by
  induction h with
  | refl => exact ⟨_, .refl, by simp [mapIds, start, Job.mapId, Worker.mapId, cuId, u32]⟩
  | tail _ hstep ih =>
      obtain ⟨q', hreaches, rfl⟩ := ih
      obtain ⟨kind, hkind, hstep⟩ := hstep
      obtain ⟨q'', hplain, rfl⟩ := (ordered_of_plain hreaches).plainStep hsmall hstep
      exact ⟨q'', hreaches.tail ⟨kind, hkind, hplain⟩, rfl⟩

theorem working_of_plain (h : PlainReaches n limit total (fun kind => kind ≠ .failure) q) :
    q.Working limit total := by
  induction h with
  | refl => exact working_start
  | tail _ hstep ih =>
      obtain ⟨kind, hkind, hstep⟩ := hstep
      exact ih.step (fun _ _ => rfl) hstep hkind

end Plain

/-! ## Decoding and stealing in order -/

end JobQueue

namespace Worker

/-- The worker is decoding the CU. -/
def isRecoding (cu : ℕ) : Worker → ℕ
  | .recoding cu' => if cu' = cu then 1 else 0
  | _ => 0

/-- The worker is decoding a CU. -/
def recodes : Worker → ℕ
  | .recoding _ => 1
  | _ => 0

/-- The worker is at a `JOB_STEAL`, from taking the job to the increment of `next_cu_id`. -/
def atSteal : Worker → Bool
  | .stealing _ | .stolen _ => true
  | _ => false

theorem isRecoding_le (cu : ℕ) (p : Worker) : p.isRecoding cu ≤ p.pending cu := by
  cases p with
  | recoding _ => exact le_rfl
  | _ => exact Nat.zero_le _

end Worker

namespace JobQueue

def recoding (q : JobQueue n) (cu : ℕ) : ℕ := tally (Worker.isRecoding cu) q.workers

/-- How many CUs are being decoded. -/
def nrRecoding (q : JobQueue n) : ℕ := tally Worker.recodes q.workers

/-- Every CU that was created is being decoded, or has been decoded once. -/
structure Decoded (q : JobQueue n) : Prop where
  once : ∀ k, q.decoded.count k + q.recoding k = if k < q.nrCusCreated then 1 else 0
  length : q.decoded.length + q.nrRecoding = q.nrCusCreated

/-- What is asked of the queue: no CU is decoded twice, the CUs are stolen one at a time in the
ascending order of their ids, no more than `limit` of them are decoded or being decoded and not
yet stolen, and when all workers have returned all CUs have been decoded and stolen. -/
structure InTurn (limit total : ℕ) (q : JobQueue n) : Prop where
  decodedOnce : q.decoded.Nodup
  oneSteal : ∀ w w', (q.workers w).atSteal = true → (q.workers w').atSteal = true → w = w'
  ascending : q.steals.Pairwise (· < ·)
  fewDecoded : (q.decoded.filter (· ∉ q.steals)).length + q.nrRecoding ≤ limit
  ended : (∀ w, ∃ ok, q.workers w = .returned ok) →
    q.decoded.Perm (List.range total) ∧ ∀ cu ∈ q.decoded, cu ∈ q.steals

section Turns

variable {wrap : ℕ → ℕ} {q q' : JobQueue n} {w : Fin n} {p p' : Worker} {k limit total : ℕ}
  {kind : StepKind}

theorem decoded_start : (start limit : JobQueue n).Decoded where
  once k := by simp [recoding, start, tally_const, Worker.isRecoding]
  length := by simp [nrRecoding, start, tally_const, Worker.recodes]

/-- A move that keeps what is being decoded keeps `Decoded`. -/
theorem Decoded.of_moves (h : q.Decoded) (hmoves : q.Moves p p' q')
    (hrecoding : ∀ k, p'.isRecoding k = p.isRecoding k) (hrecodes : p'.recodes = p.recodes)
    (hdecoded : q'.decoded = q.decoded) (hcreated : q'.nrCusCreated = q.nrCusCreated) :
    q'.Decoded where
  once k := by
    have hmoved : q'.recoding k + p.isRecoding k = q.recoding k + p'.isRecoding k :=
      hmoves.tally (Worker.isRecoding k) rfl
    rw [hrecoding] at hmoved
    rw [hdecoded, hcreated, ← h.once k]
    omega
  length := by
    have hmoved : q'.nrRecoding + p.recodes = q.nrRecoding + p'.recodes :=
      hmoves.tally Worker.recodes rfl
    rw [hrecodes] at hmoved
    rw [hdecoded, hcreated, ← h.length]
    omega

theorem Decoded.of_workers (h : q.Decoded) (hworkers : q'.workers = q.workers)
    (hdecoded : q'.decoded = q.decoded) (hcreated : q'.nrCusCreated = q.nrCusCreated) :
    q'.Decoded where
  once k := by
    rw [recoding, hworkers, hdecoded, hcreated]
    exact h.once k
  length := by
    rw [nrRecoding, hworkers, hdecoded, hcreated]
    exact h.length

theorem Decoded.nextCu (h : q.Decoded)
    (hmoves : q.Moves .decoding (.recoding q.nrCusCreated) q')
    (hdecoded : q'.decoded = q.decoded) (hcreated : q'.nrCusCreated = q.nrCusCreated + 1) :
    q'.Decoded where
  once k := by
    have hmoved : q'.recoding k = q.recoding k + if q.nrCusCreated = k then 1 else 0 :=
      hmoves.tally (Worker.isRecoding k) rfl
    have honce := h.once k
    rw [hdecoded, hcreated, hmoved]
    split_ifs at honce ⊢ <;> omega
  length := by
    have hmoved : q'.nrRecoding = q.nrRecoding + 1 := hmoves.tally Worker.recodes rfl
    have hlength := h.length
    rw [hdecoded, hcreated, hmoved]
    omega

theorem Decoded.recode (h : q.Decoded) {cu : ℕ}
    (hmoves : q.Moves (.recoding cu) (.ready (some (.steal cu))) q')
    (hdecoded : q'.decoded = q.decoded ++ [cu]) (hcreated : q'.nrCusCreated = q.nrCusCreated) :
    q'.Decoded where
  once k := by
    have hmoved : q'.recoding k + (if cu = k then 1 else 0) = q.recoding k :=
      hmoves.tally (Worker.isRecoding k) rfl
    rw [hdecoded, hcreated, ← h.once k, ← hmoved, List.count_append, List.count_singleton']
    omega
  length := by
    have hmoved : q'.nrRecoding + 1 = q.nrRecoding := hmoves.tally Worker.recodes rfl
    rw [hdecoded, hcreated, ← h.length, List.length_append, List.length_singleton]
    omega

theorem worker_recodes (job : Job) :
    (∀ k, job.worker.isRecoding k = 0) ∧ job.worker.recodes = 0 := by
  cases job with
  | decode => exact ⟨fun _ => rfl, rfl⟩
  | steal cu => exact ⟨fun _ => rfl, rfl⟩

theorem Decoded.step (h : q.Decoded) (hordered : q.Ordered limit total)
    (hwrap : ∀ k ≤ total, wrap k = k) (hstep : QueueStep wrap total kind q q')
    (hkind : kind ≠ .failure) : q'.Decoded := by
  have hle := hordered.read_le
  have hcreated := hordered.created_le
  cases hstep with
  | enqueue hw hfree => exact h.of_moves (.of_update hw rfl) (fun _ => rfl) rfl rfl rfl
  | signalAdded hw hsignals => exact h.of_moves (.of_signals hw hsignals) (fun _ => rfl) rfl rfl rfl
  | lock hw hfree => exact h.of_moves (.of_update hw rfl) (fun _ => rfl) rfl rfl rfl
  | load hw => exact h.of_moves (.of_update hw rfl) (fun _ => rfl) rfl rfl rfl
  | dequeue hw hfound =>
      obtain ⟨hrecoding, hrecodes⟩ := worker_recodes _
      exact h.of_moves (.of_update hw rfl) hrecoding hrecodes rfl rfl
  | wait hw hnone => exact h.of_moves (.of_update hw rfl) (fun _ => rfl) rfl rfl rfl
  | wake hw => exact h.of_moves (.of_update hw rfl) (fun _ => rfl) rfl rfl rfl
  | relock hw hfree => exact h.of_moves (.of_update hw rfl) (fun _ => rfl) rfl rfl rfl
  | nextCu hw herror hlt => exact h.nextCu (.of_update hw rfl) rfl (hwrap _ (by omega))
  | noMoreCus hw herror hread => exact h.of_moves (.of_update hw rfl) (fun _ => rfl) rfl rfl rfl
  | recode hw => exact h.recode (.of_update hw rfl) rfl rfl
  | steal hw => exact h.of_moves (.of_update hw rfl) (fun _ => rfl) rfl rfl rfl
  | incNextCuId hw hfree => exact h.of_moves (.of_update hw rfl) (fun _ => rfl) rfl rfl rfl
  | returnOk hw herror => exact h.of_moves (.of_update hw rfl) (fun _ => rfl) rfl rfl rfl
  | create hw hturn => exact h.of_moves (.of_update hw rfl) (fun _ => rfl) rfl rfl rfl
  | noteCreated hw hturn => exact h.of_workers rfl rfl rfl
  | allCreated hturn => exact h.of_workers rfl rfl rfl
  | join hcreated hturn hw => exact h.of_workers rfl rfl rfl
  | giveUp | seeError | noMemory | noCuDie | badCu | recodeFails | fail | stealStops | stopEarly
  | storeAbort | signalAbort | createFails | joinAborted => exact absurd rfl hkind

theorem decoded_of_plain (h : PlainReaches n limit total (fun kind => kind ≠ .failure) q) :
    q.Decoded := by
  induction h with
  | refl => exact decoded_start
  | tail hreaches hstep ih =>
      obtain ⟨kind, hkind, hstep⟩ := hstep
      exact ih.step (ordered_of_plain hreaches) (fun _ _ => rfl) hstep hkind

theorem Decoded.mem_iff (h : q.Decoded) (hnone : q.recoding k = 0) :
    k ∈ q.decoded ↔ k < q.nrCusCreated := by
  have honce := h.once k
  rw [← List.count_pos_iff]
  split_ifs at honce with hlt
  · exact ⟨fun _ => hlt, fun _ => by omega⟩
  · exact ⟨fun hpos => by omega, fun hlt' => absurd hlt' hlt⟩

theorem Decoded.nodup (h : q.Decoded) : q.decoded.Nodup := by
  refine List.nodup_iff_count_le_one.mpr fun k => ?_
  have honce := h.once k
  split_ifs at honce <;> omega

theorem Decoded.lt (h : q.Decoded) (hk : k ∈ q.decoded) : k < q.nrCusCreated := by
  have honce := h.once k
  have hpos := List.count_pos_iff.mpr hk
  split_ifs at honce with hlt
  · exact hlt
  · omega

theorem recoding_le (q : JobQueue n) (k : ℕ) : q.recoding k ≤ q.pending k := by
  unfold recoding pending tally
  exact Finset.sum_le_sum fun w _ => Worker.isRecoding_le k (q.workers w)

/-- The stolen CUs have been decoded. -/
theorem Decoded.of_steals (h : q.Decoded) (hordered : q.Ordered limit total)
    (hk : k ∈ q.steals) : k ∈ q.decoded := by
  rw [hordered.steals, List.mem_range] at hk
  have hle := q.recoding_le k
  have hnext := hordered.next_le
  rcases hordered.length with ⟨hlen, -⟩ | ⟨hlen, hlt, hnone⟩
  · have := hordered.past k (by omega)
    exact (h.mem_iff (by omega)).mpr (by omega)
  · rcases Nat.lt_or_eq_of_le (show k ≤ q.nextCuId by omega) with hpast | rfl
    · have := hordered.past k hpast
      exact (h.mem_iff (by omega)).mpr (by omega)
    · exact (h.mem_iff (by omega)).mpr hlt

theorem Ordered.oneSteal (h : q.Ordered limit total) {w' : Fin n}
    (hw : (q.workers w).atSteal = true) (hw' : (q.workers w').atSteal = true) : w = w' := by
  have hthis : ∀ v, (q.workers v).atSteal = true →
      (q.workers v).isStealing q.nextCuId + (q.workers v).hasStolen q.nextCuId = 1 := by
    intro v hv
    cases hp : q.workers v with
    | stealing cu =>
        obtain ⟨rfl, -⟩ := h.stealing_eq hp
        simp [Worker.isStealing, Worker.hasStolen]
    | stolen cu =>
        obtain ⟨rfl, -⟩ := h.stolen_eq hp
        simp [Worker.isStealing, Worker.hasStolen]
    | _ =>
        rw [hp] at hv
        cases hv
  by_contra hne
  have hboth := add_le_tally
    (fun p => p.isStealing q.nextCuId + p.hasStolen q.nextCuId) q.workers hne
  have hsum : tally (fun p => p.isStealing q.nextCuId + p.hasStolen q.nextCuId) q.workers =
      q.stealing q.nextCuId + q.stolen q.nextCuId := Finset.sum_add_distrib
  have honce := h.once q.nextCuId
  rw [hsum, hthis w hw, hthis w' hw'] at hboth
  omega

/-- The decoded CUs are those that have been stolen and the others. -/
theorem Decoded.length_filter (h : q.Decoded) (hordered : q.Ordered limit total) :
    (q.decoded.filter (· ∉ q.steals)).length + q.steals.length = q.decoded.length := by
  have hnodup : q.steals.Nodup := by
    rw [hordered.steals]
    exact List.nodup_range
  have hperm : (q.decoded.filter (· ∈ q.steals)).Perm q.steals := by
    refine (List.perm_ext_iff_of_nodup (h.nodup.filter _) hnodup).mpr fun k => ?_
    rw [List.mem_filter, decide_eq_true_iff]
    exact ⟨fun hk => hk.2, fun hk => ⟨h.of_steals hordered hk, hk⟩⟩
  have hsplit := List.length_eq_length_filter_add (l := q.decoded) (fun k => decide (k ∈ q.steals))
  rw [hperm.length_eq] at hsplit
  simp only [decide_not]
  omega

theorem Working.inTurn (h : q.Working limit total) (hdecoded : q.Decoded) (hn : 0 < n) :
    q.InTurn limit total where
  decodedOnce := hdecoded.nodup
  oneSteal _ _ := h.ordered.oneSteal
  ascending := by
    rw [h.ordered.steals]
    exact List.pairwise_lt_range
  fewDecoded := by
    have hsplit := hdecoded.length_filter h.ordered
    have hlength := hdecoded.length
    have hspare := h.ordered.spare_le
    omega
  ended hreturned := by
    have hok : ∀ w, q.workers w = .returned true := by
      intro w
      obtain ⟨ok, hw⟩ := hreturned w
      have hsound := h.quiet.isUnsound_eq w
      cases ok with
      | true => exact hw
      | false =>
          rw [hw] at hsound
          cases hsound
    have hsteals := h.steals_eq hn hok
    have hlength : q.steals.length = total := by rw [hsteals, List.length_range]
    have hread := h.ordered.read_le
    have hcreated := h.ordered.created_le
    have hmem : ∀ k ∈ q.decoded, k ∈ List.range total := fun k hk =>
      List.mem_range.mpr (by
        have := hdecoded.lt hk
        omega)
    refine ⟨(List.perm_ext_iff_of_nodup hdecoded.nodup List.nodup_range).mpr fun k =>
      ⟨hmem k, fun hk => ?_⟩, fun k hk => hsteals ▸ hmem k hk⟩
    exact hdecoded.of_steals h.ordered (hsteals ▸ hk)

/-- Ids below 2^32 are as they are. -/
theorem map_cuId {l : List ℕ} (h : ∀ k ∈ l, k < 2 ^ 32) : l.map cuId = l := by
  refine (List.map_congr_left fun k hk => ?_).trans (List.map_id l)
  exact u32_of_lt (h k hk)

theorem InTurn.mapIds (h : q.InTurn limit total) (hdecoded : q.decoded.map cuId = q.decoded)
    (hsteals : q.steals.map cuId = q.steals) : (q.mapIds cuId).InTurn limit total := by
  have hplace : ∀ v, ((q.mapIds cuId).workers v).atSteal = (q.workers v).atSteal := by
    intro v
    change ((q.workers v).mapId cuId).atSteal = _
    cases q.workers v <;> rfl
  have hrecodes : (q.mapIds cuId).nrRecoding = q.nrRecoding := by
    unfold nrRecoding tally
    refine Finset.sum_congr rfl fun v _ => ?_
    change ((q.workers v).mapId cuId).recodes = _
    cases q.workers v <;> rfl
  have hreturned : ∀ v ok, (q.mapIds cuId).workers v = .returned ok → q.workers v = .returned ok :=
    fun v ok hv => Worker.eq_of_mapId hv rfl
  refine ⟨?_, fun w w' hw hw' => ?_, ?_, ?_, fun hdone => ?_⟩
  · change (q.decoded.map cuId).Nodup
    rw [hdecoded]
    exact h.decodedOnce
  · exact h.oneSteal w w' ((hplace w).symm.trans hw) ((hplace w').symm.trans hw')
  · change (q.steals.map cuId).Pairwise (· < ·)
    rw [hsteals]
    exact h.ascending
  · rw [hrecodes]
    change ((q.decoded.map cuId).filter (· ∉ q.steals.map cuId)).length + q.nrRecoding ≤ limit
    rw [hdecoded, hsteals]
    exact h.fewDecoded
  · change (q.decoded.map cuId).Perm _ ∧ ∀ cu ∈ q.decoded.map cuId, cu ∈ q.steals.map cuId
    rw [hdecoded, hsteals]
    exact h.ended fun w => (hdone w).imp fun ok hw => hreturned w ok hw

/-- Without a failure the CUs of a file of up to 2^32 CUs are decoded and stolen in turn, in
every state that the workers reach. -/
theorem cus_inTurn (nrJobs : ℕ) {q : JobQueue (nrWorkers nrJobs)} (htotal : total ≤ 2 ^ 32)
    (h : QueueReaches (nrWorkers nrJobs) (decodedCusLimit nrJobs) total
      (fun kind => kind ≠ .failure) q) : q.InTurn (decodedCusLimit nrJobs) total := by
  obtain ⟨q, hplain, rfl⟩ := exists_plain (Or.inr htotal) h
  have hworking := working_of_plain hplain
  have hdecoded := decoded_of_plain hplain
  have hread := hworking.ordered.read_le
  have hcreated := hworking.ordered.created_le
  have hsmall : ∀ k ∈ q.decoded, k < 2 ^ 32 := fun k hk => by
    have := hdecoded.lt hk
    omega
  exact (hworking.inTurn hdecoded (nrWorkers_pos nrJobs)).mapIds (map_cuId hsmall)
    (map_cuId fun k hk => hsmall k (hdecoded.of_steals hworking.ordered hk))

/-- One worker at a time takes the `k`-th CU when the others are stolen. -/
structure Serial (k : ℕ) (q : JobQueue 1) : Prop where
  place : q.workers 0 = .loaded false
  jobs : q.jobs = [.decode, .decode]
  error : q.error = 0
  read : q.cusRead = k
  next : q.nextCuId = cuId k
  created : q.nrCusCreated = cuId k
  abort : q.abort = false
  steals : q.steals = (List.range k).map cuId

theorem unheard_one {ws : Fin 1 → Worker} (h : p ≠ .asleep) :
    Signals (Function.update ws 0 p) (Function.update ws 0 p) := by
  refine .unheard fun v => ?_
  rw [Subsingleton.elim v 0, Function.update_self]
  exact h

theorem serial_zero : ∃ q : JobQueue 1,
    QueueReaches 1 2 total (fun kind => kind ≠ .failure) q ∧ Serial 0 q := by
  have hstart : QueueReaches 1 2 total (fun kind => kind ≠ .failure) (start 2) := .refl
  have hcreated := hstart.tail ⟨.move, nofun, .create (w := 0) rfl rfl⟩
  have hlocked := hcreated.tail ⟨.move, nofun, .lock (w := 0) rfl rfl⟩
  exact ⟨_, hlocked.tail ⟨.move, nofun, .load (w := 0) rfl⟩, rfl, rfl, rfl, rfl, rfl, rfl, rfl, rfl⟩

theorem Serial.succ {q : JobQueue 1} (h : Serial k q) (hk : k < total)
    (hreaches : QueueReaches 1 2 total (fun kind => kind ≠ .failure) q) : ∃ q' : JobQueue 1,
    QueueReaches 1 2 total (fun kind => kind ≠ .failure) q' ∧ Serial (k + 1) q' := by
  obtain ⟨jobs, next, abort, locked, error, lsk, created, toJoin, read, nrCreated, workers, decoded,
    steals⟩ := q
  obtain ⟨hplace, hjobs, herror, hread, hnext, hnr, habort, hsteals⟩ := h
  dsimp only at hplace hjobs herror hread hnext hnr habort hsteals
  subst hjobs herror hread hnext hnr habort hsteals
  have hdecode := hreaches.tail ⟨.work, nofun, .dequeue (w := 0) hplace rfl⟩
  have hcu := hdecode.tail ⟨.work, nofun, .nextCu (w := 0) rfl rfl hk⟩
  have hdecoded := hcu.tail ⟨.move, nofun, .recode (w := 0) rfl⟩
  have hqueued := hdecoded.tail ⟨.work, nofun, .enqueue (w := 0) rfl rfl⟩
  have hadded := hqueued.tail ⟨.work, nofun, .signalAdded (w := 0) rfl (unheard_one nofun)⟩
  have hloaded := hadded.tail ⟨.move, nofun, .load (w := 0) rfl⟩
  have hfound : tryDequeue (cuId read) [.steal (cuId read), .decode] =
      some (.steal (cuId read), [.decode]) := by
    rw [tryDequeue, if_pos]
    exact decide_eq_true rfl
  have hjob := hloaded.tail ⟨.work, nofun, .dequeue (w := 0) rfl hfound⟩
  have hstolen := hjob.tail ⟨.work, nofun, .steal (w := 0) rfl⟩
  have hnext := hstolen.tail ⟨.work, nofun, .incNextCuId (w := 0) rfl rfl⟩
  have hfreed := hnext.tail ⟨.work, nofun, .enqueue (w := 0) rfl rfl⟩
  have hdone := hfreed.tail ⟨.work, nofun, .signalAdded (w := 0) rfl (unheard_one nofun)⟩
  refine ⟨_, hdone.tail ⟨.move, nofun, .load (w := 0) rfl⟩, rfl, rfl, rfl, rfl, cuId_succ _,
    cuId_succ _, rfl, ?_⟩
  change List.map cuId (List.range read) ++ [cuId read] = _
  rw [List.range_succ, List.map_append, List.map_singleton]

theorem serial_reaches (h : k ≤ total) : ∃ q : JobQueue 1,
    QueueReaches 1 2 total (fun kind => kind ≠ .failure) q ∧ Serial k q := by
  induction k with
  | zero => exact serial_zero
  | succ k ih =>
      obtain ⟨q, hreaches, hserial⟩ := ih (by omega)
      exact hserial.succ h hreaches

/-- The id of the CU after the first 2^32 is 0 again. -/
theorem cus_inTurn_wraps : ∃ q : JobQueue (nrWorkers 1),
    QueueReaches (nrWorkers 1) (decodedCusLimit 1) (2 ^ 32 + 1) (fun kind => kind ≠ .failure) q ∧
      ¬q.InTurn (decodedCusLimit 1) (2 ^ 32 + 1) := by
  obtain ⟨q, hreaches, hserial⟩ := serial_reaches (le_refl (2 ^ 32 + 1))
  refine ⟨q, hreaches, fun hturn => ?_⟩
  have hpairs := hturn.ascending
  rw [hserial.steals, List.range_succ, List.map_append, List.pairwise_append] at hpairs
  have hless := hpairs.2.2 (cuId 0) (List.mem_map_of_mem (List.mem_range.mpr (by omega)))
    (cuId (2 ^ 32)) List.mem_cons_self
  exact absurd hless (by decide)

theorem cus_inTurn_two : ∃ q : JobQueue (nrWorkers 2), q.steals = [0, 1] ∧
    q.InTurn (decodedCusLimit 2) 2 := by
  obtain ⟨q, hrun, hsteals⟩ := reaches_two
  exact ⟨q, hsteals, cus_inTurn 2 (by decide) hrun⟩

end Turns

end JobQueue

end Pahole

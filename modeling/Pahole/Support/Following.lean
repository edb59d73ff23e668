import Pahole.Support.FallibleTable

/-!
# Programs that follow plans and scripts

A program *follows* a plan when it does what the execution of the plan says: it
ends where the execution ends, in the same session, and reacts to the call that
fails as the site of the call prescribes.

Which calls a program makes may depend on the table it finds.  A *script* is what
such a program is expected to do, and is put together from plans.
-/

namespace FallibleTable

variable {α β γ κ : Type}

/-! ## Following a plan -/

/-- The reactions of a program to a call of its own that fails. -/
inductive Reaction where
  /-- return a negative value -/
  | propagate
  /-- read the entry of the id that was not allocated -/
  | crash
  /-- stop and return zero -/
  | drop
  /-- go on -/
  | ignore
  deriving DecidableEq

/-- The sites at which a failure ends a program. -/
def stopsAt (react : κ → Reaction) (site : κ) : Bool := decide (react site ≠ .ignore)

/-- `p`, started in `s`, ends in `s'` because of a failed call, as the reaction of its site
says.  Only a program that `drops` errors may hide one. -/
def Halts (drops : Bool) (p : Prog α β ℤ) (s s' : Session α β) : Reaction → Prop
  | .propagate => ∃ r, p s = .ok r s' ∧ r < 0
  | .crash => p s = .error .nullDeref s'
  | .drop => drops = true ∧ p s = .ok 0 s'
  | .ignore => False

/-- `p`, started in `s`, ends as the execution of its plan did; where the plan is done, it
returns `val` of the table. -/
def Ends (drops : Bool) (react : κ → Reaction) (p : Prog α β ℤ) (s : Session α β)
    (val : Table α β → ℤ) : Outcome κ × Session α β → Prop
  | (.done, s') => p s = .ok (val s'.table) s' ∧ 0 ≤ val s'.table
  | (.aborted, s') => Halts drops p s s' .propagate
  | (.crashed crash, s') => p s = .error crash s'
  | (.stopped site, s') => Halts drops p s s' (react site)

/-- `p`, started in `s`, ends as the execution of `plan` from `s` does. -/
def Runs (drops : Bool) (react : κ → Reaction) (p : Prog α β ℤ) (s : Session α β)
    (plan : Plan κ α β) (val : Table α β → ℤ) : Prop :=
  Ends drops react p s val (exec (stopsAt react) plan s)

/-- `Runs` for a program that reports every error that stops it. -/
abbrev Follows (react : κ → Reaction) (p : Prog α β ℤ) (s : Session α β)
    (plan : Plan κ α β) (val : Table α β → ℤ) : Prop :=
  Runs false react p s plan val

section Rules

variable {react : κ → Reaction} {p q b : Prog α β ℤ} {k : ℤ → Prog α β ℤ}
  {s s' : Session α β} {plan plan₁ plan₂ : Plan κ α β}
  {val val₁ val₂ : Table α β → ℤ} {site : κ} {drops : Bool}

@[simp] theorem ends_done :
    Ends drops react p s val (.done, s') ↔ p s = .ok (val s'.table) s' ∧ 0 ≤ val s'.table :=
  Iff.rfl

@[simp] theorem ends_aborted :
    Ends drops react p s val (.aborted, s') ↔ Halts drops p s s' .propagate :=
  Iff.rfl

@[simp] theorem ends_crashed {crash : Crash} :
    Ends drops react p s val (.crashed crash, s') ↔ p s = .error crash s' :=
  Iff.rfl

@[simp] theorem ends_stopped :
    Ends drops react p s val (.stopped site, s') ↔ Halts drops p s s' (react site) :=
  Iff.rfl

theorem Halts.of_eq {s'' : Session α β} {reaction : Reaction} (h : p s = q s')
    (hq : Halts drops q s' s'' reaction) : Halts drops p s s'' reaction := by
  unfold Halts at hq ⊢
  rwa [h]

theorem Ends.of_eq {out : Outcome κ × Session α β} (h : p s = q s')
    (hq : Ends drops react q s' val out) : Ends drops react p s val out := by
  obtain ⟨o, s''⟩ := out
  cases o with
  | done => exact ⟨h.trans hq.1, hq.2⟩
  | aborted => exact (Halts.of_eq h hq : Halts drops p s s'' .propagate)
  | crashed crash => exact h.trans hq
  | stopped site => exact (Halts.of_eq h hq : Halts drops p s s'' (react site))

theorem Runs.of_eq (h : p s = q s) (hq : Runs drops react q s plan val) :
    Runs drops react p s plan val :=
  Ends.of_eq h hq

/-- The rule for a program that starts by looking at the table. -/
theorem Runs.getTable {f : Table α β → Prog α β ℤ}
    (hp : Runs drops react (f s.table) s plan val) :
    Runs drops react (getTable >>= f) s plan val :=
  Runs.of_eq (q := f s.table) rfl hp

/-- The rule for a step that changes the client's data. -/
theorem Runs.set {f : Table α β → β} (h : p s = q (s.setClient (f s.table)))
    (hq : Runs drops react q (s.setClient (f s.table)) plan val) :
    Runs drops react p s (.set f :: plan) val :=
  Ends.of_eq h hq

/-- The rule for a check that is passed. -/
theorem Runs.check {ok : Table α β → Bool} (hok : ok s.table = true)
    (hp : Runs drops react p s plan val) :
    Runs drops react p s (.check ok :: plan) val := by
  unfold Runs at hp ⊢
  simpa only [exec, hok, ↓reduceIte] using hp

/-- The rule for a check that is not passed. -/
theorem Runs.refuse {ok : Table α β → Bool} {r : ℤ} (hok : ok s.table = false)
    (h : p s = .ok r s) (hr : r < 0) : Runs drops react p s (.check ok :: plan) val := by
  unfold Runs
  simp only [exec, hok]
  exact ⟨r, h, hr⟩

theorem Runs.congr_val (hp : Runs drops react p s plan val₁)
    (h : ∀ s', exec (stopsAt react) plan s = (.done, s') →
      val₁ s'.table = val₂ s'.table) : Runs drops react p s plan val₂ := by
  unfold Runs at hp ⊢
  rcases hout : exec (stopsAt react) plan s with ⟨o, s'⟩
  rw [hout] at hp
  cases o with
  | done =>
      rw [ends_done] at hp ⊢
      rwa [← h s' hout]
  | aborted => exact hp
  | crashed crash => exact hp
  | stopped site => exact hp

/-- A program that reports every error drops none. -/
theorem Follows.runs (hp : Follows react p s plan val) : Runs drops react p s plan val := by
  unfold Follows Runs at hp
  unfold Runs
  rcases hout : exec (stopsAt react) plan s with ⟨o, s'⟩
  rw [hout] at hp
  cases o with
  | done => exact hp
  | aborted => exact hp
  | crashed crash => exact hp
  | stopped site =>
      rw [ends_stopped] at hp ⊢
      cases hreact : react site with
      | propagate => rwa [hreact] at hp
      | crash => rwa [hreact] at hp
      | drop =>
          rw [hreact] at hp
          exact absurd hp.1 Bool.false_ne_true
      | ignore => rwa [hreact] at hp

/-- A program that reports every error and returns no negative value ends as an execution
that is done. -/
theorem Ends.done_of_nonneg {out : Outcome κ × Session α β} {r : ℤ}
    (hp : Ends false react p s val out) (hrun : p s = .ok r s') (hr : 0 ≤ r) :
    out = (.done, s') ∧ r = val s'.table := by
  obtain ⟨o, s''⟩ := out
  have hneg : ¬∃ r', p s = .ok r' s'' ∧ r' < 0 := by
    rintro ⟨r', hrun', hr'⟩
    rw [hrun] at hrun'
    obtain ⟨rfl, -⟩ := EStateM.Result.ok.inj hrun'
    exact absurd hr (not_le.mpr hr')
  cases o with
  | done =>
      have hval := hp.1
      rw [hrun] at hval
      obtain ⟨rfl, rfl⟩ := EStateM.Result.ok.inj hval
      exact ⟨rfl, rfl⟩
  | aborted => exact absurd hp hneg
  | crashed crash =>
      have herr : p s = .error crash s'' := hp
      rw [hrun] at herr
      cases herr
  | stopped site =>
      rw [ends_stopped] at hp
      cases hreact : react site with
      | propagate =>
          rw [hreact] at hp
          exact absurd hp hneg
      | crash =>
          rw [hreact] at hp
          have herr : p s = .error .nullDeref s'' := hp
          rw [hrun] at herr
          cases herr
      | drop =>
          rw [hreact] at hp
          exact absurd hp.1 Bool.false_ne_true
      | ignore =>
          rw [hreact] at hp
          exact hp.elim

/-- A program that reports every error and returns no negative value has carried out its
plan. -/
theorem Follows.done_of_nonneg {r : ℤ} (hp : Follows react p s plan val)
    (hrun : p s = .ok r s') (hr : 0 ≤ r) :
    exec (stopsAt react) plan s = (.done, s') ∧ r = val s'.table :=
  Ends.done_of_nonneg hp hrun hr

/-- A program that reports every error returns a negative value, or it has run the whole
plan. -/
theorem Follows.returns (hp : Follows react p s plan val)
    (hsites : plan.Heard fun site => react site = .propagate) :
    (∃ s', p s = .ok (val s'.table) s' ∧ 0 ≤ val s'.table ∧
        exec (stopsAt react) plan s = (.done, s') ∧ s'.table = plan.run s.table) ∨
      (∃ r s', p s = .ok r s' ∧ r < 0) ∧ (exec (stopsAt react) plan s).1 ≠ .done := by
  have hheard : plan.Heard (stopsAt react) := by
    intro site hsite
    have hprop : react site = .propagate := of_decide_eq_true (hsites site hsite)
    simp [stopsAt, hprop]
  unfold Follows Runs at hp
  rcases hout : exec (stopsAt react) plan s with ⟨o, s'⟩
  rw [hout] at hp
  cases o with
  | done => exact Or.inl ⟨s', hp.1, hp.2, rfl, (exec_done hheard hout).1⟩
  | aborted =>
      obtain ⟨r, hrun, hr⟩ := hp
      exact Or.inr ⟨⟨r, s', hrun, hr⟩, by simp⟩
  | crashed crash => exact absurd hout exec_ne_crashed
  | stopped site =>
      obtain ⟨-, hmem, -⟩ := exec_stopped hout
      have hprop : react site = .propagate := of_decide_eq_true (hsites site hmem)
      rw [ends_stopped, hprop] at hp
      obtain ⟨r, hrun, hr⟩ := hp
      exact Or.inr ⟨⟨r, s', hrun, hr⟩, by simp⟩

/-- A program ends in the session that it is said to end in. -/
theorem Ends.finalSession_eq {out : Outcome κ × Session α β}
    (hp : Ends drops react p s val out) : finalSession (p s) = out.2 := by
  obtain ⟨o, s'⟩ := out
  cases o with
  | done => rw [hp.1, finalSession]
  | aborted =>
      obtain ⟨r, hrun, -⟩ := hp
      rw [hrun, finalSession]
  | crashed crash => rw [show p s = _ from hp, finalSession]
  | stopped site =>
      rw [ends_stopped] at hp
      cases hreact : react site with
      | propagate =>
          rw [hreact] at hp
          obtain ⟨r, hrun, -⟩ := hp
          rw [hrun, finalSession]
      | crash =>
          rw [hreact] at hp
          rw [show p s = _ from hp, finalSession]
      | drop =>
          rw [hreact] at hp
          rw [hp.2, finalSession]
      | ignore =>
          rw [hreact] at hp
          exact hp.elim

/-- A program ends in the session that the execution of its plan ends in. -/
theorem Runs.finalSession_eq (hp : Runs drops react p s plan val) :
    finalSession (p s) = (exec (stopsAt react) plan s).2 :=
  Ends.finalSession_eq hp

/-- A program that makes one call follows the plan of this call. -/
theorem follows_call {op : Op α} (hsite : react site ≠ .ignore)
    (hok : s.nextFailure op = none →
      p s = .ok (val (s.served op).table) (s.served op) ∧ 0 ≤ val (s.served op).table)
    (herr : ∀ e, s.nextFailure op = some e →
      Ends false react p s val (.stopped site, s.refused)) :
    Follows react p s [.call site fun _ => op] val := by
  unfold Follows Runs
  have hstop : stopsAt react site = true := by simp [stopsAt, hsite]
  cases hf : s.nextFailure op with
  | some e => simpa [exec, hf, hstop] using herr e hf
  | none => simpa [exec, hf] using hok hf

/-- An append has returned the id of the entry that is now the last one. -/
def lastId (t : Table α β) : ℤ := (t.cnt : ℤ) - 1

theorem lastId_served_append (t : Table α β) (x : α) :
    lastId (t.served (.append x)) = t.cnt := by
  simp [lastId, cnt_served_append]

theorem follows_append (hsite : react site = .propagate) (x : α) (s : Session α β) :
    Follows react (append x) s [.call site fun _ => .append x] lastId := by
  refine follows_call (by simp [hsite]) ?_ ?_
  · intro hf
    simp [append, perform, hf, lastId_served_append, Op.result]
  · intro e hf
    rw [ends_stopped, hsite]
    exact ⟨e.code, by simp [append, perform, hf], e.neg⟩

theorem follows_editLast (hsite : react site = .propagate) (f : α → α)
    (s : Session α β) :
    Follows react (editLast f) s [.call site fun _ => .editLast f] fun _ => 0 := by
  refine follows_call (by simp [hsite]) ?_ ?_
  · intro hf
    simp [editLast, perform, hf, Op.result]
  · intro e hf
    rw [ends_stopped, hsite]
    exact ⟨e.code, by simp [editLast, perform, hf], e.neg⟩

theorem follows_touch (hsite : react site = .propagate) (s : Session α β) :
    Follows react (perform .touch) s [.call site fun _ => .touch] fun _ => 0 := by
  refine follows_call (by simp [hsite]) ?_ ?_
  · intro hf
    simp [perform, hf, Op.result]
  · intro e hf
    rw [ends_stopped, hsite]
    exact ⟨e.code, by simp [perform, hf], e.neg⟩

theorem appendRead_ok {reads : ℤ → Bool} {x : α} (h : s.nextFailure (.append x) = none) :
    appendRead reads x s = .ok (s.table.cnt : ℤ) (s.served (.append x)) := by
  have hlt : (s.table.cnt : ℤ) < (s.served (.append x)).table.cnt := by
    simp [Session.served, cnt_served_append]
  have hread : readEntry (s.table.cnt : ℤ) (s.served (.append x)) =
      .ok () (s.served (.append x)) :=
    if_pos ⟨Int.natCast_nonneg _, hlt⟩
  have hrun : append x s = .ok (s.table.cnt : ℤ) (s.served (.append x)) := by
    simp [append, perform, h, Op.result]
  simp only [appendRead, bind, EStateM.bind, hrun]
  cases reads s.table.cnt with
  | false => rfl
  | true => simp only [↓reduceIte, EStateM.bind, hread, pure, EStateM.pure]

theorem appendRead_refused {reads : ℤ → Bool} {x : α} {e : Errno}
    (h : s.nextFailure (.append x) = some e) :
    appendRead reads x s =
      if reads e.code then .error .nullDeref s.refused else .ok e.code s.refused := by
  have hrun : append x s = .ok e.code s.refused := by simp [append, perform, h]
  have hneg : ¬0 ≤ e.code := by
    have := e.neg
    omega
  simp only [appendRead, bind, EStateM.bind, hrun]
  cases reads e.code with
  | false => rfl
  | true => simp [EStateM.bind, readEntry, hneg]

/-- An append whose failure is reported follows its plan. -/
theorem follows_appendRead (hsite : react site = .propagate) {reads : ℤ → Bool}
    (hreads : ∀ id, id < 0 → reads id = false) (x : α) (s : Session α β) :
    Follows react (appendRead reads x) s [.call site fun _ => .append x] lastId := by
  refine follows_call (by simp [hsite]) ?_ ?_
  · intro hf
    simp [appendRead_ok hf, lastId_served_append]
  · intro e hf
    rw [ends_stopped, hsite]
    exact ⟨e.code, by simp [appendRead_refused hf, hreads _ e.neg], e.neg⟩

/-- An append whose failure is taken for an id follows a plan that crashes. -/
theorem follows_appendRead_crash (hsite : react site = .crash) {reads : ℤ → Bool}
    (hreads : ∀ e : Errno, reads e.code = true) (x : α) (s : Session α β) :
    Follows react (appendRead reads x) s [.call site fun _ => .append x] lastId := by
  refine follows_call (by simp [hsite]) ?_ ?_
  · intro hf
    simp [appendRead_ok hf, lastId_served_append]
  · intro e hf
    rw [ends_stopped, hsite]
    exact (appendRead_refused hf).trans (by rw [hreads e, if_pos rfl])

theorem follows_return {r : ℤ} (hr : 0 ≤ r) (s : Session α β) :
    Follows react (return r) s [] fun _ => r :=
  ⟨rfl, hr⟩

theorem follows_abort {r : ℤ} (hr : r < 0) (s : Session α β) :
    Follows react (return r) s (Step.abort :: plan) val :=
  Runs.refuse rfl rfl hr

/-- The rule for a program that goes on after `p` unless `p` fails. -/
theorem Ends.bind {out : Outcome κ × Session α β}
    {next : Session α β → Outcome κ × Session α β} (hp : Ends false react p s val₁ out)
    (hdone : ∀ s', out = (.done, s') → p s = .ok (val₁ s'.table) s' → 0 ≤ val₁ s'.table →
      ∃ q', b s = q' s' ∧ Ends drops react q' s' val (next s'))
    (herror : ∀ r s', p s = .ok r s' → r < 0 → ∃ r', b s = .ok r' s' ∧ r' < 0)
    (hcrash : ∀ crash s', p s = .error crash s' → b s = .error crash s') :
    Ends drops react b s val (proceed out next) := by
  obtain ⟨o, s'⟩ := out
  cases o with
  | done =>
      obtain ⟨q', hb, hq⟩ := hdone s' rfl hp.1 hp.2
      exact Ends.of_eq hb hq
  | aborted =>
      obtain ⟨r, hrun, hr⟩ := hp
      exact herror r s' hrun hr
  | crashed crash => exact hcrash crash s' hp
  | stopped site =>
      have hstop : Halts false p s s' (react site) := hp
      change Halts drops b s s' (react site)
      cases hreact : react site with
      | propagate =>
          rw [hreact] at hstop
          obtain ⟨r, hrun, hr⟩ := hstop
          exact herror r s' hrun hr
      | crash =>
          rw [hreact] at hstop
          exact hcrash .nullDeref s' hstop
      | drop =>
          rw [hreact] at hstop
          exact absurd hstop.1 Bool.false_ne_true
      | ignore =>
          rw [hreact] at hstop
          exact hstop.elim

/-- The rule for `if (id < 0) return id`. -/
theorem Ends.andThen {out : Outcome κ × Session α β}
    {next : Session α β → Outcome κ × Session α β} (hp : Ends false react p s val₁ out)
    (hk : ∀ s', out = (.done, s') → 0 ≤ val₁ s'.table →
      Ends drops react (k (val₁ s'.table)) s' val (next s')) :
    Ends drops react (andThen p k) s val (proceed out next) := by
  refine Ends.bind hp ?_ ?_ ?_
  · intro s' hout hrun hpos
    refine ⟨k (val₁ s'.table), ?_, hk s' hout hpos⟩
    have hneg : ¬val₁ s'.table < 0 := by omega
    simp only [FallibleTable.andThen, Bind.bind, EStateM.bind, hrun, if_neg hneg]
  · intro r s' hrun hr
    refine ⟨r, ?_, hr⟩
    simp only [FallibleTable.andThen, Bind.bind, EStateM.bind, hrun, if_pos hr]
    rfl
  · intro crash s' hrun
    simp only [FallibleTable.andThen, Bind.bind, EStateM.bind, hrun]

theorem andThen_assoc (p : Prog α β ℤ) (f g : ℤ → Prog α β ℤ) :
    FallibleTable.andThen (FallibleTable.andThen p f) g =
      FallibleTable.andThen p fun id => FallibleTable.andThen (f id) g := by
  funext s
  simp only [FallibleTable.andThen, Bind.bind, EStateM.bind]
  cases hp : p s with
  | error crash s' => rfl
  | ok id s' =>
      by_cases hneg : id < 0
      · simp only [hneg, ↓reduceIte, pure, EStateM.pure]
      · simp only [hneg, ↓reduceIte]
        rfl

theorem andThen_return {r : ℤ} (hr : 0 ≤ r) (k : ℤ → Prog α β ℤ) (s : Session α β) :
    FallibleTable.andThen (return r) k s = k r s := by
  have hneg : ¬r < 0 := by omega
  simp only [FallibleTable.andThen, Bind.bind, EStateM.bind, pure, EStateM.pure, if_neg hneg]

/-- The rule for `if (id < 0) return -1`. -/
theorem Ends.elseMinusOne {out : Outcome κ × Session α β}
    {next : Session α β → Outcome κ × Session α β} (hp : Ends false react p s val₁ out)
    (hk : ∀ s', out = (.done, s') → 0 ≤ val₁ s'.table →
      Ends drops react (k (val₁ s'.table)) s' val (next s')) :
    Ends drops react (elseMinusOne p k) s val (proceed out next) := by
  refine Ends.bind hp ?_ ?_ ?_
  · intro s' hout hrun hpos
    refine ⟨k (val₁ s'.table), ?_, hk s' hout hpos⟩
    have hneg : ¬val₁ s'.table < 0 := by omega
    simp only [FallibleTable.elseMinusOne, Bind.bind, EStateM.bind, hrun, if_neg hneg]
  · intro r s' hrun hr
    refine ⟨-1, ?_, by omega⟩
    simp only [FallibleTable.elseMinusOne, Bind.bind, EStateM.bind, hrun, if_pos hr]
    rfl
  · intro crash s' hrun
    simp only [FallibleTable.elseMinusOne, Bind.bind, EStateM.bind, hrun]

/-- The rule for `if (err) return -1`, where success is zero. -/
theorem Ends.orMinusOne {out : Outcome κ × Session α β}
    {next : Session α β → Outcome κ × Session α β}
    (hp : Ends false react p s (fun _ => 0) out)
    (hq : ∀ s', out = (.done, s') → Ends drops react q s' val (next s')) :
    Ends drops react (orMinusOne p q) s val (proceed out next) := by
  refine Ends.bind hp ?_ ?_ ?_
  · intro s' hout hrun _
    refine ⟨q, ?_, hq s' hout⟩
    simp [FallibleTable.orMinusOne, Bind.bind, EStateM.bind, hrun]
  · intro r s' hrun hr
    have hne : r ≠ 0 := by omega
    refine ⟨-1, ?_, by omega⟩
    simp only [FallibleTable.orMinusOne, Bind.bind, EStateM.bind, hrun, if_pos hne]
    rfl
  · intro crash s' hrun
    simp only [FallibleTable.orMinusOne, Bind.bind, EStateM.bind, hrun]

/-- Run `p`, then go on with the plan of what follows it. -/
theorem Follows.bind_plan (hp : Follows react p s plan₁ val₁)
    (hdone : ∀ s', exec (stopsAt react) plan₁ s = (.done, s') →
      p s = .ok (val₁ s'.table) s' → 0 ≤ val₁ s'.table →
      ∃ q', b s = q' s' ∧ Runs drops react q' s' plan₂ val)
    (herror : ∀ r s', p s = .ok r s' → r < 0 → ∃ r', b s = .ok r' s' ∧ r' < 0)
    (hcrash : ∀ crash s', p s = .error crash s' → b s = .error crash s') :
    Runs drops react b s (plan₁ ++ plan₂) val := by
  unfold Runs
  rw [exec_append]
  exact Ends.bind hp hdone herror hcrash

theorem Follows.andThen (hp : Follows react p s plan₁ val₁)
    (hk : ∀ s', exec (stopsAt react) plan₁ s = (.done, s') → 0 ≤ val₁ s'.table →
      Runs drops react (k (val₁ s'.table)) s' plan₂ val) :
    Runs drops react (andThen p k) s (plan₁ ++ plan₂) val := by
  unfold Runs
  rw [exec_append]
  exact Ends.andThen hp hk

theorem Follows.elseMinusOne (hp : Follows react p s plan₁ val₁)
    (hk : ∀ s', exec (stopsAt react) plan₁ s = (.done, s') → 0 ≤ val₁ s'.table →
      Runs drops react (k (val₁ s'.table)) s' plan₂ val) :
    Runs drops react (elseMinusOne p k) s (plan₁ ++ plan₂) val := by
  unfold Runs
  rw [exec_append]
  exact Ends.elseMinusOne hp hk

theorem Follows.orMinusOne (hp : Follows react p s plan₁ fun _ => 0)
    (hq : ∀ s', exec (stopsAt react) plan₁ s = (.done, s') →
      Runs drops react q s' plan₂ val) :
    Runs drops react (orMinusOne p q) s (plan₁ ++ plan₂) val := by
  unfold Runs
  rw [exec_append]
  exact Ends.orMinusOne hp hq

/-- The rule for `if (id < 0) return 0`.  The errors of `p` are dropped, although
`p` itself reports them. -/
theorem Runs.elseZero {react' : κ → Reaction} (hp : Follows react' p s plan₁ val₁)
    (hsites : plan₁.Heard fun site => react' site = .propagate ∧ react site = .drop)
    (hcheck : ∀ s', exec (stopsAt react) plan₁ s ≠ (.aborted, s'))
    (hk : ∀ s', exec (stopsAt react) plan₁ s = (.done, s') →
      Runs true react q s' plan₂ val) :
    Runs true react (elseZero p q) s (plan₁ ++ plan₂) val := by
  have hsame : exec (stopsAt react') plan₁ s = exec (stopsAt react) plan₁ s :=
    exec_congr (fun site hsite => by
      have := of_decide_eq_true (hsites site hsite)
      simp [stopsAt, this]) s
  unfold Follows Runs at hp
  unfold Runs
  rw [exec_append]
  rw [hsame] at hp
  rcases hout : exec (stopsAt react) plan₁ s with ⟨o, s'⟩
  rw [hout] at hp
  cases o with
  | done =>
      have hneg : ¬val₁ s'.table < 0 := by
        have := hp.2
        omega
      refine Ends.of_eq ?_ (hk s' hout)
      simp only [FallibleTable.elseZero, bind, EStateM.bind, hp.1, if_neg hneg]
  | aborted => exact absurd hout (hcheck s')
  | crashed crash => exact absurd hout exec_ne_crashed
  | stopped site =>
      obtain ⟨-, hmem, -⟩ := exec_stopped hout
      obtain ⟨hprop, hdrop⟩ := of_decide_eq_true (hsites site hmem)
      rw [ends_stopped, hprop] at hp
      obtain ⟨r, hrun, hr⟩ := hp
      change Halts true _ s s' (react site)
      rw [hdrop]
      refine ⟨rfl, ?_⟩
      simp only [FallibleTable.elseZero, bind, EStateM.bind, hrun, if_pos hr]
      rfl

/-- The rule for a call whose result is not looked at. -/
theorem Runs.ignoring {op : Op α} (hsite : react site = .ignore)
    (hok : s.nextFailure op = none → ∃ q', b s = q' (s.served op) ∧
      Runs drops react q' (s.served op) plan val)
    (herr : ∀ e, s.nextFailure op = some e → ∃ q', b s = q' s.refused ∧
      Runs drops react q' s.refused plan val) :
    Runs drops react b s (.call site (fun _ => op) :: plan) val := by
  unfold Runs
  cases hf : s.nextFailure op with
  | some e =>
      obtain ⟨q', hb, hq⟩ := herr e hf
      simpa [exec, hf, stopsAt, hsite] using Ends.of_eq hb hq
  | none =>
      obtain ⟨q', hb, hq⟩ := hok hf
      simpa [exec, hf] using Ends.of_eq hb hq

/-- The rule for loops.  The invariant speaks of the elements still to come. -/
theorem Follows.forEach_inv {f : γ → Prog α β ℤ} {g : γ → Plan κ α β}
    {v : γ → Table α β → ℤ} (inv : List γ → Session α β → Prop)
    (step : ∀ x xs s, inv (x :: xs) s →
      Follows react (f x) s (g x) (v x) ∧
        ∀ s', exec (stopsAt react) (g x) s = (.done, s') → inv xs s')
    (xs : List γ) (h : inv xs s) :
    Follows react (forEach f xs) s (xs.flatMap g) fun _ => 0 := by
  induction xs generalizing s with
  | nil => exact follows_return (le_refl 0) s
  | cons x xs ih =>
      obtain ⟨hbody, hnext⟩ := step x xs s h
      rw [List.flatMap_cons]
      exact Follows.andThen hbody fun s' hout _ => ih (hnext s' hout)

/-- The rule for loops whose body follows its plan from anywhere. -/
theorem Follows.forEach {f : γ → Prog α β ℤ} {g : γ → Plan κ α β}
    {v : γ → Table α β → ℤ}
    (step : ∀ x s, Follows react (f x) s (g x) (v x))
    (xs : List γ) (s : Session α β) :
    Follows react (forEach f xs) s (xs.flatMap g) fun _ => 0 :=
  Follows.forEach_inv (fun _ _ => True) (fun x _ s _ => ⟨step x s, fun _ _ => trivial⟩)
    xs trivial

end Rules


/-! ## Scripts -/

/-- The specification of a program.  Unlike a plan, a script may look at the table to tell which
calls are made. -/
abbrev Script (κ α β : Type) := Session α β → Outcome κ × Session α β

namespace Script

def nil : Script κ α β := fun s => (.done, s)

/-- Stop with an error of the program's own. -/
def abort : Script κ α β := fun s => (.aborted, s)

def crash (c : Crash) : Script κ α β := fun s => (.crashed c, s)

def seq (f g : Script κ α β) : Script κ α β := fun s => proceed (f s) g

def each (f : γ → Script κ α β) : List γ → Script κ α β
  | [] => nil
  | x :: xs => (f x).seq (each f xs)

/-- Decide by the table as it is now. -/
def look (f : Table α β → Script κ α β) : Script κ α β := fun s => f s.table s

/-- From a session without a failure the script has one afterwards exactly when it is stopped by
a call. -/
def Loud (f : Script κ α β) : Prop :=
  ∀ s o s', f s = (o, s') → s.failed = false → (s'.failed = true ↔ ∃ site, o = .stopped site)

variable {f g : Script κ α β} {s s' : Session α β} {o : Outcome κ}

/-- A sequence of scripts ends in the second one, or in the first one if that is not done. -/
theorem seq_cases (h : f.seq g s = (o, s')) :
    (∃ s₁, f s = (.done, s₁) ∧ g s₁ = (o, s')) ∨ (f s = (o, s') ∧ o ≠ .done) := by
  unfold seq at h
  rcases hf : f s with ⟨o₁, s₁⟩
  rw [hf] at h
  cases o₁ with
  | done => exact Or.inl ⟨s₁, rfl, h⟩
  | aborted =>
      obtain ⟨rfl, rfl⟩ := Prod.mk.inj h
      exact Or.inr ⟨rfl, by simp⟩
  | crashed c =>
      obtain ⟨rfl, rfl⟩ := Prod.mk.inj h
      exact Or.inr ⟨rfl, by simp⟩
  | stopped site =>
      obtain ⟨rfl, rfl⟩ := Prod.mk.inj h
      exact Or.inr ⟨rfl, by simp⟩

theorem loud_nil : (nil : Script κ α β).Loud := by
  intro s o s' h hs
  obtain ⟨rfl, rfl⟩ := Prod.mk.inj h
  simp [hs]

theorem loud_abort : (abort : Script κ α β).Loud := by
  intro s o s' h hs
  obtain ⟨rfl, rfl⟩ := Prod.mk.inj h
  simp [hs]

theorem loud_crash (c : Crash) : (crash c : Script κ α β).Loud := by
  intro s o s' h hs
  obtain ⟨rfl, rfl⟩ := Prod.mk.inj h
  simp [hs]

theorem loud_seq (hf : f.Loud) (hg : g.Loud) : (f.seq g).Loud := by
  intro s o s' h hs
  rcases seq_cases h with ⟨s₁, hdone, hrest⟩ | ⟨hstop, -⟩
  · refine hg s₁ o s' hrest ?_
    have := hf s _ s₁ hdone hs
    simpa using this
  · exact hf s o s' hstop hs

theorem loud_each {F : γ → Script κ α β} (h : ∀ x, (F x).Loud) (xs : List γ) :
    (each F xs).Loud := by
  induction xs with
  | nil => exact loud_nil
  | cons x xs ih => exact loud_seq (h x) ih

theorem loud_look {F : Table α β → Script κ α β} (h : ∀ t, (F t).Loud) : (look F).Loud :=
  fun s => h s.table s

theorem loud_exec {stops : κ → Bool} {p : Plan κ α β} (h : p.Heard stops) :
    Loud (exec stops p) := by
  intro s o s' hexec hs
  cases o with
  | done =>
      rw [(exec_done h hexec).2, hs]
      simp
  | stopped site => simp [(exec_stopped hexec).1]
  | crashed c => exact absurd hexec exec_ne_crashed
  | aborted => simp [exec_aborted h hexec, hs]

end Script

/-- The rule for loops, against the script that repeats the one of a turn. -/
theorem Ends.forEach {react : κ → Reaction} {f : γ → Prog α β ℤ} {g : γ → Script κ α β}
    (step : ∀ x s, ∃ v, Ends false react (f x) s v (g x s)) (xs : List γ)
    (s : Session α β) :
    Ends false react (forEach f xs) s (fun _ => 0) (Script.each g xs s) := by
  induction xs generalizing s with
  | nil => exact ⟨rfl, le_refl 0⟩
  | cons x xs ih =>
      obtain ⟨v, hx⟩ := step x s
      exact Ends.andThen hx fun s' _ _ => ih s'

end FallibleTable

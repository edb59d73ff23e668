import Mathlib.Data.List.ModifyLast
import Mathlib.Tactic

/-!
# Programs over an append-only table with failing calls

A client builds a table by calls that may fail.  A call either appends an
entry, whose id is its position counted from one, or edits the last entry.
The environment decides which calls fail, and a table whose ids no longer fit
a C `int` refuses to grow.

Programs return C style codes: a negative value reports a failure.  Reading
an entry that does not exist stops the program, and this is kept apart from
every returned value.

The *plan* of a program is the straight line of calls it makes as long as none of
them fails.  Executing a plan against a failure pattern says which call stops it
and what the table holds then.
-/

namespace FallibleTable

/-- The value returned by a failing call: a negative C `int`. -/
structure Errno where
  code : ℤ
  neg : code < 0
  lower : -2147483648 ≤ code
  deriving DecidableEq

/-- Ids are returned as C `int`s. -/
def intMax : ℕ := 2147483647

def enomem : Errno := ⟨-12, by decide, by decide⟩

/-- A table of `α` under construction, with the client's own data `β`. -/
structure Table (α β : Type) where
  /-- The number of entries before those of `items`. -/
  base : ℕ
  items : List α
  client : β

/-- An operation on a table. -/
inductive Op (α : Type) where
  | append (x : α)
  | editLast (f : α → α)
  /-- a call that leaves the entries alone -/
  | touch

/-- A table together with its environment. -/
structure Session (α β : Type) where
  /-- Whether the n-th call made on the table fails, and with which value. -/
  fails : ℕ → Option Errno
  made : ℕ
  /-- Set once some call has failed. -/
  failed : Bool
  table : Table α β

/-- The ways in which a program ends without a value. -/
inductive Crash where
  | nullDeref
  /-- it never ends -/
  | diverge
  deriving DecidableEq

/-- A program over a session.  Its result is a value or a crash. -/
abbrev Prog (α β ρ : Type) := EStateM Crash (Session α β) ρ

variable {α β γ κ : Type}

namespace Table

/-- The id that the next appended entry gets. -/
def cnt (t : Table α β) : ℕ := t.base + t.items.length + 1

/-- The entry with a given id. -/
def entry? (t : Table α β) (id : ℕ) : Option α :=
  if t.base < id then t.items[id - t.base - 1]? else none

end Table

namespace Op

def appends : Op α → Bool
  | .append _ => true
  | _ => false

def apply : Op α → List α → List α
  | .append x, items => items ++ [x]
  | .editLast f, items => items.modifyLast f
  | .touch, items => items

/-- The value that a successful call returns: the new id, or zero. -/
def result (cnt : ℕ) : Op α → ℤ
  | .append _ => cnt
  | _ => 0

end Op

/-- The table after a successful call. -/
def Table.served (t : Table α β) (op : Op α) : Table α β :=
  { t with items := op.apply t.items }

namespace Session

/-- The failure of the next call, if it fails. -/
def nextFailure (s : Session α β) (op : Op α) : Option Errno :=
  match s.fails s.made with
  | some e => some e
  | none => if op.appends ∧ intMax < s.table.cnt then some enomem else none

/-- The session after a failed call. -/
def refused (s : Session α β) : Session α β :=
  { s with made := s.made + 1, failed := true }

/-- The session after a successful call. -/
def served (s : Session α β) (op : Op α) : Session α β :=
  { s with made := s.made + 1, table := s.table.served op }

def setClient (s : Session α β) (c : β) : Session α β :=
  { s with table := { s.table with client := c } }

end Session

/-! ## Programs -/

/-- Make a call. -/
def perform (op : Op α) : Prog α β ℤ := fun s =>
  match s.nextFailure op with
  | some e => .ok e.code s.refused
  | none => .ok (op.result s.table.cnt) (s.served op)

/-- Append an entry and return its id. -/
def append (x : α) : Prog α β ℤ := perform (.append x)

/-- Edit the last entry and return zero. -/
def editLast (f : α → α) : Prog α β ℤ := perform (.editLast f)

def getTable : Prog α β (Table α β) := fun s => .ok s.table s

def modifyClient (f : β → β) : Prog α β Unit := fun s =>
  .ok () (s.setClient (f s.table.client))

/-- Read the entry of an id.  Ids are passed as unsigned values, where a negative one exceeds
every id of the table. -/
def readEntry (id : ℤ) : Prog α β Unit := fun s =>
  if 0 ≤ id ∧ id < s.table.cnt then .ok () s else .error .nullDeref s

/-- Append an entry, and read it back when `reads` says so of the id returned. -/
def appendRead (reads : ℤ → Bool) (x : α) : Prog α β ℤ := do
  let id ← append x
  if reads id then readEntry id
  return id

/-- `id = p; if (id < 0) return id; ...` -/
def andThen (p : Prog α β ℤ) (k : ℤ → Prog α β ℤ) : Prog α β ℤ := do
  let id ← p
  if id < 0 then return id else k id

/-- `if (p) return -1; ...` -/
def orMinusOne (p k : Prog α β ℤ) : Prog α β ℤ := do
  let err ← p
  if err ≠ 0 then return -1 else k

/-- `id = p; if (id < 0) return -1; ...` -/
def elseMinusOne (p : Prog α β ℤ) (k : ℤ → Prog α β ℤ) : Prog α β ℤ := do
  let id ← p
  if id < 0 then return -1 else k id

/-- `id = p; if (id < 0) return 0; ...` -/
def elseZero (p : Prog α β ℤ) (k : Prog α β ℤ) : Prog α β ℤ := do
  let id ← p
  if id < 0 then return 0 else k

/-- Run `body` on every element, stopping with its value at the first failure. -/
def forEach (body : γ → Prog α β ℤ) : List γ → Prog α β ℤ
  | [] => return 0
  | x :: xs => andThen (body x) fun _ => forEach body xs

/-- The session a program leaves behind, however it ends. -/
def finalSession {ρ : Type} : EStateM.Result Crash (Session α β) ρ → Session α β
  | .ok _ s => s
  | .error _ s => s

/-! ## Plans -/

/-- A step of a straight-line program.  What it does may depend on the table
built so far. -/
inductive Step (κ α β : Type) where
  | call (site : κ) (op : Table α β → Op α)
  | set (f : Table α β → β)
  /-- stop with an error of the program's own unless `ok` -/
  | check (ok : Table α β → Bool)

abbrev Plan (κ α β : Type) := List (Step κ α β)

/-- Stop with an error of the program's own. -/
def Step.abort : Step κ α β := .check fun _ => false

/-- The table after a step without a failure. -/
def Table.after (t : Table α β) : Step κ α β → Table α β
  | .call _ op => t.served (op t)
  | .set f => { t with client := f t }
  | .check _ => t

/-- The table after a plan without a failure. -/
def Plan.run (plan : Plan κ α β) (t : Table α β) : Table α β :=
  plan.foldl Table.after t

/-- The ways in which the execution of a plan ends. -/
inductive Outcome (κ : Type) where
  | done
  /-- a call failed -/
  | stopped (site : κ)
  /-- a check failed -/
  | aborted
  /-- the program crashed of its own -/
  | crashed (crash : Crash)
  deriving DecidableEq

/-- Execute a plan.  A call that fails ends it, unless its site is not one that
`stops`. -/
def exec (stops : κ → Bool) : Plan κ α β → Session α β → Outcome κ × Session α β
  | [], s => (.done, s)
  | .call site op :: rest, s =>
      if (s.nextFailure (op s.table)).isSome then
        if stops site then (.stopped site, s.refused) else exec stops rest s.refused
      else exec stops rest (s.served (op s.table))
  | .set f :: rest, s => exec stops rest (s.setClient (f s.table))
  | .check ok :: rest, s => if ok s.table then exec stops rest s else (.aborted, s)

/-- Go on with `next` after what is done. -/
def proceed (out : Outcome κ × Session α β) (next : Session α β → Outcome κ × Session α β) :
    Outcome κ × Session α β :=
  match out with
  | (.done, s') => next s'
  | out => out

/-- The sites of the calls of a plan. -/
def Plan.sites (plan : Plan κ α β) : List κ :=
  plan.filterMap fun
    | .call site _ => some site
    | _ => none

theorem cnt_served_append (t : Table α β) (x : α) :
    (t.served (.append x)).cnt = t.cnt + 1 := by
  simp [Table.served, Table.cnt, Op.apply]
  omega

theorem length_modifyLast (f : α → α) (xs : List α) :
    (xs.modifyLast f).length = xs.length := by
  rcases List.eq_nil_or_concat xs with rfl | ⟨init, x, rfl⟩
  · rfl
  · simp [List.modifyLast_concat]

theorem cnt_served_editLast (t : Table α β) (f : α → α) :
    (t.served (.editLast f)).cnt = t.cnt := by
  simp [Table.served, Table.cnt, Op.apply, length_modifyLast]

/-- A successful call leaves the next id as it is, or at most `INT_MAX + 1`. -/
theorem cnt_served_cases {s : Session α β} {op : Op α} (h : s.nextFailure op = none) :
    (s.served op).table.cnt = s.table.cnt ∨ (s.served op).table.cnt ≤ intMax + 1 := by
  cases op with
  | append x =>
      right
      have hle : s.table.cnt ≤ intMax := by
        unfold Session.nextFailure at h
        cases hfails : s.fails s.made with
        | some e => simp [hfails] at h
        | none => simpa [hfails, Op.appends] using h
      change (s.table.served (.append x)).cnt ≤ intMax + 1
      rw [cnt_served_append]
      omega
  | editLast f => exact Or.inl (cnt_served_editLast s.table f)
  | touch => exact Or.inl rfl

/-- No call of the plan is one whose failure is ignored. -/
def Plan.Heard (stops : κ → Bool) (plan : Plan κ α β) : Prop :=
  ∀ site ∈ plan.sites, stops site = true

section Exec

variable {stops : κ → Bool} {p q : Plan κ α β} {s s' : Session α β}
  {t : Table α β} {o : Outcome κ}

@[simp] theorem table_served (s : Session α β) (op : Op α) :
    (s.served op).table = s.table.served op := rfl

@[simp] theorem heard_nil : Plan.Heard stops ([] : Plan κ α β) := by
  simp [Plan.Heard, Plan.sites]

@[simp] theorem heard_call {site : κ} {op : Table α β → Op α} :
    Plan.Heard stops (.call site op :: p) ↔ stops site = true ∧ Plan.Heard stops p := by
  simp [Plan.Heard, Plan.sites]

@[simp] theorem heard_set {f : Table α β → β} :
    Plan.Heard stops (.set f :: p) ↔ Plan.Heard stops p := by
  simp [Plan.Heard, Plan.sites]

@[simp] theorem heard_check {ok : Table α β → Bool} :
    Plan.Heard stops (.check ok :: p) ↔ Plan.Heard stops p := by
  simp [Plan.Heard, Plan.sites]

@[simp] theorem heard_append :
    Plan.Heard stops (p ++ q) ↔ Plan.Heard stops p ∧ Plan.Heard stops q := by
  simp [Plan.Heard, Plan.sites, or_imp, forall_and]

theorem heard_flatMap {f : γ → Plan κ α β} {xs : List γ}
    (h : ∀ x ∈ xs, Plan.Heard stops (f x)) : Plan.Heard stops (xs.flatMap f) := by
  induction xs with
  | nil => simp
  | cons x xs ih =>
      rw [List.flatMap_cons, heard_append]
      exact ⟨h x (by simp), ih fun y hy => h y (by simp [hy])⟩

@[simp] theorem exec_nil : exec stops [] s = (.done, s) := rfl

@[simp] theorem run_nil : Plan.run ([] : Plan κ α β) t = t := rfl

@[simp] theorem run_cons (step : Step κ α β) :
    Plan.run (step :: p) t = Plan.run p (t.after step) := rfl

@[simp] theorem run_append : Plan.run (p ++ q) t = Plan.run q (Plan.run p t) := by
  simp [Plan.run]

theorem exec_append (p q : Plan κ α β) (s : Session α β) :
    exec stops (p ++ q) s = proceed (exec stops p s) (exec stops q) := by
  induction p generalizing s with
  | nil => rfl
  | cons step rest ih =>
      cases step with
      | set f => simp only [List.cons_append, exec, ih]
      | check ok =>
          simp only [List.cons_append, exec, ih]
          by_cases h : ok s.table
          · simp only [h, ↓reduceIte]
          · simp only [h, Bool.false_eq_true, ↓reduceIte, proceed]
      | call site op =>
          simp only [List.cons_append, exec, ih]
          by_cases hf : (s.nextFailure (op s.table)).isSome
          · by_cases hs : stops site
            · simp only [hf, hs, ↓reduceIte, proceed]
            · simp only [hf, hs, ↓reduceIte, Bool.false_eq_true]
          · simp only [hf, ↓reduceIte, Bool.false_eq_true]

theorem run_client (h : ∀ f, Step.set f ∉ p) : (Plan.run p t).client = t.client := by
  induction p generalizing t with
  | nil => rfl
  | cons step rest ih =>
      rw [run_cons, ih fun f hf => h f (List.mem_cons_of_mem _ hf)]
      cases step with
      | set f => exact absurd List.mem_cons_self (h f)
      | check ok => rfl
      | call site op => rfl

/-- An execution changes neither which calls fail nor the base. -/
theorem exec_fails (h : exec stops p s = (o, s')) :
    s'.fails = s.fails ∧ s'.table.base = s.table.base := by
  induction p generalizing s with
  | nil =>
      obtain ⟨-, rfl⟩ := Prod.mk.inj h
      exact ⟨rfl, rfl⟩
  | cons step rest ih =>
      cases step with
      | set f => exact ih (s := s.setClient (f s.table)) h
      | check ok =>
          simp only [exec] at h
          split at h
          · exact ih h
          · obtain ⟨-, rfl⟩ := Prod.mk.inj h
            exact ⟨rfl, rfl⟩
      | call site op =>
          simp only [exec] at h
          split at h
          · split at h
            · obtain ⟨-, rfl⟩ := Prod.mk.inj h
              exact ⟨rfl, rfl⟩
            · exact ih (s := s.refused) h
          · exact ih (s := s.served (op s.table)) h

/-- An execution without ignored calls that ends well has run the whole plan. -/
theorem exec_done (hstops : p.Heard stops) (h : exec stops p s = (.done, s')) :
    s'.table = p.run s.table ∧ s'.failed = s.failed := by
  induction p generalizing s with
  | nil =>
      obtain ⟨-, rfl⟩ := Prod.mk.inj h
      exact ⟨rfl, rfl⟩
  | cons step rest ih =>
      cases step with
      | set f => exact ih (heard_set.mp hstops) h
      | check ok =>
          simp only [exec] at h
          split at h
          · exact ih (heard_check.mp hstops) h
          · simp at h
      | call site op =>
          obtain ⟨hsite, hrest⟩ := heard_call.mp hstops
          simp only [exec, hsite, ↓reduceIte] at h
          split at h
          · simp at h
          · exact ih hrest h

/-- An execution without ignored calls that fails a check has had no call fail. -/
theorem exec_aborted (hstops : p.Heard stops) (h : exec stops p s = (.aborted, s')) :
    s'.failed = s.failed := by
  induction p generalizing s with
  | nil => simp at h
  | cons step rest ih =>
      cases step with
      | set f =>
          have hset := ih (heard_set.mp hstops) h
          exact hset
      | check ok =>
          simp only [exec] at h
          split at h
          · exact ih (heard_check.mp hstops) h
          · obtain ⟨-, rfl⟩ := Prod.mk.inj h
            rfl
      | call site op =>
          obtain ⟨hsite, hrest⟩ := heard_call.mp hstops
          simp only [exec, hsite, ↓reduceIte] at h
          split at h
          · simp at h
          · have hserved := ih hrest h
            exact hserved

/-- An execution without ignored calls that ends early has run an initial part of
the plan. -/
theorem exec_prefix (hstops : p.Heard stops) (h : exec stops p s = (o, s')) :
    ∃ part, part <+: p ∧ s'.table = Plan.run part s.table := by
  induction p generalizing s with
  | nil =>
      obtain ⟨-, rfl⟩ := Prod.mk.inj h
      exact ⟨[], List.prefix_rfl, rfl⟩
  | cons step rest ih =>
      have here : s'.table = s.table →
          ∃ part, part <+: step :: rest ∧ s'.table = Plan.run part s.table :=
        fun heq => ⟨[], List.nil_prefix, heq⟩
      have later : (∃ part, part <+: rest ∧
            s'.table = Plan.run part (s.table.after step)) →
          ∃ part, part <+: step :: rest ∧ s'.table = Plan.run part s.table := by
        rintro ⟨part, hpart, htable⟩
        exact ⟨step :: part, List.prefix_cons_inj step |>.mpr hpart, htable⟩
      cases step with
      | set f => exact later (ih (heard_set.mp hstops) h)
      | check ok =>
          simp only [exec] at h
          split at h
          · exact later (ih (heard_check.mp hstops) h)
          · obtain ⟨-, rfl⟩ := Prod.mk.inj h
            exact here rfl
      | call site op =>
          obtain ⟨hsite, hrest⟩ := heard_call.mp hstops
          simp only [exec, hsite, ↓reduceIte] at h
          split at h
          · obtain ⟨-, rfl⟩ := Prod.mk.inj h
            exact here rfl
          · exact later (ih hrest h)

/-- Executions agree when the same calls are ignored. -/
theorem exec_congr {stops' : κ → Bool} (h : ∀ site ∈ p.sites, stops site = stops' site)
    (s : Session α β) : exec stops p s = exec stops' p s := by
  induction p generalizing s with
  | nil => rfl
  | cons step rest ih =>
      cases step with
      | set f => exact ih h _
      | check ok =>
          simp only [exec]
          split
          · exact ih h _
          · rfl
      | call site op =>
          have hsite : stops site = stops' site := h site (by simp [Plan.sites])
          have hrest : ∀ k ∈ Plan.sites rest, stops k = stops' k := fun k hk =>
            h k (by simpa [Plan.sites] using Or.inr hk)
          simp only [exec, hsite, ih hrest]

/-- A property of the client's data that every `set` keeps is kept by an execution. -/
theorem exec_client {P : β → Prop}
    (hset : ∀ f, Step.set f ∈ p → ∀ t : Table α β, P t.client → P (f t))
    (h : exec stops p s = (o, s')) (hP : P s.table.client) : P s'.table.client := by
  induction p generalizing s with
  | nil =>
      obtain ⟨-, rfl⟩ := Prod.mk.inj h
      exact hP
  | cons step rest ih =>
      have hrest : ∀ f, Step.set f ∈ rest → ∀ t : Table α β, P t.client → P (f t) :=
        fun f hf => hset f (List.mem_cons_of_mem _ hf)
      cases step with
      | set f =>
          exact ih hrest (s := s.setClient (f s.table)) h
            (hset f List.mem_cons_self s.table hP)
      | check ok =>
          simp only [exec] at h
          split at h
          · exact ih hrest h hP
          · obtain ⟨-, rfl⟩ := Prod.mk.inj h
            exact hP
      | call site op =>
          simp only [exec] at h
          split at h
          · split at h
            · obtain ⟨-, rfl⟩ := Prod.mk.inj h
              exact hP
            · exact ih hrest (s := s.refused) h hP
          · exact ih hrest (s := s.served (op s.table)) h hP

/-- No call of the plan edits, and what it appends satisfies `P`. -/
def Plan.Appends (P : α → Prop) (plan : Plan κ α β) : Prop :=
  ∀ site op, Step.call site op ∈ plan → ∀ t : Table α β,
    op t = .touch ∨ ∃ x, op t = .append x ∧ P x

section Appends

variable {P : α → Prop}

@[simp] theorem appends_nil : Plan.Appends P ([] : Plan κ α β) := by simp [Plan.Appends]

@[simp] theorem appends_call {site : κ} {op : Table α β → Op α} :
    Plan.Appends P (.call site op :: p) ↔
      (∀ t : Table α β, op t = .touch ∨ ∃ x, op t = .append x ∧ P x) ∧ Plan.Appends P p := by
  constructor
  · intro h
    exact ⟨h site op List.mem_cons_self, fun k q hq => h k q (List.mem_cons_of_mem _ hq)⟩
  · rintro ⟨hop, hrest⟩ k q hq
    rcases List.mem_cons.mp hq with heq | hmem
    · obtain ⟨rfl, rfl⟩ := Step.call.inj heq
      exact hop
    · exact hrest k q hmem

@[simp] theorem appends_set {f : Table α β → β} :
    Plan.Appends P (.set f :: p) ↔ Plan.Appends P p := by
  simp [Plan.Appends]

@[simp] theorem appends_check {ok : Table α β → Bool} :
    Plan.Appends P (.check ok :: p) ↔ Plan.Appends P p := by
  simp [Plan.Appends]

@[simp] theorem appends_append :
    Plan.Appends P (p ++ q) ↔ Plan.Appends P p ∧ Plan.Appends P q := by
  simp [Plan.Appends, or_imp, forall_and]

theorem appends_flatMap {f : γ → Plan κ α β} {xs : List γ}
    (h : ∀ x ∈ xs, Plan.Appends P (f x)) : Plan.Appends P (xs.flatMap f) := by
  induction xs with
  | nil => simp
  | cons x xs ih =>
      rw [List.flatMap_cons, appends_append]
      exact ⟨h x (by simp), ih fun y hy => h y (by simp [hy])⟩

theorem exec_appends (happ : p.Appends P) (h : exec stops p s = (o, s')) :
    ∃ xs, s'.table.items = s.table.items ++ xs ∧ ∀ x ∈ xs, P x := by
  induction p generalizing s with
  | nil =>
      obtain ⟨-, rfl⟩ := Prod.mk.inj h
      exact ⟨[], by simp, by simp⟩
  | cons step rest ih =>
      cases step with
      | set f => exact ih (appends_set.mp happ) (s := s.setClient (f s.table)) h
      | check ok =>
          simp only [exec] at h
          split at h
          · exact ih (appends_check.mp happ) h
          · obtain ⟨-, rfl⟩ := Prod.mk.inj h
            exact ⟨[], by simp, by simp⟩
      | call site op =>
          obtain ⟨hop, hrest⟩ := appends_call.mp happ
          simp only [exec] at h
          split at h
          · split at h
            · obtain ⟨-, rfl⟩ := Prod.mk.inj h
              exact ⟨[], by simp [Session.refused], by simp⟩
            · exact ih hrest (s := s.refused) h
          · obtain ⟨xs, hxs, hP⟩ := ih hrest h
            rcases hop s.table with htouch | ⟨x, happend, hx⟩
            · rw [htouch] at hxs
              exact ⟨xs, hxs, hP⟩
            · rw [happend] at hxs
              refine ⟨x :: xs, by rw [hxs]; simp [Table.served, Op.apply], ?_⟩
              simpa using ⟨hx, hP⟩

end Appends

/-! ## Entries that depend on others -/

/-- The entries of a longer table include those of the shorter one. -/
theorem entry?_append {t t' : Table α β} {xs : List α} {id : ℕ} {x : α}
    (hbase : t'.base = t.base) (hitems : t'.items = t.items ++ xs)
    (h : t.entry? id = some x) : t'.entry? id = some x := by
  unfold Table.entry? at h ⊢
  rw [hbase, hitems]
  by_cases hid : t.base < id
  · rw [if_pos hid] at h ⊢
    obtain ⟨hlt, -⟩ := List.getElem?_eq_some_iff.mp h
    rw [List.getElem?_append_left hlt, h]
  · rw [if_neg hid] at h
    cases h

theorem entry?_served {t : Table α β} {id : ℕ} {x y : α} (h : t.entry? id = some x) :
    Table.entry? (t.served (.append y)) id = some x :=
  entry?_append (t := t) rfl (show _ = t.items ++ [y] from rfl) h

/-- The entry appended to a table has the id `cnt`. -/
theorem entry?_served_append (t : Table α β) (x : α) :
    Table.entry? (t.served (.append x)) t.cnt = some x := by
  have hid : t.cnt - t.base - 1 = t.items.length := by
    unfold Table.cnt
    omega
  have hbase : t.base < t.cnt := by
    unfold Table.cnt
    omega
  unfold Table.entry?
  change (if t.base < t.cnt then (t.items ++ [x])[t.cnt - t.base - 1]? else none) = some x
  rw [if_pos hbase, hid, List.getElem?_concat_length]

/-- A property that an entry keeps when entries are added to the table. -/
def Lasting (P : (ℕ → Option α) → α → Prop) : Prop :=
  ∀ f g : ℕ → Option α, ∀ x, (∀ id v, f id = some v → g id = some v) → P f x → P g x

/-- `t'` has the entries of `t` and others after these that satisfy `P` in `t'`. -/
structure Table.Grows (P : (ℕ → Option α) → α → Prop) (t t' : Table α β) : Prop where
  base : t'.base = t.base
  items : ∃ xs, t'.items = t.items ++ xs ∧ ∀ x ∈ xs, P t'.entry? x

/-- Every execution of the plan leaves a table that has grown, wherever it ends. -/
def Plan.Grows (stops : κ → Bool) (P : (ℕ → Option α) → α → Prop) (plan : Plan κ α β) : Prop :=
  ∀ (s s' : Session α β) (o : Outcome κ), exec stops plan s = (o, s') →
    s.table.Grows P s'.table

section Grows

variable {P : (ℕ → Option α) → α → Prop} {t₁ t₂ : Table α β}

theorem Table.Grows.of_eq (hbase : t₁.base = t.base) (hitems : t₁.items = t.items) :
    t.Grows P t₁ :=
  ⟨hbase, [], by simp [hitems], by simp⟩

theorem Table.Grows.trans (hP : Lasting P) (h₁ : t.Grows P t₁) (h₂ : t₁.Grows P t₂) :
    t.Grows P t₂ := by
  obtain ⟨hbase₁, xs, hxs, hPx⟩ := h₁
  obtain ⟨hbase₂, ys, hys, hPy⟩ := h₂
  refine ⟨hbase₂.trans hbase₁, xs ++ ys, by rw [hys, hxs, List.append_assoc], ?_⟩
  intro x hx
  rcases List.mem_append.mp hx with hx | hx
  · exact hP _ _ x (fun _ _ => entry?_append hbase₂ hys) (hPx x hx)
  · exact hPy x hx

theorem Table.Grows.served {x : α} (h : P (Table.entry? (t.served (.append x))) x) :
    t.Grows P (t.served (.append x)) :=
  ⟨rfl, [x], rfl, by simpa using h⟩

/-- A plan after a plan grows the table if both do. -/
theorem exec_grows_append (hP : Lasting P)
    (hp : ∀ o₁ s₁, exec stops p s = (o₁, s₁) → s.table.Grows P s₁.table)
    (hq : q.Grows stops P) (h : exec stops (p ++ q) s = (o, s')) :
    s.table.Grows P s'.table := by
  rw [exec_append] at h
  rcases hfirst : exec stops p s with ⟨o₁, s₁⟩
  have hgrows := hp o₁ s₁ hfirst
  rw [hfirst] at h
  cases o₁ with
  | done => exact hgrows.trans hP (hq s₁ s' o h)
  | aborted =>
      obtain ⟨-, rfl⟩ := Prod.mk.inj h
      exact hgrows
  | crashed crash =>
      obtain ⟨-, rfl⟩ := Prod.mk.inj h
      exact hgrows
  | stopped site =>
      obtain ⟨-, rfl⟩ := Prod.mk.inj h
      exact hgrows

theorem grows_append (hP : Lasting P) (hp : p.Grows stops P) (hq : q.Grows stops P) :
    Plan.Grows stops P (p ++ q) :=
  fun s _ _ h => exec_grows_append hP (fun o₁ s₁ h₁ => hp s s₁ o₁ h₁) hq h

theorem grows_nil : Plan.Grows stops P ([] : Plan κ α β) := by
  intro s s' o h
  obtain ⟨-, rfl⟩ := Prod.mk.inj h
  exact Table.Grows.of_eq rfl rfl

theorem grows_flatMap (hP : Lasting P) {f : γ → Plan κ α β} {xs : List γ}
    (h : ∀ x ∈ xs, Plan.Grows stops P (f x)) : Plan.Grows stops P (xs.flatMap f) := by
  induction xs with
  | nil => exact grows_nil
  | cons x xs ih =>
      rw [List.flatMap_cons]
      exact grows_append hP (h x (by simp)) (ih fun y hy => h y (by simp [hy]))

/-- A plan that appends only entries with the property grows the table. -/
theorem grows_of_appends (h : p.Appends fun x => ∀ f, P f x) : p.Grows stops P := by
  intro s s' o hexec
  obtain ⟨xs, hxs, hPx⟩ := exec_appends h hexec
  exact ⟨(exec_fails hexec).2, xs, hxs, fun x hx => hPx x hx _⟩

end Grows

/-- No step of the plan changes what `view` shows of the client's data. -/
def Plan.Keeps {δ : Type} (view : β → δ) (plan : Plan κ α β) : Prop :=
  ∀ f, Step.set f ∈ plan → ∀ t : Table α β, view (f t) = view t.client

section Keeps

variable {δ : Type} {view : β → δ}

@[simp] theorem keeps_nil : Plan.Keeps view ([] : Plan κ α β) := by simp [Plan.Keeps]

@[simp] theorem keeps_call {site : κ} {op : Table α β → Op α} :
    Plan.Keeps view (.call site op :: p) ↔ Plan.Keeps view p := by
  simp [Plan.Keeps]

@[simp] theorem keeps_check {ok : Table α β → Bool} :
    Plan.Keeps view (.check ok :: p) ↔ Plan.Keeps view p := by
  simp [Plan.Keeps]

@[simp] theorem keeps_set {f : Table α β → β} :
    Plan.Keeps view (.set f :: p) ↔
      (∀ t : Table α β, view (f t) = view t.client) ∧ Plan.Keeps view p := by
  simp [Plan.Keeps]

@[simp] theorem keeps_append :
    Plan.Keeps view (p ++ q) ↔ Plan.Keeps view p ∧ Plan.Keeps view q := by
  simp [Plan.Keeps, or_imp, forall_and]

theorem keeps_flatMap {f : γ → Plan κ α β} {xs : List γ}
    (h : ∀ x ∈ xs, Plan.Keeps view (f x)) : Plan.Keeps view (xs.flatMap f) := by
  induction xs with
  | nil => simp
  | cons x xs ih =>
      rw [List.flatMap_cons, keeps_append]
      exact ⟨h x (by simp), ih fun y hy => h y (by simp [hy])⟩

/-- If a plan keeps a view, an execution of it keeps the view wherever it ends. -/
theorem exec_keeps (hkeeps : p.Keeps view) (h : exec stops p s = (o, s')) :
    view s'.table.client = view s.table.client :=
  exec_client (P := fun c => view c = view s.table.client)
    (fun f hf t ht => (hkeeps f hf t).trans ht) h rfl

end Keeps

/-- A plan without checks is never aborted. -/
theorem exec_ne_aborted (hcheck : ∀ ok, Step.check ok ∉ p) :
    exec stops p s ≠ (.aborted, s') := by
  induction p generalizing s with
  | nil => simp
  | cons step rest ih =>
      have hrest : ∀ ok, Step.check ok ∉ rest := fun ok h =>
        hcheck ok (List.mem_cons_of_mem _ h)
      cases step with
      | set f => exact ih hrest
      | check ok => exact absurd List.mem_cons_self (hcheck ok)
      | call site op =>
          simp only [exec]
          split
          · split
            · simp
            · exact ih hrest
          · exact ih hrest

/-- A plan does not crash. -/
theorem exec_ne_crashed {crash : Crash} : exec stops p s ≠ (.crashed crash, s') := by
  induction p generalizing s with
  | nil => simp
  | cons step rest ih =>
      cases step with
      | set f => exact ih
      | check ok =>
          simp only [exec]
          split
          · exact ih
          · simp
      | call site op =>
          simp only [exec]
          split
          · split
            · simp
            · exact ih
          · exact ih

/-- An execution leaves the next id as it is, or at most `INT_MAX + 1`. -/
theorem exec_cnt (h : exec stops p s = (o, s')) :
    s'.table.cnt = s.table.cnt ∨ s'.table.cnt ≤ intMax + 1 := by
  induction p generalizing s with
  | nil =>
      obtain ⟨-, rfl⟩ := Prod.mk.inj h
      exact Or.inl rfl
  | cons step rest ih =>
      cases step with
      | set f => exact ih (s := s.setClient (f s.table)) h
      | check ok =>
          simp only [exec] at h
          split at h
          · exact ih h
          · obtain ⟨-, rfl⟩ := Prod.mk.inj h
            exact Or.inl rfl
      | call site op =>
          simp only [exec] at h
          split at h
          · split at h
            · obtain ⟨-, rfl⟩ := Prod.mk.inj h
              exact Or.inl rfl
            · exact ih (s := s.refused) h
          · rename_i hf
            have hserved := @cnt_served_cases _ _ s (op s.table) (by simpa using hf)
            rcases ih (s := s.served (op s.table)) h with hcnt | hcnt
            · rw [hcnt]
              exact hserved
            · exact Or.inr hcnt

/-- No later call fails, and the table has room for `room` more ids. -/
def Session.Serves (s : Session α β) (room : ℕ) : Prop :=
  (∀ n, s.made ≤ n → s.fails n = none) ∧ s.table.cnt + room ≤ intMax + 1

theorem cnt_le_cnt_after (t : Table α β) (step : Step κ α β) : t.cnt ≤ (t.after step).cnt := by
  cases step with
  | set f => exact le_refl _
  | check ok => exact le_refl _
  | call site op =>
      simp only [Table.after]
      cases op t with
      | append x =>
          rw [cnt_served_append]
          exact Nat.le_succ _
      | editLast f => rw [cnt_served_editLast]
      | touch => exact le_refl _

theorem cnt_le_cnt_run (p : Plan κ α β) (t : Table α β) : t.cnt ≤ (p.run t).cnt := by
  induction p generalizing t with
  | nil => exact le_refl _
  | cons step rest ih => exact le_trans (cnt_le_cnt_after t step) (ih _)

/-- A plan without checks is done in a session that serves all of its calls. -/
theorem exec_done_of_serves {room : ℕ} (hcheck : ∀ ok, Step.check ok ∉ p)
    (hserves : s.Serves room) (hroom : (p.run s.table).cnt ≤ s.table.cnt + room) :
    (exec stops p s).1 = .done := by
  induction p generalizing s room with
  | nil => rfl
  | cons step rest ih =>
      have hrest : ∀ ok, Step.check ok ∉ rest := fun ok hmem =>
        hcheck ok (List.mem_cons_of_mem _ hmem)
      cases step with
      | set f => exact ih (s := s.setClient (f s.table)) hrest hserves hroom
      | check ok => exact absurd List.mem_cons_self (hcheck ok)
      | call site op =>
          obtain ⟨hfails, hcnt⟩ := hserves
          have hle := cnt_le_cnt_run rest (s.served (op s.table)).table
          have hrun : (Plan.run rest (s.served (op s.table)).table).cnt ≤ intMax + 1 :=
            le_trans hroom hcnt
          have hnone : s.nextFailure (op s.table) = none := by
            unfold Session.nextFailure
            rw [hfails s.made (le_refl _)]
            cases hop : op s.table with
            | append x =>
                rw [hop, table_served, cnt_served_append] at hle
                have hfits : s.table.cnt ≤ intMax := by
                  rw [hop] at hrun
                  exact Nat.le_of_succ_le_succ (le_trans hle hrun)
                simp [hfits]
            | editLast f => rfl
            | touch => rfl
          simp only [exec, hnone, Option.isSome_none, Bool.false_eq_true, ↓reduceIte]
          have hlater : (s.served (op s.table)).Serves
              (intMax + 1 - (s.served (op s.table)).table.cnt) := by
            have hend := le_trans hle hrun
            refine ⟨fun n hn => hfails n (Nat.le_of_succ_le hn), ?_⟩
            omega
          have hend := le_trans hle hrun
          refine ih hrest hlater ?_
          omega

/-- A failure noted before an execution is noted after it. -/
theorem exec_failed (h : exec stops p s = (o, s')) (hf : s.failed = true) :
    s'.failed = true := by
  induction p generalizing s with
  | nil =>
      obtain ⟨-, rfl⟩ := Prod.mk.inj h
      exact hf
  | cons step rest ih =>
      cases step with
      | set f => exact ih h hf
      | check ok =>
          simp only [exec] at h
          split at h
          · exact ih h hf
          · obtain ⟨-, rfl⟩ := Prod.mk.inj h
            exact hf
      | call site op =>
          simp only [exec] at h
          split at h
          · split at h
            · obtain ⟨-, rfl⟩ := Prod.mk.inj h
              rfl
            · exact ih h rfl
          · exact ih h hf

/-- If an execution stops at a site, a call of the plan at this site has failed. -/
theorem exec_stopped {site : κ} (h : exec stops p s = (.stopped site, s')) :
    s'.failed = true ∧ site ∈ p.sites ∧ stops site = true := by
  induction p generalizing s with
  | nil => simp at h
  | cons step rest ih =>
      cases step with
      | set f => exact ih h
      | check ok =>
          simp only [exec] at h
          split at h
          · exact ih h
          · simp at h
      | call k op =>
          have hmem : ∀ k', k' ∈ Plan.sites rest → k' ∈ Plan.sites (.call k op :: rest) :=
            fun k' hk' => by simpa [Plan.sites] using Or.inr hk'
          simp only [exec] at h
          split at h
          · split at h
            · rename_i hstop
              obtain ⟨hsite, rfl⟩ := Prod.mk.inj h
              obtain rfl := Outcome.stopped.inj hsite
              exact ⟨rfl, by simp [Plan.sites], hstop⟩
            · obtain ⟨h1, h2, h3⟩ := ih h
              exact ⟨h1, hmem _ h2, h3⟩
          · obtain ⟨h1, h2, h3⟩ := ih h
            exact ⟨h1, hmem _ h2, h3⟩

end Exec

end FallibleTable

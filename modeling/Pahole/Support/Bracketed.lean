import Mathlib.Tactic

/-!
# Counters around nested calls

A call may raise the counter of some key, make further calls, and lower the counter
again on its way out.  If it is left early, the counter stays raised.  A counter has
eight bits, so that it comes back to where it was after 256 calls that leave it raised.
-/

namespace Bracketed

variable {κ ι : Type*}

/-- A call: the key whose counter it raises, the calls that it makes in between, and whether it
returns before it lowers the counter. -/
structure Plan (κ ι : Type*) where
  raised : Option κ
  calls : List ι
  early : Bool

/-- The counters, by key. -/
abbrev Levels (κ : Type*) := κ → UInt8

/-- Makes calls one after the other, with all plans that they follow. -/
def runAll (call : ι → Levels κ → Option (Levels κ × List (Plan κ ι))) :
    List ι → Levels κ → Option (Levels κ × List (Plan κ ι))
  | [], levels => some (levels, [])
  | i :: rest, levels =>
      (call i levels).bind fun here =>
        (runAll call rest here.1).map fun later => (later.1, here.2 ++ later.2)

/-- If every plan that calls from a set follow satisfies `P`, so do those followed by a list of
such calls. -/
theorem runAll_trace {Q : ι → Prop} {P : Plan κ ι → Prop}
    {call : ι → Levels κ → Option (Levels κ × List (Plan κ ι))} {calls : List ι}
    {levels levels' : Levels κ} {trace : List (Plan κ ι)}
    (hcall : ∀ i levels levels' trace, Q i → call i levels = some (levels', trace) →
      ∀ p ∈ trace, P p)
    (hcalls : ∀ i ∈ calls, Q i)
    (h : runAll call calls levels = some (levels', trace)) : ∀ p ∈ trace, P p := by
  induction calls generalizing levels trace with
  | nil =>
      obtain ⟨-, rfl⟩ := Prod.mk.inj (Option.some.inj h)
      exact fun p hp => absurd hp List.not_mem_nil
  | cons i rest ih =>
      obtain ⟨hi, hcalls⟩ := List.forall_mem_cons.mp hcalls
      obtain ⟨here, hhere, hrest⟩ := Option.bind_eq_some_iff.mp h
      obtain ⟨later, hlater, heq⟩ := Option.map_eq_some_iff.mp hrest
      obtain ⟨rfl, rfl⟩ := Prod.mk.inj heq
      exact List.forall_mem_append.mpr
        ⟨hcall i levels here.1 here.2 hi hhere, ih hcalls hlater⟩

variable [DecidableEq κ]

/-- The counters after `change` of the one that a plan raises. -/
def Levels.change (levels : Levels κ) (key : Option κ) (change : UInt8 → UInt8) : Levels κ :=
  match key with
  | none => levels
  | some key => Function.update levels key (change (levels key))

/-- Makes a call, where `plan` says what it does: the counters afterwards, and all plans
that have been followed.  There is no result if the calls are nested too deep. -/
def run (plan : Levels κ → ι → Option (Plan κ ι)) :
    (depth : ℕ) → ι → Levels κ → Option (Levels κ × List (Plan κ ι))
  | 0, _, _ => none
  | depth + 1, i, levels =>
      (plan levels i).bind fun p =>
        (runAll (run plan depth) p.calls (levels.change p.raised (· + 1))).map fun inside =>
          (if p.early then inside.1 else inside.1.change p.raised (· - 1), p :: inside.2)

/-- The plan leaves the counter of the key raised. -/
def Plan.leaks (key : κ) (p : Plan κ ι) : Bool := p.early && decide (p.raised = some key)

/-- Every counter is higher, in eight bits, by the number of times that the trace raises it
without restoring it. -/
def Leaked (levels levels' : Levels κ) (trace : List (Plan κ ι)) : Prop :=
  ∀ key, levels' key = levels key + UInt8.ofNat (trace.countP (Plan.leaks key))

section Run

variable {plan : Levels κ → ι → Option (Plan κ ι)} {levels levels' levels'' : Levels κ}
  {trace trace' : List (Plan κ ι)} {depth : ℕ} {i : ι} {p : Plan κ ι}

theorem Leaked.append (h : Leaked levels levels' trace) (h' : Leaked levels' levels'' trace') :
    Leaked levels levels'' (trace ++ trace') := by
  intro key
  rw [h' key, h key, List.countP_append, UInt8.ofNat_add, UInt8.add_assoc]

theorem runAll_leaked {call : ι → Levels κ → Option (Levels κ × List (Plan κ ι))}
    {calls : List ι}
    (hcall : ∀ i levels levels' trace, call i levels = some (levels', trace) →
      Leaked levels levels' trace)
    (h : runAll call calls levels = some (levels', trace)) : Leaked levels levels' trace := by
  induction calls generalizing levels trace with
  | nil =>
      obtain ⟨rfl, rfl⟩ := Prod.mk.inj (Option.some.inj h)
      exact fun key => (UInt8.add_zero _).symm
  | cons i rest ih =>
      obtain ⟨here, hhere, hrest⟩ := Option.bind_eq_some_iff.mp h
      obtain ⟨later, hlater, heq⟩ := Option.map_eq_some_iff.mp hrest
      obtain ⟨rfl, rfl⟩ := Prod.mk.inj heq
      exact (hcall i levels here.1 here.2 hhere).append (ih hlater)

theorem change_apply (change : UInt8 → UInt8) (key : κ) :
    levels.change p.raised change key =
      if p.raised = some key then change (levels key) else levels key := by
  unfold Levels.change
  cases hraised : p.raised with
  | none => rfl
  | some k =>
      by_cases hk : k = key
      · subst hk
        simp
      · have hne : ¬some k = some key := by simpa using hk
        rw [if_neg hne]
        exact Function.update_of_ne (Ne.symm hk) _ _

/-- If the calls of a plan leak `trace`, the plan leaks `trace` and its own counter if it
returns early. -/
theorem Leaked.around {inside : Levels κ}
    (h : Leaked (levels.change p.raised (· + 1)) inside trace) :
    Leaked levels (if p.early then inside else inside.change p.raised (· - 1)) (p :: trace) := by
  intro key
  have hkey := h key
  rw [change_apply] at hkey
  rw [List.countP_cons]
  by_cases hraised : p.raised = some key
  · rw [if_pos hraised] at hkey
    cases hearly : p.early with
    | true =>
        have hleaks : p.leaks key = true := by simp [Plan.leaks, hearly, hraised]
        rw [if_pos rfl, if_pos hleaks, hkey, UInt8.ofNat_add, UInt8.add_assoc,
          UInt8.add_comm 1]
        rfl
    | false =>
        have hleaks : ¬p.leaks key = true := by simp [Plan.leaks, hearly]
        rw [if_neg (by simp), if_neg hleaks, change_apply, if_pos hraised, hkey,
          UInt8.add_assoc, UInt8.add_comm 1, ← UInt8.add_assoc, UInt8.add_sub_cancel]
        rfl
  · have hleaks : ¬p.leaks key = true := by simp [Plan.leaks, hraised]
    rw [if_neg hraised] at hkey
    rw [if_neg hleaks, Nat.add_zero, ← hkey]
    split
    · rfl
    · rw [change_apply, if_neg hraised]

/-- After a call every counter is higher by how often it was left raised. -/
theorem run_leaked (h : run plan depth i levels = some (levels', trace)) :
    Leaked levels levels' trace := by
  induction depth generalizing i levels levels' trace with
  | zero => exact absurd h (by simp [run])
  | succ depth ih =>
      obtain ⟨p, hp, hrest⟩ := Option.bind_eq_some_iff.mp h
      obtain ⟨inside, hinside, heq⟩ := Option.map_eq_some_iff.mp hrest
      obtain ⟨rfl, rfl⟩ := Prod.mk.inj heq
      exact (runAll_leaked (fun i levels levels' trace => ih) hinside).around

/-- If the plans of calls from a set satisfy `P`, and make only calls from the set, every plan
that such a call follows satisfies `P`. -/
theorem run_trace {Q : ι → Prop} {P : Plan κ ι → Prop}
    (hplan : ∀ levels i p, Q i → plan levels i = some p → P p ∧ ∀ c ∈ p.calls, Q c)
    (hi : Q i) (h : run plan depth i levels = some (levels', trace)) : ∀ p ∈ trace, P p := by
  induction depth generalizing i levels levels' trace with
  | zero => exact absurd h (by simp [run])
  | succ depth ih =>
      obtain ⟨p, hp, hrest⟩ := Option.bind_eq_some_iff.mp h
      obtain ⟨inside, hinside, heq⟩ := Option.map_eq_some_iff.mp hrest
      obtain ⟨-, rfl⟩ := Prod.mk.inj heq
      obtain ⟨hP, hcalls⟩ := hplan levels i p hi hp
      refine List.forall_mem_cons.mpr ⟨hP, ?_⟩
      exact runAll_trace (fun i levels levels' trace => ih) hcalls hinside

/-- If no plan of a call from a closed set leaves a counter raised, the counters are as before
after every such call. -/
theorem run_restores {Q : ι → Prop}
    (hplan : ∀ levels i p, Q i → plan levels i = some p →
      (∀ key, p.leaks key = false) ∧ ∀ c ∈ p.calls, Q c)
    (hi : Q i) (h : run plan depth i levels = some (levels', trace)) : levels' = levels := by
  funext key
  have hnone : trace.countP (Plan.leaks key) = 0 :=
    List.countP_eq_zero.mpr fun p hp => by simp [run_trace hplan hi h p hp key]
  rw [run_leaked h key, hnone]
  exact UInt8.add_zero _

/-- A plan without calls that returns early leaves its counter raised by one. -/
theorem run_of_leaks {key : κ} (hp : plan levels i = some ⟨some key, [], true⟩) :
    run plan (depth + 1) i levels =
      some (Function.update levels key (levels key + 1), [⟨some key, [], true⟩]) := by
  rw [run, hp]
  rfl

end Run

end Bracketed

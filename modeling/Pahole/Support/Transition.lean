import Mathlib.Tactic.Common

/-!
# Machines that are fed events

What holds along the runs of a machine whose steps need not all be possible.
-/

namespace Transition

variable {σ ε : Type*}

/-- The events lead from `s` to the state, and each meets the condition in the state before it.
-/
inductive Run (step : σ → ε → Option σ) (cond : σ → ε → Prop) (s : σ) : List ε → σ → Prop
  | nil : Run step cond s [] s
  | snoc {es : List ε} {e : ε} {s₁ s₂ : σ} :
      Run step cond s es s₁ → cond s₁ e → step s₁ e = some s₂ → Run step cond s (es ++ [e]) s₂

/-- The state that events lead to, if they are all possible under the condition. -/
def feed (step : σ → ε → Option σ) (cond : σ → ε → Prop) [∀ s e, Decidable (cond s e)] :
    σ → List ε → Option σ
  | s, [] => some s
  | s, e :: es =>
      if cond s e then
        match step s e with
        | some s' => feed step cond s' es
        | none => none
      else none

section Rules

variable {step : σ → ε → Option σ} {cond : σ → ε → Prop} {s s' : σ} {es : List ε}

/-- A property of the events so far and the state that holds at the start and is kept by every
step holds after every run. -/
theorem Run.relates {P : List ε → σ → Prop} (h : Run step cond s es s') (start : P [] s)
    (keep : ∀ es s₁ e s₂, P es s₁ → cond s₁ e → step s₁ e = some s₂ → P (es ++ [e]) s₂) :
    P es s' := by
  induction h with
  | nil => exact start
  | snoc _ hcond hstep ih => exact keep _ _ _ _ ih hcond hstep

theorem Run.invariant {P : σ → Prop} (h : Run step cond s es s') (start : P s)
    (keep : ∀ s₁ e s₂, P s₁ → cond s₁ e → step s₁ e = some s₂ → P s₂) : P s' :=
  h.relates (P := fun _ => P) start fun _ => keep

theorem Run.mono {weaker : σ → ε → Prop} (h : Run step cond s es s')
    (hcond : ∀ s e, cond s e → weaker s e) : Run step weaker s es s' := by
  induction h with
  | nil => exact .nil
  | snoc _ hmeets hstep ih => exact .snoc ih (hcond _ _ hmeets) hstep

theorem Run.append {es' : List ε} {s'' : σ} (h : Run step cond s es s')
    (h' : Run step cond s' es' s'') : Run step cond s (es ++ es') s'' := by
  induction h' with
  | nil =>
      rw [List.append_nil]
      exact h
  | snoc _ hmeets hstep ih =>
      rw [← List.append_assoc]
      exact .snoc ih hmeets hstep

/-- If `feed` returns a state, there is a run to it. -/
theorem Run.of_feed [∀ s e, Decidable (cond s e)] (h : feed step cond s es = some s') :
    Run step cond s es s' := by
  induction es generalizing s with
  | nil =>
      obtain rfl := Option.some.inj h
      exact .nil
  | cons e es ih =>
      unfold feed at h
      split at h
      · rename_i hmeets
        cases hstep : step s e with
        | none => simp [hstep] at h
        | some s₁ =>
            rw [hstep] at h
            have hone : Run step cond s ([] ++ [e]) s₁ := .snoc .nil hmeets hstep
            exact hone.append (ih h)
      · simp at h

end Rules

/-! ## Machines that take every event -/

section Along

variable (next : σ → ε → σ)

/-- `P` holds of every event and the state before it. -/
def Along (P : σ → ε → Prop) : σ → List ε → Prop
  | _, [] => True
  | s, e :: es => P s e ∧ Along P (next s e) es

variable {next} {P Q valid : σ → ε → Prop} {Inv : σ → Prop} {s : σ} {es : List ε}

/-- Where the steps from good states are right exactly under a condition that keeps them
good, a sequence of events is. -/
theorem along_iff (hinv : Inv s) (hvalid : Along next valid s es)
    (hstep : ∀ s e, Inv s → valid s e → (P s e ↔ Q s e))
    (hkeep : ∀ s e, Inv s → valid s e → Q s e → Inv (next s e)) :
    Along next P s es ↔ Along next Q s es := by
  induction es generalizing s with
  | nil => exact Iff.rfl
  | cons e es ih =>
      obtain ⟨hfirst, hrest⟩ := hvalid
      constructor
      · rintro ⟨hp, hps⟩
        have hq := (hstep s e hinv hfirst).mp hp
        exact ⟨hq, (ih (hkeep s e hinv hfirst hq) hrest).mp hps⟩
      · rintro ⟨hq, hqs⟩
        exact ⟨(hstep s e hinv hfirst).mpr hq, (ih (hkeep s e hinv hfirst hq) hrest).mpr hqs⟩

variable (next) in
theorem along_true (s : σ) (es : List ε) : Along next (fun _ _ => True) s es := by
  induction es generalizing s with
  | nil => trivial
  | cons e es ih => exact ⟨trivial, ih _⟩

variable (next P) in
instance decidableAlong [∀ s e, Decidable (P s e)] :
    (s : σ) → (es : List ε) → Decidable (Along next P s es)
  | _, [] => inferInstanceAs (Decidable True)
  | s, e :: es => @instDecidableAnd _ _ _ (decidableAlong (next s e) es)

end Along

end Transition

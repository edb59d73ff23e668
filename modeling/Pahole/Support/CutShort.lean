import Mathlib.Tactic

/-!
# Programs that may be cut short

A program changes a state and returns, or it is cut short in the state that it has got to.
Procedures that call each other are run to a depth, below which they are cut short: what
holds of them at every depth holds at every point of a run, also of one that never returns.
-/

namespace CutShort

variable {ι σ α β γ : Type}

abbrev Prog (σ α : Type) := EStateM Unit σ α

/-- From `s` the program returns with `P`, or it is cut short with `C`. -/
def Ensures (p : Prog σ α) (s : σ) (P : α → σ → Prop) (C : σ → Prop) : Prop :=
  match p s with
  | .ok a s' => P a s'
  | .error _ s' => C s'

/-- The state in which the program returns or is cut short. -/
def final (p : Prog σ α) (s : σ) : σ :=
  match p s with
  | .ok _ s' => s'
  | .error _ s' => s'

/-- An `if` without an `else`. -/
def provided (c : Prop) [Decidable c] (p : Prog σ PUnit) : Prog σ PUnit :=
  if c then p else pure ⟨⟩

section Rules

variable {p : Prog σ α} {f : α → Prog σ β} {s : σ} {P P' : α → σ → Prop} {Q : β → σ → Prop}
  {C C' : σ → Prop}

theorem Ensures.final {C : σ → Prop} (h : Ensures p s (fun _ => C) C) : C (final p s) := by
  unfold Ensures at h
  unfold CutShort.final
  cases hp : p s with
  | ok a s' =>
      rw [hp] at h
      exact h
  | error e s' =>
      rw [hp] at h
      exact h

theorem Ensures.imp (h : Ensures p s P C) (hP : ∀ a s', P a s' → P' a s')
    (hC : ∀ s', C s' → C' s') : Ensures p s P' C' := by
  unfold Ensures at h ⊢
  cases hp : p s with
  | ok a s' =>
      rw [hp] at h
      exact hP a s' h
  | error e s' =>
      rw [hp] at h
      exact hC s' h

theorem Ensures.bind (hp : Ensures p s P C) (hf : ∀ a s', P a s' → Ensures (f a) s' Q C) :
    Ensures (p >>= f) s Q C := by
  unfold Ensures at hp
  cases hrun : p s with
  | ok a s' =>
      rw [hrun] at hp
      have hbind : (p >>= f) s = f a s' := by
        change EStateM.bind p f s = f a s'
        rw [EStateM.bind, hrun]
      rw [Ensures, hbind]
      exact hf a s' hp
  | error e s' =>
      rw [hrun] at hp
      have hbind : (p >>= f) s = .error e s' := by
        change EStateM.bind p f s = .error e s'
        rw [EStateM.bind, hrun]
      rw [Ensures, hbind]
      exact hp

theorem ensures_pure {a : α} (h : P a s) : Ensures (pure a) s P C := h

theorem ensures_throw (h : C s) : Ensures (throw ()) s P C := h

theorem ensures_getThen {f : σ → Prog σ α} (h : Ensures (f s) s P C) :
    Ensures (get >>= f) s P C := h

theorem ensures_modify {g : σ → σ} {P : PUnit → σ → Prop} (h : P ⟨⟩ (g s)) :
    Ensures (modify g) s P C := h

theorem ensures_ite {c : Prop} [Decidable c] {q : Prog σ α} (hp : c → Ensures p s P C)
    (hq : ¬c → Ensures q s P C) : Ensures (if c then p else q) s P C := by
  split
  · exact hp ‹_›
  · exact hq ‹_›

theorem ensures_provided {c : Prop} [Decidable c] {q : Prog σ PUnit} {P : PUnit → σ → Prop}
    (h : c → Ensures q s P C) (hnot : ¬c → P ⟨⟩ s) : Ensures (provided c q) s P C :=
  ensures_ite h hnot

/-- A loop, with what holds once the elements of a list are done. -/
theorem ensures_forM {f : γ → Prog σ PUnit} (I : List γ → σ → Prop) {xs : List γ}
    (hstep : ∀ done, ∀ x ∈ xs, ∀ s, I done s → Ensures (f x) s (fun _ => I (done ++ [x])) C)
    (done : List γ) (h : I done s) : Ensures (xs.forM f) s (fun _ => I (done ++ xs)) C := by
  induction xs generalizing done s with
  | nil =>
      rw [List.append_nil]
      exact h
  | cons x xs ih =>
      refine Ensures.bind (hstep done x List.mem_cons_self s h) fun _ s' hx => ?_
      rw [List.append_cons]
      exact ih (fun done y hy => hstep done y (List.mem_cons_of_mem x hy)) _ hx

/-- The rule for a loop that carries a value. -/
theorem ensures_foldlM {f : β → γ → Prog σ β} (I : List γ → σ → Prop) {xs : List γ}
    (hstep : ∀ done b, ∀ x ∈ xs, ∀ s, I done s →
      Ensures (f b x) s (fun _ => I (done ++ [x])) C)
    (done : List γ) {b : β} (h : I done s) :
    Ensures (xs.foldlM f b) s (fun _ => I (done ++ xs)) C := by
  induction xs generalizing done b s with
  | nil =>
      rw [List.append_nil]
      exact h
  | cons x xs ih =>
      refine Ensures.bind (hstep done b x List.mem_cons_self s h) fun b' s' hx => ?_
      rw [List.append_cons]
      exact ih (fun done b y hy => hstep done b y (List.mem_cons_of_mem x hy)) _ hx

end Rules

/-! ## Procedures that call each other -/

/-- Calls of each other to a depth. -/
def unroll (body : (ι → Prog σ α) → ι → Prog σ α) : ℕ → ι → Prog σ α
  | 0, _ => throw ()
  | depth + 1, call => body (unroll body depth) call

/-- A property that bodies have if the calls in them have it holds of the calls at every depth.
-/
theorem unroll_induction {body : (ι → Prog σ α) → ι → Prog σ α}
    (Good : ι → Prog σ α → Prop) (hcut : ∀ call, Good call (throw ()))
    (hbody : ∀ rec, (∀ call, Good call (rec call)) → ∀ call, Good call (body rec call))
    (depth : ℕ) (call : ι) : Good call (unroll body depth call) := by
  induction depth generalizing call with
  | zero => exact hcut call
  | succ depth ih => exact hbody _ ih call

end CutShort

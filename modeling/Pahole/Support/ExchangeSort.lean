import Mathlib.Data.List.Chain
import Mathlib.Tactic

/-!
# Sorting by exchanging neighbours

A list is gone through until a value that may be moved has a smaller one behind it.  The
two are exchanged, and it starts all over.  Values that may not be moved are not looked
at from themselves, but they are looked at from the value in front of them.
-/

namespace ExchangeSort

variable {α κ : Type*} [LinearOrder κ] (movable : α → Bool) (key : α → κ)

/-- One way through the list: whose keys have been read, and the list after an
exchange, if there has been one. -/
def round : List α → List α × Option (List α)
  | current :: next :: rest =>
      if movable current then
        if key current ≤ key next then
          (current :: next :: (round (next :: rest)).1,
            (round (next :: rest)).2.map (current :: ·))
        else ([current, next], some (next :: current :: rest))
      else ((round (next :: rest)).1, (round (next :: rest)).2.map (current :: ·))
  | _ => ([], none)

/-- Goes through the list until nothing is exchanged: the list then, and whose keys have
been read. -/
def run : (fuel : ℕ) → List α → Option (List α × List α)
  | 0, _ => none
  | fuel + 1, xs =>
      match (round movable key xs).2 with
      | none => some (xs, (round movable key xs).1)
      | some ys => (run fuel ys).map fun r => (r.1, (round movable key xs).1 ++ r.2)

/-- Two neighbours have been exchanged, the keys of both being among the ones read. -/
def Exchanged (reads xs ys : List α) : Prop :=
  ∃ pre a b post, xs = pre ++ a :: b :: post ∧ ys = pre ++ b :: a :: post ∧
    movable a = true ∧ key b < key a ∧ a ∈ reads ∧ b ∈ reads

/-- The key of no element that is movable is above that of its neighbour, all keys compared
being among those read. -/
def Settled (reads xs : List α) : Prop :=
  xs.IsChain fun a b => movable a = true → key a ≤ key b ∧ b ∈ reads

variable {movable key} {reads reads' xs ys : List α} {fuel : ℕ}

theorem Exchanged.mono (h : Exchanged movable key reads xs ys) (hsub : reads ⊆ reads') :
    Exchanged movable key reads' xs ys := by
  obtain ⟨pre, a, b, post, hxs, hys, ha, hlt, hreadA, hreadB⟩ := h
  exact ⟨pre, a, b, post, hxs, hys, ha, hlt, hsub hreadA, hsub hreadB⟩

theorem Settled.mono (h : Settled movable key reads xs) (hsub : reads ⊆ reads') :
    Settled movable key reads' xs :=
  List.IsChain.imp (fun _ _ hab ha => ⟨(hab ha).1, hsub (hab ha).2⟩) h

theorem Exchanged.cons {x : α} (h : Exchanged movable key reads xs ys) :
    Exchanged movable key reads (x :: xs) (x :: ys) := by
  obtain ⟨pre, a, b, post, rfl, rfl, hrest⟩ := h
  exact ⟨x :: pre, a, b, post, rfl, rfl, hrest⟩

/-- A round ends with an exchange, or without one if the list is settled. -/
theorem round_spec (xs : List α) :
    (∀ ys, (round movable key xs).2 = some ys →
      Exchanged movable key (round movable key xs).1 xs ys) ∧
    ((round movable key xs).2 = none → Settled movable key (round movable key xs).1 xs) := by
  induction xs with
  | nil => exact ⟨fun ys h => absurd h (by simp [round]), fun _ => List.IsChain.nil⟩
  | cons current rest ih =>
      cases rest with
      | nil => exact ⟨fun ys h => absurd h (by simp [round]), fun _ => List.IsChain.singleton _⟩
      | cons next rest =>
          obtain ⟨ihSome, ihNone⟩ := ih
          have hgo : ∀ reads, (round movable key (next :: rest)).1 ⊆ reads →
              (movable current = true → key current ≤ key next ∧ next ∈ reads) →
              (∀ ys, (round movable key (next :: rest)).2.map (current :: ·) = some ys →
                Exchanged movable key reads (current :: next :: rest) ys) ∧
              ((round movable key (next :: rest)).2.map (current :: ·) = none →
                Settled movable key reads (current :: next :: rest)) := by
            intro reads hsub hcurrent
            constructor
            · intro ys hys
              obtain ⟨zs, hzs, rfl⟩ := Option.map_eq_some_iff.mp hys
              exact ((ihSome zs hzs).mono hsub).cons
            · intro hnone
              have hrest := (ihNone (Option.map_eq_none_iff.mp hnone)).mono hsub
              exact List.isChain_cons_cons.mpr ⟨hcurrent, hrest⟩
          rw [round]
          by_cases hmovable : movable current = true
          · by_cases hle : key current ≤ key next
            · rw [if_pos hmovable, if_pos hle]
              apply hgo
              · exact fun v hv => by simp [hv]
              · exact fun _ => ⟨hle, by simp⟩
            · rw [if_pos hmovable, if_neg hle]
              constructor
              · intro ys hys
                obtain rfl := Option.some.inj hys
                exact ⟨[], current, next, rest, rfl, rfl, hmovable, not_le.mp hle,
                  by simp, by simp⟩
              · exact fun h => absurd h (by simp)
          · rw [if_neg hmovable]
            apply hgo
            · exact List.Subset.refl _
            · exact fun h => absurd h hmovable

/-- A way through the list reads keys of movable values only, if these come last. -/
theorem round_reads (h : xs.Pairwise fun a b => movable a = true → movable b = true) :
    ∀ v ∈ (round movable key xs).1, movable v = true := by
  induction xs with
  | nil => simp [round]
  | cons current rest ih =>
      cases rest with
      | nil => simp [round]
      | cons next rest =>
          obtain ⟨hcurrent, hrest⟩ := List.pairwise_cons.mp h
          rw [round]
          by_cases hmovable : movable current = true
          · have hnext : movable next = true := hcurrent next List.mem_cons_self hmovable
            rw [if_pos hmovable]
            split
            · simp only [List.forall_mem_cons]
              exact ⟨hmovable, hnext, ih hrest⟩
            · simp [hmovable, hnext]
          · rw [if_neg hmovable]
            exact ih hrest

/-! ## Termination -/

variable (key) in
/-- The pairs of values that are in descending order. -/
def inversions : List α → ℕ
  | [] => 0
  | x :: xs => xs.countP (fun v => key v < key x) + inversions xs

theorem inversions_exchange {a b : α} (pre post : List α) (hlt : key b < key a) :
    inversions key (pre ++ a :: b :: post) = inversions key (pre ++ b :: a :: post) + 1 := by
  induction pre with
  | nil =>
      simp only [List.nil_append, inversions, List.countP_cons]
      simp [hlt, hlt.not_gt]
      omega
  | cons x pre ih =>
      have hperm : (pre ++ a :: b :: post).Perm (pre ++ b :: a :: post) :=
        (List.Perm.swap b a post).append_left pre
      rw [List.cons_append, List.cons_append, inversions, inversions, ih, hperm.countP_eq]
      omega

theorem inversions_le (xs : List α) : inversions key xs ≤ xs.length * xs.length := by
  induction xs with
  | nil => exact le_refl _
  | cons x xs ih =>
      have hcount : xs.countP (fun v => key v < key x) ≤ xs.length := List.countP_le_length
      rw [inversions, List.length_cons]
      nlinarith

theorem run_isSome (h : inversions key xs < fuel) :
    ∃ ys reads, run movable key fuel xs = some (ys, reads) := by
  induction fuel generalizing xs with
  | zero => exact absurd h (Nat.not_lt_zero _)
  | succ fuel ih =>
      rw [run]
      cases hround : (round movable key xs).2 with
      | none => exact ⟨_, _, rfl⟩
      | some ys =>
          obtain ⟨pre, a, b, post, hxs, hys, -, hlt, -⟩ := (round_spec xs).1 ys hround
          have hless : inversions key ys < fuel := by
            have hcount := inversions_exchange pre post hlt
            rw [← hxs, ← hys] at hcount
            omega
          obtain ⟨zs, reads, hrun⟩ := ih hless
          exact ⟨zs, (round movable key xs).1 ++ reads, by simp [hrun]⟩

/-! ## Whole runs -/

/-- A run goes by exchanges to a list that is settled. -/
theorem run_spec (h : run movable key fuel xs = some (ys, reads)) :
    Relation.ReflTransGen (Exchanged movable key reads) xs ys ∧ Settled movable key reads ys := by
  induction fuel generalizing xs reads with
  | zero => simp [run] at h
  | succ fuel ih =>
      rw [run] at h
      cases hround : (round movable key xs).2 with
      | none =>
          rw [hround] at h
          obtain ⟨rfl, rfl⟩ := Prod.mk.inj (Option.some.inj h)
          exact ⟨.refl, (round_spec xs).2 hround⟩
      | some zs =>
          rw [hround] at h
          obtain ⟨⟨ws, more⟩, hrun, heq⟩ := Option.map_eq_some_iff.mp h
          obtain ⟨rfl, rfl⟩ := Prod.mk.inj heq
          obtain ⟨hsteps, hsettled⟩ := ih hrun
          constructor
          · have hstep := ((round_spec xs).1 zs hround).mono (List.subset_append_left _ more)
            refine .head hstep (Relation.ReflTransGen.mono ?_ _ _ hsteps)
            exact fun _ _ h => h.mono (List.subset_append_right _ _)
          · exact hsettled.mono (List.subset_append_right _ _)

/-! ## Properties kept by an exchange -/

/-- The values that may not be moved stay where they are. -/
theorem Exchanged.others (h : Exchanged movable key reads xs ys)
    (hreads : ∀ v ∈ reads, movable v = true) :
    ys.map (fun v => if movable v then none else some v) =
      xs.map fun v => if movable v then none else some v := by
  obtain ⟨pre, a, b, post, rfl, rfl, -, -, ha, hb⟩ := h
  simp [hreads a ha, hreads b hb]

/-- Lists with the same other values have each of them in the same place. -/
theorem getElem?_of_others {i : ℕ} {v : α} (hv : movable v = false)
    (h : (ys.map fun v => if movable v then none else some v) =
      xs.map fun v => if movable v then none else some v) :
    ys[i]? = some v ↔ xs[i]? = some v := by
  have hat : ∀ zs : List α, zs[i]? = some v ↔
      (zs.map fun v => if movable v then none else some v)[i]? = some (some v) := by
    intro zs
    rw [List.getElem?_map, Option.map_eq_some_iff]
    constructor
    · exact fun hzs => ⟨v, hzs, by simp [hv]⟩
    · rintro ⟨w, hw, heq⟩
      split at heq
      · exact absurd heq (by simp)
      · exact hw.trans heq
  rw [hat, hat, h]

theorem Exchanged.flags (h : Exchanged movable key reads xs ys)
    (hreads : ∀ v ∈ reads, movable v = true) : ys.map movable = xs.map movable := by
  obtain ⟨pre, a, b, post, rfl, rfl, -, -, ha, hb⟩ := h
  simp [hreads a ha, hreads b hb]

/-- Values with the same key stay in their order. -/
theorem Exchanged.stable (h : Exchanged movable key reads xs ys) (k : κ) :
    ys.filter (fun v => movable v && key v = k) = xs.filter fun v => movable v && key v = k := by
  obtain ⟨pre, a, b, post, rfl, rfl, -, hlt, -⟩ := h
  rw [List.filter_append, List.filter_append, List.append_cancel_left_eq]
  by_cases hak : key a = k
  · have hbk : key b ≠ k := hak ▸ hlt.ne
    simp [List.filter_cons, hbk]
  · simp [List.filter_cons, hak]

theorem Exchanged.perm (h : Exchanged movable key reads xs ys) : ys.Perm xs := by
  obtain ⟨pre, a, b, post, rfl, rfl, -⟩ := h
  exact (List.Perm.swap a b post).append_left pre

/-- In a settled list, where all that has been read may be moved, the movable values
come last and in order. -/
theorem Settled.sorted (h : Settled movable key reads xs)
    (hreads : ∀ v ∈ reads, movable v = true) :
    xs.Pairwise fun a b => movable a = true → movable b = true ∧ key a ≤ key b := by
  have htrans : IsTrans α fun a b => movable a = true → movable b = true ∧ key a ≤ key b :=
    ⟨fun a b c hab hbc ha =>
      ⟨(hbc (hab ha).1).1, (hab ha).2.trans (hbc (hab ha).1).2⟩⟩
  apply List.IsChain.pairwise
  exact List.IsChain.imp (fun a b hab ha => ⟨hreads b (hab ha).2, (hab ha).1⟩) h

/-- Whether the movable values come last depends only on the places of the movable values. -/
theorem movableLast_congr (h : ys.map movable = xs.map movable) :
    (ys.Pairwise fun a b => movable a = true → movable b = true) ↔
      xs.Pairwise fun a b => movable a = true → movable b = true := by
  have hflags : ∀ zs : List α, (zs.Pairwise fun a b => movable a = true → movable b = true) ↔
      (zs.map movable).Pairwise fun p q => p = true → q = true :=
    fun zs => by rw [List.pairwise_map]
  rw [hflags, hflags, h]

/-- If the movable values come last, a run reads no other keys. -/
theorem run_reads (hlast : xs.Pairwise fun a b => movable a = true → movable b = true)
    (h : run movable key fuel xs = some (ys, reads)) : ∀ v ∈ reads, movable v = true := by
  induction fuel generalizing xs reads with
  | zero => simp [run] at h
  | succ fuel ih =>
      have hhere : ∀ v ∈ (round movable key xs).1, movable v = true := round_reads hlast
      rw [run] at h
      cases hround : (round movable key xs).2 with
      | none =>
          rw [hround] at h
          obtain ⟨-, rfl⟩ := Prod.mk.inj (Option.some.inj h)
          exact hhere
      | some zs =>
          rw [hround] at h
          obtain ⟨⟨ws, more⟩, hrun, heq⟩ := Option.map_eq_some_iff.mp h
          obtain ⟨rfl, rfl⟩ := Prod.mk.inj heq
          have hflags := ((round_spec xs).1 zs hround).flags hhere
          have hlater := ih ((movableLast_congr hflags).mpr hlast) hrun
          exact List.forall_mem_append.mpr ⟨hhere, hlater⟩

/-- A run keeps every property that an exchange of movable values keeps. -/
theorem run_keeps {P : List α → Prop} (h : run movable key fuel xs = some (ys, reads))
    (hxs : P xs) (hstep : ∀ zs ws, Exchanged movable key reads zs ws → P zs → P ws) : P ys := by
  obtain ⟨hsteps, -⟩ := run_spec h
  clear h
  induction hsteps with
  | refl => exact hxs
  | tail _ hexchange ih => exact hstep _ _ hexchange ih

end ExchangeSort

import Mathlib.Tactic
import Mathlib.Data.List.Pairwise
import Mathlib.Data.List.SplitBy

/-!
# Runs of elements with the same key

A list is cut wherever the key changes, as a loop does that remembers the key of the element
before.  If the list is sorted by the key, every key has one run.
-/

namespace KeyRuns

variable {α κ : Type} [DecidableEq κ] (keyOf : α → κ)

/-- The runs of a list that comes after the elements of a run. -/
def runsFrom (key : κ) (run : List α) : List α → List (κ × List α)
  | [] => [(key, run)]
  | x :: rest =>
      if keyOf x ≠ key then (key, run) :: runsFrom (keyOf x) [x] rest
      else runsFrom key (run ++ [x]) rest

/-- The runs of a list. -/
def runs : List α → List (κ × List α)
  | [] => []
  | x :: rest => runsFrom keyOf (keyOf x) [x] rest

section Elements

variable {keyOf} {key : κ} {run rest : List α}

/-- The runs, one after the other, are the list. -/
theorem flatMap_runsFrom (key : κ) (run rest : List α) :
    (runsFrom keyOf key run rest).flatMap Prod.snd = run ++ rest := by
  induction rest generalizing key run with
  | nil => simp [runsFrom]
  | cons x rest ih =>
      rw [runsFrom]
      split
      · rw [List.flatMap_cons, ih]
        rfl
      · rw [ih, List.append_assoc]
        rfl

theorem flatMap_runs (xs : List α) : (runs keyOf xs).flatMap Prod.snd = xs := by
  cases xs with
  | nil => rfl
  | cons x rest => exact flatMap_runsFrom (keyOf x) [x] rest

/-- The elements of a run have its key. -/
theorem keyOf_runsFrom (hrun : ∀ x ∈ run, keyOf x = key) :
    ∀ r ∈ runsFrom keyOf key run rest, ∀ x ∈ r.2, keyOf x = r.1 := by
  induction rest generalizing key run with
  | nil =>
      intro r hr
      rw [List.mem_singleton.mp hr]
      exact hrun
  | cons x rest ih =>
      rw [runsFrom]
      split
      · intro r hr
        rcases List.mem_cons.mp hr with rfl | hr
        · exact hrun
        · exact ih (fun y hy => by rw [List.mem_singleton.mp hy]) r hr
      · next hkey =>
          refine ih fun y hy => ?_
          rcases List.mem_append.mp hy with hy | hy
          · exact hrun y hy
          · rw [List.mem_singleton.mp hy]
            exact not_not.mp hkey

theorem keyOf_runs {xs : List α} : ∀ r ∈ runs keyOf xs, ∀ x ∈ r.2, keyOf x = r.1 := by
  cases xs with
  | nil => exact fun r hr => absurd hr (List.not_mem_nil)
  | cons x rest => exact keyOf_runsFrom fun y hy => by rw [List.mem_singleton.mp hy]

omit [DecidableEq κ] in
/-- A run is a sublist of the list. -/
theorem sublist_of_mem_flatMap {r : κ × List α} {rs : List (κ × List α)} (hr : r ∈ rs) :
    r.2.Sublist (rs.flatMap Prod.snd) := by
  induction rs with
  | nil => exact absurd hr List.not_mem_nil
  | cons r' rs ih =>
      rw [List.flatMap_cons]
      rcases List.mem_cons.mp hr with rfl | hr
      · exact List.sublist_append_left _ _
      · exact (ih hr).trans (List.sublist_append_right _ _)

theorem sublist_of_mem_runs {xs : List α} {r : κ × List α} (hr : r ∈ runs keyOf xs) :
    r.2.Sublist xs := by
  have hsub := sublist_of_mem_flatMap hr
  rwa [flatMap_runs] at hsub

end Elements

section Sorted

variable {keyOf} [PartialOrder κ] {key : κ} {run rest : List α}

theorem le_of_mem_runsFrom (hle : ∀ x ∈ rest, key ≤ keyOf x)
    (hsorted : rest.Pairwise fun a b => keyOf a ≤ keyOf b) :
    ∀ r ∈ runsFrom keyOf key run rest, key ≤ r.1 := by
  induction rest generalizing key run with
  | nil =>
      intro r hr
      rw [List.mem_singleton.mp hr]
  | cons x rest ih =>
      obtain ⟨hx, hrest⟩ := List.pairwise_cons.mp hsorted
      rw [runsFrom]
      split
      · intro r hr
        rcases List.mem_cons.mp hr with rfl | hr
        · exact le_refl _
        · exact (hle x List.mem_cons_self).trans (ih hx hrest r hr)
      · exact ih (fun y hy => hle y (List.mem_cons_of_mem x hy)) hrest

/-- In a list that is sorted by the key the runs are, too, and no key has two. -/
theorem pairwise_runsFrom (hle : ∀ x ∈ rest, key ≤ keyOf x)
    (hsorted : rest.Pairwise fun a b => keyOf a ≤ keyOf b) :
    (runsFrom keyOf key run rest).Pairwise fun r r' => r.1 < r'.1 := by
  induction rest generalizing key run with
  | nil => exact List.pairwise_singleton _ _
  | cons x rest ih =>
      obtain ⟨hx, hrest⟩ := List.pairwise_cons.mp hsorted
      rw [runsFrom]
      split
      · next hne =>
          refine List.pairwise_cons.mpr ⟨fun r hr => ?_, ih hx hrest⟩
          have hlt : key < keyOf x :=
            lt_of_le_of_ne (hle x List.mem_cons_self) (Ne.symm hne)
          exact hlt.trans_le (le_of_mem_runsFrom hx hrest r hr)
      · exact ih (fun y hy => hle y (List.mem_cons_of_mem x hy)) hrest

theorem pairwise_runs {xs : List α} (hsorted : xs.Pairwise fun a b => keyOf a ≤ keyOf b) :
    (runs keyOf xs).Pairwise fun r r' => r.1 < r'.1 := by
  cases xs with
  | nil => exact List.Pairwise.nil
  | cons x rest =>
      obtain ⟨hx, hrest⟩ := List.pairwise_cons.mp hsorted
      exact pairwise_runsFrom hx hrest

end Sorted

/-! ## Pieces of a sorted list -/

section Split

variable {β : Type} [PartialOrder β] {f : α → β} {r : α → α → Bool}

/-- Pieces of a sorted list that were cut between different elements are sorted. -/
theorem pairwise_of_isChain {gs : List (List α)} (hne : [] ∉ gs)
    (hsorted : gs.flatten.Pairwise fun a b => f a ≤ f b)
    (hcut : gs.IsChain fun g g' => ∃ a ∈ g, ∃ b ∈ g', f a ≠ f b ∧ (∀ x ∈ g, f x ≤ f a) ∧
      ∀ y ∈ g', f b ≤ f y) :
    gs.Pairwise fun g g' => ∀ a ∈ g, ∀ b ∈ g', f a < f b := by
  induction gs with
  | nil => exact List.Pairwise.nil
  | cons g gs ih =>
      rw [List.flatten_cons, List.pairwise_append] at hsorted
      obtain ⟨hg, hgs, hcross⟩ := hsorted
      refine List.pairwise_cons.mpr ⟨fun g' hg' x hx y hy => ?_,
        ih (fun hmem => hne (List.mem_cons_of_mem _ hmem)) hgs hcut.tail⟩
      cases gs with
      | nil => cases hg'
      | cons g₁ gs =>
          obtain ⟨a, ha, b, hb, hdiffer, hlast, hfirst⟩ := (List.isChain_cons_cons.mp hcut).1
          have hlt : f a < f b := lt_of_le_of_ne
            (hcross a ha b (List.mem_flatten_of_mem List.mem_cons_self hb)) hdiffer
          have hle : f b ≤ f y := by
            rcases List.mem_cons.mp hg' with rfl | hg'
            · exact hfirst y hy
            · rw [List.flatten_cons, List.pairwise_append] at hgs
              exact hgs.2.2 b hb y (List.mem_flatten_of_mem hg' hy)
          exact (hlast x hx).trans_lt (hlt.trans_le hle)

/-- In a sorted list that is cut between different elements, no two pieces share one. -/
theorem pairwise_splitBy {xs : List α} (hsorted : xs.Pairwise fun a b => f a ≤ f b)
    (hr : ∀ a ∈ xs, ∀ b ∈ xs, r a b = false → f a ≠ f b) :
    (xs.splitBy r).Pairwise fun g g' => ∀ a ∈ g, ∀ b ∈ g', f a < f b := by
  have hflat := List.flatten_splitBy r xs
  have hpieces : ∀ g ∈ xs.splitBy r, g.Pairwise fun a b => f a ≤ f b := by
    rw [← hflat, List.pairwise_flatten] at hsorted
    exact hsorted.1
  have hmem : ∀ g ∈ xs.splitBy r, ∀ x ∈ g, x ∈ xs := by
    intro g hg x hx
    rw [← hflat]
    exact List.mem_flatten_of_mem hg hx
  refine pairwise_of_isChain (List.nil_notMem_splitBy r xs) (by rwa [hflat]) ?_
  refine (List.isChain_getLast_head_splitBy r xs).imp_of_mem_imp fun g g' hg hg' h => ?_
  obtain ⟨hgne, hgne', hcut⟩ := h
  refine ⟨g.getLast hgne, List.getLast_mem hgne, g'.head hgne', List.head_mem hgne', ?_, ?_, ?_⟩
  · exact hr _ (hmem g hg _ (List.getLast_mem hgne)) _ (hmem g' hg' _ (List.head_mem hgne')) hcut
  · intro x hx
    rw [← List.dropLast_append_getLast hgne, List.mem_append, List.mem_singleton] at hx
    rcases hx with hx | rfl
    · have hpair := hpieces g hg
      rw [← List.dropLast_append_getLast hgne, List.pairwise_append] at hpair
      exact hpair.2.2 x hx _ (List.mem_singleton_self _)
    · exact le_refl _
  · intro y hy
    have hpair := hpieces g' hg'
    cases g' with
    | nil => exact absurd rfl hgne'
    | cons b g' =>
        rcases List.mem_cons.mp hy with rfl | hy
        · exact le_refl _
        · exact (List.pairwise_cons.mp hpair).1 y hy

end Split

end KeyRuns

import Mathlib.Tactic

/-!
# Updates of items by key

Items have keys, and an update sets a value in the item with one key.  Of several updates
with one key the last one holds.
-/

namespace KeyedUpdates

variable {α κ ν : Type*} [DecidableEq κ] (key : α → κ) (set : ν → α → α)

/-- An update of the item with a key. -/
def update (up : κ × ν) (a : α) : α := if key a = up.1 then set up.2 a else a

/-- Updates, one after the other. -/
def updateAll (ups : List (κ × ν)) (a : α) : α := ups.foldl (fun a up => update key set up a) a

variable {key set} {up : κ × ν} {ups : List (κ × ν)} {a : α} {items : List α} {i : ℕ} {v : ν}

theorem update_of_ne (h : up.1 ≠ key a) : update key set up a = a := if_neg h.symm

theorem update_of_eq (h : up.1 = key a) : update key set up a = set up.2 a := if_pos h.symm

@[simp] theorem updateAll_nil : updateAll key set [] a = a := rfl

@[simp] theorem updateAll_cons :
    updateAll key set (up :: ups) a = updateAll key set ups (update key set up a) := rfl

/-- Updates of other keys leave an item unchanged. -/
theorem updateAll_of_forall_ne (h : ∀ up ∈ ups, up.1 ≠ key a) : updateAll key set ups a = a := by
  induction ups with
  | nil => rfl
  | cons up ups ih =>
      obtain ⟨hup, hups⟩ := List.forall_mem_cons.mp h
      rw [updateAll_cons, update_of_ne hup]
      exact ih hups

section Keys

variable (hkey : ∀ v a, key (set v a) = key a)

include hkey

theorem key_update : key (update key set up a) = key a := by
  by_cases h : up.1 = key a
  · rw [update_of_eq h, hkey]
  · rw [update_of_ne h]

theorem key_updateAll : key (updateAll key set ups a) = key a := by
  induction ups generalizing a with
  | nil => rfl
  | cons up ups ih => rw [updateAll_cons, ih, key_update hkey]

/-- An item with an update has what one of those with its key sets, and nothing of the
others. -/
theorem exists_updateAll_eq (hset : ∀ v w a, set v (set w a) = set v a)
    (h : ∃ up ∈ ups, up.1 = key a) :
    ∃ up ∈ ups, up.1 = key a ∧ updateAll key set ups a = set up.2 a := by
  induction ups generalizing a with
  | nil =>
      obtain ⟨up, hmem, -⟩ := h
      cases hmem
  | cons up ups ih =>
      by_cases hlater : ∃ up' ∈ ups, up'.1 = key a
      · have hkept : key (update key set up a) = key a := key_update hkey
        rw [← hkept] at hlater
        obtain ⟨up', hmem, hname, hup'⟩ := ih hlater
        rw [hkept] at hname
        refine ⟨up', List.mem_cons_of_mem _ hmem, hname, ?_⟩
        rw [updateAll_cons, hup']
        by_cases hup : up.1 = key a
        · rw [update_of_eq hup, hset]
        · rw [update_of_ne hup]
      · have hup : up.1 = key a := by
          obtain ⟨up', hmem, hname⟩ := h
          rcases List.mem_cons.mp hmem with rfl | hmem
          · exact hname
          · exact absurd ⟨up', hmem, hname⟩ hlater
        refine ⟨up, List.mem_cons_self, hup, ?_⟩
        rw [updateAll_cons, update_of_eq hup]
        apply updateAll_of_forall_ne
        intro up' hmem hname
        apply hlater
        exact ⟨up', hmem, by rw [hname, hkey]⟩

end Keys

/-- An update of a key that no item has leaves all items unchanged. -/
theorem map_update_of_forall_ne (h : ∀ a ∈ items, key a ≠ up.1) :
    items.map (update key set up) = items := by
  have hkept : items.map (update key set up) = items.map id :=
    List.map_congr_left fun a ha => update_of_ne (h a ha).symm
  rw [hkept, List.map_id]

/-- Where keys are distinct, the item in one place is the one with its key. -/
theorem modify_eq_map (hdistinct : items.Pairwise fun a b => key a ≠ key b)
    (h : items[i]? = some a) :
    items.modify i (set v) = items.map (update key set (key a, v)) := by
  induction items generalizing i with
  | nil => cases h
  | cons b items ih =>
      obtain ⟨hfirst, hrest⟩ := List.pairwise_cons.mp hdistinct
      cases i with
      | zero =>
          obtain rfl : b = a := Option.some.inj h
          have hothers : items.map (update key set (key b, v)) = items :=
            map_update_of_forall_ne fun c hc => (hfirst c hc).symm
          have hfound : update key set (key b, v) b = set v b := update_of_eq rfl
          rw [List.map_cons, hothers, hfound]
          rfl
      | succ i =>
          have hmem : a ∈ items := List.mem_of_getElem? h
          have hkept : update key set (key a, v) b = b := update_of_ne (hfirst a hmem).symm
          rw [List.map_cons, hkept, ← ih hrest h]
          rfl

end KeyedUpdates

import Mathlib.Data.Finset.Card
import Mathlib.Tactic

/-!
# Sets that remember the order of insertion

The elements of such a set are told apart by a key.  One whose key is new goes behind all
others, one whose key is there already changes nothing, and an element that is taken out
leaves the order of the others alone.
-/

namespace InsertionOrder

variable {α κ : Type*}

/-- No two elements have the same key. -/
def Distinct (key : α → κ) (xs : List α) : Prop :=
  (xs.map key).Nodup

section Insert

variable [DecidableEq κ]

/-- The keys as a set. -/
def keys (key : α → κ) (xs : List α) : Finset κ :=
  (xs.map key).toFinset

/-- Appends an element, unless its key is in the list. -/
def insert (key : α → κ) (xs : List α) (x : α) : List α :=
  if key x ∈ xs.map key then xs else xs ++ [x]

variable {key : α → κ} {xs : List α} {x : α}

@[simp] theorem mem_keys {k : κ} : k ∈ keys key xs ↔ k ∈ xs.map key :=
  List.mem_toFinset

theorem insert_of_mem (h : key x ∈ xs.map key) : insert key xs x = xs :=
  if_pos h

theorem insert_of_not_mem (h : key x ∉ xs.map key) : insert key xs x = xs ++ [x] :=
  if_neg h

theorem keys_insert : keys key (insert key xs x) = Insert.insert (key x) (keys key xs) := by
  by_cases hmem : key x ∈ xs.map key
  · rw [insert_of_mem hmem, Finset.insert_eq_of_mem (mem_keys.mpr hmem)]
  · rw [insert_of_not_mem hmem]
    ext k
    simp [or_comm]

/-- A list with distinct keys has as many elements as keys. -/
theorem Distinct.length_eq (h : Distinct key xs) : xs.length = (keys key xs).card := by
  rw [keys, List.toFinset_card_of_nodup h, List.length_map]

theorem Distinct.insert (h : Distinct key xs) : Distinct key (insert key xs x) := by
  by_cases hmem : key x ∈ xs.map key
  · rwa [insert_of_mem hmem]
  · rw [insert_of_not_mem hmem, Distinct, List.map_append, List.map_singleton]
    exact h.append (List.nodup_singleton _) (List.disjoint_singleton.mpr hmem)

end Insert

section Erase

variable [DecidableEq α] {key : α → κ} {xs : List α} {x : α}

theorem Distinct.erase (h : Distinct key xs) : Distinct key (xs.erase x) :=
  h.sublist (List.erase_sublist.map key)

/-- Erasing an element of a list with distinct keys erases its key. -/
theorem Distinct.keys_erase [DecidableEq κ] (h : Distinct key xs) (hx : x ∈ xs) :
    keys key (xs.erase x) = (keys key xs).erase (key x) := by
  have hperm : (xs.map key).Perm (key x :: (xs.erase x).map key) :=
    (List.perm_cons_erase hx).map key
  have hfresh : key x ∉ (xs.erase x).map key :=
    (List.nodup_cons.mp (hperm.nodup_iff.mp h)).1
  ext k
  rw [Finset.mem_erase, mem_keys, mem_keys, hperm.mem_iff, List.mem_cons]
  constructor
  · intro hk
    exact ⟨fun heq => hfresh (heq ▸ hk), Or.inr hk⟩
  · rintro ⟨hne, heq | hk⟩
    · exact absurd heq hne
    · exact hk

end Erase

/-! ## Runs -/

/-- An insertion or a deletion. -/
inductive Change (α : Type*) where
  | insert (x : α)
  | delete (x : α)

variable [DecidableEq α] [DecidableEq κ]

/-- The list after a change; only an element of it can be deleted. -/
def apply (key : α → κ) (xs : List α) : Change α → Option (List α)
  | .insert x => some (insert key xs x)
  | .delete x => if x ∈ xs then some (xs.erase x) else none

/-- One change after the other. -/
def run (key : α → κ) (xs : List α) (changes : List (Change α)) : Option (List α) :=
  changes.foldlM (apply key) xs

/-- The set of keys after a change. -/
def applyKeys (key : α → κ) (ks : Finset κ) : Change α → Finset κ
  | .insert x => Insert.insert (key x) ks
  | .delete x => ks.erase (key x)

variable {key : α → κ} {xs ys : List α}

@[simp] theorem run_nil : run key xs [] = some xs :=
  rfl

@[simp] theorem run_singleton {change : Change α} : run key xs [change] = apply key xs change :=
  bind_pure _

theorem run_append {before after : List (Change α)} :
    run key xs (before ++ after) = (run key xs before).bind fun ys => run key ys after :=
  List.foldlM_append

theorem Distinct.apply {change : Change α} (h : Distinct key xs)
    (happly : apply key xs change = some ys) :
    Distinct key ys ∧ keys key ys = applyKeys key (keys key xs) change := by
  cases change with
  | insert x =>
      obtain rfl := Option.some.inj happly
      exact ⟨h.insert, keys_insert⟩
  | delete x =>
      obtain ⟨hx, hys⟩ := Option.ite_none_right_eq_some.mp happly
      obtain rfl := Option.some.inj hys
      exact ⟨h.erase, h.keys_erase hx⟩

/-- The keys go through the same changes as the elements. -/
theorem Distinct.run {changes : List (Change α)} (h : Distinct key xs)
    (hrun : run key xs changes = some ys) :
    keys key ys = changes.foldl (applyKeys key) (keys key xs) := by
  induction changes generalizing xs with
  | nil =>
      obtain rfl := Option.some.inj hrun
      rfl
  | cons change changes ih =>
      rw [InsertionOrder.run, List.foldlM_cons] at hrun
      obtain ⟨zs, hzs, hrun⟩ := Option.bind_eq_some_iff.mp hrun
      obtain ⟨hdistinct, hkeys⟩ := h.apply hzs
      rw [List.foldl_cons, ← hkeys]
      exact ih hdistinct hrun

end InsertionOrder

import Mathlib.Tactic

/-!
# Lists with separators

The first and the last place of an element in a list, for lists that are put together
around it, and parts that are joined by a separator or each ended by it.
-/

namespace Delimited

variable {α : Type*} {x sep : α} {front t : List α} {part : List α}
  {parts others : List (List α)}

section First

variable [DecidableEq α]

/-- The first place of `x` is after a front that does not contain it. -/
theorem idxOf?_append (h : x ∉ front) : (front ++ x :: t).idxOf? x = some front.length := by
  induction front with
  | nil => simp [List.idxOf?_cons]
  | cons a front ih =>
      obtain ⟨hne, hnot⟩ := List.ne_and_not_mem_of_not_mem_cons h
      have ha : (a == x) = false := beq_false_of_ne hne.symm
      rw [List.cons_append, List.idxOf?_cons, ha, ih hnot]
      rfl

/-- An element that does not occur in the front is found behind it. -/
theorem idxOf?_append_of_not_mem (h : x ∉ front) :
    (front ++ t).idxOf? x = (t.idxOf? x).map (front.length + ·) := by
  induction front with
  | nil => simp
  | cons a front ih =>
      obtain ⟨hne, hnot⟩ := List.ne_and_not_mem_of_not_mem_cons h
      have ha : (a == x) = false := beq_false_of_ne hne.symm
      rw [List.cons_append, List.idxOf?_cons, ha, ih hnot]
      cases t.idxOf? x with
      | none => rfl
      | some i =>
          simp only [Option.map_some, Bool.false_eq_true, if_false, List.length_cons]
          congr 1
          omega

/-- A list that contains `x` splits at its first place. -/
theorem exists_append_of_mem (h : x ∈ t) : ∃ u v, t = u ++ x :: v ∧ x ∉ u := by
  induction t with
  | nil => cases h
  | cons a t ih =>
      by_cases ha : x = a
      · exact ⟨[], t, by rw [ha]; rfl, by simp⟩
      · obtain ⟨u, v, rfl, hnot⟩ := ih ((List.mem_cons.mp h).resolve_left ha)
        exact ⟨a :: u, v, rfl, by simp [ha, hnot]⟩

/-- The last place of an element. -/
def lastIdxOf? (x : α) (l : List α) : Option ℕ := (l.reverse.idxOf? x).map (l.length - 1 - ·)

/-- The last place of `x` is before a rest that does not contain it. -/
theorem lastIdxOf?_append (h : x ∉ t) : lastIdxOf? x (front ++ x :: t) = some front.length := by
  have hlist : (front ++ x :: t).reverse = t.reverse ++ x :: front.reverse := by simp
  have hnot : x ∉ t.reverse := fun hmem => h (List.mem_reverse.mp hmem)
  have hplace : front.length + (t.length + 1) - 1 - t.length = front.length := by omega
  rw [lastIdxOf?, hlist, idxOf?_append hnot, Option.map_some, List.length_reverse,
    List.length_append, List.length_cons, hplace]

/-- A list that contains `x` splits at its last place. -/
theorem exists_append_of_mem_last (h : x ∈ t) : ∃ u v, t = u ++ x :: v ∧ x ∉ v := by
  obtain ⟨u, v, hlist, hnot⟩ := exists_append_of_mem (List.mem_reverse.mpr h)
  refine ⟨v.reverse, u.reverse, ?_, fun hmem => hnot (List.mem_reverse.mp hmem)⟩
  rw [← List.reverse_reverse t, hlist]
  simp

end First

/-! ## Joined parts -/

/-- Parts, with a separator between them. -/
def joined (sep : α) (parts : List (List α)) : List α := [sep].intercalate parts

@[simp] theorem joined_singleton : joined sep [part] = part := List.intercalate_singleton

theorem joined_cons (h : parts ≠ []) :
    joined sep (part :: parts) = part ++ sep :: joined sep parts := by
  unfold joined
  rw [List.intercalate_cons_of_ne_nil h, List.append_assoc]
  rfl

theorem joined_append (h : parts ≠ []) (h' : others ≠ []) :
    joined sep (parts ++ others) = joined sep parts ++ sep :: joined sep others := by
  induction parts with
  | nil => exact absurd rfl h
  | cons part parts ih =>
      cases parts with
      | nil => rw [List.singleton_append, joined_cons h', joined_singleton]
      | cons next parts =>
          rw [List.cons_append, joined_cons (by simp), joined_cons (by simp),
            ih (List.cons_ne_nil _ _), List.append_assoc]
          rfl

/-- Every element of the joined list is a separator or one of its parts. -/
theorem forall_mem_joined {P : α → Prop} (hsep : P sep) (h : ∀ part ∈ parts, ∀ a ∈ part, P a) :
    ∀ a ∈ joined sep parts, P a := by
  induction parts with
  | nil => simp [joined]
  | cons part parts ih =>
      obtain ⟨hpart, hparts⟩ := List.forall_mem_cons.mp h
      cases parts with
      | nil => rwa [joined_singleton]
      | cons next parts =>
          rw [joined_cons (List.cons_ne_nil _ _)]
          intro a ha
          rcases List.mem_append.mp ha with hmem | hmem
          · exact hpart a hmem
          · rcases List.mem_cons.mp hmem with rfl | hmem
            · exact hsep
            · exact ih hparts a hmem

theorem joined_eq_nil_iff (hne : parts ≠ []) : joined sep parts = [] ↔ parts = [[]] := by
  cases parts with
  | nil => exact absurd rfl hne
  | cons part parts =>
      cases parts with
      | nil => simp
      | cons next parts =>
          rw [joined_cons (List.cons_ne_nil _ _)]
          simp

theorem splitOn_joined [DecidableEq α] (hne : parts ≠ []) (h : ∀ part ∈ parts, sep ∉ part) :
    (joined sep parts).splitOn sep = parts :=
  List.splitOn_intercalate sep h hne

/-! ## Ended parts -/

/-- Parts, each with the separator behind it, and what comes last. -/
def ended (sep : α) (parts : List (List α)) (last : List α) : List α :=
  (parts.map (· ++ [sep])).flatten ++ last

variable {last : List α}

@[simp] theorem ended_nil : ended sep [] last = last := rfl

theorem ended_cons : ended sep (part :: parts) last = part ++ sep :: ended sep parts last := by
  simp [ended]

section Split

variable [DecidableEq α]

theorem splitOn_ended (h : ∀ part ∈ parts, sep ∉ part) (hlast : sep ∉ last) :
    (ended sep parts last).splitOn sep = parts ++ [last] := by
  induction parts with
  | nil => exact List.splitOn_eq_singleton hlast
  | cons part parts ih =>
      obtain ⟨hpart, hparts⟩ := List.forall_mem_cons.mp h
      rw [ended_cons, List.splitOn_append_cons_self_of_not_mem hpart, ih hparts]
      rfl

/-- Every list is made of ended parts and a last one. -/
theorem exists_ended (sep : α) (l : List α) :
    ∃ parts last, l = ended sep parts last ∧ (∀ part ∈ parts, sep ∉ part) ∧ sep ∉ last := by
  by_cases hmem : sep ∈ l
  · obtain ⟨part, rest, hl, hpart⟩ := exists_append_of_mem hmem
    have hshort : rest.length < l.length := by
      rw [hl, List.length_append, List.length_cons]
      omega
    obtain ⟨parts, last, hrest, hparts, hlast⟩ := exists_ended sep rest
    refine ⟨part :: parts, last, ?_, List.forall_mem_cons.mpr ⟨hpart, hparts⟩, hlast⟩
    rw [hl, hrest, ended_cons]
  · exact ⟨[], l, rfl, by simp, hmem⟩
termination_by l.length

end Split

end Delimited

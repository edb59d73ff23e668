import Mathlib.Logic.Relation
import Mathlib.Order.WellFoundedSet

/-!
# Walks that call themselves

A function that walks a graph makes a call for each of the nodes that the node at
hand refers to, and returns once all of these have returned.  With a bound on the
depth of the calls it is a total function; it returns at some depth exactly when
the node is accessible, and where only finitely many nodes are referred to, that
is when no cycle can be reached.
-/

namespace Walk

variable {α : Type*} {next : α → List α} {a b : α} {n : ℕ}

/-- The walk from `a` returns with calls of depth `n`. -/
def Within (next : α → List α) : ℕ → α → Prop
  | 0, _ => False
  | n + 1, a => ∀ b ∈ next a, Within next n b

/-- `a` refers to `b`. -/
abbrev Refers (next : α → List α) (a b : α) : Prop := b ∈ next a

/-- The references from `a` lead to a node on a cycle. -/
def Cyclic (next : α → List α) (a : α) : Prop :=
  ∃ b, Relation.ReflTransGen (Refers next) a b ∧ Relation.TransGen (Refers next) b b

@[simp] theorem not_within_zero : ¬Within next 0 a := id

theorem within_succ : Within next (n + 1) a ↔ ∀ b ∈ next a, Within next n b :=
  Iff.rfl

theorem Within.succ (h : Within next n a) : Within next (n + 1) a := by
  induction n generalizing a with
  | zero => exact absurd h not_within_zero
  | succ n ih => exact fun b hb => ih (h b hb)

theorem Within.mono {m : ℕ} (h : Within next n a) (hle : n ≤ m) : Within next m a := by
  induction hle with
  | refl => exact h
  | step _ ih => exact ih.succ

/-- If the walks from all nodes of a list return, they return within one depth. -/
theorem exists_within {nodes : List α} (h : ∀ b ∈ nodes, ∃ n, Within next n b) :
    ∃ n, ∀ b ∈ nodes, Within next n b := by
  induction nodes with
  | nil => exact ⟨0, by simp⟩
  | cons b nodes ih =>
      obtain ⟨n, hn⟩ := h b (by simp)
      obtain ⟨m, hm⟩ := ih fun c hc => h c (by simp [hc])
      refine ⟨max n m, fun c hc => ?_⟩
      rcases List.mem_cons.mp hc with rfl | hc
      · exact hn.mono (le_max_left _ _)
      · exact (hm c hc).mono (le_max_right _ _)

/-- The walk returns exactly from the accessible nodes. -/
theorem exists_within_iff_acc :
    (∃ n, Within next n a) ↔ Acc (fun b a => Refers next a b) a := by
  constructor
  · rintro ⟨n, h⟩
    induction n generalizing a with
    | zero => exact absurd h not_within_zero
    | succ n ih => exact Acc.intro a fun b hb => ih (h b hb)
  · intro h
    induction h with
    | intro a _ ih =>
        obtain ⟨n, hn⟩ := exists_within ih
        exact ⟨n + 1, hn⟩

/-! ## Cycles -/

theorem not_acc_of_cyclic (h : Cyclic next a) : ¬Acc (fun b a => Refers next a b) a := by
  intro hacc
  induction hacc with
  | intro a _ ih =>
      obtain ⟨b, hreach, hcycle⟩ := h
      rcases Relation.ReflTransGen.cases_head hreach with rfl | ⟨c, hac, hcb⟩
      · obtain ⟨c, hac, hca⟩ := Relation.TransGen.head'_iff.mp hcycle
        refine ih c hac ⟨c, Relation.ReflTransGen.refl, ?_⟩
        exact Relation.TransGen.tail' hca hac
      · exact ih c hac ⟨b, hcb, hcycle⟩

theorem not_exists_within (h : Cyclic next a) : ¬∃ n, Within next n a :=
  fun hret => not_acc_of_cyclic h (exists_within_iff_acc.mp hret)

/-- Two nodes that refer to each other are on a cycle. -/
theorem Cyclic.of_mutual (hab : b ∈ next a) (hba : a ∈ next b) : Cyclic next a :=
  ⟨a, Relation.ReflTransGen.refl, Relation.TransGen.head hab (Relation.TransGen.single hba)⟩

/-- Where only finitely many nodes can be reached, nothing but a cycle keeps a walk
from returning. -/
theorem acc_of_not_cyclic {nodes : Set α} (hfin : nodes.Finite) (ha : a ∈ nodes)
    (hclosed : ∀ b ∈ nodes, ∀ c ∈ next b, c ∈ nodes) (h : ¬Cyclic next a) :
    Acc (fun b a => Refers next a b) a := by
  let later := fun x y : α =>
    Relation.ReflTransGen (Refers next) a y ∧ Relation.TransGen (Refers next) y x
  have hirrefl : ∀ x, ¬later x x := fun x hx => h ⟨x, hx⟩
  have htrans : ∀ x y z, later x y → later y z → later x z :=
    fun x y z hxy hyz => ⟨hyz.1, hyz.2.trans hxy.2⟩
  have horder : IsStrictOrder α later := { irrefl := hirrefl, trans := htrans }
  have hwf := Set.wellFoundedOn_iff.mp (hfin.wellFoundedOn (r := later))
  have hacc : ∀ b, Relation.ReflTransGen (Refers next) a b → b ∈ nodes →
      Acc (fun b a => Refers next a b) b := by
    intro b
    induction b using hwf.induction with
    | _ b ih =>
        intro hreach hb
        refine Acc.intro b fun c hc => ?_
        have hmem := hclosed b hb c hc
        exact ih c ⟨⟨hreach, Relation.TransGen.single hc⟩, hmem, hb⟩ (hreach.tail hc) hmem
  exact hacc a Relation.ReflTransGen.refl ha

/-- A walk over finitely many nodes returns if and only if it cannot reach a cycle. -/
theorem exists_within_iff {nodes : Set α} (hfin : nodes.Finite) (ha : a ∈ nodes)
    (hclosed : ∀ b ∈ nodes, ∀ c ∈ next b, c ∈ nodes) :
    (∃ n, Within next n a) ↔ ¬Cyclic next a := by
  rw [exists_within_iff_acc]
  exact ⟨fun hacc hcyc => not_acc_of_cyclic hcyc hacc,
    acc_of_not_cyclic hfin ha hclosed⟩

end Walk

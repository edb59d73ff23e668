import Mathlib.Tactic
import Mathlib.Data.List.Perm.Basic

/-!
# Search trees with partial comparisons

Values are linked into a tree where a descent ends that compares them with the values on
the way.  A comparison may fail, and may be such that a value is linked although an equal
one is there, on the left of it.  Where the comparison agrees with an order, the tree
stays sorted and a descent comes past an equal value if there is one.
-/

/-- A tree with the colours that a balancing scheme goes by. -/
inductive SearchTree (α : Type*) where
  | leaf
  | node (red : Bool) (left : SearchTree α) (value : α) (right : SearchTree α)

namespace SearchTree

variable {α : Type*}

/-- The values from left to right. -/
def inorder : SearchTree α → List α
  | .leaf => []
  | .node _ left value right => left.inorder ++ value :: right.inorder

/-- Descends for a new value, which `compare` tells how a value of the tree compares to:
the values that have been passed, and the tree with the new value unless an equal one has
been met.  There is no result when a comparison fails. -/
def link (compare : α → Option Ordering) (x : α) :
    SearchTree α → Option (List α × Option (SearchTree α))
  | .leaf => some ([], some (.node true .leaf x .leaf))
  | .node red left value right =>
      match compare value with
      | none => none
      | some .gt =>
          (left.link compare x).map fun r =>
            (value :: r.1, r.2.map fun left => .node red left value right)
      | some .lt =>
          (right.link compare x).map fun r =>
            (value :: r.1, r.2.map fun right => .node red left value right)
      | some .eq => some ([value], none)

section Order

variable {order : α → α → Ordering} {dup : α → Bool} {x : α} {t : SearchTree α}

/-- How a value of the tree compares to a new one, when equal values are only met where
they are duplicates. -/
def probe (order : α → α → Ordering) (dup : α → Bool) (x value : α) : Ordering :=
  match order value x with
  | .eq => if dup value then .eq else .gt
  | other => other

/-- No value is below one before it. -/
def Sorted (order : α → α → Ordering) (xs : List α) : Prop :=
  xs.Pairwise fun a b => order b a ≠ .lt

/-- The result of a descent for `x`: it has met values of the tree only, and an equal one if
there is any; it ends at an equal value that is `dup`, or links `x` behind all values below it
and before all others. -/
structure Linked (order : α → α → Ordering) (dup : α → Bool) (x : α) (values : List α)
    (path : List α) (result : Option (SearchTree α)) : Prop where
  path_mem : ∀ v ∈ path, v ∈ values
  path_eq : (∃ v ∈ values, order v x = .eq) → ∃ v ∈ path, order v x = .eq
  found : result = none → ∃ v ∈ values, order v x = .eq ∧ dup v = true
  linked : ∀ t, result = some t → (∀ v ∈ values, order v x = .eq → dup v = false) ∧
    ∃ before after, values = before ++ after ∧ t.inorder = before ++ x :: after ∧
      (∀ v ∈ before, order v x = .lt) ∧ ∀ v ∈ after, order v x ≠ .lt

variable {values path : List α} {result : Option (SearchTree α)}

theorem Linked.perm (h : Linked order dup x values path result) (ht : result = some t) :
    t.inorder.Perm (x :: values) := by
  obtain ⟨-, before, after, rfl, hinorder, -, -⟩ := h.linked t ht
  rw [hinorder]
  exact List.perm_middle

/-- A descent in a leaf links the value there. -/
theorem linked_leaf :
    Linked order dup x (leaf : SearchTree α).inorder [] (some (.node true .leaf x .leaf)) where
  path_mem := by simp
  path_eq := by simp [inorder]
  found := by simp
  linked := by
    intro t ht
    obtain rfl := Option.some.inj ht
    exact ⟨by simp [inorder], [], [], rfl, rfl, by simp, by simp⟩

variable [Std.TransCmp order]

theorem lt_of_not_lt_of_lt {a b c : α} (hab : order b a ≠ .lt) (hbc : order b c = .lt) :
    order a c = .lt := by
  have hle : (order a b).isLE := by
    rw [@Std.OrientedCmp.eq_swap _ order]
    cases h : order b a <;> simp_all
  exact Std.TransCmp.lt_of_isLE_of_lt hle hbc

theorem not_lt_of_not_lt {a b c : α} (hab : order b a ≠ .lt) (hac : order a c ≠ .lt) :
    order b c ≠ .lt :=
  fun hbc => hac (lt_of_not_lt_of_lt hab hbc)

theorem gt_iff_lt {a b : α} : order a b = .gt ↔ order b a = .lt := by
  rw [@Std.OrientedCmp.eq_swap _ order]
  cases order b a <;> simp

theorem eq_comm_order {a b : α} (h : order a b = .eq) : order b a = .eq :=
  Std.OrientedCmp.eq_comm.mp h

/-- If the value of a node is not below `x`, the result in the left subtree is that in the node.
-/
theorem Linked.goLeft {red : Bool} {left right : SearchTree α} {value : α}
    (h : Linked order dup x left.inorder path result)
    (hvalueRight : ∀ v ∈ right.inorder, order v value ≠ .lt)
    (hdup : ∀ v ∈ (node red left value right).inorder, order v value = .eq → dup v = dup value)
    (hge : order value x ≠ .lt) (hnodup : order value x = .eq → dup value = false) :
    Linked order dup x (node red left value right).inorder (value :: path)
      (result.map fun left => .node red left value right) := by
  have hrightGe : ∀ v ∈ right.inorder, order v x ≠ .lt :=
    fun v hv => not_lt_of_not_lt (hvalueRight v hv) hge
  have hinLeft : order value x ≠ .eq → ∀ v ∈ (node red left value right).inorder,
      order v x = .eq → v ∈ left.inorder := by
    intro hvalue v hv heq
    rw [inorder, List.mem_append, List.mem_cons] at hv
    rcases hv with hv | rfl | hv
    · exact hv
    · exact absurd heq hvalue
    · have hlt : order x value = .lt := by
        rw [← gt_iff_lt]
        cases hcase : order value x <;> simp_all
      exact absurd (Std.TransCmp.lt_of_eq_of_lt heq hlt) (hvalueRight v hv)
  exact
    { path_mem := by
        intro v hv
        rcases List.mem_cons.mp hv with rfl | hv
        · simp [inorder]
        · simp [inorder, h.path_mem v hv]
      path_eq := by
        rintro ⟨v, hv, heq⟩
        by_cases hvalue : order value x = .eq
        · exact ⟨value, List.mem_cons_self, hvalue⟩
        · obtain ⟨w, hw, hweq⟩ := h.path_eq ⟨v, hinLeft hvalue v hv heq, heq⟩
          exact ⟨w, List.mem_cons_of_mem _ hw, hweq⟩
      found := by
        intro hnone
        obtain ⟨v, hv, heq, hd⟩ := h.found (Option.map_eq_none_iff.mp hnone)
        exact ⟨v, by simp [inorder, hv], heq, hd⟩
      linked := by
        intro t ht
        obtain ⟨left', hleft', rfl⟩ := Option.map_eq_some_iff.mp ht
        obtain ⟨hnone, before, after, hvalues, hlinked, hbefore, hafter⟩ := h.linked left' hleft'
        refine ⟨?_, before, after ++ value :: right.inorder, ?_, ?_, hbefore, ?_⟩
        · intro v hv heq
          by_cases hvalue : order value x = .eq
          · rw [hdup v hv (Std.TransCmp.eq_trans heq (eq_comm_order hvalue))]
            exact hnodup hvalue
          · exact hnone v (hinLeft hvalue v hv heq) heq
        · rw [inorder, hvalues, List.append_assoc]
        · rw [inorder, hlinked]
          simp
        · intro v hv
          rw [List.mem_append, List.mem_cons] at hv
          rcases hv with hv | rfl | hv
          · exact hafter v hv
          · exact hge
          · exact hrightGe v hv }

/-- If the value of a node is below `x`, the result in the right subtree is that in the node. -/
theorem Linked.goRight {red : Bool} {left right : SearchTree α} {value : α}
    (h : Linked order dup x right.inorder path result)
    (hleftValue : ∀ v ∈ left.inorder, order value v ≠ .lt) (hlt : order value x = .lt) :
    Linked order dup x (node red left value right).inorder (value :: path)
      (result.map fun right => .node red left value right) := by
  have hleftLt : ∀ v ∈ left.inorder, order v x = .lt :=
    fun v hv => lt_of_not_lt_of_lt (hleftValue v hv) hlt
  have hinRight : ∀ v ∈ (node red left value right).inorder,
      order v x = .eq → v ∈ right.inorder := by
    intro v hv heq
    rw [inorder, List.mem_append, List.mem_cons] at hv
    rcases hv with hv | rfl | hv
    · exact absurd (hleftLt v hv) (by simp [heq])
    · exact absurd hlt (by simp [heq])
    · exact hv
  exact
    { path_mem := by
        intro v hv
        rcases List.mem_cons.mp hv with rfl | hv
        · simp [inorder]
        · simp [inorder, h.path_mem v hv]
      path_eq := by
        rintro ⟨v, hv, heq⟩
        obtain ⟨w, hw, hweq⟩ := h.path_eq ⟨v, hinRight v hv heq, heq⟩
        exact ⟨w, List.mem_cons_of_mem _ hw, hweq⟩
      found := by
        intro hnone
        obtain ⟨v, hv, heq, hd⟩ := h.found (Option.map_eq_none_iff.mp hnone)
        exact ⟨v, by simp [inorder, hv], heq, hd⟩
      linked := by
        intro t ht
        obtain ⟨right', hright', rfl⟩ := Option.map_eq_some_iff.mp ht
        obtain ⟨hnone, before, after, hvalues, hlinked, hbefore, hafter⟩ :=
          h.linked right' hright'
        refine ⟨fun v hv heq => hnone v (hinRight v hv heq) heq,
          left.inorder ++ value :: before, after, ?_, ?_, ?_, hafter⟩
        · rw [inorder, hvalues]
          simp
        · rw [inorder, hlinked]
          simp
        · intro v hv
          rw [List.mem_append, List.mem_cons] at hv
          rcases hv with hv | rfl | hv
          · exact hleftLt v hv
          · exact hlt
          · exact hbefore v hv }

/-- A descent in a sorted tree whose comparisons go by `probe` has a `Linked` result. -/
theorem link_spec {compare : α → Option Ordering} (hsorted : Sorted order t.inorder)
    (hdup : ∀ a ∈ t.inorder, ∀ b ∈ t.inorder, order a b = .eq → dup a = dup b)
    (hcompare : ∀ v ∈ t.inorder, compare v = some (probe order dup x v)) :
    ∃ path result, t.link compare x = some (path, result) ∧
      Linked order dup x t.inorder path result := by
  induction t with
  | leaf => exact ⟨[], _, rfl, linked_leaf⟩
  | node red left value right ihl ihr =>
      rw [inorder, Sorted, List.pairwise_append, List.pairwise_cons] at hsorted
      obtain ⟨hleft, ⟨hvalueRight, hright⟩, hcross⟩ := hsorted
      have hhere := hcompare value (by simp [inorder])
      obtain ⟨pathLeft, resultLeft, hlinkLeft, hspecLeft⟩ := ihl hleft
        (fun a ha b hb => hdup a (by simp [inorder, ha]) b (by simp [inorder, hb]))
        (fun v hv => hcompare v (by simp [inorder, hv]))
      obtain ⟨pathRight, resultRight, hlinkRight, hspecRight⟩ := ihr hright
        (fun a ha b hb => hdup a (by simp [inorder, ha]) b (by simp [inorder, hb]))
        (fun v hv => hcompare v (by simp [inorder, hv]))
      have hgoLeft : order value x ≠ .lt → probe order dup x value = .gt →
          (order value x = .eq → dup value = false) →
          ∃ path result, (SearchTree.node red left value right).link compare x =
              some (path, result) ∧
            Linked order dup x (SearchTree.node red left value right).inorder path result := by
        intro hge hgt hnodup
        rw [hgt] at hhere
        refine ⟨_, _, ?_, hspecLeft.goLeft hvalueRight
          (fun v hv => hdup v hv value (by simp [inorder])) hge hnodup⟩
        simp [link, hhere, hlinkLeft]
      cases hcase : order value x with
      | eq =>
          cases hd : dup value with
          | true =>
              have hfound : compare value = some .eq := by
                rw [hhere]
                simp [probe, hcase, hd]
              refine ⟨[value], none, by simp [link, hfound], ?_⟩
              exact
                { path_mem := by simp [inorder]
                  path_eq := fun _ => ⟨value, List.mem_cons_self, hcase⟩
                  found := fun _ => ⟨value, by simp [inorder], hcase, hd⟩
                  linked := by simp }
          | false => exact hgoLeft (by simp [hcase]) (by simp [probe, hcase, hd]) fun _ => hd
      | gt =>
          exact hgoLeft (by simp [hcase]) (by simp [probe, hcase]) fun h => by simp [hcase] at h
      | lt =>
          have hlt : compare value = some .lt := by
            rw [hhere]
            simp [probe, hcase]
          refine ⟨_, _, ?_, hspecRight.goRight
            (fun v hv => hcross v hv value List.mem_cons_self) hcase⟩
          simp [link, hlt, hlinkRight]

/-- Linking a value into a sorted tree leaves it sorted. -/
theorem Linked.sorted (h : Linked order dup x values path result) (hsorted : Sorted order values)
    (ht : result = some t) : Sorted order t.inorder := by
  obtain ⟨-, before, after, rfl, hinorder, hbefore, hafter⟩ := h.linked t ht
  rw [Sorted, List.pairwise_append] at hsorted
  obtain ⟨hb, ha, hcross⟩ := hsorted
  rw [hinorder, Sorted, List.pairwise_append, List.pairwise_cons]
  refine ⟨hb, ⟨hafter, ha⟩, fun v hv w hw => ?_⟩
  rcases List.mem_cons.mp hw with rfl | hw
  · intro hlt
    have hvw := hbefore v hv
    rw [← gt_iff_lt, hvw] at hlt
    exact absurd hlt (by simp)
  · exact hcross v hv w hw

/-! ## Strictly sorted lists -/

/-- Every value is below those after it. -/
def Ascending (order : α → α → Ordering) (xs : List α) : Prop :=
  xs.Pairwise fun a b => order a b = .lt

theorem ascending_of_sorted {xs : List α} (hsorted : Sorted order xs)
    (hne : xs.Pairwise fun a b => order a b ≠ .eq) : Ascending order xs := by
  refine (hsorted.and hne).imp fun {a b} h => ?_
  cases hcase : order a b with
  | lt => rfl
  | eq => exact absurd hcase h.2
  | gt => exact absurd (gt_iff_lt.mp hcase) h.1

/-- Two ascending lists of equal values, as seen by a function that equal values agree
on, are the same. -/
theorem Ascending.map_eq {β : Type*} {f : α → β} {xs ys : List α} (hx : Ascending order xs)
    (hy : Ascending order ys) (hxy : ∀ a ∈ xs, ∃ b ∈ ys, order a b = .eq)
    (hyx : ∀ b ∈ ys, ∃ a ∈ xs, order a b = .eq)
    (hf : ∀ a ∈ xs, ∀ b ∈ ys, order a b = .eq → f a = f b) : xs.map f = ys.map f := by
  induction xs generalizing ys with
  | nil =>
      cases ys with
      | nil => rfl
      | cons b ys =>
          obtain ⟨a, ha, -⟩ := hyx b List.mem_cons_self
          simp at ha
  | cons a xs ih =>
      cases ys with
      | nil =>
          obtain ⟨b, hb, -⟩ := hxy a List.mem_cons_self
          simp at hb
      | cons b ys =>
          rw [Ascending, List.pairwise_cons] at hx hy
          have hheads : order a b = .eq := by
            obtain ⟨b', hb', hab'⟩ := hxy a List.mem_cons_self
            rcases List.mem_cons.mp hb' with rfl | hb'
            · exact hab'
            · obtain ⟨a', ha', ha'b⟩ := hyx b List.mem_cons_self
              rcases List.mem_cons.mp ha' with rfl | ha'
              · exact ha'b
              · have hba : order b a = .lt :=
                  Std.TransCmp.lt_of_lt_of_eq (hy.1 b' hb') (eq_comm_order hab')
                have hab : order a b = .lt := Std.TransCmp.lt_of_lt_of_eq (hx.1 a' ha') ha'b
                rw [← gt_iff_lt, hab] at hba
                exact absurd hba (by simp)
          have hrest : xs.map f = ys.map f := by
            refine ih hx.2 hy.2 (fun c hc => ?_) (fun c hc => ?_) fun c hc d hd =>
              hf c (List.mem_cons_of_mem _ hc) d (List.mem_cons_of_mem _ hd)
            · obtain ⟨d, hd, hcd⟩ := hxy c (List.mem_cons_of_mem _ hc)
              rcases List.mem_cons.mp hd with rfl | hd
              · have hac := hx.1 c hc
                rw [Std.TransCmp.eq_trans hheads (eq_comm_order hcd)] at hac
                exact absurd hac (by simp)
              · exact ⟨d, hd, hcd⟩
            · obtain ⟨d, hd, hdc⟩ := hyx c (List.mem_cons_of_mem _ hc)
              rcases List.mem_cons.mp hd with rfl | hd
              · have hbc := hy.1 c hc
                rw [Std.TransCmp.eq_trans (eq_comm_order hheads) hdc] at hbc
                exact absurd hbc (by simp)
              · exact ⟨d, hd, hdc⟩
          rw [List.map_cons, List.map_cons, hrest,
            hf a List.mem_cons_self b List.mem_cons_self hheads]

/-! ## Trees without duplicates -/

theorem Linked.ascending (h : Linked order (fun _ => true) x values path result)
    (hasc : Ascending order values) (hsorted : Sorted order values) (ht : result = some t) :
    Ascending order t.inorder := by
  refine ascending_of_sorted (h.sorted hsorted ht) ?_
  have hfresh : ∀ v ∈ values, order v x ≠ .eq :=
    fun v hv heq => absurd ((h.linked t ht).1 v hv heq) (by simp)
  have hpair : (x :: values).Pairwise fun a b => order a b ≠ .eq := by
    refine List.pairwise_cons.mpr ⟨fun v hv heq => hfresh v hv (eq_comm_order heq), ?_⟩
    exact hasc.imp fun hlt heq => absurd (hlt.symm.trans heq) (by simp)
  exact ((h.perm ht).pairwise_iff fun {_ _} hne heq => hne (eq_comm_order heq)).mpr hpair

/-- An ascending list is sorted. -/
theorem Ascending.sorted {xs : List α} (h : Ascending order xs) : Sorted order xs :=
  h.imp fun hlt hgt => by
    rw [← gt_iff_lt, hlt] at hgt
    exact absurd hgt (by simp)

end Order

/-- Links a value and balances the tree, unless the comparison finds an equal one. -/
def insert (balance : SearchTree α → SearchTree α) (compare : α → α → Option Ordering)
    (t : SearchTree α) (x : α) : Option (SearchTree α) :=
  match t.link (fun v => compare v x) x with
  | none => none
  | some (_, none) => some t
  | some (_, some linked) => some (balance linked)

/-- Inserts values one after the other. -/
def insertAll (balance : SearchTree α → SearchTree α) (compare : α → α → Option Ordering) :
    SearchTree α → List α → Option (SearchTree α)
  | t, [] => some t
  | t, x :: xs => (insert balance compare t x).bind fun t => insertAll balance compare t xs

section Insert

variable {order : α → α → Ordering} [Std.TransCmp order] {compare : α → α → Option Ordering}
  {balance : SearchTree α → SearchTree α}

/-- After inserting all values the tree is in ascending order and has one value for each class
of equal ones. -/
theorem insertAll_spec (hbalance : ∀ t, (balance t).inorder = t.inorder)
    {xs : List α} {t : SearchTree α} (hasc : Ascending order t.inorder)
    (htree : ∀ v ∈ t.inorder, ∀ x ∈ xs, compare v x = some (order v x))
    (hxs : xs.Pairwise fun v x => compare v x = some (order v x)) :
    ∃ t', insertAll balance compare t xs = some t' ∧ Ascending order t'.inorder ∧
      (∀ v ∈ t'.inorder, v ∈ t.inorder ++ xs) ∧
      ∀ x ∈ t.inorder ++ xs, ∃ v ∈ t'.inorder, order v x = .eq := by
  induction xs generalizing t with
  | nil =>
      refine ⟨t, rfl, hasc, by simp, fun x hx => ⟨x, by simpa using hx, ?_⟩⟩
      exact Std.ReflCmp.compare_self
  | cons x xs ih =>
      rw [List.pairwise_cons] at hxs
      have hprobe : ∀ v ∈ t.inorder,
          (fun v => compare v x) v = some (probe order (fun _ => true) x v) := by
        intro v hv
        have hv' := htree v hv x List.mem_cons_self
        cases hcase : order v x <;> simp [probe, hcase, hv']
      obtain ⟨path, result, hlink, hspec⟩ := link_spec hasc.sorted (fun _ _ _ _ _ => rfl) hprobe
      obtain ⟨t₁, ht₁, hasc₁, hmem₁, hkeep₁, v₁, hv₁, heq₁⟩ : ∃ t₁,
          insert balance compare t x = some t₁ ∧ Ascending order t₁.inorder ∧
            (∀ v ∈ t₁.inorder, v ∈ t.inorder ∨ v = x) ∧ (∀ v ∈ t.inorder, v ∈ t₁.inorder) ∧
            ∃ v ∈ t₁.inorder, order v x = .eq := by
        cases result with
        | none =>
            obtain ⟨v, hv, heq, -⟩ := hspec.found rfl
            exact ⟨t, by simp [insert, hlink], hasc, fun v hv => Or.inl hv, fun v hv => hv,
              v, hv, heq⟩
        | some linked =>
            have hperm := hspec.perm rfl
            refine ⟨balance linked, by simp [insert, hlink], ?_, ?_, ?_, x, ?_, ?_⟩
            · rw [hbalance]
              exact hspec.ascending hasc hasc.sorted rfl
            · intro v hv
              rw [hbalance] at hv
              rcases List.mem_cons.mp (hperm.mem_iff.mp hv) with rfl | hv
              · exact Or.inr rfl
              · exact Or.inl hv
            · intro v hv
              rw [hbalance]
              exact hperm.mem_iff.mpr (List.mem_cons_of_mem _ hv)
            · rw [hbalance]
              exact hperm.mem_iff.mpr List.mem_cons_self
            · exact Std.ReflCmp.compare_self
      have htree₁ : ∀ v ∈ t₁.inorder, ∀ y ∈ xs, compare v y = some (order v y) := by
        intro v hv y hy
        rcases hmem₁ v hv with hv | rfl
        · exact htree v hv y (List.mem_cons_of_mem _ hy)
        · exact hxs.1 y hy
      obtain ⟨t', ht', hasc', hmem', hcover'⟩ := ih hasc₁ htree₁ hxs.2
      refine ⟨t', by simp [insertAll, ht₁, ht'], hasc', fun v hv => ?_, fun y hy => ?_⟩
      · rcases List.mem_append.mp (hmem' v hv) with hv | hv
        · rcases hmem₁ v hv with hv | rfl
          · exact List.mem_append_left _ hv
          · exact List.mem_append_right _ List.mem_cons_self
        · exact List.mem_append_right _ (List.mem_cons_of_mem _ hv)
      · rcases List.mem_append.mp hy with hy | hy
        · exact hcover' y (List.mem_append_left _ (hkeep₁ y hy))
        · rcases List.mem_cons.mp hy with rfl | hy
          · obtain ⟨v, hv, heq⟩ := hcover' v₁ (List.mem_append_left _ hv₁)
            exact ⟨v, hv, Std.TransCmp.eq_trans heq heq₁⟩
          · exact hcover' y (List.mem_append_right _ hy)

end Insert

end SearchTree
